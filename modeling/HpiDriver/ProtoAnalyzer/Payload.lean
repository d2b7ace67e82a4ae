import HpiDriver.ProtoAnalyzer.Layout
import HpiDriver.ProtoAnalyzer.RoundTrip

/-!
# Payloads of variable length

A payload is stored with `pa_set_buf` after its length was given to the length field, as the
senders of the driver protocol do. `pa_generate_protocol_data` takes a field of up to four bytes
from its number and not from its buffer, so it writes the payload exactly when it is longer than
four bytes or zero throughout, and no other field has more than four bytes
(`putsPayload_iff`).
-/

namespace HpiDriver

open Blocks BigEndian

/-- A format of byte fields in ascending order with distinct short names, in which `f` is a
variable-length field whose length field `t`, of one byte, comes before it. -/
structure PayloadFormat (specs : List FieldSpec) (t f : FieldSpec) : Prop where
  lenUnit : ∀ s ∈ specs, s.lenUnit = 8
  bitPos : ∀ s ∈ specs, s.bitPos = 0
  ascending : specs.Pairwise fun s s' => s.bytePos.toNat + s.len.toNat ≤ s'.bytePos.toNat
  names : (specs.map FieldSpec.name).Nodup
  short : ∀ s ∈ specs, s.name.chars.length < 10
  earlier : [t, f].Sublist specs
  index_t : t.index = none
  len_t : t.len = 1
  index_f : f.index = some t.name
  len_f : f.len = 0

/-- The numbers in the fields of a fresh analyzer when the length field `t` has been given `n`. -/
def lengthGiven (specs : List FieldSpec) (t : FieldSpec) (n : ℕ) :
    List (FieldSpec × FieldValue) :=
  specs.map fun s => (s, .int (if s = t then UInt32.ofNat n else 0))

/-- The places of the fields then. -/
def payloadSlots {specs : List FieldSpec} (i : Init specs) (env : Env) (t : FieldSpec) (n : ℕ) :
    List Slot :=
  layout (lengthGiven specs t n) (i.keys env)

/-- After the length of the payload was given to `t` and the payload to `f`, generating writes the
payload at the place of `f`. -/
def PutsPayload {specs : List FieldSpec} (i : Init specs) (env : Env) (uninit uninit' : ℕ → UInt8)
    (t f : FieldSpec) (payload : List UInt8) : Prop :=
  ∃ pa₀ pa₁ pa₂,
    paSetVariableLengthValue t.name.chars (UInt32.ofNat payload.length) uninit i.analyzer =
      some (0, pa₀) ∧
    paSetBuf f.name.chars payload uninit' pa₀ = some (0, pa₁) ∧
    paGenerateProtocolData env pa₁ = some (0, pa₂) ∧
    ∀ p ∈ payloadSlots i env t payload.length, p.spec = f →
      p.len = payload.length ∧ slice pa₂.protocolData p.pos payload.length = payload

/-! ## The places of byte fields -/

/-- The placed field `g` is where its slot says. -/
structure AtSlot (g : ProtoInfo) (p : Slot) : Prop where
  bytePos : g.bytePos.toNat = p.pos
  len : g.len.toNat = p.len

section Slots

variable {vals : List (FieldSpec × FieldValue)}

/-- The slots of byte fields are in the order of the format. -/
theorem layoutFrom_ascending {S : ℕ} {l : List ((FieldSpec × FieldValue) × Key)}
    (hu : ∀ e ∈ l, e.1.1.lenUnit = 8)
    (hasc : l.Pairwise fun e e' => e.1.1.bytePos.toNat + e.1.1.len.toNat ≤ e'.1.1.bytePos.toNat) :
    (layoutFrom vals S l).Pairwise fun p q => p.pos + p.len ≤ q.pos := by
  have hmoved : ∀ {l : List ((FieldSpec × FieldValue) × Key)} {S : ℕ},
      ∀ q ∈ layoutFrom vals S l, ∃ e ∈ l, q.spec = e.1.1 ∧ S ≤ q.moved := by
    intro l
    induction l with
    | nil => simp [layoutFrom]
    | cons e l ih =>
      intro S q hq
      rcases List.mem_cons.1 hq with rfl | hq
      · exact ⟨e, List.mem_cons_self, rfl, le_rfl⟩
      · obtain ⟨e', he', hs, hm⟩ := ih q hq
        exact ⟨e', List.mem_cons_of_mem _ he', hs, by omega⟩
  induction l generalizing S with
  | nil => exact .nil
  | cons e l ih =>
    obtain ⟨he, hu⟩ := List.forall_mem_cons.1 hu
    obtain ⟨hlt, hasc⟩ := List.pairwise_cons.1 hasc
    refine List.pairwise_cons.2 ⟨fun q hq => ?_, ih hu hasc⟩
    obtain ⟨e', he', hs, hm⟩ := hmoved q hq
    have hpos := hlt e' he'
    simp only [Slot.pos, Slot.len, hs]
    simp only [Slot.shift, he] at hm
    cases hd : lengthData vals e.2 with
    | none =>
      rw [hd] at hm
      dsimp only at hm ⊢
      omega
    | some n =>
      rw [hd] at hm
      simp only [show (8 : UInt8).toNat = 8 from rfl] at hm ⊢
      omega

/-- Byte fields are placed at their slots. -/
theorem place_atSlot {E : List (ProtoInfo × (FieldSpec × FieldValue) × Key)} {S : ℕ}
    (h : ∀ e ∈ E, e.1.bytePos = e.2.1.1.bytePos ∧ e.1.lenUnit = 8 ∧ e.2.1.1.lenUnit = 8 ∧
      (lengthData vals e.2.2 = none → e.1.len = e.2.1.1.len))
    (hle : ∀ p ∈ layoutFrom vals S (E.map Prod.snd), p.pos + p.len ≤ 255) :
    List.Forall₂ (fun g q => AtSlot g q.2 ∧ g = (q.1.1.shift (UInt8.ofNat q.2.moved)).resolve
        (lengthData vals q.1.2.2))
      (place (UInt8.ofNat S) (E.map fun e => (e.1, lengthData vals e.2.2)))
      (E.zip (layoutFrom vals S (E.map Prod.snd))) := by
  induction E generalizing S with
  | nil => exact .nil
  | cons e E ih =>
    obtain ⟨f, v, k⟩ := e
    obtain ⟨⟨hpos, hu, hus, hlen⟩, h⟩ := List.forall_mem_cons.1 h
    obtain ⟨hp, hle⟩ := List.forall_mem_cons.1 hle
    dsimp only at hpos hu hus hlen hp
    have hrest := ih h hle
    set p : Slot := ⟨v.1, v.2, lengthData vals k, S⟩
    have hbp := p.bytePos_pass (f := f) hpos (by omega)
    have hl := p.len_pass (f := f) hlen (by omega)
    have hshift := p.shiftBy_pass (f := f) (hu.trans hus.symm) (by omega)
    simp only [List.map_cons, place, layoutFrom, List.zip_cons_cons]
    refine .cons ⟨⟨hbp, hl⟩, rfl⟩ ?_
    rw [hshift, ← UInt8.ofNat_add]
    exact hrest

/-- What a slot is made of. -/
theorem slot_eq_of_mem_zip {A : List Addr} {l : List ((FieldSpec × FieldValue) × Key)} {S : ℕ}
    {q : (Addr × (FieldSpec × FieldValue) × Key) × Slot}
    (hq : q ∈ (A.zip l).zip (layoutFrom vals S l)) :
    q.2.spec = q.1.2.1.1 ∧ q.2.value = q.1.2.1.2 ∧ q.2.data = lengthData vals q.1.2.2 := by
  induction l generalizing A S with
  | nil => simp at hq
  | cons e l ih =>
    cases A with
    | nil => simp at hq
    | cons a A =>
      rcases List.mem_cons.1 hq with rfl | hq
      · exact ⟨rfl, rfl, rfl⟩
      · exact ih hq

end Slots

theorem forall₂_mem_right {α β : Type*} {R : α → β → Prop} {l : List α} {l' : List β}
    (h : List.Forall₂ R l l') {y : β} (hy : y ∈ l') : ∃ x ∈ l, R x y := by
  induction h with
  | nil => simp at hy
  | cons hx _ ih =>
    rcases List.mem_cons.1 hy with rfl | hy
    · exact ⟨_, List.mem_cons_self, hx⟩
    · obtain ⟨x, hxm, hxy⟩ := ih hy
      exact ⟨x, List.mem_cons_of_mem _ hxm, hxy⟩

/-- A field that cannot be written stops the writing. -/
theorem writeFields_eq_none {env : Env} {fs : List ProtoInfo} {g : ProtoInfo} (hg : g ∈ fs)
    (h : ∀ dp, paSetProtocolField env g g.bytePos dp = none) (dp : List UInt8) :
    writeFields env fs dp = none := by
  obtain ⟨pre, post, rfl⟩ := List.append_of_mem hg
  simp only [writeFields, List.foldlM_append, List.foldlM_cons, h, Option.bind_eq_bind,
    Option.bind_none, Option.bind_fun_none]

/-! ## Storing the payload -/

/-- A field after the length of the payload and the payload have been stored. -/
structure Stored (t f : FieldSpec) (payload : List UInt8) (s : FieldSpec) (g : ProtoInfo) :
    Prop where
  bytePos : g.bytePos = s.bytePos
  bitPos : g.bitPos = s.bitPos
  len : g.len = s.len
  lenUnit : g.lenUnit = s.lenUnit
  vlenthIndex : g.vlenthIndex = s.info.vlenthIndex
  vlenthFlag : g.vlenthFlag = s.index.isSome
  data : g.data = if s = t then UInt32.ofNat payload.length else 0
  buf : g.buf.dataP = if s = f then some payload else none

section Store

variable {specs : List FieldSpec} {t f : FieldSpec}

theorem PayloadFormat.ne (h : PayloadFormat specs t f) : t ≠ f := by
  intro e
  have := h.index_f
  rw [← e, h.index_t] at this
  cases this

theorem PayloadFormat.mem_t (h : PayloadFormat specs t f) : t ∈ specs :=
  h.earlier.subset (by simp)

theorem PayloadFormat.mem_f (h : PayloadFormat specs t f) : f ∈ specs :=
  h.earlier.subset (by simp)

theorem PayloadFormat.store (h : PayloadFormat specs t f) (i : Init specs) (payload : List UInt8)
    (uninit uninit' : ℕ → UInt8) :
    ∃ pa₀ info', paSetVariableLengthValue t.name.chars (UInt32.ofNat payload.length) uninit
        i.analyzer = some (0, pa₀) ∧
      paSetBuf f.name.chars payload uninit' pa₀ = some (0, { i.analyzer with info := info' }) ∧
      ∀ p ∈ i.fields, Stored t f payload p.2 (info' p.1) := by
  have hfield : ∀ s ∈ specs, ∃ a, (a, s) ∈ i.fields := by
    intro s hs
    rw [← i.map_snd_fields] at hs
    obtain ⟨p, hp, rfl⟩ := List.mem_map.1 hs
    exact ⟨p.1, hp⟩
  obtain ⟨a, ha⟩ := hfield t h.mem_t
  obtain ⟨b, hb⟩ := hfield f h.mem_f
  have haddr : ∀ p ∈ i.fields, ∀ q ∈ i.fields, p.2 = q.2 → p.1 = q.1 := by
    intro p hp q hq hpq
    have hp' := i.nameFind_eq_some h.names (a := p.1) (s := p.2) hp
    rw [hpq, i.nameFind_eq_some h.names (a := q.1) (s := q.2) hq] at hp'
    exact (Option.some.inj hp').symm
  have hab : b ≠ a := fun e => h.ne (i.snd_eq ha (e ▸ hb))
  set pa₀ := i.analyzer.modify a fun g =>
    { g with data := UInt32.ofNat payload.length, vlenthValueAssignedFlag := true } with hpa₀
  have hpa₀b : pa₀.info b = f.info := by
    rw [hpa₀, ProtocolAnalyzer.info_modify_of_ne _ hab, i.info_analyzer hb]
  have hlen : paSetVariableLengthValue t.name.chars (UInt32.ofNat payload.length) uninit
      i.analyzer = some (0, pa₀) := by
    simp only [paSetVariableLengthValue, i.paFindKey_short rfl t.name.no_nul (h.short t h.mem_t),
      i.nameFind_eq_some h.names ha]
    rfl
  set g : ProtoInfo := { f.info with buf := ⟨UInt16.ofNat payload.length, some payload⟩ } with hg
  have hset : setBuf payload f.info = some g := rfl
  have hbuf : paSetBuf f.name.chars payload uninit' pa₀ = some (0, pa₀.modify b fun _ => g) := by
    simp only [paSetBuf, i.paFindKey_short (show pa₀.hmap = i.analyzer.hmap from rfl)
      f.name.no_nul (h.short f h.mem_f), i.nameFind_eq_some h.names hb, Option.bind_eq_bind,
      Option.bind_some, hpa₀b, hset]
  refine ⟨pa₀, (pa₀.modify b fun _ => g).info, hlen, hbuf, fun p hp => ?_⟩
  by_cases hpb : p.1 = b
  · have hps : p.2 = f := i.snd_eq hp (hpb ▸ hb)
    rw [hpb, ProtocolAnalyzer.info_modify_self, hps]
    exact ⟨rfl, rfl, rfl, rfl, rfl, rfl, (if_neg h.ne.symm).symm, (if_pos rfl).symm⟩
  · have hpf : p.2 ≠ f := fun e => hpb (haddr p hp (b, f) hb e)
    rw [ProtocolAnalyzer.info_modify_of_ne _ hpb]
    by_cases hpa : p.1 = a
    · have hps : p.2 = t := i.snd_eq hp (hpa ▸ ha)
      rw [hpa, hpa₀, ProtocolAnalyzer.info_modify_self, i.info_analyzer ha, hps]
      exact ⟨rfl, rfl, rfl, rfl, rfl, rfl, (if_pos rfl).symm, (if_neg h.ne).symm⟩
    · have hpt : p.2 ≠ t := fun e => hpa (haddr p hp (a, t) ha e)
      rw [hpa₀, ProtocolAnalyzer.info_modify_of_ne _ hpa, i.info_analyzer hp]
      exact ⟨rfl, rfl, rfl, rfl, rfl, rfl, (if_neg hpt).symm, (if_neg hpf).symm⟩

end Store

/-! ## Generating -/

section Generate

variable {specs : List FieldSpec} {t f : FieldSpec} {payload : List UInt8}

/-- The bytes of a slot after the payload has been stored. -/
def slotBytes (payload : List UInt8) (p : Slot) : List UInt8 :=
  if p.len ≤ 4 then p.value.bytes p.len else payload

theorem map_fst_lengthGiven (specs : List FieldSpec) (t : FieldSpec) (n : ℕ) :
    (lengthGiven specs t n).map Prod.fst = specs := by
  rw [lengthGiven, List.map_map]
  exact List.map_id _

/-- The lookup for `f` finds the length that was given to `t`. -/
theorem PayloadFormat.lengthData_eq (h : PayloadFormat specs t f) (n : ℕ) (uninit : ℕ → UInt8) :
    lengthData (lengthGiven specs t n) (some (keyBytes t.name.chars uninit)) =
      some (UInt32.ofNat n) := by
  have hiff : ∀ s : FieldSpec, s.name.array.take 10 = keyBytes t.name.chars uninit ↔
      s.name.chars = t.name.chars := fun s =>
    Init.take_array_eq_keyBytes_iff _ t.name.no_nul (h.short t h.mem_t) _
  rw [lengthData, lengthField, Option.bind_some, lengthGiven, ← List.map_reverse, List.find?_map]
  simp only [Function.comp_def, hiff]
  cases hfind : specs.reverse.find? fun s => decide (s.name.chars = t.name.chars) with
  | none =>
    have := List.find?_eq_none.1 hfind t (List.mem_reverse.2 h.mem_t)
    simp at this
  | some s =>
    have hchars : s.name.chars = t.name.chars := by simpa using List.find?_some hfind
    have hname : s.name = t.name := by
      cases hs : s.name
      cases ht : t.name
      simpa [hs, ht] using hchars
    have hs : s ∈ specs := List.mem_reverse.1 (List.mem_of_find?_eq_some hfind)
    rw [List.inj_on_of_nodup_map h.names hs h.mem_t hname]
    simp [FieldValue.number]

/-- A slot, its field after the payload has been stored, and what is found for it. -/
theorem PayloadFormat.slot (h : PayloadFormat specs t f) {i : Init specs} {env : Env}
    {q : (Addr × (FieldSpec × FieldValue) × Key) × Slot}
    (hq : q ∈ i.slots env (lengthGiven specs t payload.length)) :
    (q.1.1, q.2.spec) ∈ i.fields ∧ q.1.2.1.1 = q.2.spec ∧
      q.2.value = .int (if q.2.spec = t then UInt32.ofNat payload.length else 0) ∧
      q.2.data = lengthData (lengthGiven specs t payload.length) q.1.2.2 ∧
      (q.2.spec = t → q.2.len = 1) ∧ (q.2.spec = f → payload.length < 2 ^ 32 →
        q.2.len = payload.length) := by
  obtain ⟨hspec, hvalue, hdata⟩ := slot_eq_of_mem_zip hq
  obtain ⟨hfield, hkey⟩ := i.mem_fields_of_mem_slots (map_fst_lengthGiven _ _ _) hq
  have hval : q.1.2.1 ∈ lengthGiven specs t payload.length :=
    (List.of_mem_zip (List.of_mem_zip (List.of_mem_zip hq).1).2).1
  obtain ⟨s, -, hs⟩ := List.mem_map.1 hval
  rw [fieldKey] at hkey
  refine ⟨hspec ▸ hfield, hspec.symm, ?_, hdata, fun ht => ?_, fun hf hn => ?_⟩
  · rw [hspec, hvalue, ← hs]
  · rw [← hspec, ht, h.index_t] at hkey
    rw [Slot.len, hdata, hkey, ht, h.len_t]
    rfl
  · rw [← hspec, hf, h.index_f] at hkey
    rw [Slot.len, hdata, hkey, Option.map_some, h.lengthData_eq]
    simp only [UInt32.toNat_ofNat']
    exact Nat.mod_eq_of_lt hn

/-- A field at its slot, with the payload in the buffer of `f`. -/
structure StoredAt (f : FieldSpec) (payload : List UInt8) (g : ProtoInfo) (p : Slot) : Prop
    extends AtSlot g p where
  lenUnit : g.lenUnit = 8
  bitPos : g.bitPos = 0
  value : p.value = .int g.data
  buf : g.buf.dataP = if p.spec = f then some payload else none

/-- Generating places the fields at their slots and writes them. -/
theorem PayloadFormat.generate_place (h : PayloadFormat specs t f) {i : Init specs} (env : Env)
    (hfit : ∀ p ∈ payloadSlots i env t payload.length, p.pos + p.len ≤ MAX_PROTO_DATA_LEN)
    {info : Addr → ProtoInfo} (hs : ∀ p ∈ i.fields, Stored t f payload p.2 (info p.1)) :
    ∃ fs info' len, paGenerateProtocolData env { i.analyzer with info := info } =
        (writeFields env fs (List.replicate MAX_PROTO_DATA_LEN 0)).map (fun dp =>
          (0, { i.analyzer with
            protocolData := dp
            info := info'
            protocolDataLen := len })) ∧
      List.Forall₂ (StoredAt f payload) fs (payloadSlots i env t payload.length) := by
  have hfst := map_fst_lengthGiven specs t payload.length
  set vals := lengthGiven specs t payload.length with hvals
  set pa : ProtocolAnalyzer := { i.analyzer with info := info } with hpa
  have hfields := i.fields_eq_map hfst
  have hnum : NumbersFound vals (i.keys env) := by
    intro k _ v hv
    cases k with
    | none => cases hv
    | some k =>
      obtain ⟨s, -, rfl⟩ := List.mem_map.1 (List.mem_reverse.1 (List.mem_of_find?_eq_some hv))
      rfl
  have hh : Holding i vals pa := by
    intro e he
    have hst := hs (e.1, e.2.1) (hfields ▸ List.mem_map_of_mem he)
    obtain ⟨s, -, hse⟩ := List.mem_map.1 (List.of_mem_zip he).2
    refine ⟨?_, hst.vlenthFlag, hst.vlenthIndex⟩
    rw [← hse] at hst ⊢
    exact hst.data
  obtain ⟨info', hplace, hgen⟩ := HpiDriver.generate_place hfst env (hnum.held hh)
    (show pa.paListHeadP = some i.infos from i.paListHeadP_analyzer) rfl hh
  set E := (i.slots env vals).map fun q => ((info q.1.1).core, q.1.2) with hE
  have hEsnd : E.map Prod.snd = vals.zip (i.keys env) := by
    rw [hE, List.map_map, ← i.map_val_slots hfst]
    rfl
  have hEzip : E.zip (layoutFrom vals 0 (E.map Prod.snd)) =
      (i.slots env vals).map fun q => (((info q.1.1).core, q.1.2), q.2) := by
    rw [hEsnd, ← layout, ← i.map_snd_slots hfst, hE, List.zip_map']
  have hEplace : (i.infos.zip (vals.zip (i.keys env))).map (fun e =>
      ((pa.info e.1).core, lengthData vals e.2.2)) =
        E.map fun e => (e.1, lengthData vals e.2.2) := by
    rw [← i.map_fst_slots hfst, hE, List.map_map, List.map_map]
    rfl
  have hat := @place_atSlot vals E 0 (fun e he => ?_) fun p hp => ?_
  · rw [hEzip, List.forall₂_map_right_iff] at hat
    refine ⟨i.infos.map fun a => (info' a).core, info', dataLenOf (i.infos.map info') env.dataLen,
      ?_, ?_⟩
    · rw [hgen, ← writeFields_map_core, List.map_map]
      rfl
    · change List.Forall₂ _ _ (layout vals (i.keys env))
      rw [hplace, hEplace, ← i.map_snd_slots hfst, List.forall₂_map_right_iff]
      -- every slot has a field of the format
      have hmem := (List.forall₂_and_left (i.slots env vals) _).2 ⟨fun q hq => hq, hat.flip⟩
      refine (hmem.imp fun q g h' => ?_).flip
      obtain ⟨hq, hg, hgeq⟩ := h'
      obtain ⟨hf, -, hvalue, -⟩ := h.slot hq
      have hst := hs _ hf
      have hmem := i.snd_mem hf
      rw [hgeq] at hg ⊢
      exact { toAtSlot := hg
              lenUnit := hst.lenUnit.trans (h.lenUnit _ hmem)
              bitPos := hst.bitPos.trans (h.bitPos _ hmem)
              value := hvalue.trans (congrArg FieldValue.int hst.data.symm)
              buf := hst.buf }
  · obtain ⟨q, hq, rfl⟩ := List.mem_map.1 he
    obtain ⟨hf, hspec, -⟩ := h.slot hq
    have hst := hs _ hf
    have hu := h.lenUnit _ (i.snd_mem hf)
    dsimp only
    rw [hspec]
    exact ⟨hst.bytePos, hst.lenUnit.trans hu, hu, fun _ => hst.len⟩
  · rw [hEsnd] at hp
    exact (hfit p hp).trans (by decide)

theorem PayloadFormat.payloadSlot (h : PayloadFormat specs t f) {i : Init specs} {env : Env}
    {p : Slot} (hp : p ∈ payloadSlots i env t payload.length) :
    p.value = .int (if p.spec = t then UInt32.ofNat payload.length else 0) ∧
      (p.spec = t → p.len = 1) ∧
      (p.spec = f → payload.length < 2 ^ 32 → p.len = payload.length) := by
  rw [payloadSlots, ← i.map_snd_slots (map_fst_lengthGiven _ _ _)] at hp
  obtain ⟨q, hq, rfl⟩ := List.mem_map.1 hp
  obtain ⟨-, -, hvalue, -, ht, hf⟩ := h.slot hq
  exact ⟨hvalue, ht, hf⟩

theorem PayloadFormat.exists_slot (h : PayloadFormat specs t f) (i : Init specs) (env : Env)
    (n : ℕ) : ∃ p ∈ payloadSlots i env t n, p.spec = f := by
  have hf := h.mem_f
  rw [← i.map_snd_fields] at hf
  obtain ⟨p, hp, hps⟩ := List.mem_map.1 hf
  obtain ⟨q, hq, -, hspec, -⟩ := i.exists_slot (map_fst_lengthGiven specs t n) env hp
  refine ⟨q.2, ?_, (slot_eq_of_mem_zip hq).1.trans (hspec.trans hps)⟩
  rw [payloadSlots, ← i.map_snd_slots (map_fst_lengthGiven _ _ _)]
  exact List.mem_map_of_mem hq

/-- A field of up to four bytes, or `f`, carries the bytes of its slot. -/
theorem PayloadFormat.ready (h : PayloadFormat specs t f) {i : Init specs} {env : Env}
    (hn : payload.length ≤ 255) {g : ProtoInfo} {p : Slot}
    (hp : p ∈ payloadSlots i env t payload.length) (hg : StoredAt f payload g p)
    (hlen : p.spec ≠ f → p.len ≤ 4) : Ready g (p.pos, slotBytes payload p) := by
  obtain ⟨hvalue, ht, hf⟩ := h.payloadSlot hp
  refine ⟨hg.bytePos, hg.lenUnit, hg.bitPos, ?_⟩
  simp only [slotBytes]
  split_ifs with h4
  · have hdata : g.data = if p.spec = t then UInt32.ofNat payload.length else 0 :=
      FieldValue.int.inj (hg.value.symm.trans hvalue)
    have hfits : p.value.Fits p.len := by
      rw [hg.value, hdata]
      refine ⟨h4, ?_⟩
      split_ifs with hs
      · rw [ht hs, UInt32.toNat_ofNat']
        omega
      · exact Nat.pow_pos (by decide)
    have hw : Wire g (p.value.bytes p.len) := hfits.wire (by rw [hg.value]; rfl)
    exact ⟨⟨hw.data, hw.buf⟩, hg.len.trans hfits.length_bytes.symm⟩
  · have hs : p.spec = f := by
      by_contra hs
      exact h4 (hlen hs)
    have hl := hf hs (by omega)
    refine ⟨⟨fun hle => absurd hle (by omega), fun _ => ⟨payload, ?_, List.prefix_rfl⟩⟩,
      hg.len.trans hl⟩
    rw [hg.buf, if_pos hs]

/-- Another field of more than four bytes has no buffer to be written from. -/
theorem StoredAt.paSetProtocolField_eq_none {g : ProtoInfo} {p : Slot}
    (hg : StoredAt f payload g p) (hs : p.spec ≠ f) (h4 : 4 < p.len) (env : Env) (pos : UInt8)
    (dp : List UInt8) : paSetProtocolField env g pos dp = none := by
  have hlen : ¬ g.len ≤ 4 := by
    rw [len_le_four_iff, hg.len]
    omega
  have hbuf : g.buf.dataP = none := by rw [hg.buf, if_neg hs]
  rw [paSetProtocolField, if_pos hg.lenUnit, if_neg hlen, paSetProtocolBuf,
    if_neg (by simp [hg.bitPos]), hbuf]
  rfl

theorem PayloadFormat.slots_ascending (h : PayloadFormat specs t f) (i : Init specs) (env : Env)
    (n : ℕ) : (payloadSlots i env t n).Pairwise fun p q => p.pos + p.len ≤ q.pos := by
  have hfst := map_fst_lengthGiven specs t n
  have hmap : ((lengthGiven specs t n).zip (i.keys env)).map (fun e => e.1.1) = specs := by
    have hz : ((lengthGiven specs t n).zip (i.keys env)).map Prod.fst = lengthGiven specs t n :=
      List.map_fst_zip (by rw [i.length_keys, lengthGiven, List.length_map])
    conv_rhs => rw [← hfst, ← hz, List.map_map]
    rfl
  refine layoutFrom_ascending (fun e he => h.lenUnit _ ?_) ?_
  · rw [← hmap]
    exact List.mem_map_of_mem he
  · have hasc := h.ascending
    rwa [← hmap, List.pairwise_map] at hasc

/-- Slots that are all ready put their bytes into the buffer. -/
theorem PayloadFormat.writeFields_eq (h : PayloadFormat specs t f) {i : Init specs} {env : Env}
    (hn : payload.length ≤ 255)
    (hfit : ∀ p ∈ payloadSlots i env t payload.length, p.pos + p.len ≤ MAX_PROTO_DATA_LEN)
    (hlen : ∀ p ∈ payloadSlots i env t payload.length, p.spec ≠ f → p.len ≤ 4)
    {fs : List ProtoInfo}
    (hfs : List.Forall₂ (StoredAt f payload) fs (payloadSlots i env t payload.length)) :
    ∃ dp, writeFields env fs (List.replicate MAX_PROTO_DATA_LEN 0) = some dp ∧
      ∀ p ∈ payloadSlots i env t payload.length, p.spec = f →
        slice dp p.pos payload.length =
          if payload.length ≤ 4 then List.replicate payload.length 0 else payload := by
  set ws := (payloadSlots i env t payload.length).map fun p => (p.pos, slotBytes payload p) with hws
  have hmem := (List.forall₂_and_left _ _).2 ⟨fun p hp => hp, hfs.flip⟩
  have hready : List.Forall₂ Ready fs ws := by
    rw [hws, List.forall₂_map_right_iff]
    exact (hmem.imp fun p g h' => h.ready hn h'.1 h'.2 (hlen p h'.1)).flip
  have hlength : ∀ p ∈ payloadSlots i env t payload.length,
      (slotBytes payload p).length = p.len := by
    intro p hp
    obtain ⟨hvalue, -, hf⟩ := h.payloadSlot hp
    unfold slotBytes
    split_ifs with h4
    · rw [hvalue]
      exact length_beBytes _ _
    · refine (hf ?_ (by omega)).symm
      by_contra hs
      exact h4 (hlen p hp hs)
  have hle : ∀ w ∈ ws, w.1 + w.2.length ≤ (List.replicate MAX_PROTO_DATA_LEN (0 : UInt8)).length :=
    fun w hw => by
      obtain ⟨p, hp, rfl⟩ := List.mem_map.1 hw
      rw [List.length_replicate, hlength p hp]
      exact hfit p hp
  refine ⟨_, writeFields_ready env hready hle, fun p hp hs => ?_⟩
  have hasc : ws.Pairwise fun w v => w.1 + w.2.length ≤ v.1 ∨ v.1 + v.2.length ≤ w.1 := by
    rw [hws, List.pairwise_map]
    refine (h.slots_ascending i env _).imp_of_mem fun {p q} hp _ hpq => .inl ?_
    dsimp only
    rwa [hlength p hp]
  have hslice := slice_blitAll hle hasc (p.pos, slotBytes payload p) (List.mem_map_of_mem hp)
  obtain ⟨hvalue, -, hf⟩ := h.payloadSlot hp
  have hl := hf hs (by omega)
  rw [hlength p hp, hl] at hslice
  rw [hslice]
  unfold slotBytes
  rw [hl, hvalue, FieldValue.bytes, if_neg (fun e : p.spec = t => h.ne (e.symm.trans hs))]
  simp

/-- **When a stored payload is what goes on the wire.** Exactly when it is longer than four bytes
or consists of zeros, and no other field of the message has more than four bytes. -/
theorem putsPayload_iff (h : PayloadFormat specs t f) (hn : payload.length ≤ 255) (i : Init specs)
    (env : Env) (uninit uninit' : ℕ → UInt8)
    (hfit : ∀ p ∈ payloadSlots i env t payload.length, p.pos + p.len ≤ MAX_PROTO_DATA_LEN) :
    PutsPayload i env uninit uninit' t f payload ↔
      (payload.length ≤ 4 → ∀ b ∈ payload, b = 0) ∧
        ∀ p ∈ payloadSlots i env t payload.length, p.spec ≠ f → p.len ≤ 4 := by
  obtain ⟨pa₀, info, hlength, hbuf, hstored⟩ := h.store i payload uninit uninit'
  obtain ⟨fs, info', len, hgen, hfs⟩ := h.generate_place env hfit hstored
  obtain ⟨pf, hpf, hpfs⟩ := h.exists_slot i env payload.length
  constructor
  · rintro ⟨pa₀', pa₁, pa₂, h₁, h₂, h₃, hslice⟩
    obtain rfl : pa₀ = pa₀' := by simpa using hlength.symm.trans h₁
    obtain rfl : { i.analyzer with info := info } = pa₁ := by simpa using hbuf.symm.trans h₂
    have hlen : ∀ p ∈ payloadSlots i env t payload.length, p.spec ≠ f → p.len ≤ 4 := by
      intro p hp hs
      by_contra h4
      obtain ⟨g, hg, hgp⟩ := forall₂_mem_right hfs hp
      rw [hgen, writeFields_eq_none hg fun dp =>
        hgp.paSetProtocolField_eq_none hs (by omega) env _ dp] at h₃
      cases h₃
    refine ⟨fun h4 b hb => ?_, hlen⟩
    obtain ⟨dp, hdp, hput⟩ := h.writeFields_eq hn hfit hlen hfs
    rw [hgen, hdp] at h₃
    have hpa₂ := (Prod.mk.inj (Option.some.inj h₃)).2
    have hwire := (hslice pf hpf hpfs).2
    rw [← hpa₂, hput pf hpf hpfs, if_pos h4] at hwire
    rw [← hwire] at hb
    exact List.eq_of_mem_replicate hb
  · rintro ⟨hzero, hlen⟩
    obtain ⟨dp, hdp, hput⟩ := h.writeFields_eq hn hfit hlen hfs
    refine ⟨pa₀, _, _, hlength, hbuf, by rw [hgen, hdp]; rfl, fun p hp hs => ⟨?_, ?_⟩⟩
    · exact (h.payloadSlot hp).2.2 hs (by omega)
    · rw [hput p hp hs]
      split_ifs with h4
      · exact (List.eq_replicate_iff.2 ⟨rfl, hzero h4⟩).symm
      · rfl

end Generate

theorem payloadFormat_3054 : PayloadFormat specs3054 (byteField (cname "dc_info") 4 1 none)
    (byteField (cname "dc_data") 5 0 (some (cname "dc_info"))) where
  lenUnit := by decide
  bitPos := by decide
  ascending := by decide
  names := by decide
  short := by decide
  earlier := by decide
  index_t := rfl
  len_t := rfl
  index_f := rfl
  len_f := rfl

/-- Five bytes of `dc_data` in a peripheral record. -/
theorem putsPayload_3054 : PutsPayload init3054 ⟨true, fun _ _ => 0, fun _ _ => 0, 0⟩
    (fun _ => 0) (fun _ => 0) (byteField (cname "dc_info") 4 1 none)
    (byteField (cname "dc_data") 5 0 (some (cname "dc_info"))) [1, 2, 3, 4, 5] :=
  (putsPayload_iff payloadFormat_3054 (by decide) init3054 _ _ _ (by decide +kernel)).2
    ⟨by decide, by decide +kernel⟩

/-- One byte of `dc_data` is written as zero. -/
theorem not_putsPayload : ¬ ∀ (specs : List FieldSpec) (t f : FieldSpec),
    PayloadFormat specs t f → ∀ payload : List UInt8, payload.length ≤ 255 →
      ∀ (i : Init specs) (env : Env) (uninit uninit' : ℕ → UInt8),
        (∀ p ∈ payloadSlots i env t payload.length, p.pos + p.len ≤ MAX_PROTO_DATA_LEN) →
          PutsPayload i env uninit uninit' t f payload := by
  intro h
  obtain ⟨pa₀, pa₁, pa₂, h₀, h₁, h₂, hput⟩ := h specs3054 _ _ payloadFormat_3054 [1] (by decide)
    init3054 ⟨true, fun _ _ => 0, fun _ _ => 0, 0⟩ (fun _ => 0) (fun _ => 0) (by decide +kernel)
  have hgen : ((paSetVariableLengthValue DC_INFO 1 (fun _ => 0) init3054.analyzer).bind fun r =>
      (paSetBuf DC_DATA [1] (fun _ => 0) r.2).bind fun r =>
        (paGenerateProtocolData ⟨true, fun _ _ => 0, fun _ _ => 0, 0⟩ r.2).map fun r =>
          slice r.2.protocolData 5 1) = some [0] := by decide +kernel
  obtain ⟨p, hp, hps, hpos⟩ : ∃ p ∈ payloadSlots init3054
      ⟨true, fun _ _ => 0, fun _ _ => 0, 0⟩ (byteField (cname "dc_info") 4 1 none) 1,
      p.spec = byteField (cname "dc_data") 5 0 (some (cname "dc_info")) ∧ p.pos = 5 := by
    decide +kernel
  have hwire := (hput p hp hps).2
  have h₀' : paSetVariableLengthValue DC_INFO 1 (fun _ => 0) init3054.analyzer = some (0, pa₀) := h₀
  have h₁' : paSetBuf DC_DATA [1] (fun _ => 0) pa₀ = some (0, pa₁) := h₁
  rw [h₀', Option.bind_some, h₁', Option.bind_some, h₂, Option.map_some, Option.some.injEq] at hgen
  rw [hpos] at hwire
  exact absurd (hgen.symm.trans hwire) (by decide)

end HpiDriver
