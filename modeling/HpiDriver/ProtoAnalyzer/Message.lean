import HpiDriver.ProtoAnalyzer.FindKey
import HpiDriver.ProtoAnalyzer.Loops

/-!
# Messages of byte fields

The abstract content of a message of a byte format: every field with the bytes that stand for it
on the wire. The bytes of a variable-length field move the fields behind it, so a content
determines where each of its fields is (`blocks`); it is consistent when every variable-length
field is as long as its length field says. A buffer shows a message when it has the bytes of every
field at its place.

The two loops of the analyzer are characterised by this: parsing a buffer that shows a message
gives every field the value of its bytes (`paParse_message`), and generating from fields that
carry the bytes of a message produces a buffer that shows it (`paGenerate_message`).
-/

namespace HpiDriver

open Blocks BigEndian

/-! ## Contents -/

/-- A field with the bytes that stand for it in a message. -/
abbrev Content := FieldSpec × List UInt8

/-- How far a field moves the ones behind it. -/
def varLen (c : Content) : ℕ := if c.1.index.isSome then c.2.length else 0

/-- The fields of a message at their places, when fields in front of it take `S` bytes more than
the format says. -/
def blocks : ℕ → List Content → List (ℕ × List UInt8)
  | _, [] => []
  | S, c :: msg => (c.1.bytePos.toNat + S, c.2) :: blocks (S + varLen c) msg

/-- Where the last field ends. -/
def messageEnd (msg : List Content) : ℕ :=
  match (blocks 0 msg).getLast? with
  | none => 0
  | some w => w.1 + w.2.length

/-- The field `c` is as long as the format or its length field in `pre` says. -/
def Sized (pre : List Content) (c : Content) : Prop :=
  match c.1.index with
  | none => c.2.length = c.1.len.toNat
  | some n => n.chars.length < 10 ∧
      ∃ t ∈ pre, t.1.name = n ∧ t.2.length ≤ 4 ∧ beValue t.2 = c.2.length

/-- All fields have the length they should have. -/
def Consistent : List Content → List Content → Prop
  | _, [] => True
  | pre, c :: msg => Sized pre c ∧ Consistent (pre ++ [c]) msg

/-- The buffer has the blocks at their places. -/
def Shows (dp : List UInt8) (ws : List (ℕ × List UInt8)) : Prop :=
  ∀ w ∈ ws, w.1 + w.2.length ≤ dp.length ∧ slice dp w.1 w.2.length = w.2

theorem exists_mem_blocks {c : Content} {msg : List Content} {S : ℕ} (h : c ∈ msg) :
    ∃ w ∈ blocks S msg, w.2 = c.2 := by
  induction msg generalizing S with
  | nil => simp at h
  | cons e msg ih =>
    rcases List.mem_cons.1 h with rfl | h
    · exact ⟨_, List.mem_cons_self, rfl⟩
    · obtain ⟨w, hw, hwc⟩ := ih (S := S + varLen e) h
      exact ⟨w, List.mem_cons_of_mem _ hw, hwc⟩

theorem bytePos_le_of_mem_blocks {msg : List Content} {S : ℕ} {w : ℕ × List UInt8}
    (h : w ∈ blocks S msg) : ∃ c ∈ msg, c.1.bytePos.toNat + S ≤ w.1 := by
  induction msg generalizing S with
  | nil => simp [blocks] at h
  | cons e msg ih =>
    rcases List.mem_cons.1 h with rfl | h
    · exact ⟨e, List.mem_cons_self, le_rfl⟩
    · obtain ⟨c, hc, hcw⟩ := ih h
      exact ⟨c, List.mem_cons_of_mem _ hc, by omega⟩

theorem Consistent.sized {pre msg l post : List Content} {c : Content} (h : Consistent pre msg)
    (hmsg : msg = l ++ c :: post) : Sized (pre ++ l) c := by
  subst hmsg
  induction l generalizing pre with
  | nil => simpa using h.1
  | cons e l ih => simpa using ih h.2

theorem Consistent.length_eq {pre msg : List Content} (h : Consistent pre msg) :
    ∀ c ∈ msg, c.1.index = none → c.2.length = c.1.len.toNat := by
  intro c hc hi
  obtain ⟨l, post, hmsg⟩ := List.append_of_mem hc
  simpa only [Sized, hi] using h.sized hmsg

/-- The fields of a message stay in the order of the format. -/
theorem blocks_ascending {msg : List Content} {S : ℕ}
    (hasc : msg.Pairwise fun c e => c.1.bytePos.toNat + c.1.len.toNat ≤ e.1.bytePos.toNat)
    (hfix : ∀ c ∈ msg, c.1.index = none → c.2.length = c.1.len.toNat) :
    (blocks S msg).Pairwise fun w v => w.1 + w.2.length ≤ v.1 := by
  induction msg generalizing S with
  | nil => exact .nil
  | cons c msg ih =>
    obtain ⟨hc, hasc⟩ := List.pairwise_cons.1 hasc
    obtain ⟨hcl, hfix⟩ := List.forall_mem_cons.1 hfix
    refine List.pairwise_cons.2 ⟨fun v hv => ?_, ih hasc hfix⟩
    obtain ⟨e, he, hev⟩ := bytePos_le_of_mem_blocks hv
    have := hc e he
    cases hi : c.1.index with
    | none =>
      have := hcl hi
      simp only [varLen, hi] at hev
      dsimp only
      simp at hev
      omega
    | some n =>
      simp only [varLen, hi] at hev
      dsimp only
      simp at hev
      omega

theorem le_messageEnd {msg : List Content}
    (hasc : (blocks 0 msg).Pairwise fun w v => w.1 + w.2.length ≤ v.1) :
    ∀ w ∈ blocks 0 msg, w.1 + w.2.length ≤ messageEnd msg := by
  unfold messageEnd
  generalize blocks 0 msg = ws at hasc
  induction ws with
  | nil => simp
  | cons w ws ih =>
    obtain ⟨hw, hasc⟩ := List.pairwise_cons.1 hasc
    cases ws with
    | nil => simp
    | cons v ws =>
      have hv := ih hasc
      rw [List.getLast?_cons_cons]
      refine List.forall_mem_cons.2 ⟨?_, hv⟩
      exact ((hw v List.mem_cons_self).trans (Nat.le_add_right _ _)).trans
        (hv v List.mem_cons_self)

/-! ## Lookups of a fresh table -/

/-- The length fields that the table of `i` gives, whatever has become of the analyzer. -/
theorem Init.finds {specs : List FieldSpec} (i : Init specs) {pa : ProtocolAnalyzer}
    (hp : pa.hmap = i.analyzer.hmap) (keyStr : Addr → ℕ → UInt8) (hl : List Addr) :
    Finds keyStr pa hl fun a =>
      i.tableFind (keyBytes (cString (pa.info a).vlenthIndex) (keyStr a)) :=
  fun _ _ _ => i.paFindKey_eq hp _ _

/-- A short index finds the field it names. -/
theorem Init.finds_short {specs : List FieldSpec} (i : Init specs)
    (hnames : (specs.map FieldSpec.name).Nodup) {pa : ProtocolAnalyzer}
    (hp : pa.hmap = i.analyzer.hmap) {n : CName} (hn : n.chars.length < 10) {f : ProtoInfo}
    (hf : cString f.vlenthIndex = n.chars) {a : Addr} {t : FieldSpec} (ht : (a, t) ∈ i.fields)
    (htn : t.name = n) (uninit : ℕ → UInt8) :
    paFindKey (cString f.vlenthIndex) uninit pa = some (some a) := by
  rw [hf, i.paFindKey_short hp n.no_nul hn, ← htn, i.nameFind_eq_some hnames ht]

/-! ## Fields of a format in an analyzer -/

/-- What the loops never change, with the field moved by `S`. -/
structure Static (s : FieldSpec) (S : ℕ) (f : ProtoInfo) : Prop where
  bytePos : f.bytePos = s.bytePos + UInt8.ofNat S
  bitPos : f.bitPos = s.bitPos
  lenUnit : f.lenUnit = s.lenUnit
  vlenthIndex : f.vlenthIndex = s.info.vlenthIndex
  vlenthFlagBak : f.vlenthFlagBak = s.index.isSome

/-- A field in front of a run of the loops. -/
structure Armed (s : FieldSpec) (S : ℕ) (f : ProtoInfo) : Prop extends Static s S f where
  vlenthFlag : f.vlenthFlag = s.index.isSome
  len : s.index = none → f.len = s.len
  bufOk : f.BufOk

/-- A field that has been parsed from the bytes `bs`. -/
structure Parsed (s : FieldSpec) (S : ℕ) (bs : List UInt8) (f : ProtoInfo) : Prop
    extends Static s S f, Decoded f bs where
  vlenthFlag : f.vlenthFlag = false

theorem FieldSpec.armed_info (s : FieldSpec) : Armed s 0 s.info where
  bytePos := by simp [info]
  bitPos := rfl
  lenUnit := rfl
  vlenthIndex := rfl
  vlenthFlagBak := rfl
  vlenthFlag := rfl
  len _ := rfl
  bufOk block h := by simp [info] at h

theorem Init.armed {specs : List FieldSpec} (i : Init specs) :
    ∀ p ∈ i.fields, Armed p.2 0 (i.analyzer.info p.1) := by
  intro p hp
  rw [i.info_analyzer (s := p.2) hp]
  exact p.2.armed_info

theorem Init.bufOk {specs : List FieldSpec} (i : Init specs) :
    ∀ a ∈ i.infos, (i.analyzer.info a).BufOk := by
  intro a ha
  rw [← i.map_fst_fields] at ha
  obtain ⟨p, hp, rfl⟩ := List.mem_map.1 ha
  exact (i.armed p hp).bufOk

theorem Armed.shift {s : FieldSpec} {S : ℕ} {f : ProtoInfo} (h : Armed s S f) (T : ℕ) :
    Armed s (S + T) (f.shift (UInt8.ofNat T)) where
  bytePos := by rw [ProtoInfo.shift, h.bytePos, UInt8.ofNat_add, UInt8.add_assoc]
  bitPos := h.bitPos
  lenUnit := h.lenUnit
  vlenthIndex := h.vlenthIndex
  vlenthFlagBak := h.vlenthFlagBak
  vlenthFlag := h.vlenthFlag
  len := h.len
  bufOk := h.bufOk

/-- A field that was given another value is in front of a run just the same. -/
theorem Armed.of_value {s : FieldSpec} {S : ℕ} {f g : ProtoInfo} (h : Armed s S f)
    (hg : g = { f with data := g.data, buf := g.buf }) (hok : g.BufOk) : Armed s S g := by
  rw [hg]
  rw [hg] at hok
  exact { toStatic := ⟨h.bytePos, h.bitPos, h.lenUnit, h.vlenthIndex, h.vlenthFlagBak⟩
          vlenthFlag := h.vlenthFlag
          len := h.len
          bufOk := hok }

/-- The addresses `rest` hold the parsed fields of a message from the shift `S` on. -/
def ParsedAt (info : Addr → ProtoInfo) : ℕ → List (Addr × Content) → Prop
  | _, [] => True
  | S, e :: rest => Parsed e.2.1 S e.2.2 (info e.1) ∧ ParsedAt info (S + varLen e.2) rest

theorem toNat_add_ofNat {b : UInt8} {S : ℕ} (h : b.toNat + S < 256) :
    (b + UInt8.ofNat S).toNat = b.toNat + S := by
  rw [UInt8.toNat_add, UInt8.toNat_ofNat']
  omega

section Resolve

variable {s : FieldSpec} {f : ProtoInfo}

/-- The value that a length field of `L` bytes gives to the length. -/
theorem toUInt16_ofNat_toNat {L : ℕ} (h : L ≤ 255) :
    (UInt32.toUInt16 (UInt32.ofNat L)).toNat = L := by
  simp
  omega

theorem shiftBy_ofNat {L : ℕ} (hu : f.lenUnit = 8) (h : L ≤ 255) :
    f.shiftBy (some (UInt32.ofNat L)) = UInt8.ofNat L := by
  have hdiv : UInt32.ofNat L * 8 / 8 = UInt32.ofNat L := by
    rw [← UInt32.toNat_inj, UInt32.toNat_div, UInt32.toNat_mul]
    simp
    omega
  rw [ProtoInfo.shiftBy, hu]
  simp only [Option.map_some, Option.getD_some]
  rw [show (8 : UInt8).toUInt32 = 8 from rfl, hdiv, UInt32.toUInt8_ofNat']

/-- A pass finds the length of the bytes that stand for its field. -/
theorem Armed.resolve {S : ℕ} (h : Armed s S f) (bs : List UInt8) (hu : s.lenUnit = 8)
    (hL : bs.length ≤ 255) {d : Option UInt32}
    (hd : d = if s.index.isSome then some (UInt32.ofNat bs.length) else none)
    (hfix : s.index = none → bs.length = s.len.toNat) :
    (f.resolve d).len.toNat = bs.length ∧ f.shiftBy d = UInt8.ofNat (varLen (s, bs)) := by
  subst hd
  cases hi : s.index with
  | none =>
    simp only [Option.isSome_none, Bool.false_eq_true, if_false, ProtoInfo.shiftBy_none, varLen, hi]
    refine ⟨?_, rfl⟩
    rw [ProtoInfo.resolve]
    exact (congrArg UInt16.toNat (h.len hi)).trans (hfix hi).symm
  | some n =>
    simp only [Option.isSome_some, if_true, varLen, hi]
    exact ⟨toUInt16_ofNat_toNat hL, shiftBy_ofNat (h.lenUnit.trans hu) hL⟩

end Resolve

/-! ## Parsing -/

section Parse

variable {specs : List FieldSpec} {i : Init specs}

theorem nodup_of_fields {E : List (Addr × Content)}
    (hfields : (E.map fun e => (e.1, e.2.1)) = i.fields) : (E.map Prod.fst).Nodup := by
  have h := i.nodup_fst_fields
  rw [← hfields, List.map_map] at h
  exact h

theorem mem_fields {E : List (Addr × Content)}
    (hfields : (E.map fun e => (e.1, e.2.1)) = i.fields) {e : Addr × Content} (he : e ∈ E) :
    (e.1, e.2.1) ∈ i.fields := by
  rw [← hfields]
  exact List.mem_map.2 ⟨e, he, rfl⟩

/-- The length that a pass finds is the one of the bytes that stand for the field. -/
theorem foundData_message (hnames : (specs.map FieldSpec.name).Nodup) (keyStr : Addr → ℕ → UInt8)
    {pre : List (Addr × Content)} {e : Addr × Content} {S : ℕ} {pa : ProtocolAnalyzer}
    (hpre : ∀ t ∈ pre, (t.1, t.2.1) ∈ i.fields) (hmap : pa.hmap = i.analyzer.hmap)
    (hsized : Sized (pre.map Prod.snd) e.2) (harm : Armed e.2.1 S (pa.info e.1))
    (hdata : ∀ t ∈ pre, t.2.2.length ≤ 4 →
      (pa.info t.1).data = UInt32.ofNat (beValue t.2.2)) :
    pa.foundData (fun b => i.tableFind (keyBytes (cString (pa.info b).vlenthIndex) (keyStr b)))
      e.1 = if e.2.1.index.isSome then some (UInt32.ofNat e.2.2.length) else none := by
  rw [ProtocolAnalyzer.foundData, harm.vlenthFlag]
  cases hi : e.2.1.index with
  | none => rfl
  | some n =>
    simp only [Sized, hi] at hsized
    obtain ⟨hn, c, hc, htn, ht4, htv⟩ := hsized
    obtain ⟨t, ht, rfl⟩ := List.mem_map.1 hc
    have hindex : cString (pa.info e.1).vlenthIndex = n.chars := by
      rw [harm.vlenthIndex]
      exact e.2.1.vlenthIndex_info hi
    have hfind := i.finds_short hnames hmap hn hindex (hpre t ht) htn (keyStr e.1)
    rw [i.paFindKey_eq hmap, Option.some.injEq] at hfind
    simp only [Option.isSome_some, if_true, hfind, Option.map_some, hdata t ht ht4, htv]

/-- The run of the parser over the fields `rest` of a message, behind the fields `pre`. -/
theorem paParseLoop_message (hu : ∀ s ∈ specs, s.lenUnit = 8)
    (hnames : (specs.map FieldSpec.name).Nodup) (env : Env) (pre rest : List (Addr × Content))
    {S : ℕ} {pa : ProtocolAnalyzer}
    (hfields : ((pre ++ rest).map fun e => (e.1, e.2.1)) = i.fields)
    (hmap : pa.hmap = i.analyzer.hmap) (hdl : pa.protocolData.length ≤ 255)
    (hcons : Consistent (pre.map Prod.snd) (rest.map Prod.snd))
    (hshows : Shows pa.protocolData (blocks S (rest.map Prod.snd)))
    (hpre : ∀ e ∈ pre, Decoded (pa.info e.1) e.2.2)
    (hrest : ∀ e ∈ rest, Armed e.2.1 S (pa.info e.1)) :
    ∃ info', paParseLoop env (rest.map Prod.fst) pa = some { pa with info := info' } ∧
      (∀ a ∉ rest.map Prod.fst, info' a = pa.info a) ∧ ParsedAt info' S rest := by
  induction rest generalizing pre S pa with
  | nil => exact ⟨pa.info, rfl, fun _ _ => rfl, trivial⟩
  | cons e rest ih =>
    obtain ⟨a, s, bs⟩ := e
    obtain ⟨hsized, hcons⟩ := hcons
    obtain ⟨harm, hrest⟩ := List.forall_mem_cons.1 hrest
    obtain ⟨⟨hle, hsl⟩, hshows⟩ := List.forall_mem_cons.1 hshows
    dsimp only at harm hle hsl hsized
    have hnd := nodup_of_fields hfields
    rw [List.map_append, List.map_cons] at hnd
    obtain ⟨-, hnd', hdisj⟩ := List.nodup_append.1 hnd
    have ha : a ∉ rest.map Prod.fst := (List.nodup_cons.1 hnd').1
    have hpre_ne : ∀ t ∈ pre, t.1 ≠ a ∧ t.1 ∉ rest.map Prod.fst := fun t ht =>
      ⟨fun e => hdisj t.1 (List.mem_map_of_mem ht) a List.mem_cons_self e,
        fun h => hdisj t.1 (List.mem_map_of_mem ht) t.1 (List.mem_cons_of_mem _ h) rfl⟩
    have hsu : s.lenUnit = 8 := hu s (i.snd_mem (p := (a, s)) (mem_fields hfields
      (e := (a, s, bs)) (by simp)))
    -- the pass finds the length of its bytes
    have hfound := foundData_message hnames env.keyStr
      (fun t ht => mem_fields hfields (List.mem_append_left _ ht)) hmap (e := (a, s, bs)) hsized
      harm fun t ht => (hpre t ht).data
    have hfix : s.index = none → bs.length = s.len.toNat := by
      intro hi
      simpa only [Sized, hi] using hsized
    obtain ⟨hlen, hshift⟩ := harm.resolve bs hsu (by omega) hfound hfix
    have hstep := paParseLoop_cons hnd' (i.finds hmap env.keyStr [a])
    rw [hshift] at hstep
    generalize hd : pa.foundData _ a = d at hstep hlen hshift
    set f := (pa.info a).resolve d with hf
    have hpos : f.bytePos.toNat = s.bytePos.toNat + S := by
      rw [hf, ProtoInfo.bytePos_resolve, harm.bytePos, toNat_add_ofNat (by omega)]
    obtain ⟨g, hread, hg, hdec⟩ := paGetProtocolField_byte (f := f) env pa.protocolData
      (harm.lenUnit.trans hsu) harm.bufOk (by rw [hpos, hlen]; exact hle)
    rw [hpos, hlen, hsl] at hdec
    rw [hread, Option.bind_some] at hstep
    set T := UInt8.ofNat (varLen (s, bs))
    set pa₁ := pa.pass a (rest.map Prod.fst) g T
    have hrest₁ : ∀ t ∈ rest, Armed t.2.1 (S + varLen (s, bs)) (pa₁.info t.1) := by
      intro t ht
      rw [ProtocolAnalyzer.info_pass_rest g T ha (List.mem_map_of_mem ht)]
      exact (hrest t ht).shift _
    have hpre₁ : ∀ t ∈ pre ++ [(a, s, bs)], Decoded (pa₁.info t.1) t.2.2 := by
      intro t ht
      rcases List.mem_append.1 ht with ht | ht
      · obtain ⟨h₁, h₂⟩ := hpre_ne t ht
        rw [ProtocolAnalyzer.info_pass_of_notMem g T
          (mt List.mem_cons.1 (not_or.2 ⟨h₁, h₂⟩))]
        exact hpre t ht
      · obtain rfl := List.mem_singleton.1 ht
        rw [ProtocolAnalyzer.info_pass_self]
        exact hdec
    obtain ⟨info', h₁, h₂, h₃⟩ := @ih (pre ++ [(a, s, bs)]) (S + varLen (s, bs)) pa₁
      (by rw [← hfields]; simp) hmap hdl (by simpa using hcons) hshows hpre₁ hrest₁
    refine ⟨info', hstep.trans h₁, fun b hb => ?_, ?_, h₃⟩
    · rw [h₂ b fun hr => hb (List.mem_cons_of_mem _ hr)]
      exact ProtocolAnalyzer.info_pass_of_notMem g T hb
    · rw [h₂ a ha, ProtocolAnalyzer.info_pass_self]
      have hga : ∀ {β : Type} (π : ProtoInfo → β),
          π g = π { f with data := g.data, buf := g.buf } :=
        fun π => congrArg π hg
      exact
        { toDecoded := hdec
          bytePos := (hga ProtoInfo.bytePos).trans harm.bytePos
          bitPos := (hga ProtoInfo.bitPos).trans harm.bitPos
          lenUnit := (hga ProtoInfo.lenUnit).trans harm.lenUnit
          vlenthIndex := (hga ProtoInfo.vlenthIndex).trans harm.vlenthIndex
          vlenthFlagBak := (hga ProtoInfo.vlenthFlagBak).trans harm.vlenthFlagBak
          vlenthFlag := hga ProtoInfo.vlenthFlag }

theorem ParsedAt.decoded {info : Addr → ProtoInfo} {S : ℕ} {E : List (Addr × Content)}
    (h : ParsedAt info S E) : ∀ e ∈ E, Decoded (info e.1) e.2.2 ∧
      (info e.1).lenUnit = e.2.1.lenUnit := by
  induction E generalizing S with
  | nil => simp
  | cons e E ih => exact List.forall_mem_cons.2 ⟨⟨h.1.toDecoded, h.1.lenUnit⟩, ih h.2⟩

/-- **Parsing a buffer that shows a message gives every field the value of its bytes.** -/
theorem paParse_message (hu : ∀ s ∈ specs, s.lenUnit = 8)
    (hnames : (specs.map FieldSpec.name).Nodup) (env : Env) {msg : List Content}
    (hmsg : msg.map Prod.fst = specs) {pa : ProtocolAnalyzer}
    (hhl : pa.paListHeadP = some i.infos) (hmap : pa.hmap = i.analyzer.hmap)
    (hdl : pa.protocolData.length ≤ 255) (hne : pa.protocolDataLen ≠ 0)
    (hcons : Consistent [] msg) (hshows : Shows pa.protocolData (blocks 0 msg))
    (harm : ∀ p ∈ i.fields, Armed p.2 0 (pa.info p.1)) :
    ∃ info', paParseProtocolData env pa = some (0, { pa with info := info' }) ∧
      ParsedAt info' 0 (i.infos.zip msg) ∧
      (i.infos.map fun a => (info' a).value) = (msg.map fun c => decodeValue c.2) ∧
      (i.infos.map fun a => (info' a).len.toNat) = msg.map fun c => c.2.length := by
  have hsnd := i.map_snd_zip hmsg
  have hfst := i.map_fst_zip hmsg
  have hfields := (i.fields_eq_map hmsg).symm
  obtain ⟨info', h₁, -, h₃⟩ := paParseLoop_message (i := i) hu hnames env [] (i.infos.zip msg)
    (S := 0) hfields hmap hdl (by rwa [hsnd]) (by rwa [hsnd]) (by simp)
    fun e he => harm (e.1, e.2.1) (mem_fields hfields he)
  rw [hfst] at h₁
  have hdec := h₃.decoded
  -- a property of the fields read off the bytes they were parsed from
  have hread : ∀ {β : Type} (π : ProtoInfo → β) (ρ : List UInt8 → β),
      (∀ e ∈ i.infos.zip msg, π (info' e.1) = ρ e.2.2) →
        (i.infos.map fun a => π (info' a)) = msg.map fun c => ρ c.2 := by
    intro β π ρ h
    have hmap := List.map_congr_left h
    conv_lhs => rw [← hfst, List.map_map]
    conv_rhs => rw [← hsnd, List.map_map]
    exact hmap
  refine ⟨info', ?_, h₃, hread _ _ fun e he => ?_,
    hread (fun f => f.len.toNat) List.length fun e he => ?_⟩
  · simp only [paParseProtocolData, hhl, if_neg hne, h₁, Option.bind_eq_bind, Option.bind_some]
  · obtain ⟨hd, hunit⟩ := hdec e he
    exact hd.value_eq (hunit.trans (hu _ (i.snd_mem (mem_fields hfields he))))
  · exact (hdec e he).1.len

end Parse

/-! ## Generating -/

section Generate

/-- A field at the place of a block, ready to be written. -/
structure Ready (f : ProtoInfo) (w : ℕ × List UInt8) : Prop where
  bytePos : f.bytePos.toNat = w.1
  lenUnit : f.lenUnit = 8
  bitPos : f.bitPos = 0
  carries : Carries f w.2

/-- Writing fields that are ready writes their blocks. -/
theorem writeFields_ready (env : Env) {fs : List ProtoInfo} {ws : List (ℕ × List UInt8)}
    (h : List.Forall₂ Ready fs ws) {dp : List UInt8}
    (hle : ∀ w ∈ ws, w.1 + w.2.length ≤ dp.length) :
    writeFields env fs dp = some (blitAll dp ws) := by
  induction h generalizing dp with
  | nil => rfl
  | @cons f w fs ws hf _ ih =>
    obtain ⟨hw, hle⟩ := List.forall_mem_cons.1 hle
    have hfield := paSetProtocolField_byte env hf.lenUnit (Or.inl hf.bitPos) hf.carries f.bytePos dp
    rw [hf.bytePos, memcpyTo_eq hw] at hfield
    have hl := length_blit hw
    have hrest := @ih (blit dp w.1 w.2) fun v hv => by rw [hl]; exact hle v hv
    simp only [writeFields, List.foldlM_cons, hfield, Option.bind_eq_bind, Option.bind_some]
    exact hrest

theorem dataLenOf_ready {fs : List ProtoInfo} {msg : List Content}
    (h : List.Forall₂ Ready fs (blocks 0 msg)) (hne : msg ≠ []) (dataLen : UInt16)
    (hend : messageEnd msg ≤ 255) : (dataLenOf fs dataLen).toNat = messageEnd msg := by
  have hbne : blocks 0 msg ≠ [] := by
    cases msg with
    | nil => exact absurd rfl hne
    | cons c msg => simp [blocks]
  have h₂ := List.getLast?_eq_some_getLast hbne
  obtain ⟨f, h₁, hf⟩ := forall₂_getLast? h h₂
  simp only [messageEnd, h₂] at hend ⊢
  simp only [dataLenOf, h₁]
  rw [UInt16.toNat_add, UInt8.toNat_toUInt16, hf.bytePos, hf.carries.len]
  omega

/-- The places of a run are the blocks of the message. -/
theorem place_ready {l : List ((ProtoInfo × Option UInt32) × Content)} {S : ℕ}
    (h : ∀ p ∈ l, p.1.1.bytePos = p.2.1.bytePos ∧ p.1.1.lenUnit = 8 ∧ p.1.1.bitPos = 0 ∧
      Wire p.1.1 p.2.2 ∧ (p.1.1.resolve p.1.2).len.toNat = p.2.2.length ∧
      p.1.1.shiftBy p.1.2 = UInt8.ofNat (varLen p.2))
    (hle : ∀ w ∈ blocks S (l.map Prod.snd), w.1 + w.2.length ≤ 255) :
    List.Forall₂ Ready (place (UInt8.ofNat S) (l.map Prod.fst)) (blocks S (l.map Prod.snd)) := by
  induction l generalizing S with
  | nil => exact .nil
  | cons p l ih =>
    obtain ⟨⟨f, d⟩, s, bs⟩ := p
    obtain ⟨⟨h₁, h₂, h₃, h₄, h₅, h₆⟩, h⟩ := List.forall_mem_cons.1 h
    obtain ⟨hw, hle⟩ := List.forall_mem_cons.1 hle
    dsimp only at h₁ h₂ h₃ h₄ h₅ h₆ hw
    have hrest := ih h hle
    simp only [List.map_cons, place, blocks]
    refine .cons ⟨?_, h₂, h₃, ⟨h₄.data, h₄.buf⟩, h₅⟩ ?_
    · rw [ProtoInfo.bytePos_resolve, ProtoInfo.shift, h₁, toNat_add_ofNat (by omega)]
    · rw [h₆, ← UInt8.ofNat_add]
      exact hrest

variable {specs : List FieldSpec} {i : Init specs}

/-- **Generating from fields that carry a message writes the blocks of the message.** -/
theorem paGenerate_message (hu : ∀ s ∈ specs, s.lenUnit = 8) (hb : ∀ s ∈ specs, s.bitPos = 0)
    (hnames : (specs.map FieldSpec.name).Nodup) (env : Env) {msg : List Content}
    (hmsg : msg.map Prod.fst = specs) (hne : msg ≠ []) {pa : ProtocolAnalyzer}
    (hhl : pa.paListHeadP = some i.infos) (hmap : pa.hmap = i.analyzer.hmap)
    (hdl : pa.protocolData.length ≤ 255) (hcons : Consistent [] msg)
    (hle : ∀ w ∈ blocks 0 msg, w.1 + w.2.length ≤ pa.protocolData.length)
    (harm : ∀ p ∈ i.fields, Armed p.2 0 (pa.info p.1))
    (hwire : ∀ e ∈ i.infos.zip msg, Wire (pa.info e.1) e.2.2) :
    ∃ info' len, paGenerateProtocolData env pa = some (0, { pa with
        protocolData := blitAll pa.protocolData (blocks 0 msg)
        info := info'
        protocolDataLen := len }) ∧ len.toNat = messageEnd msg := by
  have hsnd := i.map_snd_zip hmsg
  have hfst := i.map_fst_zip hmsg
  have hfields := (i.fields_eq_map hmsg).symm
  set E := i.infos.zip msg with hE
  have hmem : ∀ e ∈ E, (e.1, e.2.1) ∈ i.fields := fun e he => mem_fields hfields he
  -- the message lies in the buffer, so each of its fields does
  have hlen : ∀ e ∈ E, e.2.2.length ≤ 255 := by
    intro e he
    obtain ⟨w, hw, hwl⟩ := exists_mem_blocks (S := 0) (hsnd ▸ List.mem_map_of_mem he : e.2 ∈ msg)
    have := hle w hw
    rw [← hwl]
    omega
  obtain ⟨info', h₁, -, h₃⟩ := paGenerateProtocolData_eq i.nodup_infos hhl
    (i.finds hmap env.keyStr i.infos) (i.finds hmap env.flagKeyStr i.infos)
  generalize hd : pa.foundData _ = d at h₁
  -- each pass finds the length of the bytes of its field
  have hfound : ∀ e ∈ E, d e.1 =
      if e.2.1.index.isSome then some (UInt32.ofNat e.2.2.length) else none := by
    intro e he
    obtain ⟨pre, post, hsplit⟩ := List.append_of_mem he
    have hsized : Sized (pre.map Prod.snd) e.2 :=
      hcons.sized (show msg = pre.map Prod.snd ++ e.2 :: post.map Prod.snd by
        rw [← hsnd, hsplit, List.map_append]
        rfl)
    have hpre : ∀ t ∈ pre, t ∈ E := fun t ht => hsplit ▸ List.mem_append_left _ ht
    rw [← hd]
    exact foundData_message hnames env.keyStr (fun t ht => hmem t (hpre t ht)) hmap hsized
      (harm _ (hmem e he)) fun t ht => (hwire t (hpre t ht)).data
  have hready : List.Forall₂ Ready (i.infos.map fun a => (info' a).core) (blocks 0 msg) := by
    have hplace := place_ready (S := 0)
      (l := E.map fun e => (((pa.info e.1).core, d e.1), e.2)) (fun p hp => ?_) ?_
    · rw [List.map_map, List.map_map] at hplace
      have hmsg' : E.map (Prod.snd ∘ fun e => (((pa.info e.1).core, d e.1), e.2)) = msg := hsnd
      have hplaced : E.map (Prod.fst ∘ fun e => (((pa.info e.1).core, d e.1), e.2)) =
          i.infos.map fun a => ((pa.info a).core, d a) := by
        rw [← hfst, List.map_map]
        rfl
      rw [hmsg', hplaced] at hplace
      exact h₁ ▸ hplace
    · obtain ⟨e, he, rfl⟩ := List.mem_map.1 hp
      have hf := hmem e he
      have hs := i.snd_mem hf
      have ha := harm _ hf
      have hfix : e.2.1.index = none → e.2.2.length = e.2.1.len.toNat :=
        hcons.length_eq e.2 (hsnd ▸ List.mem_map_of_mem he)
      obtain ⟨hrl, hrs⟩ := ha.resolve _ (hu _ hs) (hlen e he) (hfound e he) hfix
      have hpos : (pa.info e.1).bytePos = e.2.1.bytePos := by simpa using ha.bytePos
      exact ⟨hpos, ha.lenUnit.trans (hu _ hs), ha.bitPos.trans (hb _ hs),
        ⟨(hwire e he).data, (hwire e he).buf⟩, hrl, hrs⟩
    · intro w hw
      rw [List.map_map, show E.map (Prod.snd ∘ fun e => (((pa.info e.1).core, d e.1), e.2)) =
        msg from hsnd] at hw
      exact (hle w hw).trans hdl
  have hend : messageEnd msg ≤ 255 := by
    unfold messageEnd
    split
    · omega
    · rename_i w hw
      have := hle w (List.mem_of_getLast? hw)
      omega
  refine ⟨info', dataLenOf (i.infos.map info') env.dataLen, ?_, ?_⟩
  · rw [h₃, ← writeFields_map_core, List.map_map]
    rw [show writeFields env (i.infos.map (ProtoInfo.core ∘ info')) pa.protocolData = _ from
      writeFields_ready env hready hle]
    rfl
  · rw [← dataLenOf_map_core, List.map_map]
    exact dataLenOf_ready hready hne _ hend

end Generate

end HpiDriver
