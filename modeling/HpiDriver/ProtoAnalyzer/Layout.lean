import HpiDriver.ProtoAnalyzer.Assign
import HpiDriver.ProtoAnalyzer.Layers
import HpiDriver.ProtoAnalyzer.Message

/-!
# Layouts

Where the fields of a message are, for any format of byte and bit fields and any values: a slot is
a field with its value, the length that its lookup finds and the number of bytes that the fields in
front of it have moved it by. From fields that are prepared for it, generating writes the slots one
over the other (`generate_layout`).

What a lookup looks for is not determined by the format when the name of the length field has ten
bytes or more, so a layout is given by the values and by the ten bytes that each lookup looks for.
-/

namespace HpiDriver

open Blocks BigEndian BitString

/-! ## Slots -/

/-- The ten bytes that the lookup for a variable-length field looks for. -/
abbrev Key := Option (List UInt8)

/-- What the lookup for a field at an address looks for in a call. -/
def fieldKey (env : Env) (p : Addr × FieldSpec) : Key :=
  p.2.index.map fun n => keyBytes n.chars (env.keyStr p.1)

/-- The keys of the fields of an analyzer in a call. -/
def Init.keys {specs : List FieldSpec} (i : Init specs) (env : Env) : List Key :=
  i.fields.map (fieldKey env)

/-- The number in `data` that a field has when it was given the value. -/
def FieldValue.number : FieldValue → UInt32
  | .int n => n
  | .buf _ => 0

/-- The length field that a lookup finds. -/
def lengthField (vals : List (FieldSpec × FieldValue)) (k : Key) :
    Option (FieldSpec × FieldValue) :=
  k.bind fun k => vals.reverse.find? fun v => v.1.name.array.take 10 = k

/-- The length that a lookup finds. -/
def lengthData (vals : List (FieldSpec × FieldValue)) (k : Key) : Option UInt32 :=
  (lengthField vals k).map fun v => v.2.number

/-- The length fields hold numbers. -/
def NumbersFound (vals : List (FieldSpec × FieldValue)) (keys : List Key) : Prop :=
  ∀ k ∈ keys, ∀ v ∈ lengthField vals k, v.2 = .int v.2.number

instance (vals : List (FieldSpec × FieldValue)) (keys : List Key) :
    Decidable (NumbersFound vals keys) :=
  inferInstanceAs (Decidable (∀ k ∈ keys, _))

/-- A field in a message: its value, the length that is found for it and how far the fields in
front of it move it. -/
structure Slot where
  spec : FieldSpec
  value : FieldValue
  data : Option UInt32
  moved : ℕ

namespace Slot

variable (p : Slot)

/-- The length of the field, in its unit. -/
def len : ℕ :=
  match p.data with
  | none => p.spec.len.toNat
  | some n => n.toNat

/-- How far the field moves the ones behind it. -/
def shift : ℕ :=
  match p.data with
  | none => 0
  | some n => n.toNat * p.spec.lenUnit.toNat / 8

/-- The byte that the field is at. -/
def pos : ℕ := p.spec.bytePos.toNat + p.moved

/-- The layer that the field is; a field that takes a buffer is written only at a whole byte. -/
def layer : Layer :=
  if p.spec.lenUnit = 8 then
    if p.spec.bitPos = 0 ∨ p.len ≤ 4 then byteLayer p.pos (p.value.bytes p.len)
    else skippedLayer p.pos p.len
  else bitLayer (startBit p.pos p.spec.bitPos) p.len p.value.number.toNat

/-- The value is in range and the field lies in the buffer. -/
def Fits : Prop :=
  if p.spec.lenUnit = 8 then p.value.Fits p.len ∧ p.pos + p.len ≤ MAX_PROTO_DATA_LEN
  else p.value = .int p.value.number ∧ p.value.number.toNat < 2 ^ p.len ∧ p.len ≤ 32 ∧
    startBit p.pos p.spec.bitPos + p.len ≤ 8 * MAX_PROTO_DATA_LEN

instance : Decidable p.Fits := by
  unfold Fits
  infer_instance

end Slot

/-- The slots of the fields, moved by `S` and by the fields in front of them. -/
def layoutFrom (vals : List (FieldSpec × FieldValue)) :
    ℕ → List ((FieldSpec × FieldValue) × Key) → List Slot
  | _, [] => []
  | S, (v, k) :: l =>
    ⟨v.1, v.2, lengthData vals k, S⟩ ::
      layoutFrom vals (S + (⟨v.1, v.2, lengthData vals k, S⟩ : Slot).shift) l

/-- The slots of the values, which the lookups find with the keys. -/
def layout (vals : List (FieldSpec × FieldValue)) (keys : List Key) : List Slot :=
  layoutFrom vals 0 (vals.zip keys)

/-- A byte field, or a bit field that begins at a bit of its byte. -/
def FieldSpec.ByteOrBit (s : FieldSpec) : Prop := s.lenUnit = 8 ∨ s.lenUnit = 1 ∧ s.bitPos.toNat ≤ 7

instance (s : FieldSpec) : Decidable s.ByteOrBit :=
  inferInstanceAs (Decidable (s.lenUnit = 8 ∨ _))

/-- A format of byte fields and bit fields. -/
def FieldFormat (specs : List FieldSpec) : Prop := ∀ s ∈ specs, s.ByteOrBit

instance (specs : List FieldSpec) : Decidable (FieldFormat specs) :=
  inferInstanceAs (Decidable (∀ s ∈ specs, _))

/-- Where the last field ends, its length counted in its unit. -/
def reportedLen (l : List Slot) : ℕ :=
  match l.getLast? with
  | none => 0
  | some p => p.pos + p.len

section Layout

variable {vals : List (FieldSpec × FieldValue)}

theorem spec_mem_of_mem_layoutFrom {S : ℕ} {l : List ((FieldSpec × FieldValue) × Key)} {p : Slot}
    (h : p ∈ layoutFrom vals S l) : p.spec ∈ l.map fun v => v.1.1 := by
  induction l generalizing S with
  | nil => simp [layoutFrom] at h
  | cons v l ih =>
    rcases List.mem_cons.1 h with rfl | h
    · exact List.mem_cons_self
    · exact List.mem_cons_of_mem _ (ih h)

/-- The last field is moved by all the fields in front of it. -/
theorem moved_getLast {S : ℕ} {l : List ((FieldSpec × FieldValue) × Key)} {p : Slot}
    (h : (layoutFrom vals S l).getLast? = some p) :
    p.moved = S + (((layoutFrom vals S l).dropLast).map Slot.shift).sum := by
  induction l generalizing S with
  | nil => simp [layoutFrom] at h
  | cons v l ih =>
    obtain ⟨v, k⟩ := v
    cases l with
    | nil =>
      obtain rfl : _ = p := by simpa [layoutFrom] using h
      simp [layoutFrom]
    | cons w l =>
      have hne : layoutFrom vals (S + (⟨v.1, v.2, lengthData vals k, S⟩ : Slot).shift) (w :: l) ≠
          [] := List.cons_ne_nil _ _
      rw [layoutFrom, List.getLast?_cons_of_ne_nil hne] at h
      rw [layoutFrom, List.dropLast_cons_of_ne_nil hne, List.map_cons, List.sum_cons, ih h]
      omega

/-- When no field but the last has moved the ones behind it, none is moved. -/
theorem moved_eq {S : ℕ} {l : List ((FieldSpec × FieldValue) × Key)}
    (h : ∀ p ∈ (layoutFrom vals S l).dropLast, p.shift = 0) :
    ∀ p ∈ layoutFrom vals S l, p.moved = S := by
  induction l generalizing S with
  | nil => simp [layoutFrom]
  | cons v l ih =>
    obtain ⟨v, k⟩ := v
    refine List.forall_mem_cons.2 ⟨rfl, ?_⟩
    cases l with
    | nil => simp [layoutFrom]
    | cons w l =>
      have hne : layoutFrom vals (S + (⟨v.1, v.2, lengthData vals k, S⟩ : Slot).shift) (w :: l) ≠
          [] := List.cons_ne_nil _ _
      rw [layoutFrom, List.dropLast_cons_of_ne_nil hne] at h
      obtain ⟨hs, h⟩ := List.forall_mem_cons.1 h
      have := ih h
      rwa [hs, Nat.add_zero] at this ⊢

/-- Whether a length is found does not depend on the values. -/
theorem lengthData_eq_none {vals' : List (FieldSpec × FieldValue)}
    (h : vals.map Prod.fst = vals'.map Prod.fst) (k : Key) :
    lengthData vals k = none ↔ lengthData vals' k = none := by
  have hspec : ∀ vals : List (FieldSpec × FieldValue), lengthData vals k = none ↔
      (k.bind fun k => (vals.map Prod.fst).reverse.find? fun s => s.name.array.take 10 = k) =
        none := by
    intro vals
    cases k with
    | none => simp [lengthData, lengthField]
    | some k =>
      simp only [lengthData, lengthField, Option.bind_some, Option.map_eq_none_iff,
        ← List.map_reverse, List.find?_map]
      rfl
  rw [hspec, hspec, h]

theorem length_layoutFrom (S : ℕ) (l : List ((FieldSpec × FieldValue) × Key)) :
    (layoutFrom vals S l).length = l.length := by
  induction l generalizing S with
  | nil => rfl
  | cons v l ih => exact congrArg (· + 1) (ih _)

end Layout

/-! ## Fields prepared for a run -/

/-- A field in front of a run that finds the length `d` for it, moved by `S`. -/
structure Prepared (s : FieldSpec) (S : UInt8) (d : Option UInt32) (f : ProtoInfo) : Prop where
  bytePos : f.bytePos = s.bytePos + S
  bitPos : f.bitPos = s.bitPos
  lenUnit : f.lenUnit = s.lenUnit
  vlenthIndex : f.vlenthIndex = s.info.vlenthIndex
  vlenthFlag : f.vlenthFlag = s.index.isSome
  vlenthFlagBak : f.vlenthFlagBak = s.index.isSome
  len : d = none → f.len = s.len
  bufOk : f.BufOk

/-- The placed field `g` is what the slot `p` says. -/
structure PlacedAt (g : ProtoInfo) (p : Slot) : Prop where
  laid : Laid g p.layer
  bytePos : g.bytePos.toNat = p.pos
  len : g.len.toNat = p.len

theorem Slot.Fits.pos_le {p : Slot} (hfit : p.Fits) (hf : p.spec.ByteOrBit) :
    p.pos ≤ MAX_PROTO_DATA_LEN ∧ p.len ≤ MAX_PROTO_DATA_LEN := by
  unfold Slot.Fits at hfit
  simp only [MAX_PROTO_DATA_LEN, startBit] at hfit ⊢
  rcases hf with hu | ⟨hu, hb⟩
  · rw [if_pos hu] at hfit
    omega
  · rw [if_neg (by rw [hu]; decide)] at hfit
    omega

/-- The bits that a field in the message occupies. -/
theorem Slot.Fits.layer_eq {p : Slot} (hfit : p.Fits) :
    p.layer.start = (if p.spec.lenUnit = 8 then 8 * p.pos else startBit p.pos p.spec.bitPos) ∧
      p.layer.len = if p.spec.lenUnit = 8 then 8 * p.len else p.len := by
  unfold Slot.Fits at hfit
  unfold Slot.layer
  by_cases hu : p.spec.lenUnit = 8
  · rw [if_pos hu] at hfit
    rw [if_pos hu, if_pos hu, if_pos hu]
    split_ifs
    · exact ⟨rfl, congrArg (8 * ·) hfit.1.length_bytes⟩
    · exact ⟨rfl, rfl⟩
  · rw [if_neg hu, if_neg hu, if_neg hu]
    exact ⟨rfl, rfl⟩

theorem Slot.Fits.layer_le {p : Slot} (hfit : p.Fits) :
    p.layer.start + p.layer.len ≤ 8 * MAX_PROTO_DATA_LEN := by
  obtain ⟨hstart, hlen⟩ := hfit.layer_eq
  rw [hstart, hlen]
  unfold Slot.Fits at hfit
  split_ifs at hfit ⊢
  · omega
  · exact hfit.2.2.2

section Pass

variable {p : Slot} {f : ProtoInfo}

/-- A pass puts the field at the byte of its slot. -/
theorem Slot.bytePos_pass (hb : f.bytePos = p.spec.bytePos) (hle : p.pos ≤ 255) :
    ((f.shift (UInt8.ofNat p.moved)).resolve p.data).bytePos.toNat = p.pos := by
  rw [Slot.pos] at hle
  rw [ProtoInfo.bytePos_resolve, ProtoInfo.shift, hb, toNat_add_ofNat (by omega)]
  rfl

/-- A pass gives the field the length of its slot. -/
theorem Slot.len_pass (hl : p.data = none → f.len = p.spec.len) (hle : p.len ≤ 255) :
    ((f.shift (UInt8.ofNat p.moved)).resolve p.data).len.toNat = p.len := by
  unfold Slot.len at hle ⊢
  cases hd : p.data with
  | none => exact congrArg UInt16.toNat (hl hd)
  | some n =>
    rw [hd] at hle
    dsimp only at hle
    change n.toUInt16.toNat = n.toNat
    rw [UInt32.toNat_toUInt16]
    omega

/-- A pass moves the fields behind by the shift of its slot. -/
theorem Slot.shiftBy_pass (hu : f.lenUnit = p.spec.lenUnit) (hle : p.len ≤ 255) :
    f.shiftBy p.data = UInt8.ofNat p.shift := by
  unfold Slot.len at hle
  unfold Slot.shift
  cases hd : p.data with
  | none => rfl
  | some n =>
    rw [hd] at hle
    dsimp only at hle ⊢
    have hunit := p.spec.lenUnit.toNat_lt
    have hmul : n.toNat * p.spec.lenUnit.toNat ≤ 255 * 255 :=
      Nat.mul_le_mul hle (by omega)
    change (n * f.lenUnit.toUInt32 / 8).toUInt8 = _
    refine UInt8.toNat_inj.1 ?_
    rw [hu, UInt32.toNat_toUInt8, UInt8.toNat_ofNat', UInt32.toNat_div, UInt32.toNat_mul,
      UInt8.toNat_toUInt32, show (8 : UInt32).toNat = 8 from rfl,
      Nat.mod_eq_of_lt (show n.toNat * p.spec.lenUnit.toNat < 2 ^ 32 by omega)]

end Pass

/-- A pass over a prepared field places it as its slot says and moves the fields behind it. -/
theorem Prepared.place {s : FieldSpec} {v : FieldValue} {d : Option UInt32} {f : ProtoInfo}
    {S : ℕ} (h : Prepared s 0 d f) (hv : Given v f)
    (hf : s.ByteOrBit) (hfit : (⟨s, v, d, S⟩ : Slot).Fits) :
    PlacedAt ((f.shift (UInt8.ofNat S)).resolve d) ⟨s, v, d, S⟩ ∧
      UInt8.ofNat S + f.shiftBy d = UInt8.ofNat (S + (⟨s, v, d, S⟩ : Slot).shift) := by
  set p : Slot := ⟨s, v, d, S⟩ with hp
  obtain ⟨hpos, hlen⟩ := hfit.pos_le hf
  simp only [MAX_PROTO_DATA_LEN] at hpos hlen
  have hbp : ((f.shift (UInt8.ofNat S)).resolve d).bytePos.toNat = p.pos :=
    p.bytePos_pass (h.bytePos.trans (UInt8.add_zero _)) (by omega)
  have hl : ((f.shift (UInt8.ofNat S)).resolve d).len.toNat = p.len :=
    p.len_pass h.len (by omega)
  refine ⟨⟨?_, hbp, hl⟩, ?_⟩
  · unfold Slot.layer
    unfold Slot.Fits at hfit
    have hbit : ((f.shift (UInt8.ofNat S)).resolve d).bitPos = p.spec.bitPos := h.bitPos
    rcases hf with hu | ⟨hu, hb⟩
    · have hu' : p.spec.lenUnit = 8 := hu
      rw [if_pos hu'] at hfit ⊢
      have hbytes : (v.bytes p.len).length = p.len := hfit.1.length_bytes
      split_ifs with hwritten
      · rw [← hbp]
        have hw : Wire f (v.bytes p.len) := hfit.1.wire hv
        have hskip : ((f.shift (UInt8.ofNat S)).resolve d).bitPos = 0 ∨
            (v.bytes p.len).length ≤ 4 := by
          rwa [hbit, hbytes]
        exact .byte (h.lenUnit.trans hu) hskip ⟨⟨hw.data, hw.buf⟩, hl.trans hbytes.symm⟩
      · -- the field is too long for a number and does not begin at a whole byte
        rw [not_or, not_le] at hwritten
        rw [← hbp, ← hl]
        exact .skipped (h.lenUnit.trans hu) (hbit ▸ hwritten.1) (hl ▸ hwritten.2)
    · have hu' : ¬ p.spec.lenUnit = 8 := by
        rw [show p.spec.lenUnit = 1 from hu]
        decide
      rw [if_neg hu'] at hfit ⊢
      obtain ⟨hint, hdata, hlen32, -⟩ := hfit
      have hd : f.data = v.number := by
        have hv' := hv
        rw [show v = .int v.number from hint] at hv'
        exact hv'
      have hb' : f.bitPos = p.spec.bitPos := h.bitPos
      rw [← hbp, ← hb', ← hl, ← hd]
      rw [← hl, ← hd] at hdata
      refine .bit (h.lenUnit.trans hu) ?_ (by rw [hl]; exact hlen32) hdata
      change f.bitPos.toNat < 8
      rw [h.bitPos]
      omega
  · rw [UInt8.ofNat_add]
    exact congrArg _ (p.shiftBy_pass h.lenUnit (by omega))

/-- Generating from prepared fields places them as the layout says. -/
theorem place_layout {vals : List (FieldSpec × FieldValue)}
    {E : List (ProtoInfo × (FieldSpec × FieldValue) × Key)} {S : ℕ}
    (h : ∀ e ∈ E, Prepared e.2.1.1 0 (lengthData vals e.2.2) e.1 ∧ Given e.2.1.2 e.1 ∧
      e.2.1.1.ByteOrBit)
    (hfits : ∀ p ∈ layoutFrom vals S (E.map Prod.snd), p.Fits) :
    place (UInt8.ofNat S) (E.map fun e => (e.1, lengthData vals e.2.2)) =
        ((E.zip (layoutFrom vals S (E.map Prod.snd))).map fun q =>
          (q.1.1.shift (UInt8.ofNat q.2.moved)).resolve (lengthData vals q.1.2.2)) ∧
      ∀ q ∈ E.zip (layoutFrom vals S (E.map Prod.snd)),
        PlacedAt ((q.1.1.shift (UInt8.ofNat q.2.moved)).resolve (lengthData vals q.1.2.2)) q.2 := by
  induction E generalizing S with
  | nil => exact ⟨rfl, by simp⟩
  | cons e E ih =>
    obtain ⟨f, v, k⟩ := e
    obtain ⟨⟨hp, hv, hf⟩, h⟩ := List.forall_mem_cons.1 h
    obtain ⟨hfit, hfits⟩ := List.forall_mem_cons.1 hfits
    obtain ⟨hplaced, hshift⟩ := hp.place hv hf hfit
    obtain ⟨h₁, h₂⟩ := ih h hfits
    refine ⟨?_, List.forall_mem_cons.2 ⟨hplaced, h₂⟩⟩
    simp only [List.map_cons, HpiDriver.place, layoutFrom, List.zip_cons_cons]
    rw [hshift, h₁]

/-! ## A run over prepared fields -/

theorem zip_zip_map {α β γ : Type*} (l : List α) (m : List β) (g : α × β → γ) :
    l.zip (m.zip ((l.zip m).map g)) = (l.zip m).map fun e => (e.1, e.2, g e) := by
  induction l generalizing m with
  | nil => rfl
  | cons a l ih =>
    cases m with
    | nil => rfl
    | cons b m => simp [ih]

section Run

variable {specs : List FieldSpec} {vals : List (FieldSpec × FieldValue)}

/-- The key of a field. -/
theorem Init.zip_keys (i : Init specs) (hvals : vals.map Prod.fst = specs) (env : Env) :
    i.infos.zip (vals.zip (i.keys env)) = (i.infos.zip vals).map fun e =>
      (e.1, e.2, fieldKey env (e.1, e.2.1)) := by
  have hfields := i.fields_eq_map hvals
  have hkeys : i.keys env = (i.infos.zip vals).map fun e => fieldKey env (e.1, e.2.1) := by
    rw [keys, hfields, List.map_map]
    rfl
  rw [hkeys, zip_zip_map]

/-- The fields that hold the values, ready for the lookups. -/
def Holding (i : Init specs) (vals : List (FieldSpec × FieldValue)) (pa : ProtocolAnalyzer) :
    Prop :=
  ∀ e ∈ i.infos.zip vals, Given e.2.2 (pa.info e.1) ∧
    (pa.info e.1).vlenthFlag = e.2.1.index.isSome ∧
    (pa.info e.1).vlenthIndex = e.2.1.info.vlenthIndex

/-- The length fields have the numbers of their values, whatever they hold. -/
def NumbersHeld (i : Init specs) (vals : List (FieldSpec × FieldValue)) (keys : List Key)
    (pa : ProtocolAnalyzer) : Prop :=
  ∀ k ∈ keys, ∀ e ∈ i.infos.zip vals, lengthField vals k = some e.2 →
    (pa.info e.1).data = e.2.2.number

theorem NumbersFound.held {i : Init specs} {keys : List Key} (hnum : NumbersFound vals keys)
    {pa : ProtocolAnalyzer} (hh : Holding i vals pa) : NumbersHeld i vals keys pa := by
  intro k hk e he hl
  have hint : e.2.2 = .int e.2.2.number := hnum k hk e.2 hl
  have hg := (hh e he).1
  rw [hint] at hg
  exact hg

/-- The lookups find the lengths that the values give. -/
theorem foundData_eq {i : Init specs} (hvals : vals.map Prod.fst = specs) {env : Env}
    {pa : ProtocolAnalyzer} (hnum : NumbersHeld i vals (i.keys env) pa) (hh : Holding i vals pa) :
    ∀ e ∈ i.infos.zip (vals.zip (i.keys env)),
      pa.foundData (fun a => i.tableFind (keyBytes (cString (pa.info a).vlenthIndex)
        (env.keyStr a))) e.1 = lengthData vals e.2.2 := by
  have hkey : ∀ e ∈ i.infos.zip (vals.zip (i.keys env)), e.2.2 ∈ i.keys env := fun e he =>
    (List.of_mem_zip (List.of_mem_zip he).2).2
  intro e he
  have hk := hkey e he
  rw [i.zip_keys hvals] at he
  obtain ⟨e, he', rfl⟩ := List.mem_map.1 he
  obtain ⟨-, hflag, hindex⟩ := hh e he'
  rw [ProtocolAnalyzer.foundData, hflag]
  simp only [fieldKey] at hk ⊢
  cases hi : e.2.1.index with
  | none => rfl
  | some n =>
    rw [hi] at hk
    simp only [Option.isSome_some, if_true, Option.map_some]
    rw [hindex, e.2.1.vlenthIndex_info hi]
    -- both searches go through the fields with their values
    have hfields := i.fields_eq_map hvals
    have hsnd : vals = (i.infos.zip vals).map Prod.snd :=
      (i.map_snd_zip hvals).symm
    have hl : lengthField vals (some (keyBytes n.chars (env.keyStr e.1))) =
        ((i.infos.zip vals).reverse.find? fun e' =>
          e'.2.1.name.array.take 10 = keyBytes n.chars (env.keyStr e.1)).map Prod.snd := by
      rw [lengthField, Option.bind_some]
      conv_lhs => rw [hsnd]
      rw [← List.map_reverse, List.find?_map]
      rfl
    have ht : i.tableFind (keyBytes n.chars (env.keyStr e.1)) =
        ((i.infos.zip vals).reverse.find? fun e' =>
          e'.2.1.name.array.take 10 = keyBytes n.chars (env.keyStr e.1)).map Prod.fst := by
      rw [Init.tableFind, hfields, ← List.map_reverse, List.find?_map, Option.map_map]
      rfl
    rw [lengthData, hl, ht]
    cases hf : (i.infos.zip vals).reverse.find? fun e' => decide (e'.2.1.name.array.take 10 =
        keyBytes n.chars (env.keyStr e.1)) with
    | none => rfl
    | some w =>
      have hw : w ∈ i.infos.zip vals := List.mem_reverse.1 (List.mem_of_find?_eq_some hf)
      exact congrArg some (hnum _ hk w hw (hl.trans (by rw [hf]; rfl)))

theorem Prepared.core {s : FieldSpec} {S : UInt8} {d : Option UInt32} {f : ProtoInfo}
    (h : Prepared s S d f) : Prepared s S d f.core :=
  ⟨h.bytePos, h.bitPos, h.lenUnit, h.vlenthIndex, h.vlenthFlag, h.vlenthFlagBak, h.len, h.bufOk⟩

/-- Generating places the fields that hold the values, wherever they are. -/
theorem generate_place {i : Init specs} (hvals : vals.map Prod.fst = specs) (env : Env)
    {pa : ProtocolAnalyzer} (hnum : NumbersHeld i vals (i.keys env) pa)
    (hhl : pa.paListHeadP = some i.infos) (hmap : pa.hmap = i.analyzer.hmap)
    (hh : Holding i vals pa) :
    ∃ info', (i.infos.map fun a => (info' a).core) =
        place 0 ((i.infos.zip (vals.zip (i.keys env))).map fun e =>
          ((pa.info e.1).core, lengthData vals e.2.2)) ∧
      paGenerateProtocolData env pa =
        (writeFields env (i.infos.map info') pa.protocolData).map fun dp =>
          (0, { pa with
            protocolData := dp
            info := info'
            protocolDataLen := dataLenOf (i.infos.map info') env.dataLen }) := by
  obtain ⟨info', h₁, -, h₃⟩ := paGenerateProtocolData_eq i.nodup_infos hhl
    (i.finds hmap env.keyStr i.infos) (i.finds hmap env.flagKeyStr i.infos)
  refine ⟨info', h₁.trans (congrArg (place 0) ?_), h₃⟩
  have hfst : (i.infos.zip (vals.zip (i.keys env))).map Prod.fst = i.infos := by
    rw [i.zip_keys hvals, List.map_map]
    exact i.map_fst_zip hvals
  conv_lhs => rw [← hfst]
  rw [List.map_map]
  exact List.map_congr_left fun e he => Prod.ext rfl (foundData_eq hvals hnum hh e he)

/-- The fields of a format with their addresses, values, keys and slots. -/
def Init.slots (i : Init specs) (env : Env) (vals : List (FieldSpec × FieldValue)) :
    List ((Addr × (FieldSpec × FieldValue) × Key) × Slot) :=
  (i.infos.zip (vals.zip (i.keys env))).zip (layout vals (i.keys env))

theorem Init.length_keys (i : Init specs) (env : Env) : (i.keys env).length = specs.length := by
  rw [keys, List.length_map, i.length_fields]

/-- Index names shorter than ten bytes are looked for as they are, in every call. -/
theorem Init.keys_eq_keys (hshort : ∀ s ∈ specs, ∀ n ∈ s.index, n.chars.length < 10)
    (i j : Init specs) (env env' : Env) : i.keys env = j.keys env' := by
  have h : ∀ (i : Init specs) (env : Env), i.keys env =
      specs.map fun s => s.index.map fun n => keyBytes n.chars fun _ => 0 := by
    intro i env
    conv_rhs => rw [← i.map_snd_fields]
    rw [keys, List.map_map]
    refine List.map_congr_left fun p hp => Option.map_congr fun n hn => ?_
    rw [keyBytes, keyBytes, if_pos (hshort p.2 (i.snd_mem hp) n hn),
      if_pos (hshort p.2 (i.snd_mem hp) n hn)]
  rw [h i, h j]

section Slots

variable (i : Init specs) (hvals : vals.map Prod.fst = specs) (env : Env)
include hvals

theorem Init.length_zip_keys : (vals.zip (i.keys env)).length = specs.length := by
  have hlen : vals.length = specs.length := by rw [← hvals, List.length_map]
  rw [List.length_zip, i.length_keys, hlen, Nat.min_self]

theorem Init.map_snd_zip_keys :
    (i.infos.zip (vals.zip (i.keys env))).map Prod.snd = vals.zip (i.keys env) :=
  List.map_snd_zip (by rw [i.length_zip_keys hvals, i.length_infos])

theorem Init.length_layout : (layout vals (i.keys env)).length = specs.length := by
  rw [layout, length_layoutFrom, i.length_zip_keys hvals]

theorem Init.map_fst_slots :
    (i.slots env vals).map Prod.fst = i.infos.zip (vals.zip (i.keys env)) := by
  refine List.map_fst_zip ?_
  rw [List.length_zip, i.length_zip_keys hvals, i.length_layout hvals, i.length_infos,
    Nat.min_self]

theorem Init.map_snd_slots : (i.slots env vals).map Prod.snd = layout vals (i.keys env) := by
  refine List.map_snd_zip ?_
  rw [List.length_zip, i.length_zip_keys hvals, i.length_layout hvals, i.length_infos,
    Nat.min_self]

theorem Init.map_addr_slots : (i.slots env vals).map (fun q => q.1.1) = i.infos := by
  have h : (i.slots env vals).map (fun q => q.1.1) =
      ((i.slots env vals).map Prod.fst).map Prod.fst := by
    rw [List.map_map]
    rfl
  rw [h, i.map_fst_slots hvals]
  exact List.map_fst_zip (by rw [i.length_zip_keys hvals, i.length_infos])

theorem Init.map_val_slots :
    (i.slots env vals).map (fun q => q.1.2) = vals.zip (i.keys env) := by
  rw [← i.map_snd_zip_keys hvals, ← i.map_fst_slots hvals, List.map_map]
  rfl

variable {env}

/-- A slot belongs to a field with its value and its key. -/
theorem Init.eq_of_mem_slots {q : (Addr × (FieldSpec × FieldValue) × Key) × Slot}
    (hq : q ∈ i.slots env vals) :
    ∃ e ∈ i.infos.zip vals, (e.1, e.2, fieldKey env (e.1, e.2.1)) = q.1 := by
  have hq' := List.mem_map_of_mem (f := Prod.fst) hq
  rw [i.map_fst_slots hvals, i.zip_keys hvals] at hq'
  exact List.mem_map.1 hq'

theorem Init.mem_fields_of_mem_slots {q : (Addr × (FieldSpec × FieldValue) × Key) × Slot}
    (hq : q ∈ i.slots env vals) :
    (q.1.1, q.1.2.1.1) ∈ i.fields ∧ q.1.2.2 = fieldKey env (q.1.1, q.1.2.1.1) := by
  obtain ⟨e, he, heq⟩ := i.eq_of_mem_slots hvals hq
  rw [← heq, i.fields_eq_map hvals]
  exact ⟨List.mem_map_of_mem he, rfl⟩

theorem Init.mem_layout_of_mem_slots {q : (Addr × (FieldSpec × FieldValue) × Key) × Slot}
    (hq : q ∈ i.slots env vals) : q.2 ∈ layout vals (i.keys env) := by
  rw [← i.map_snd_slots hvals]
  exact List.mem_map_of_mem hq

theorem Init.spec_mem_of_mem_layout {p : Slot} (hp : p ∈ layout vals (i.keys env)) :
    p.spec ∈ specs := by
  obtain ⟨v, hv, hvs⟩ := List.mem_map.1 (spec_mem_of_mem_layoutFrom hp)
  rw [← hvs, ← hvals]
  exact List.mem_map_of_mem (List.of_mem_zip hv).1

variable (env)

/-- A field with its value has a slot. -/
theorem Init.exists_slot_of_mem_zip {e : Addr × FieldSpec × FieldValue}
    (he : e ∈ i.infos.zip vals) :
    ∃ q ∈ i.slots env vals, q.1 = (e.1, e.2, fieldKey env (e.1, e.2.1)) := by
  have hmem : (e.1, e.2, fieldKey env (e.1, e.2.1)) ∈ (i.slots env vals).map Prod.fst := by
    rw [i.map_fst_slots hvals, i.zip_keys hvals]
    exact List.mem_map.2 ⟨e, he, rfl⟩
  exact List.mem_map.1 hmem

/-- A field has a slot. -/
theorem Init.exists_slot {p : Addr × FieldSpec} (hp : p ∈ i.fields) :
    ∃ q ∈ i.slots env vals, q.1.1 = p.1 ∧ q.1.2.1.1 = p.2 ∧ q.1.2.2 = fieldKey env p := by
  rw [i.fields_eq_map hvals] at hp
  obtain ⟨e, he, rfl⟩ := List.mem_map.1 hp
  obtain ⟨q, hq, heq⟩ := i.exists_slot_of_mem_zip hvals env he
  exact ⟨q, hq, by rw [heq], by rw [heq], by rw [heq]⟩

end Slots

theorem holding_of_slots {i : Init specs} (hvals : vals.map Prod.fst = specs) (env : Env)
    {pa : ProtocolAnalyzer} {S : Addr → UInt8} (h : ∀ q ∈ i.slots env vals,
      Prepared q.1.2.1.1 (S q.1.1) (lengthData vals q.1.2.2) (pa.info q.1.1) ∧
        Given q.1.2.1.2 (pa.info q.1.1)) : Holding i vals pa := by
  intro e he
  obtain ⟨q, hq, hqe⟩ := i.exists_slot_of_mem_zip hvals env he
  obtain ⟨hp, hg⟩ := h q hq
  rw [hqe] at hp hg
  exact ⟨hg, hp.vlenthFlag, hp.vlenthIndex⟩

/-- **Generating from prepared fields writes the slots of the values.** -/
theorem generate_layout {i : Init specs} (hf : FieldFormat specs)
    (hvals : vals.map Prod.fst = specs) (env : Env)
    (hfits : ∀ p ∈ layout vals (i.keys env), p.Fits) {pa : ProtocolAnalyzer}
    (hnum : NumbersHeld i vals (i.keys env) pa)
    (hhl : pa.paListHeadP = some i.infos) (hmap : pa.hmap = i.analyzer.hmap)
    (hdl : pa.protocolData.length = MAX_PROTO_DATA_LEN)
    (hprep : ∀ q ∈ i.slots env vals,
      Prepared q.1.2.1.1 0 (lengthData vals q.1.2.2) (pa.info q.1.1) ∧
        Given q.1.2.1.2 (pa.info q.1.1)) :
    ∃ info' dp, paGenerateProtocolData env pa = some (0, { pa with
        protocolData := dp
        info := info'
        protocolDataLen := dataLenOf (i.infos.map info') env.dataLen }) ∧
      dp.length = MAX_PROTO_DATA_LEN ∧
      bitAt dp = applyAll ((layout vals (i.keys env)).map Slot.layer) (bitAt pa.protocolData) ∧
      ∀ q ∈ i.slots env vals, PlacedAt (info' q.1.1).core q.2 ∧ (info' q.1.1).core =
        ((pa.info q.1.1).core.shift (UInt8.ofNat q.2.moved)).resolve
          (lengthData vals q.1.2.2) := by
  have hslots := i.map_fst_slots hvals env
  have hmem : ∀ q ∈ i.slots env vals, q.1.2.1 ∈ vals := fun q hq =>
    (List.of_mem_zip (List.of_mem_zip (List.of_mem_zip hq).1).2).1
  have hh : Holding i vals pa := holding_of_slots (S := fun _ => 0) hvals env hprep
  obtain ⟨info', h₁, h₂⟩ := generate_place hvals env hnum hhl hmap hh
  -- the fields are placed as the layout says
  set E := (i.slots env vals).map fun q => ((pa.info q.1.1).core, q.1.2) with hE
  have hEsnd : E.map Prod.snd = vals.zip (i.keys env) := by
    rw [hE, List.map_map, ← i.map_val_slots hvals]
    rfl
  have hEzip : E.zip (layoutFrom vals 0 (E.map Prod.snd)) =
      (i.slots env vals).map fun q => (((pa.info q.1.1).core, q.1.2), q.2) := by
    rw [hEsnd, ← layout, ← i.map_snd_slots hvals, hE, List.zip_map']
  have hEprep : ∀ e ∈ E, Prepared e.2.1.1 0 (lengthData vals e.2.2) e.1 ∧ Given e.2.1.2 e.1 ∧
      e.2.1.1.ByteOrBit := by
    intro e he
    obtain ⟨q, hq, rfl⟩ := List.mem_map.1 he
    obtain ⟨hp, hg⟩ := hprep q hq
    exact ⟨hp.core, hg, hf _ (hvals ▸ List.mem_map_of_mem (hmem q hq))⟩
  obtain ⟨hplace, hplaced⟩ := place_layout (S := 0) hEprep (by rw [hEsnd]; exact hfits)
  rw [hEzip] at hplace hplaced
  have hcore : ∀ q ∈ i.slots env vals, (info' q.1.1).core =
      ((pa.info q.1.1).core.shift (UInt8.ofNat q.2.moved)).resolve (lengthData vals q.1.2.2) := by
    have hl : (i.infos.map fun a => (info' a).core) =
        (i.slots env vals).map fun q => (info' q.1.1).core := by
      conv_lhs => rw [← i.map_addr_slots hvals env]
      rw [List.map_map]
      rfl
    have hr : ((i.infos.zip (vals.zip (i.keys env))).map fun e =>
        ((pa.info e.1).core, lengthData vals e.2.2)) =
          E.map fun e => (e.1, lengthData vals e.2.2) := by
      rw [← hslots, hE, List.map_map, List.map_map]
      rfl
    rw [hl, hr] at h₁
    have h := h₁.trans hplace
    rw [List.map_map] at h
    exact List.map_inj_left.1 h
  have hat : ∀ q ∈ i.slots env vals, PlacedAt (info' q.1.1).core q.2 := by
    intro q hq
    rw [hcore q hq]
    exact hplaced _ (List.mem_map.2 ⟨q, hq, rfl⟩)
  -- so they are written as layers
  have hlaid : List.Forall₂ Laid (i.infos.map fun a => (info' a).core)
      ((layout vals (i.keys env)).map Slot.layer) := by
    rw [← i.map_snd_slots hvals, ← i.map_addr_slots hvals env, List.map_map, List.map_map,
      List.forall₂_map_left_iff, List.forall₂_map_right_iff, List.forall₂_same]
    exact fun q hq => (hat q hq).laid
  obtain ⟨dp, hdp, hlen, hbits⟩ := writeFields_laid env hlaid pa.protocolData fun l hl => by
    obtain ⟨p, hp, rfl⟩ := List.mem_map.1 hl
    rw [hdl]
    exact (hfits p hp).layer_le
  have hwrite : writeFields env (i.infos.map info') pa.protocolData = some dp := by
    rw [← writeFields_map_core, List.map_map]
    exact hdp
  exact ⟨info', dp, by rw [h₂, hwrite]; rfl, hlen.trans hdl, hbits,
    fun q hq => ⟨hat q hq, hcore q hq⟩⟩

/-- The reported length is where the layout ends. -/
theorem dataLenOf_layout {i : Init specs} (hf : FieldFormat specs)
    (hvals : vals.map Prod.fst = specs) {env : Env}
    (hfits : ∀ p ∈ layout vals (i.keys env), p.Fits) {info' : Addr → ProtoInfo}
    (hat : ∀ q ∈ i.slots env vals, PlacedAt (info' q.1.1).core q.2) (hne : specs ≠ [])
    (dataLen : UInt16) :
    (dataLenOf (i.infos.map info') dataLen).toNat = reportedLen (layout vals (i.keys env)) := by
  have hs : i.slots env vals ≠ [] := fun h => hne (List.length_eq_zero_iff.1 (by
    rw [← i.length_layout hvals env, ← i.map_snd_slots hvals, h]
    rfl))
  have hlast := List.getLast?_eq_some_getLast hs
  have hq := List.getLast_mem hs
  generalize (i.slots env vals).getLast hs = q at hlast hq
  have hp := hat q hq
  have hql := i.mem_layout_of_mem_slots hvals hq
  obtain ⟨hpos, hlen⟩ := (hfits _ hql).pos_le (hf _ (i.spec_mem_of_mem_layout hvals hql))
  rw [← dataLenOf_map_core, ← i.map_addr_slots hvals env, List.map_map, List.map_map, dataLenOf,
    reportedLen, ← i.map_snd_slots hvals, List.getLast?_map, List.getLast?_map, hlast]
  simp only [Option.map_some, Function.comp_apply]
  rw [UInt16.toNat_add, UInt8.toNat_toUInt16, hp.bytePos, hp.len]
  simp only [MAX_PROTO_DATA_LEN] at hpos hlen
  omega

end Run

end HpiDriver
