import HpiDriver.Foundations.Simulation
import HpiDriver.ProtoAnalyzer.Histories
import HpiDriver.ProtoAnalyzer.RoundTrip
import HpiDriver.ProtoAnalyzer.WireRoundTrip

/-!
# The sheet of an analyzer

What an analyzer of byte fields is for, apart from how it does it: the fields have values under
their names and places in a buffer (`Sheet`). Setting a value writes it down; generating puts the
values into the buffer, parsing takes them out of it. The first run after a reset finds out how
long the variable-length fields are, and moves the fields behind them; the runs after it leave the
places alone, and so does a reset. Every history of calls on a new analyzer does to it what the
calls mean for the sheet, as long as no field leaves the buffer (`afterCalls_sheet`). To parse right
behind generating then changes nothing (`afterCalls_generate_parse`), and where the fields have no
gaps between them the message is their bytes one after another (`afterCalls_generate_wire`).
-/

namespace HpiDriver

open Blocks BigEndian Simulation

/-! ## Sheets -/

/-- Where a field is taken to lie in the buffer. -/
structure Extent where
  pos : ℕ
  len : ℕ
  deriving DecidableEq

/-- The length that the value of a length field stands for. -/
def FieldValue.toLen : FieldValue → Option ℕ
  | .int n => some n.toNat
  | .buf _ => none

/-- The bytes that a value puts into a field: a number the last ones, into a field of at most four
bytes, and a block the first ones, into a longer field. -/
def FieldValue.written (len : ℕ) : FieldValue → Option (List UInt8)
  | .int n => if len ≤ 4 then some (beBytes len n.toNat) else none
  | .buf bs =>
    if len = 0 then some [] else if 4 < len ∧ len ≤ bs.length then some (bs.take len) else none

/-- The values of the fields under their names, the fields with their places, and the buffer with
the length of what is in it. The sheet is armed when the next run finds out the lengths. -/
structure Sheet where
  entry : List UInt8 → FieldValue
  places : List (FieldSpec × Extent)
  armed : Bool
  buffer : List UInt8
  dataLen : ℕ

namespace Sheet

/-- The sheet of a new analyzer. -/
def fresh (specs : List FieldSpec) : Sheet where
  entry _ := .int 0
  places := specs.map fun s => (s, ⟨s.bytePos.toNat, s.len.toNat⟩)
  armed := true
  buffer := List.replicate MAX_PROTO_DATA_LEN 0
  dataLen := 0

/-- The names of the fields. -/
def names (t : Sheet) : List (List UInt8) := t.places.map fun p => p.1.name.chars

/-- The name of the field that a lookup finds: the last one whose name starts with the ten bytes
that the lookup makes of `key`. -/
def find (t : Sheet) (key : List UInt8) (uninit : ℕ → UInt8) : Option (List UInt8) :=
  (t.places.reverse.find? fun p => p.1.name.array.take 10 = keyBytes key uninit).map
    fun p => p.1.name.chars

/-- Write a value down. -/
def set (t : Sheet) (key : List UInt8) (v : FieldValue) : Sheet :=
  { t with entry := Function.update t.entry key v }

@[simp] theorem find_set (t : Sheet) (name key : List UInt8) (v : FieldValue)
    (uninit : ℕ → UInt8) : (t.set name v).find key uninit = t.find key uninit := rfl

/-- The length of a field in a run. -/
def lenIn (armed : Bool) (entry : List UInt8 → FieldValue) (p : FieldSpec × Extent) : Option ℕ :=
  match armed, p.1.index with
  | true, some n => (entry n.chars).toLen
  | _, _ => some p.2.len

/-- How far a field of `len` bytes moves the ones behind it. -/
def movedIn (armed : Bool) (s : FieldSpec) (len : ℕ) : ℕ :=
  if (armed && s.index.isSome) = true then len else 0

/-- The places of a run that generates, `S` bytes behind where they were. -/
def arrange (armed : Bool) (entry : List UInt8 → FieldValue) :
    ℕ → List (FieldSpec × Extent) → Option (List (FieldSpec × Extent))
  | _, [] => some []
  | S, p :: ps => do
    let len ← lenIn armed entry p
    let ps ← arrange armed entry (S + movedIn armed p.1 len) ps
    some ((p.1, ⟨p.2.pos + S, len⟩) :: ps)

/-- The blocks that the fields put into the buffer. -/
def writes (entry : List UInt8 → FieldValue) :
    List (FieldSpec × Extent) → Option (List (ℕ × List UInt8))
  | [] => some []
  | p :: ps => do
    let bs ← (entry p.1.name.chars).written p.2.len
    let ws ← writes entry ps
    some ((p.2.pos, bs) :: ws)

/-- The places and values of a run that parses the buffer `dp`. -/
def read (armed : Bool) (dp : List UInt8) : ℕ → List (FieldSpec × Extent) →
    (List UInt8 → FieldValue) → Option (List (FieldSpec × Extent) × (List UInt8 → FieldValue))
  | _, [], entry => some ([], entry)
  | S, p :: ps, entry => do
    let len ← lenIn armed entry p
    let r ← read armed dp (S + movedIn armed p.1 len) ps
      (Function.update entry p.1.name.chars (decodeValue (slice dp (p.2.pos + S) len)))
    some ((p.1, ⟨p.2.pos + S, len⟩) :: r.1, r.2)

/-- All fields lie in the buffer. -/
def InBuffer (ps : List (FieldSpec × Extent)) : Prop :=
  ∀ p ∈ ps, p.2.pos + p.2.len ≤ MAX_PROTO_DATA_LEN

instance (ps : List (FieldSpec × Extent)) : Decidable (InBuffer ps) :=
  List.decidableBAll (fun p : FieldSpec × Extent => p.2.pos + p.2.len ≤ MAX_PROTO_DATA_LEN) ps

/-- Where the last field ends. -/
def lastEnd (ps : List (FieldSpec × Extent)) : ℕ :=
  (ps.getLast?.map fun p => p.2.pos + p.2.len).getD 0

/-- Put the values into the buffer. -/
def generate (t : Sheet) : Option Sheet := do
  let ps ← arrange t.armed t.entry 0 t.places
  let ws ← writes t.entry ps
  if InBuffer ps then
    some { t with
      places := ps
      armed := false
      buffer := blitAll t.buffer ws
      dataLen := lastEnd ps }
  else none

/-- Take the values out of the buffer; an empty message is refused. -/
def parse (t : Sheet) : Option Sheet :=
  if t.dataLen = 0 then some t
  else do
    let r ← read t.armed t.buffer 0 t.places t.entry
    if InBuffer r.1 then some { t with places := r.1, armed := false, entry := r.2 } else none

end Sheet

/-- What a call means for the sheet. `pa_set_value` needs a field that it finds, the other two do
without. -/
def AnalyzerCall.onSheet : AnalyzerCall → Sheet → Option Sheet
  | .setValue key value uninit, t =>
    (t.find key uninit).map fun name => t.set name (.int value)
  | .setVariableLengthValue key value uninit, t =>
    match t.find key uninit with
    | some name => some (t.set name (.int value))
    | none => some t
  | .setBuf key data uninit, t =>
    match t.find key uninit with
    | some name => some (t.set name (.buf data))
    | none => some t
  | .generate _, t => t.generate
  | .receive data len, t =>
    if data.length = MAX_PROTO_DATA_LEN then
      some { t with buffer := data, dataLen := len.toNat }
    else none
  | .parse _, t => t.parse
  | .reset, t => some { t with armed := true }

/-! ## Formats of byte fields -/

/-- A format of byte fields with distinct names, in which the names of length fields are short
enough to be found. Nothing is asked of the order of the fields or of their places. -/
structure SheetFormat (specs : List FieldSpec) : Prop where
  ne_nil : specs ≠ []
  lenUnit : ∀ s ∈ specs, s.lenUnit = 8
  bitPos : ∀ s ∈ specs, s.bitPos = 0
  names : (specs.map FieldSpec.name).Nodup
  index : ∀ s ∈ specs, ∀ n ∈ s.index, n.chars.length < 10 ∧ ∃ t ∈ specs, t.name = n

instance (specs : List FieldSpec) : Decidable (SheetFormat specs) :=
  decidable_of_iff (specs ≠ [] ∧ (∀ s ∈ specs, s.lenUnit = 8) ∧ (∀ s ∈ specs, s.bitPos = 0) ∧
      (specs.map FieldSpec.name).Nodup ∧
      ∀ s ∈ specs, ∀ n ∈ s.index, n.chars.length < 10 ∧ ∃ t ∈ specs, t.name = n)
    ⟨fun ⟨h₁, h₂, h₃, h₄, h₅⟩ => ⟨h₁, h₂, h₃, h₄, h₅⟩,
      fun ⟨h₁, h₂, h₃, h₄, h₅⟩ => ⟨h₁, h₂, h₃, h₄, h₅⟩⟩

/-- So are the formats of the driver. -/
theorem sheetFormat_drvFormats : ∀ specs ∈ [specs3008, specs3019, specs3050, specs3052, specs3054],
    SheetFormat specs := by
  decide +kernel

/-! ## Analyzers and sheets -/

/-- The field lies at its place, has its value, and waits for its length if the sheet is armed. -/
structure HeldAt (armed : Bool) (p : FieldSpec × Extent) (v : FieldValue) (f : ProtoInfo) :
    Prop where
  bytePos : f.bytePos = UInt8.ofNat p.2.pos
  bitPos : f.bitPos = 0
  lenUnit : f.lenUnit = 8
  vlenthIndex : f.vlenthIndex = p.1.info.vlenthIndex
  vlenthFlag : f.vlenthFlag = (armed && p.1.index.isSome)
  vlenthFlagBak : f.vlenthFlagBak = p.1.index.isSome
  len : f.vlenthFlag = false → f.len = UInt16.ofNat p.2.len
  bufOk : f.BufOk
  given : Given v f

/-- The analyzer is what the sheet tells. -/
structure ShowsSheet {specs : List FieldSpec} (i : Init specs) (pa : ProtocolAnalyzer)
    (t : Sheet) : Prop where
  paListHeadP : pa.paListHeadP = some i.infos
  hmap : pa.hmap = i.analyzer.hmap
  protocolData : pa.protocolData = t.buffer
  length_buffer : t.buffer.length = MAX_PROTO_DATA_LEN
  protocolDataLen : pa.protocolDataLen.toNat = t.dataLen
  places : t.places.map Prod.fst = specs
  fields : ∀ e ∈ i.infos.zip t.places,
    HeldAt t.armed e.2 (t.entry e.2.1.name.chars) (pa.info e.1)

/-! ## Fields in a run -/

section Held

variable {armed : Bool} {p : FieldSpec × Extent} {v : FieldValue} {f g : ProtoInfo} {len : ℕ}

/-- The kind of value that a field holds does not depend on its layout. -/
theorem Given.congr (h : Given v f) (hdata : g.data = f.data) (hbuf : g.buf = f.buf) :
    Given v g := by
  cases v with
  | int n => exact hdata.trans h
  | buf bs =>
    rw [Given, hbuf]
    exact h

/-- Once its length is found, a field is at the place of the run. -/
theorem HeldAt.settle (h : HeldAt armed p v f) {S : ℕ} {d : Option UInt32}
    (hlen : (f.resolve d).len = UInt16.ofNat len) :
    HeldAt false (p.1, ⟨p.2.pos + S, len⟩) v ((f.shift (UInt8.ofNat S)).resolve d) where
  bytePos := by
    rw [ProtoInfo.bytePos_resolve, ProtoInfo.shift, h.bytePos, UInt8.ofNat_add]
  bitPos := h.bitPos
  lenUnit := h.lenUnit
  vlenthIndex := h.vlenthIndex
  vlenthFlag := rfl
  vlenthFlagBak := h.vlenthFlagBak
  len _ := hlen
  bufOk := h.bufOk
  given := h.given.congr rfl rfl

/-- A field that waits behind one that moves it. -/
theorem HeldAt.shift (h : HeldAt armed p v f) (S : ℕ) :
    HeldAt armed (p.1, ⟨p.2.pos + S, p.2.len⟩) v (f.shift (UInt8.ofNat S)) where
  bytePos := by rw [ProtoInfo.shift, h.bytePos, UInt8.ofNat_add]
  bitPos := h.bitPos
  lenUnit := h.lenUnit
  vlenthIndex := h.vlenthIndex
  vlenthFlag := h.vlenthFlag
  vlenthFlagBak := h.vlenthFlagBak
  len := h.len
  bufOk := h.bufOk
  given := h.given.congr rfl rfl

/-- A field that is given another value stays where it is. -/
theorem HeldAt.of_value (h : HeldAt armed p v f) (hg : g = { f with
      data := g.data
      buf := g.buf
      vlenthValueFlag := g.vlenthValueFlag
      vlenthValueAssignedFlag := g.vlenthValueAssignedFlag })
    (hok : g.BufOk) {w : FieldValue} (hw : Given w g) : HeldAt armed p w g := by
  have hpi : ∀ {β : Type} (π : ProtoInfo → β), π g = π { f with
      data := g.data
      buf := g.buf
      vlenthValueFlag := g.vlenthValueFlag
      vlenthValueAssignedFlag := g.vlenthValueAssignedFlag } := fun π => congrArg π hg
  exact
    { bytePos := (hpi ProtoInfo.bytePos).trans h.bytePos
      bitPos := (hpi ProtoInfo.bitPos).trans h.bitPos
      lenUnit := (hpi ProtoInfo.lenUnit).trans h.lenUnit
      vlenthIndex := (hpi ProtoInfo.vlenthIndex).trans h.vlenthIndex
      vlenthFlag := (hpi ProtoInfo.vlenthFlag).trans h.vlenthFlag
      vlenthFlagBak := (hpi ProtoInfo.vlenthFlagBak).trans h.vlenthFlagBak
      len := fun hf => (hpi ProtoInfo.len).trans
        (h.len ((hpi ProtoInfo.vlenthFlag).symm.trans hf))
      bufOk := hok
      given := hw }

/-- A reset arms the field again and leaves it where it is. -/
theorem HeldAt.reset (h : HeldAt armed p v f) : HeldAt true p v (resetField f) := by
  cases hb : p.1.index.isSome with
  | true =>
    rw [resetField, if_pos (h.vlenthFlagBak.trans hb)]
    exact ⟨h.bytePos, h.bitPos, h.lenUnit, h.vlenthIndex, hb.symm, h.vlenthFlagBak,
      fun hf => Bool.noConfusion (show true = false from hf), h.bufOk, h.given.congr rfl rfl⟩
  | false =>
    rw [resetField, if_neg (by rw [h.vlenthFlagBak, hb]; decide)]
    exact ⟨h.bytePos, h.bitPos, h.lenUnit, h.vlenthIndex,
      by rw [h.vlenthFlag, hb, Bool.and_false, Bool.and_false], h.vlenthFlagBak, h.len, h.bufOk,
      h.given⟩

/-- The bytes of a value have the length of the field. -/
theorem FieldValue.length_written {bs : List UInt8} (h : v.written len = some bs) :
    bs.length = len := by
  cases v with
  | int n =>
    simp only [written] at h
    split_ifs at h
    rw [← Option.some.inj h, length_beBytes]
  | buf block =>
    simp only [written] at h
    split_ifs at h with h0 h4
    · rw [← Option.some.inj h, h0]
      rfl
    · rw [← Option.some.inj h, List.length_take, min_eq_left h4.2]

/-- Writing a field copies the bytes of its value. -/
theorem HeldAt.paSetProtocolField_eq (h : HeldAt false p v f) (env : Env) (hlen : p.2.len < 2 ^ 16)
    {bs : List UInt8} (hbs : v.written p.2.len = some bs) (pos : UInt8) (dp : List UInt8) :
    paSetProtocolField env f pos dp = memcpyTo dp pos.toNat bs := by
  have hflen : f.len.toNat = p.2.len := by
    rw [h.len (by rw [h.vlenthFlag, Bool.false_and]), UInt16.toNat_ofNat']
    omega
  rw [paSetProtocolField, if_pos h.lenUnit]
  have hgiven := h.given
  cases v with
  | int n =>
    simp only [FieldValue.written] at hbs
    split_ifs at hbs with h4
    rw [if_pos (len_le_four_iff.2 (by omega)), paSetProtocolByteData_eq _ _ (by omega), hflen,
      show f.data = n from hgiven, Option.some.inj hbs]
  | buf block =>
    obtain ⟨data, hdata, hpre⟩ := hgiven
    simp only [FieldValue.written] at hbs
    split_ifs at hbs with h0 h4
    · rw [if_pos (len_le_four_iff.2 (by omega)), paSetProtocolByteData_eq _ _ (by omega), hflen, h0,
        ← Option.some.inj hbs]
      rfl
    · have hle : 0 + p.2.len ≤ data.length := by
        rw [Nat.zero_add]
        exact h4.2.trans hpre.length_le
      have htake : slice data 0 p.2.len = block.take p.2.len := by
        rw [← take_eq_slice, List.prefix_iff_eq_take.1 hpre, List.take_take, min_eq_left h4.2]
      rw [if_neg (fun hf => absurd (len_le_four_iff.1 hf) (by omega)), paSetProtocolBuf,
        if_neg (by rw [h.bitPos]; decide), hdata, hflen]
      simp only [Option.bind_eq_bind, Option.bind_some]
      rw [memcpyFrom_eq hle, htake, Option.some.inj hbs]
      rfl

end Held

/-! ## Generating -/

section Generate

variable {specs : List FieldSpec} {i : Init specs} {pa : ProtocolAnalyzer} {armed : Bool}
  {entry : List UInt8 → FieldValue}

/-- The number of a length field, as it becomes the length of another field. -/
theorem toUInt16_eq_ofNat (n : UInt32) : n.toUInt16 = UInt16.ofNat n.toNat := by
  rw [← UInt16.toNat_inj, UInt32.toNat_toUInt16, UInt16.toNat_ofNat']

/-- And how far it moves the fields behind. -/
theorem toUInt8_mul_div (n : UInt32) : (n * 8 / 8).toUInt8 = UInt8.ofNat n.toNat := by
  rw [← UInt8.toNat_inj, UInt32.toNat_toUInt8, UInt32.toNat_div, UInt32.toNat_mul,
    UInt8.toNat_ofNat']
  simp
  omega

/-- **What a pass finds out about its field.** -/
theorem foundData_held (hf : SheetFormat specs) (hmap : pa.hmap = i.analyzer.hmap)
    (hgiven : ∀ q ∈ i.fields, Given (entry q.2.name.chars) (pa.info q.1))
    (keyStr : Addr → ℕ → UInt8) {a : Addr} {p : FieldSpec × Extent} {v : FieldValue}
    (hs : p.1 ∈ specs) (h : HeldAt armed p v (pa.info a)) {len : ℕ}
    (hlen : Sheet.lenIn armed entry p = some len) :
    ((pa.info a).resolve (pa.foundData (fun b =>
        i.tableFind (keyBytes (cString (pa.info b).vlenthIndex) (keyStr b))) a)).len =
          UInt16.ofNat len ∧
      (pa.info a).shiftBy (pa.foundData (fun b =>
        i.tableFind (keyBytes (cString (pa.info b).vlenthIndex) (keyStr b))) a) =
          UInt8.ofNat (Sheet.movedIn armed p.1 len) := by
  rw [ProtocolAnalyzer.foundData, h.vlenthFlag]
  by_cases hflag : (armed && p.1.index.isSome) = true
  · obtain ⟨rfl, hsome⟩ := Bool.and_eq_true_iff.1 hflag
    obtain ⟨n, hn⟩ := Option.isSome_iff_exists.1 hsome
    simp only [Sheet.lenIn, hn] at hlen
    obtain ⟨hshort, t, ht, rfl⟩ := hf.index p.1 hs n hn
    -- the table leads to the field that the index names
    obtain ⟨q, hq, rfl⟩ : ∃ q ∈ i.fields, q.2 = t := by
      rw [← i.map_snd_fields] at ht
      obtain ⟨q, hq, rfl⟩ := List.mem_map.1 ht
      exact ⟨q, hq, rfl⟩
    have hindex : cString (pa.info a).vlenthIndex = q.2.name.chars := by
      rw [h.vlenthIndex, FieldSpec.vlenthIndex_info p.1 hn]
    have hfind : i.tableFind (keyBytes (cString (pa.info a).vlenthIndex) (keyStr a)) =
        some q.1 := by
      have hkey := i.finds_short hf.names hmap hshort hindex hq rfl (keyStr a)
      rw [i.paFindKey_eq hmap] at hkey
      exact Option.some.inj hkey
    have hv := hgiven q hq
    cases hentry : entry q.2.name.chars with
    | buf bs =>
      rw [hentry] at hlen
      cases hlen
    | int k =>
      rw [hentry] at hlen hv
      obtain rfl := Option.some.inj hlen
      rw [if_pos hflag, hfind, Option.map_some, show (pa.info q.1).data = k from hv,
        Sheet.movedIn, if_pos hflag, ProtoInfo.shiftBy, h.lenUnit]
      exact ⟨toUInt16_eq_ofNat k, toUInt8_mul_div k⟩
  · have hlen' : p.2.len = len := by
      cases armed with
      | false => exact Option.some.inj hlen
      | true =>
        have hnone : p.1.index = none := by simpa using hflag
        simp only [Sheet.lenIn, hnone] at hlen
        exact Option.some.inj hlen
    rw [if_neg hflag, Sheet.movedIn, if_neg hflag, ← hlen']
    refine ⟨h.len ?_, rfl⟩
    rw [h.vlenthFlag]
    simpa using hflag

/-- The places of a run are the ones on the sheet. -/
theorem place_held {l : List ((ProtoInfo × Option UInt32) × (FieldSpec × Extent))} {S : ℕ}
    {ps : List (FieldSpec × Extent)}
    (h : ∀ x ∈ l, HeldAt armed x.2 (entry x.2.1.name.chars) x.1.1 ∧
      ∀ len, Sheet.lenIn armed entry x.2 = some len →
        (x.1.1.resolve x.1.2).len = UInt16.ofNat len ∧
          x.1.1.shiftBy x.1.2 = UInt8.ofNat (Sheet.movedIn armed x.2.1 len))
    (hps : Sheet.arrange armed entry S (l.map Prod.snd) = some ps) :
    List.Forall₂ (fun g p => HeldAt false p (entry p.1.name.chars) g)
      (place (UInt8.ofNat S) (l.map Prod.fst)) ps := by
  induction l generalizing S ps with
  | nil =>
    obtain rfl := Option.some.inj hps
    exact .nil
  | cons x l ih =>
    obtain ⟨⟨hx, hfound⟩, h⟩ := List.forall_mem_cons.1 h
    simp only [List.map_cons, Sheet.arrange, Option.bind_eq_bind, Option.bind_eq_some_iff] at hps
    obtain ⟨len, hlen, ps', hps', hps⟩ := hps
    obtain rfl := Option.some.inj hps
    obtain ⟨hl, hs⟩ := hfound len hlen
    refine .cons (hx.settle hl) ?_
    have hrest := ih h hps'
    rwa [UInt8.ofNat_add, ← hs] at hrest

/-- Writing the fields at their places puts the blocks of the sheet into the buffer. -/
theorem writeFields_held (env : Env) {fs : List ProtoInfo} {ps : List (FieldSpec × Extent)}
    (h : List.Forall₂ (fun g p => HeldAt false p (entry p.1.name.chars) g) fs ps)
    {ws : List (ℕ × List UInt8)} (hws : Sheet.writes entry ps = some ws)
    (hin : Sheet.InBuffer ps) {dp : List UInt8} (hdp : dp.length = MAX_PROTO_DATA_LEN) :
    writeFields env fs dp = some (blitAll dp ws) ∧
      (blitAll dp ws).length = MAX_PROTO_DATA_LEN := by
  induction h generalizing dp ws with
  | nil =>
    obtain rfl := Option.some.inj hws
    exact ⟨rfl, hdp⟩
  | @cons g p fs ps hg _ ih =>
    obtain ⟨hp, hin⟩ := List.forall_mem_cons.1 hin
    simp only [MAX_PROTO_DATA_LEN] at hp hdp
    simp only [Sheet.writes, Option.bind_eq_bind, Option.bind_eq_some_iff] at hws
    obtain ⟨bs, hbs, ws', hws', hws⟩ := hws
    obtain rfl := Option.some.inj hws
    have hlen := FieldValue.length_written hbs
    have hpos : g.bytePos.toNat = p.2.pos := by
      rw [hg.bytePos, UInt8.toNat_ofNat']
      omega
    have hfield := hg.paSetProtocolField_eq env (by omega) hbs g.bytePos dp
    rw [hpos, memcpyTo_eq (by omega)] at hfield
    have hblit : (blit dp p.2.pos bs).length = MAX_PROTO_DATA_LEN :=
      (length_blit (by omega)).trans hdp
    obtain ⟨hrest, hlength⟩ := ih hws' hin hblit
    simp only [writeFields, List.foldlM_cons, hfield, Option.bind_eq_bind, Option.bind_some]
    exact ⟨hrest, hlength⟩

/-- The reported length is where the last field ends. -/
theorem dataLenOf_held {fs : List ProtoInfo} {ps : List (FieldSpec × Extent)}
    (h : List.Forall₂ (fun g p => HeldAt false p (entry p.1.name.chars) g) fs ps) (hne : ps ≠ [])
    (hin : Sheet.InBuffer ps) (dataLen : UInt16) :
    (dataLenOf fs dataLen).toNat = Sheet.lastEnd ps := by
  have hlast := List.getLast?_eq_some_getLast hne
  obtain ⟨g, hg, hheld⟩ := forall₂_getLast? h hlast
  have hp := hin _ (List.mem_of_getLast? hlast)
  simp only [MAX_PROTO_DATA_LEN] at hp
  have hlen := hheld.len (by rw [hheld.vlenthFlag, Bool.false_and])
  simp only [dataLenOf, hg, Sheet.lastEnd, hlast, Option.map_some, Option.getD_some]
  rw [UInt16.toNat_add, UInt8.toNat_toUInt16, hheld.bytePos, hlen, UInt8.toNat_ofNat',
    UInt16.toNat_ofNat']
  omega

theorem map_fst_arrange {S : ℕ} {ps ps' : List (FieldSpec × Extent)}
    (h : Sheet.arrange armed entry S ps = some ps') :
    ps'.map Prod.fst = ps.map Prod.fst := by
  induction ps generalizing S ps' with
  | nil =>
    obtain rfl := Option.some.inj h
    rfl
  | cons p ps ih =>
    simp only [Sheet.arrange, Option.bind_eq_bind, Option.bind_eq_some_iff] at h
    obtain ⟨len, -, ps₁, hps₁, h⟩ := h
    obtain rfl := Option.some.inj h
    rw [List.map_cons, List.map_cons, ih hps₁]

/-- A field that is as another one but for a flag that no run looks at. -/
theorem HeldAt.of_core {p : FieldSpec × Extent} {v : FieldValue} {f g : ProtoInfo}
    (h : HeldAt armed p v f) (hg : g.core = f) : HeldAt armed p v g := by
  subst hg
  exact ⟨h.bytePos, h.bitPos, h.lenUnit, h.vlenthIndex, h.vlenthFlag, h.vlenthFlagBak, h.len,
    h.bufOk, h.given.congr rfl rfl⟩

theorem HeldAt.core {p : FieldSpec × Extent} {v : FieldValue} {f : ProtoInfo}
    (h : HeldAt armed p v f) : HeldAt armed p v f.core :=
  ⟨h.bytePos, h.bitPos, h.lenUnit, h.vlenthIndex, h.vlenthFlag, h.vlenthFlagBak, h.len,
    h.bufOk, h.given.congr rfl rfl⟩

/-- The values of all fields. -/
theorem ShowsSheet.given {t : Sheet} (h : ShowsSheet i pa t) :
    ∀ q ∈ i.fields, Given (t.entry q.2.name.chars) (pa.info q.1) := by
  intro q hq
  rw [i.fields_eq_map h.places] at hq
  obtain ⟨e, he, rfl⟩ := List.mem_map.1 hq
  exact (h.fields e he).given

/-- **Generating puts the values of the sheet into the buffer.** -/
theorem ShowsSheet.generate {t t' : Sheet} (h : ShowsSheet i pa t) (hf : SheetFormat specs)
    (env : Env) (ht : t.generate = some t') :
    ∃ pa', paGenerateProtocolData env pa = some (0, pa') ∧ ShowsSheet i pa' t' := by
  simp only [Sheet.generate, Option.bind_eq_bind, Option.bind_eq_some_iff] at ht
  obtain ⟨ps, hps, ws, hws, ht⟩ := ht
  split_ifs at ht with hin
  obtain rfl := Option.some.inj ht
  have hfst := i.map_fst_zip h.places
  have hsnd := i.map_snd_zip h.places
  have hpsfst := map_fst_arrange hps
  obtain ⟨info', hplace, -, heq⟩ := paGenerateProtocolData_eq i.nodup_infos h.paListHeadP
    (i.finds h.hmap env.keyStr i.infos) (i.finds h.hmap env.flagKeyStr i.infos)
  generalize hd : pa.foundData _ = d at hplace
  -- what the run makes of the fields is what it makes of the sheet
  have hfields : ∀ x ∈ (i.infos.zip t.places).map fun e => (((pa.info e.1).core, d e.1), e.2),
      HeldAt t.armed x.2 (t.entry x.2.1.name.chars) x.1.1 ∧
        ∀ len, Sheet.lenIn t.armed t.entry x.2 = some len →
          (x.1.1.resolve x.1.2).len = UInt16.ofNat len ∧
            x.1.1.shiftBy x.1.2 = UInt8.ofNat (Sheet.movedIn t.armed x.2.1 len) := by
    intro x hx
    obtain ⟨e, he, rfl⟩ := List.mem_map.1 hx
    have hs : e.2.1 ∈ specs := by
      rw [← h.places]
      exact List.mem_map_of_mem (List.of_mem_zip he).2
    refine ⟨(h.fields e he).core, fun len hlen => ?_⟩
    rw [← hd]
    exact foundData_held hf h.hmap h.given env.keyStr hs (h.fields e he) hlen
  have hheld : List.Forall₂ (fun g p => HeldAt false p (t.entry p.1.name.chars) g)
      (i.infos.map fun a => (info' a).core) ps := by
    have hzip : (i.infos.zip t.places).map
        (Prod.fst ∘ fun e => (((pa.info e.1).core, d e.1), e.2)) =
          i.infos.map fun a => ((pa.info a).core, d a) := by
      conv_rhs => rw [← hfst, List.map_map]
      rfl
    have hrun := place_held (S := 0) hfields (by rwa [List.map_map, show
      (i.infos.zip t.places).map (Prod.snd ∘ fun e => (((pa.info e.1).core, d e.1), e.2)) =
        t.places from hsnd])
    rw [List.map_map, hzip] at hrun
    rw [hplace]
    exact hrun
  have hne : ps ≠ [] := by
    rintro rfl
    exact hf.ne_nil (by rw [← h.places, ← hpsfst, List.map_nil])
  have hcore : (i.infos.map fun a => (info' a).core) = (i.infos.map info').map ProtoInfo.core := by
    rw [List.map_map]
    rfl
  obtain ⟨hwrite, hlength⟩ := writeFields_held env hheld hws hin h.length_buffer
  have hlast := dataLenOf_held hheld hne hin env.dataLen
  rw [hcore] at hwrite hlast
  rw [writeFields_map_core] at hwrite
  rw [dataLenOf_map_core] at hlast
  rw [h.protocolData, hwrite] at heq
  refine ⟨_, heq, h.paListHeadP, h.hmap, rfl, hlength, hlast, hpsfst.trans h.places, ?_⟩
  rw [List.forall₂_map_left_iff] at hheld
  intro e he
  exact ((List.forall₂_iff_zip.1 hheld).2 he).of_core rfl

end Generate

/-! ## Parsing -/

section Parse

variable {specs : List FieldSpec} {i : Init specs} {pa : ProtocolAnalyzer} {armed : Bool}
  {entry entry' : List UInt8 → FieldValue}

/-- A field that holds bytes holds the value that they decode to. -/
theorem Wire.given {f : ProtoInfo} {bs : List UInt8} (h : Wire f bs) :
    Given (decodeValue bs) f := by
  unfold decodeValue
  split_ifs with h4
  · exact h.data h4
  · exact h.buf (by omega)

/-- Names that are not the same do not have the same characters. -/
theorem chars_ne_of_name_ne {s t : FieldSpec} (h : s.name ≠ t.name) :
    s.name.chars ≠ t.name.chars := by
  intro he
  apply h
  cases hs : s.name
  cases ht : t.name
  rw [hs, ht] at he
  exact CName.mk.injEq .. ▸ he

/-- The parser takes the value of a field out of the bytes where the field lies. -/
theorem HeldAt.read {f : ProtoInfo} {p : FieldSpec × Extent} {v : FieldValue}
    (h : HeldAt false p v f) (env : Env) {dp : List UInt8} (hdp : dp.length = MAX_PROTO_DATA_LEN)
    (hin : p.2.pos + p.2.len ≤ MAX_PROTO_DATA_LEN) :
    ∃ g, paGetProtocolField env f dp = some g ∧
      HeldAt false p (decodeValue (slice dp p.2.pos p.2.len)) g := by
  simp only [MAX_PROTO_DATA_LEN] at hdp hin
  have hpos : f.bytePos.toNat = p.2.pos := by
    rw [h.bytePos, UInt8.toNat_ofNat']
    omega
  have hlen : f.len.toNat = p.2.len := by
    rw [h.len h.vlenthFlag, UInt16.toNat_ofNat']
    omega
  obtain ⟨g, hget, hg, hdec⟩ := paGetProtocolField_byte env dp h.lenUnit h.bufOk (by omega)
  rw [hpos, hlen] at hdec
  exact ⟨g, hget, h.of_value (by rw [hg]) hdec.bufOk hdec.toWire.given⟩

section Pass

variable {pa : ProtocolAnalyzer} {entry : List UInt8 → FieldValue} {a : Addr} {rest : List Addr}
  {g : ProtoInfo} {S : UInt8} {s : FieldSpec} {w : FieldValue} {e : Addr × FieldSpec × Extent}

/-- A new value for one field is none for a field with another name. -/
theorem entry_update_of_name_ne (hname : e.2.1.name ≠ s.name) :
    Function.update entry s.name.chars w e.2.1.name.chars = entry e.2.1.name.chars :=
  Function.update_of_ne (chars_ne_of_name_ne hname) _ _

/-- A pass leaves a field in front of it as it is. -/
theorem HeldAt.pass_front (h : HeldAt false e.2 (entry e.2.1.name.chars) (pa.info e.1))
    (haddr : e.1 ∉ a :: rest) (hname : e.2.1.name ≠ s.name) :
    HeldAt false e.2 (Function.update entry s.name.chars w e.2.1.name.chars)
      ((pa.pass a rest g S).info e.1) := by
  rw [ProtocolAnalyzer.info_pass_of_notMem g _ haddr, entry_update_of_name_ne hname]
  exact h

/-- A pass moves a field behind it. -/
theorem HeldAt.pass_behind {armed : Bool} {n m : ℕ}
    (h : HeldAt armed (e.2.1, ⟨e.2.2.pos + n, e.2.2.len⟩) (entry e.2.1.name.chars) (pa.info e.1))
    (ha : a ∉ rest) (hmem : e.1 ∈ rest) (hname : e.2.1.name ≠ s.name) :
    HeldAt armed (e.2.1, ⟨e.2.2.pos + (n + m), e.2.2.len⟩)
      (Function.update entry s.name.chars w e.2.1.name.chars)
      ((pa.pass a rest g (UInt8.ofNat m)).info e.1) := by
  rw [ProtocolAnalyzer.info_pass_rest g _ ha hmem, entry_update_of_name_ne hname, ← Nat.add_assoc]
  exact h.shift m

end Pass

/-- One step of the parser: the field takes its length and its value, and the ones behind it are
moved. -/
theorem paParseLoop_step (hf : SheetFormat specs) (env : Env) (hmap : pa.hmap = i.analyzer.hmap)
    (hdl : pa.protocolData.length = MAX_PROTO_DATA_LEN)
    (hgiven : ∀ q ∈ i.fields, Given (entry q.2.name.chars) (pa.info q.1)) {a : Addr}
    {rest : List Addr} (hnd : (a :: rest).Nodup) {p : FieldSpec × Extent} {v : FieldValue}
    (hs : p.1 ∈ specs) (h : HeldAt armed p v (pa.info a)) {len : ℕ}
    (hlen : Sheet.lenIn armed entry p = some len) (hin : p.2.pos + len ≤ MAX_PROTO_DATA_LEN) :
    ∃ g, paParseLoop env (a :: rest) pa =
        paParseLoop env rest (pa.pass a rest g (UInt8.ofNat (Sheet.movedIn armed p.1 len))) ∧
      HeldAt false (p.1, ⟨p.2.pos, len⟩) (decodeValue (slice pa.protocolData p.2.pos len)) g := by
  obtain ⟨hl, hshift⟩ := foundData_held hf hmap hgiven env.keyStr hs h hlen
  have hstep := paParseLoop_cons hnd (i.finds hmap env.keyStr [a])
  rw [hshift] at hstep
  have hsettled := h.settle (S := 0) hl
  rw [show UInt8.ofNat 0 = 0 from rfl, ProtoInfo.shift_zero, Nat.add_zero] at hsettled
  obtain ⟨g, hget, hheld⟩ := hsettled.read env hdl hin
  rw [hget, Option.bind_some] at hstep
  exact ⟨g, hstep, hheld⟩

/-- The run of the parser over the fields `rest`, behind the fields `pre`. -/
theorem paParseLoop_held (hf : SheetFormat specs) (env : Env)
    (pre rest : List (Addr × FieldSpec × Extent)) {S : ℕ} {ps : List (FieldSpec × Extent)}
    (hfields : ((pre ++ rest).map fun e => (e.1, e.2.1)) = i.fields)
    (hmap : pa.hmap = i.analyzer.hmap) (hdl : pa.protocolData.length = MAX_PROTO_DATA_LEN)
    (hpre : ∀ e ∈ pre, HeldAt false e.2 (entry e.2.1.name.chars) (pa.info e.1))
    (hrest : ∀ e ∈ rest, HeldAt armed (e.2.1, ⟨e.2.2.pos + S, e.2.2.len⟩)
      (entry e.2.1.name.chars) (pa.info e.1))
    (hread : Sheet.read armed pa.protocolData S (rest.map Prod.snd) entry = some (ps, entry'))
    (hin : Sheet.InBuffer ps) :
    ∃ info', paParseLoop env (rest.map Prod.fst) pa = some { pa with info := info' } ∧
      ps.map Prod.fst = rest.map (fun e => e.2.1) ∧
      ∀ e ∈ pre ++ (rest.map Prod.fst).zip ps,
        HeldAt false e.2 (entry' e.2.1.name.chars) (info' e.1) := by
  induction rest generalizing pre S pa entry ps with
  | nil =>
    obtain ⟨rfl, rfl⟩ := Prod.mk.inj (Option.some.inj hread)
    exact ⟨pa.info, rfl, rfl, by simpa using hpre⟩
  | cons e rest ih =>
    obtain ⟨a, s, p⟩ := e
    simp only [List.map_cons, Sheet.read, Option.bind_eq_bind, Option.bind_eq_some_iff] at hread
    obtain ⟨len, hlen, ⟨ps', entry₂⟩, hread, hps⟩ := hread
    obtain ⟨rfl, rfl⟩ := Prod.mk.inj (Option.some.inj hps)
    obtain ⟨hin₁, hin⟩ := List.forall_mem_cons.1 hin
    obtain ⟨harm, hrest⟩ := List.forall_mem_cons.1 hrest
    dsimp only at harm
    have hnodup : ((pre ++ (a, s, p) :: rest).map Prod.fst).Nodup := by
      have h := i.nodup_fst_fields
      rwa [← hfields, List.map_map] at h
    have hnames : ((pre ++ (a, s, p) :: rest).map fun e => e.2.1.name).Nodup := by
      have h := hf.names
      rwa [← i.map_snd_fields, ← hfields, List.map_map, List.map_map] at h
    rw [List.map_append, List.map_cons] at hnodup hnames
    obtain ⟨-, hnd, hdisj⟩ := List.nodup_append.1 hnodup
    obtain ⟨-, hndn, hdisjn⟩ := List.nodup_append.1 hnames
    have ha : a ∉ rest.map Prod.fst := (List.nodup_cons.1 hnd).1
    have hmem : ∀ q ∈ i.fields, ∃ e ∈ pre ++ (a, s, p) :: rest, (e.1, e.2.1) = q := fun q hq => by
      rw [← hfields] at hq
      exact List.mem_map.1 hq
    have hs : s ∈ specs := by
      rw [← i.map_snd_fields, ← hfields]
      simp
    have hgiven : ∀ q ∈ i.fields, Given (entry q.2.name.chars) (pa.info q.1) := by
      intro q hq
      obtain ⟨e, he, rfl⟩ := hmem q hq
      rcases List.mem_append.1 he with he | he
      · exact (hpre e he).given
      · rcases List.mem_cons.1 he with rfl | he
        · exact harm.given
        · exact (hrest e he).given
    obtain ⟨g, hstep, hheld⟩ := paParseLoop_step hf env hmap hdl hgiven hnd hs harm hlen hin₁
    set m := Sheet.movedIn armed s len
    set pa₁ := pa.pass a (rest.map Prod.fst) g (UInt8.ofNat m)
    -- the fields in front stay, the ones behind are moved
    have hpre₁ : ∀ t ∈ pre ++ [(a, s, ⟨p.pos + S, len⟩)], HeldAt false t.2
        (Function.update entry s.name.chars (decodeValue (slice pa.protocolData (p.pos + S) len))
          t.2.1.name.chars) (pa₁.info t.1) := by
      intro t ht
      rcases List.mem_append.1 ht with ht | ht
      · exact (hpre t ht).pass_front
          (fun h => hdisj t.1 (List.mem_map_of_mem ht) t.1 h rfl)
          (hdisjn _ (List.mem_map_of_mem ht) _ List.mem_cons_self)
      · obtain rfl := List.mem_singleton.1 ht
        rw [ProtocolAnalyzer.info_pass_self, Function.update_self]
        exact hheld
    have hrest₁ : ∀ t ∈ rest, HeldAt armed (t.2.1, ⟨t.2.2.pos + (S + m), t.2.2.len⟩)
        (Function.update entry s.name.chars (decodeValue (slice pa.protocolData (p.pos + S) len))
          t.2.1.name.chars) (pa₁.info t.1) := fun t ht =>
      (hrest t ht).pass_behind ha (List.mem_map_of_mem ht) fun h =>
        (List.nodup_cons.1 hndn).1 (h ▸ List.mem_map_of_mem ht)
    obtain ⟨info', hloop, hfst, hall⟩ := ih (pre ++ [(a, s, ⟨p.pos + S, len⟩)])
      (by rw [← hfields]; simp) (show pa₁.hmap = i.analyzer.hmap from hmap) hdl hpre₁ hrest₁ hread
      hin
    refine ⟨info', hstep.trans hloop, ?_, ?_⟩
    · rw [List.map_cons, List.map_cons, hfst]
    · rwa [List.append_assoc] at hall

/-- **Parsing takes the values of the sheet out of the buffer.** -/
theorem ShowsSheet.parse {t t' : Sheet} (h : ShowsSheet i pa t) (hf : SheetFormat specs)
    (env : Env) (ht : t.parse = some t') :
    ∃ r pa', paParseProtocolData env pa = some (r, pa') ∧ ShowsSheet i pa' t' := by
  unfold Sheet.parse at ht
  split_ifs at ht with h0
  · obtain rfl := Option.some.inj ht
    have hlen : pa.protocolDataLen = 0 := UInt16.toNat_inj.1 (h.protocolDataLen.trans h0)
    refine ⟨-1, pa, ?_, h⟩
    rw [paParseProtocolData, h.paListHeadP]
    exact if_pos hlen
  · simp only [Option.bind_eq_bind, Option.bind_eq_some_iff] at ht
    obtain ⟨⟨ps, entry'⟩, hread, ht⟩ := ht
    split_ifs at ht with hin
    obtain rfl := Option.some.inj ht
    have hlen : pa.protocolDataLen ≠ 0 := fun e => h0 (by rw [← h.protocolDataLen, e]; rfl)
    have hfst := i.map_fst_zip h.places
    have hsnd := i.map_snd_zip h.places
    obtain ⟨info', hloop, hps, hall⟩ := paParseLoop_held hf env [] (i.infos.zip t.places)
      (i.fields_eq_map h.places).symm h.hmap (h.protocolData ▸ h.length_buffer) (by simp)
      (S := 0) h.fields (by rwa [hsnd, h.protocolData]) hin
    rw [hfst] at hloop hall
    refine ⟨0, { pa with info := info' }, ?_, h.paListHeadP, h.hmap, h.protocolData,
      h.length_buffer, h.protocolDataLen, ?_, hall⟩
    · simp only [paParseProtocolData, h.paListHeadP, if_neg hlen, hloop, Option.bind_eq_bind,
        Option.bind_some]
    · have hplaces := congrArg (List.map Prod.fst) hsnd
      rw [List.map_map] at hplaces
      exact hps.trans (hplaces.trans h.places)

end Parse

/-! ## Histories -/

section Steps

variable {specs : List FieldSpec} {i : Init specs} {pa : ProtocolAnalyzer} {t t' : Sheet}

/-- A new analyzer shows a new sheet. -/
theorem Init.showsSheet (i : Init specs) (hf : SheetFormat specs) :
    ShowsSheet i i.analyzer (.fresh specs) where
  paListHeadP := i.paListHeadP_analyzer
  hmap := rfl
  protocolData := i.protocolData_analyzer
  length_buffer := List.length_replicate
  protocolDataLen := by
    simp [Init.analyzer, Init.copied, paCopyProtocolFormat, paCreateHashTable,
      paCreateProtocolAnalyzer, Sheet.fresh]
  places := by simp [Sheet.fresh, Function.comp_def]
  fields := by
    intro e he
    have hmem : ∃ q ∈ i.fields, e = (q.1, q.2, ⟨q.2.bytePos.toNat, q.2.len.toNat⟩) := by
      rw [Sheet.fresh, List.zip_map_right] at he
      obtain ⟨q, hq, rfl⟩ := List.mem_map.1 he
      exact ⟨q, hq, rfl⟩
    obtain ⟨q, hq, rfl⟩ := hmem
    have hs := i.snd_mem hq
    rw [i.info_analyzer (s := q.2) hq]
    exact
      { bytePos := UInt8.ofNat_toNat.symm
        bitPos := hf.bitPos _ hs
        lenUnit := hf.lenUnit _ hs
        vlenthIndex := rfl
        vlenthFlag := rfl
        vlenthFlagBak := rfl
        len := fun _ => UInt16.ofNat_toNat.symm
        bufOk := q.2.armed_info.bufOk
        given := rfl }

/-- The addresses and the names tell the fields apart. -/
theorem ShowsSheet.eq_of_mem (h : ShowsSheet i pa t) (hf : SheetFormat specs)
    {e e' : Addr × FieldSpec × Extent} (he : e ∈ i.infos.zip t.places)
    (he' : e' ∈ i.infos.zip t.places) :
    (e.1 = e'.1 → e = e') ∧ (e.2.1.name.chars = e'.2.1.name.chars → e = e') := by
  have haddr : ((i.infos.zip t.places).map Prod.fst).Nodup := by
    rw [i.map_fst_zip h.places]
    exact i.nodup_infos
  have hname : ((i.infos.zip t.places).map fun e => e.2.1.name).Nodup := by
    have hmap := congrArg (List.map fun p : FieldSpec × Extent => p.1.name)
      (i.map_snd_zip h.places)
    have hnames := hf.names
    rw [List.map_map] at hmap
    rw [← h.places, List.map_map] at hnames
    exact hmap ▸ hnames
  refine ⟨List.inj_on_of_nodup_map haddr he he', fun hchars => ?_⟩
  by_contra hne
  exact chars_ne_of_name_ne (fun hn => hne (List.inj_on_of_nodup_map hname he he' hn)) hchars

/-- **A value that is given to a field is written down under its name.** -/
theorem ShowsSheet.set (h : ShowsSheet i pa t) (hf : SheetFormat specs)
    {e : Addr × FieldSpec × Extent} (he : e ∈ i.infos.zip t.places) {g : ProtoInfo}
    (hg : g = { pa.info e.1 with
      data := g.data
      buf := g.buf
      vlenthValueFlag := g.vlenthValueFlag
      vlenthValueAssignedFlag := g.vlenthValueAssignedFlag })
    (hok : g.BufOk) {v : FieldValue} (hv : Given v g) :
    ShowsSheet i (pa.modify e.1 fun _ => g) (t.set e.2.1.name.chars v) where
  paListHeadP := h.paListHeadP
  hmap := h.hmap
  protocolData := h.protocolData
  length_buffer := h.length_buffer
  protocolDataLen := h.protocolDataLen
  places := h.places
  fields := by
    intro e' he'
    obtain ⟨haddr, hname⟩ := h.eq_of_mem hf he' he
    by_cases hee : e' = e
    · subst hee
      rw [ProtocolAnalyzer.info_modify_self]
      change HeldAt t.armed e'.2 (Function.update t.entry _ v _) g
      rw [Function.update_self]
      exact (h.fields e' he).of_value hg hok hv
    · rw [ProtocolAnalyzer.info_modify_of_ne _ (mt haddr hee)]
      change HeldAt t.armed e'.2 (Function.update t.entry _ v _) _
      rw [Function.update_of_ne (mt hname hee)]
      exact h.fields e' he'

/-- A name of less than ten bytes is found by itself. -/
theorem Sheet.find_short {key : List UInt8} (hshort : key.length < 10) (hkey : key ∈ t.names)
    (uninit : ℕ → UInt8) : t.find key uninit = some key := by
  obtain ⟨p, hp, rfl⟩ := List.mem_map.1 hkey
  simp only [find, Init.take_array_eq_keyBytes_iff _ p.1.name.no_nul hshort]
  cases ho : t.places.reverse.find? fun q => q.1.name.chars = p.1.name.chars with
  | none => simpa using List.find?_eq_none.1 ho p (List.mem_reverse.2 hp)
  | some q =>
    have hq := List.find?_some ho
    exact congrArg some (of_decide_eq_true hq)

/-- A call finds the field that the sheet tells. -/
theorem ShowsSheet.find (h : ShowsSheet i pa t) (key : List UInt8) (uninit : ℕ → UInt8) :
    (t.find key uninit = none → paFindKey key uninit pa = some none) ∧
      ∀ name, t.find key uninit = some name → ∃ e ∈ i.infos.zip t.places,
        e.2.1.name.chars = name ∧ paFindKey key uninit pa = some (some e.1) := by
  have hplaces : t.places.reverse = (i.infos.zip t.places).reverse.map Prod.snd := by
    rw [List.map_reverse, i.map_snd_zip h.places]
  rw [i.paFindKey_eq h.hmap, Init.tableFind, i.fields_eq_map h.places, ← List.map_reverse,
    List.find?_map, Sheet.find, hplaces, List.find?_map]
  simp only [Function.comp_def]
  cases ho : (i.infos.zip t.places).reverse.find? fun e =>
      decide (e.2.1.name.array.take 10 = keyBytes key uninit) with
  | none => exact ⟨fun _ => rfl, fun _ hname => by cases hname⟩
  | some e =>
    refine ⟨fun hnone => (by cases hnone), fun name hname => ?_⟩
    refine ⟨e, ?_, Option.some.inj hname, rfl⟩
    exact List.mem_reverse.1 (List.mem_of_find?_eq_some ho)

/-- **A call does what it means for the sheet.** -/
theorem ShowsSheet.call (h : ShowsSheet i pa t) (hf : SheetFormat specs) {c : AnalyzerCall}
    (ht : c.onSheet t = some t') : ∃ pa', c.run pa = some pa' ∧ ShowsSheet i pa' t' := by
  cases c with
  | setValue key value uninit =>
    obtain ⟨name, hname, rfl⟩ := Option.map_eq_some_iff.1 ht
    obtain ⟨e, he, rfl, hfind⟩ := (h.find key uninit).2 name hname
    refine ⟨_, ?_, h.set hf he (g := setValue value (pa.info e.1)) rfl (h.fields e he).bufOk rfl⟩
    simp only [AnalyzerCall.run, paSetValue, hfind]
    rfl
  | setVariableLengthValue key value uninit =>
    simp only [AnalyzerCall.onSheet] at ht
    split at ht
    · next name hname =>
      obtain rfl := Option.some.inj ht
      obtain ⟨e, he, rfl, hfind⟩ := (h.find key uninit).2 name hname
      refine ⟨_, ?_, h.set hf he (g := { pa.info e.1 with
        data := value
        vlenthValueAssignedFlag := true }) rfl (h.fields e he).bufOk rfl⟩
      simp only [AnalyzerCall.run, paSetVariableLengthValue, hfind]
      rfl
    · next hnone =>
      obtain rfl := Option.some.inj ht
      refine ⟨pa, ?_, h⟩
      simp only [AnalyzerCall.run, paSetVariableLengthValue, (h.find key uninit).1 hnone]
      rfl
  | setBuf key data uninit =>
    simp only [AnalyzerCall.onSheet] at ht
    split at ht
    · next name hname =>
      obtain rfl := Option.some.inj ht
      obtain ⟨e, he, rfl, hfind⟩ := (h.find key uninit).2 name hname
      obtain ⟨g, hset, hg, hok, hv⟩ := assignField_eq (.buf data) (h.fields e he).bufOk
      refine ⟨_, ?_, h.set hf he (by rw [hg]) hok hv⟩
      change setBuf data (pa.info e.1) = some g at hset
      simp only [AnalyzerCall.run, paSetBuf, hfind, hset, Option.bind_eq_bind, Option.bind_some]
      rfl
    · next hnone =>
      obtain rfl := Option.some.inj ht
      refine ⟨pa, ?_, h⟩
      simp only [AnalyzerCall.run, paSetBuf, (h.find key uninit).1 hnone]
      rfl
  | generate env =>
    obtain ⟨pa', hgen, hshows⟩ := h.generate hf env ht
    exact ⟨pa', by rw [AnalyzerCall.run, hgen]; rfl, hshows⟩
  | receive data len =>
    simp only [AnalyzerCall.onSheet] at ht
    split_ifs at ht with hlen
    obtain rfl := Option.some.inj ht
    exact ⟨_, rfl, { h with protocolData := rfl, length_buffer := hlen, protocolDataLen := rfl }⟩
  | parse env =>
    obtain ⟨r, pa', hparse, hshows⟩ := h.parse hf env ht
    exact ⟨pa', by rw [AnalyzerCall.run, hparse]; rfl, hshows⟩
  | reset =>
    obtain rfl := Option.some.inj ht
    refine ⟨_, rfl, ?_⟩
    rw [paResetVlenFlag_eq i.nodup_infos h.paListHeadP]
    refine { h with fields := fun e he => ?_ }
    dsimp only
    rw [if_pos (List.of_mem_zip he).1]
    exact (h.fields e he).reset

end Steps

/-- The sheet after a history of calls. -/
def sheetAfter (calls : List AnalyzerCall) (t : Sheet) : Option Sheet :=
  calls.foldlM (fun t c => c.onSheet t) t

section Runs

variable {specs : List FieldSpec}

/-- A history of calls does what it means for the sheet. -/
theorem ShowsSheet.afterCalls {i : Init specs} {pa : ProtocolAnalyzer} {t t' : Sheet}
    (h : ShowsSheet i pa t) (hf : SheetFormat specs) {calls : List AnalyzerCall}
    (ht : sheetAfter calls t = some t') :
    ∃ pa', afterCalls calls pa = some pa' ∧ ShowsSheet i pa' t' := by
  have hsim : (Refinement.ofPartial AnalyzerCall.run AnalyzerCall.onSheet).Simulates
      (ShowsSheet i) := by
    intro c pa t h hok
    obtain ⟨t', ht'⟩ := Option.isSome_iff_exists.1 hok
    have hnext : (c.onSheet t).getD t = t' := by rw [ht', Option.getD_some]
    obtain ⟨pa', hrun, hshows⟩ := h.call hf ht'
    refine ⟨pa', hrun, ?_⟩
    change ShowsSheet i pa' ((c.onSheet t).getD t)
    rwa [hnext]
  obtain ⟨hok, hafter⟩ : (Refinement.ofPartial AnalyzerCall.run AnalyzerCall.onSheet).Admissible
      calls t ∧ (Refinement.ofPartial AnalyzerCall.run AnalyzerCall.onSheet).after calls t = t' :=
    Refinement.admissible_ofPartial ht
  obtain ⟨pa', hrun, hshows⟩ := hsim.run h hok
  exact ⟨pa', hrun, hafter ▸ hshows⟩

/-- What `pa_get_value` returns is the number on the sheet. -/
theorem ShowsSheet.paGetValue {i : Init specs} {pa : ProtocolAnalyzer} {t : Sheet}
    (h : ShowsSheet i pa t) {key name : List UInt8} {uninit : ℕ → UInt8}
    (hname : t.find key uninit = some name) {n : UInt32} (hn : t.entry name = .int n) :
    paGetValue key uninit pa = some (wrapInt n.toNat) := by
  obtain ⟨e, he, rfl, hfind⟩ := (h.find key uninit).2 name hname
  have hgiven := (h.fields e he).given
  rw [hn] at hgiven
  simp only [HpiDriver.paGetValue, hfind, Option.bind_eq_bind, Option.bind_some]
  rw [show (pa.info e.1).data = n from hgiven]

/-- **A history of calls does what it means for the sheet**: it stays in the memory of the
analyzer, and what the analyzer returns behind it for a field is what the sheet says. -/
theorem afterCalls_sheet (i : Init specs) (hf : SheetFormat specs) {calls : List AnalyzerCall}
    {t : Sheet} (ht : sheetAfter calls (.fresh specs) = some t) :
    ∃ pa, afterCalls calls i.analyzer = some pa ∧
      pa.protocolData = t.buffer ∧
      pa.protocolDataLen.toNat = t.dataLen ∧
      ∀ key uninit name n, t.find key uninit = some name → t.entry name = .int n →
        paGetValue key uninit pa = some (wrapInt n.toNat) := by
  obtain ⟨pa, hrun, h⟩ := (i.showsSheet hf).afterCalls hf ht
  exact ⟨pa, hrun, h.protocolData, h.protocolDataLen, fun _ _ _ _ hname hn => h.paGetValue hname hn⟩

/-- The values of a peripheral record with six bytes of data are set, with no station number. -/
def sets3054 : List AnalyzerCall :=
  [.setValue PROTO_NUM 0x3054 fun _ => 0, .setValue NO_NAME1 7 fun _ => 0,
    .setVariableLengthValue DC_INFO 6 fun _ => 0, .setBuf DC_DATA [1, 2, 3, 4, 5, 6] fun _ => 0]

/-- Two messages in a row, the second one with a byte more than there is room for. -/
def calls3054 : List AnalyzerCall :=
  sets3054 ++
    [.generate ⟨true, fun _ _ => 0, fun _ _ => 0, 0⟩,
      .setBuf DC_DATA [9, 8, 7, 6, 5, 4, 3] fun _ => 0,
      .generate ⟨true, fun _ _ => 0, fun _ _ => 0, 0⟩,
      .parse ⟨true, fun _ _ => 0, fun _ _ => 0, 0⟩, .reset]

theorem isSome_calls3054 : (sheetAfter calls3054 (.fresh specs3054)).isSome := by
  decide +kernel

/-- The number and the length are read back. -/
theorem afterCalls_sheet_calls3054 : ∃ pa, afterCalls calls3054 init3054.analyzer = some pa ∧
    (∀ uninit, paGetValue NO_NAME1 uninit pa = some 7) ∧
    ∀ uninit, paGetValue DC_INFO uninit pa = some 6 := by
  obtain ⟨pa, hrun, -, -, hget⟩ := afterCalls_sheet init3054
    (sheetFormat_drvFormats specs3054 (by simp)) (Option.some_get isSome_calls3054).symm
  refine ⟨pa, hrun, fun uninit => ?_, fun uninit => ?_⟩
  · have hnum := hget NO_NAME1 uninit NO_NAME1 7
      (Sheet.find_short (by decide) (by decide +kernel) uninit) (by decide +kernel)
    exact hnum.trans (by decide)
  · have hlen := hget DC_INFO uninit DC_INFO 6
      (Sheet.find_short (by decide) (by decide +kernel) uninit) (by decide +kernel)
    exact hlen.trans (by decide)

end Runs

/-! ## Parsing behind generating -/

section Echo

variable {specs : List FieldSpec} {t t' : Sheet} {entry : List UInt8 → FieldValue}
  {ps : List (FieldSpec × Extent)}

/-- A value that fits its field is written with its bytes. -/
theorem FieldValue.Fits.written_eq {v : FieldValue} {len : ℕ} (h : v.Fits len) :
    v.written len = some (v.bytes len) := by
  cases v with
  | int n => exact if_pos h.1
  | buf bs =>
    obtain ⟨h4, hlen⟩ := h
    rw [written, if_neg (by omega), if_pos ⟨h4, hlen.ge⟩, List.take_of_length_le hlen.le]
    rfl

namespace Sheet

theorem writes_of_fits (h : ∀ p ∈ ps, (entry p.1.name.chars).Fits p.2.len) :
    writes entry ps =
      some (ps.map fun p => (p.2.pos, (entry p.1.name.chars).bytes p.2.len)) := by
  induction ps with
  | nil => rfl
  | cons p ps ih =>
    obtain ⟨hp, h⟩ := List.forall_mem_cons.1 h
    simp only [writes, hp.written_eq, ih h, Option.bind_eq_bind, Option.bind_some, List.map_cons]

/-- Reading what is written down already. -/
theorem read_eq_self {dp : List UInt8}
    (h : ∀ p ∈ ps, decodeValue (slice dp p.2.pos p.2.len) = entry p.1.name.chars) :
    read false dp 0 ps entry = some (ps, entry) := by
  induction ps with
  | nil => rfl
  | cons p ps ih =>
    obtain ⟨hp, h⟩ := List.forall_mem_cons.1 h
    simp only [read, lenIn, movedIn, Bool.false_and, Bool.false_eq_true, if_false, Nat.add_zero,
      hp, Function.update_eq_self, ih h, Option.bind_eq_bind, Option.bind_some]

/-- The fields lie apart from each other. -/
def Apart (ps : List (FieldSpec × Extent)) : Prop :=
  ps.Pairwise fun p q => p.2.pos + p.2.len ≤ q.2.pos ∨ q.2.pos + q.2.len ≤ p.2.pos

instance (ps : List (FieldSpec × Extent)) : Decidable (Apart ps) :=
  inferInstanceAs (Decidable (List.Pairwise _ _))

/-- Parsing what was generated changes nothing. -/
theorem parse_generate (hgen : t.generate = some t')
    (hbuf : t.buffer.length = MAX_PROTO_DATA_LEN) (hapart : Apart t'.places)
    (hfit : ∀ p ∈ t'.places, (t.entry p.1.name.chars).Fits p.2.len) : t'.parse = some t' := by
  simp only [generate, Option.bind_eq_bind, Option.bind_eq_some_iff] at hgen
  obtain ⟨ps, hps, ws, hws, hgen⟩ := hgen
  split_ifs at hgen with hin
  obtain rfl := Option.some.inj hgen
  change Apart ps at hapart
  change ∀ p ∈ ps, (t.entry p.1.name.chars).Fits p.2.len at hfit
  rw [writes_of_fits hfit] at hws
  replace hws := (Option.some.inj hws).symm
  have hlen : ∀ p ∈ ps, ((t.entry p.1.name.chars).bytes p.2.len).length = p.2.len :=
    fun p hp => (hfit p hp).length_bytes
  have hslice : ∀ w ∈ ws, slice (blitAll t.buffer ws) w.1 w.2.length = w.2 := by
    rw [hws]
    apply slice_blitAll
    · rw [List.forall_mem_map]
      intro p hp
      rw [hlen p hp, hbuf]
      exact hin p hp
    · rw [List.pairwise_map]
      refine hapart.imp_of_mem fun hp hq hpq => ?_
      rwa [hlen _ hp, hlen _ hq]
  have hread : read false (blitAll t.buffer ws) 0 ps t.entry = some (ps, t.entry) := by
    refine read_eq_self fun p hp => ?_
    have hw : (p.2.pos, (t.entry p.1.name.chars).bytes p.2.len) ∈ ws := by
      rw [hws]
      exact List.mem_map_of_mem hp
    have h := hslice _ hw
    rw [hlen p hp] at h
    rw [h, (hfit p hp).decodeValue_bytes]
  rw [parse]
  split_ifs with h0
  · rfl
  · simp only [hread, Option.bind_eq_bind, Option.bind_some, if_pos hin]

end Sheet

/-- A field at rest with a value that fits holds the value. -/
theorem HeldAt.value_eq {p : FieldSpec × Extent} {v : FieldValue} {f : ProtoInfo}
    (h : HeldAt false p v f) (hfit : v.Fits p.2.len) (hlen : p.2.len < 2 ^ 16) :
    f.value = v ∧ f.len.toNat = p.2.len := by
  have hflen : f.len.toNat = p.2.len := by
    rw [h.len (by rw [h.vlenthFlag, Bool.false_and]), UInt16.toNat_ofNat', Nat.mod_eq_of_lt hlen]
  have hcarries : Carries f (v.bytes p.2.len) :=
    ⟨hfit.wire h.given, by rw [hflen, hfit.length_bytes]⟩
  exact ⟨(hcarries.value_eq h.lenUnit).trans hfit.decodeValue_bytes, hflen⟩

/-- **Parsing right behind generating changes nothing**: after any history, when the values fit the
lengths that generating finds and the fields lie apart from each other, each field still has its
value, place and length. -/
theorem afterCalls_generate_parse (i : Init specs) (hf : SheetFormat specs)
    {calls : List AnalyzerCall} (ht : sheetAfter calls (.fresh specs) = some t)
    (hgen : t.generate = some t') (hapart : Sheet.Apart t'.places)
    (hfit : ∀ p ∈ t'.places, (t.entry p.1.name.chars).Fits p.2.len) (env env' : Env) :
    ∃ pa, afterCalls (calls ++ [.generate env, .parse env']) i.analyzer = some pa ∧
      pa.protocolData = t'.buffer ∧
      ∀ e ∈ i.infos.zip t'.places, (pa.info e.1).value = t.entry e.2.1.name.chars ∧
        (pa.info e.1).bytePos.toNat = e.2.2.pos ∧ (pa.info e.1).len.toNat = e.2.2.len := by
  obtain ⟨pa₀, -, h₀⟩ := (i.showsSheet hf).afterCalls hf ht
  have hparse := Sheet.parse_generate hgen h₀.length_buffer hapart hfit
  have hafter : sheetAfter (calls ++ [.generate env, .parse env']) (.fresh specs) = some t' := by
    simp only [sheetAfter, List.foldlM_append, List.foldlM_cons, List.foldlM_nil]
    rw [show calls.foldlM (fun t c => c.onSheet t) (Sheet.fresh specs) = some t from ht]
    simp only [AnalyzerCall.onSheet, Option.bind_eq_bind, Option.bind_some, hgen, hparse]
    rfl
  have hentry : t'.entry = t.entry ∧ t'.armed = false ∧ Sheet.InBuffer t'.places := by
    simp only [Sheet.generate, Option.bind_eq_bind, Option.bind_eq_some_iff] at hgen
    obtain ⟨ps, -, ws, -, hgen⟩ := hgen
    split_ifs at hgen with hin
    obtain rfl := Option.some.inj hgen
    exact ⟨rfl, rfl, hin⟩
  obtain ⟨hentry, harmed, hin⟩ := hentry
  obtain ⟨pa, hrun, h⟩ := (i.showsSheet hf).afterCalls hf hafter
  refine ⟨pa, hrun, h.protocolData, fun e he => ?_⟩
  have hp := (List.of_mem_zip he).2
  have hle := hin _ hp
  simp only [MAX_PROTO_DATA_LEN] at hle
  have hheld := h.fields e he
  rw [harmed, hentry] at hheld
  obtain ⟨hvalue, hlen⟩ := hheld.value_eq (hfit _ hp) (by omega)
  refine ⟨hvalue, ?_, hlen⟩
  rw [hheld.bytePos, UInt8.toNat_ofNat']
  omega

theorem isSome_sets3054 : (sheetAfter sets3054 (.fresh specs3054)).isSome := by
  decide +kernel

theorem isSome_generate_sets3054 :
    ((sheetAfter sets3054 (.fresh specs3054)).get isSome_sets3054).generate.isSome := by
  decide +kernel

/-- The record is still there after it was generated and parsed. -/
theorem afterCalls_generate_parse_sets3054 : ∃ pa,
    afterCalls (sets3054 ++ [.generate ⟨true, fun _ _ => 0, fun _ _ => 0, 0⟩,
      .parse ⟨true, fun _ _ => 0, fun _ _ => 0, 0⟩]) init3054.analyzer = some pa ∧
      pa.protocolData.take 11 = [0x30, 0x54, 7, 0, 6, 1, 2, 3, 4, 5, 6] := by
  obtain ⟨pa, hrun, hdata, -⟩ := afterCalls_generate_parse init3054
    (sheetFormat_drvFormats specs3054 (by simp)) (Option.some_get isSome_sets3054).symm
    (Option.some_get isSome_generate_sets3054).symm (by decide +kernel) (by decide +kernel)
    ⟨true, fun _ _ => 0, fun _ _ => 0, 0⟩ ⟨true, fun _ _ => 0, fun _ _ => 0, 0⟩
  refine ⟨pa, hrun, ?_⟩
  rw [hdata]
  decide +kernel

end Echo

/-! ## Generating the wire form -/

/-- The values on the sheet stand for the bytes of the field: its value is written with them, and a
fixed-length field, or the value of the length field, has their number. -/
structure Spells (entry : List UInt8 → FieldValue) (c : Content) : Prop where
  written : (entry c.1.name.chars).written c.2.length = some c.2
  length_eq : c.1.index = none → c.2.length = c.1.len.toNat
  toLen : ∀ n ∈ c.1.index, (entry n.chars).toLen = some c.2.length

theorem spells_iff {entry : List UInt8 → FieldValue} {c : Content} :
    (entry c.1.name.chars).written c.2.length = some c.2 ∧
      (c.1.index = none → c.2.length = c.1.len.toNat) ∧
      (∀ n ∈ c.1.index, (entry n.chars).toLen = some c.2.length) ↔ Spells entry c :=
  ⟨fun h => ⟨h.1, h.2.1, h.2.2⟩, fun h => ⟨h.written, h.length_eq, h.toLen⟩⟩

instance (entry : List UInt8 → FieldValue) (c : Content) : Decidable (Spells entry c) :=
  decidable_of_iff _ spells_iff

/-- The places of the fields of a message, when those in front take `S` bytes more than the format
says. -/
def spread : ℕ → List Content → List (FieldSpec × Extent)
  | _, [] => []
  | S, c :: msg => (c.1, ⟨c.1.bytePos.toNat + S, c.2.length⟩) :: spread (S + varLen c) msg

section Spread

variable {entry : List UInt8 → FieldValue} {msg : List Content} {pos S : ℕ}

theorem Spells.lenIn_eq {c : Content} (h : Spells entry c) :
    Sheet.lenIn true entry (c.1, ⟨c.1.bytePos.toNat, c.1.len.toNat⟩) = some c.2.length := by
  unfold Sheet.lenIn
  cases hi : c.1.index with
  | none => exact congrArg some (h.length_eq hi).symm
  | some n => exact h.toLen n hi

theorem movedIn_eq_varLen (c : Content) : Sheet.movedIn true c.1 c.2.length = varLen c := by
  rw [Sheet.movedIn, Bool.true_and, varLen]

/-- Generating finds the places of the fields. -/
theorem arrange_spread (h : ∀ c ∈ msg, Spells entry c) :
    Sheet.arrange true entry S (msg.map fun c => (c.1, ⟨c.1.bytePos.toNat, c.1.len.toNat⟩)) =
      some (spread S msg) := by
  induction msg generalizing S with
  | nil => rfl
  | cons c msg ih =>
    obtain ⟨hc, h⟩ := List.forall_mem_cons.1 h
    simp only [List.map_cons, Sheet.arrange, hc.lenIn_eq, movedIn_eq_varLen, ih h,
      Option.bind_eq_bind, Option.bind_some, spread]

/-- It puts the blocks of the message there. -/
theorem writes_spread (h : ∀ c ∈ msg, Spells entry c) :
    Sheet.writes entry (spread S msg) = some (blocks S msg) := by
  induction msg generalizing S with
  | nil => rfl
  | cons c msg ih =>
    obtain ⟨hc, h⟩ := List.forall_mem_cons.1 h
    simp only [spread, Sheet.writes, hc.written, ih h, Option.bind_eq_bind, Option.bind_some,
      blocks]

theorem map_snd_spread : (spread S msg).map (fun p => p.2.pos + p.2.len) =
    (blocks S msg).map fun w => w.1 + w.2.length := by
  induction msg generalizing S with
  | nil => rfl
  | cons c msg ih => rw [spread, blocks, List.map_cons, List.map_cons, ih]

theorem lastEnd_spread : Sheet.lastEnd (spread 0 msg) = messageEnd msg := by
  have h : ((spread 0 msg).getLast?.map fun p => p.2.pos + p.2.len) =
      (blocks 0 msg).getLast?.map fun w => w.1 + w.2.length := by
    rw [← List.getLast?_map, ← List.getLast?_map, map_snd_spread]
  rw [Sheet.lastEnd, h, messageEnd]
  cases (blocks 0 msg).getLast? <;> rfl

/-- The fields of a format without gaps lie in the wire form of the message. -/
theorem end_le_of_mem_spread (hc : Contiguous pos (msg.map Prod.fst))
    (h : ∀ c ∈ msg, Spells entry c) {p : FieldSpec × Extent} (hp : p ∈ spread S msg) :
    p.2.pos + p.2.len ≤ pos + S + (wire msg).length := by
  induction msg generalizing pos S with
  | nil => cases hp
  | cons c msg ih =>
    obtain ⟨hpos, hvar, hc⟩ := hc
    obtain ⟨hspells, h⟩ := List.forall_mem_cons.1 h
    rw [wire_cons, List.length_append]
    rcases List.mem_cons.1 hp with rfl | hp
    · dsimp only
      omega
    · have hle := ih hc h hp
      rw [next_place hvar hspells.length_eq] at hle
      omega

end Spread

/-- The length field of a variable-length field of a message. -/
theorem ByteFormat.exists_lengthField {specs : List FieldSpec} (hf : ByteFormat specs)
    {msg l post : List Content} {c : Content} (hmsg : msg.map Prod.fst = specs)
    (hsplit : msg = l ++ c :: post) {n : CName} (hn : n ∈ c.1.index) :
    n.chars.length < 10 ∧ ∃ e ∈ l, e.1.name = n ∧ e.1.index = none ∧ e.1.len ≤ 4 := by
  have hspecs : specs = l.map Prod.fst ++ c.1 :: post.map Prod.fst := by
    rw [← hmsg, hsplit, List.map_append]
    rfl
  have hk : l.length < specs.length := by
    rw [hspecs]
    simp
  have hget : specs[l.length] = c.1 := by simp [hspecs]
  have htake : specs.take l.length = l.map Prod.fst := by
    rw [hspecs, List.take_left' (List.length_map _)]
  obtain ⟨-, hshort, t, ht, htn, hti, ht4⟩ := hf.vlen ⟨l.length, hk⟩ n (by
    rwa [Fin.getElem_fin, hget])
  dsimp only at ht
  rw [htake] at ht
  obtain ⟨e, he, rfl⟩ := List.mem_map.1 ht
  exact ⟨hshort, e, he, htn, hti, ht4⟩

/-- A message of less than 256 bytes a field that is spelled is consistent. -/
theorem consistent_of_spells {specs : List FieldSpec} (hf : ByteFormat specs)
    (hlen : ∀ s ∈ specs, s.index = none → s.len ≠ 0) {msg : List Content}
    (hmsg : msg.map Prod.fst = specs) {entry : List UInt8 → FieldValue}
    (h : ∀ c ∈ msg, Spells entry c) (hlt : ∀ c ∈ msg, c.2.length < 256) : Consistent [] msg := by
  refine .of_sized fun l c post hsplit => ?_
  have hc : c ∈ msg := by simp [hsplit]
  simp only [Sized, List.nil_append]
  cases hi : c.1.index with
  | none => exact (h c hc).length_eq hi
  | some n =>
    obtain ⟨hshort, e, he, rfl, hei, he4⟩ := hf.exists_lengthField hmsg hsplit hi
    have hmem : e ∈ msg := hsplit ▸ List.mem_append_left _ he
    have hel : e.2.length = e.1.len.toNat := (h e hmem).length_eq hei
    have hel4 : e.2.length ≤ 4 := hel.trans_le he4
    have hpos : 1 ≤ e.2.length := by
      have hne := hlen e.1 (hmsg ▸ List.mem_map_of_mem hmem) hei
      rw [hel, Nat.one_le_iff_ne_zero]
      exact fun h0 => hne (UInt16.toNat_inj.1 h0)
    -- the number on the sheet is the length, and it fits into the bytes of the length field
    have hnum := (h c hc).toLen e.1.name hi
    have hwritten := (h e hmem).written
    refine ⟨hshort, e, he, rfl, hel4, ?_⟩
    cases hv : entry e.1.name.chars with
    | buf bs =>
      rw [hv] at hnum
      cases hnum
    | int k =>
      rw [hv, FieldValue.written, if_pos hel4] at hwritten
      rw [hv] at hnum
      have hk : k.toNat = c.2.length := Option.some.inj hnum
      have hk256 : k.toNat < 256 ^ e.2.length := calc
        k.toNat < 256 ^ 1 := hk.trans_lt (hlt c hc)
        _ ≤ 256 ^ e.2.length := Nat.pow_le_pow_right (by decide) hpos
      rw [← Option.some.inj hwritten, beValue_beBytes hk256, hk]

/-- **Generating makes the wire form**: on a new sheet whose values stand for the bytes of a message
of a format without gaps, the bytes get to the start of the buffer, one field behind the other. -/
theorem Sheet.generate_wire {msg : List Content} (hne : msg ≠ [])
    (hc : Contiguous 0 (msg.map Prod.fst)) {entry : List UInt8 → FieldValue}
    (h : ∀ c ∈ msg, Spells entry c) (hmax : (wire msg).length ≤ MAX_PROTO_DATA_LEN) :
    Sheet.generate { Sheet.fresh (msg.map Prod.fst) with entry := entry } = some
      { entry := entry
        places := spread 0 msg
        armed := false
        buffer := blit (List.replicate MAX_PROTO_DATA_LEN 0) 0 (wire msg)
        dataLen := (wire msg).length } := by
  have hfix : ∀ c ∈ msg, c.1.index = none → c.2.length = c.1.len.toNat :=
    fun c hc => (h c hc).length_eq
  have hin : Sheet.InBuffer (spread 0 msg) := fun p hp =>
    (end_le_of_mem_spread hc h hp).trans (by omega)
  have hblit : blitAll (List.replicate MAX_PROTO_DATA_LEN 0) (blocks 0 msg) =
      blit (List.replicate MAX_PROTO_DATA_LEN 0) 0 (wire msg) :=
    blitAll_blocks hc hfix (by rw [List.length_replicate]; omega)
  have hend := messageEnd_eq hne hc hfix
  simp only [Sheet.generate, Sheet.fresh, List.map_map, Function.comp_def, arrange_spread h,
    writes_spread h, Option.bind_eq_bind, Option.bind_some, if_pos hin, hblit, lastEnd_spread, hend]

/-- **The message of a format without gaps is its wire form**: when the calls write down values that
stand for the bytes of its fields, generating behind them makes these bytes, one field behind the
other, and nothing else. -/
theorem afterCalls_generate_wire {specs : List FieldSpec} (i : Init specs) (hf : SheetFormat specs)
    {msg : List Content} (hmsg : msg.map Prod.fst = specs) (hc : Contiguous 0 specs)
    {calls : List AnalyzerCall} {entry : List UInt8 → FieldValue}
    (ht : sheetAfter calls (.fresh specs) = some { Sheet.fresh specs with entry := entry })
    (h : ∀ c ∈ msg, Spells entry c) (hmax : (wire msg).length ≤ MAX_PROTO_DATA_LEN) (env : Env) :
    ∃ pa, afterCalls (calls ++ [.generate env]) i.analyzer = some pa ∧
      memcpyFrom pa.protocolData 0 pa.protocolDataLen.toNat = some (wire msg) := by
  have hne : msg ≠ [] := fun hnil => hf.ne_nil (by rw [← hmsg, hnil]; rfl)
  have hgen := Sheet.generate_wire hne (hmsg ▸ hc) h hmax
  rw [hmsg] at hgen
  have hafter : sheetAfter (calls ++ [.generate env]) (.fresh specs) = some
      { entry := entry
        places := spread 0 msg
        armed := false
        buffer := blit (List.replicate MAX_PROTO_DATA_LEN 0) 0 (wire msg)
        dataLen := (wire msg).length } := by
    rw [sheetAfter, List.foldlM_append, ← sheetAfter, ht]
    exact congrArg (Option.bind · some) hgen
  obtain ⟨pa, hrun, hshows⟩ := (i.showsSheet hf).afterCalls hf hafter
  have hle : 0 + (wire msg).length ≤ (List.replicate MAX_PROTO_DATA_LEN (0 : UInt8)).length := by
    rw [List.length_replicate]
    omega
  refine ⟨pa, hrun, ?_⟩
  rw [hshows.protocolDataLen, hshows.protocolData, memcpyFrom_eq (by rwa [length_blit hle]),
    slice_blit hle]

end HpiDriver
