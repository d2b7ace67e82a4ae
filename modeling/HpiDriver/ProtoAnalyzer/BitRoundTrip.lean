import HpiDriver.ProtoAnalyzer.Assign
import HpiDriver.ProtoAnalyzer.Layers
import HpiDriver.ProtoAnalyzer.Message
import Mathlib.Algebra.BigOperators.Group.List.Basic

/-!
# When decoding undoes encoding for bit fields

The fields of a format of disjoint bit fields are written side by side, and then read back with
the bit in front of each of them. The values survive exactly when none of the fields that do not
start at the top of a byte has a one in front of it (`paParse_paGenerate_bits_iff`).
-/

namespace HpiDriver

open Blocks BitString

/-! ## Formats of bit fields -/

/-- The bit that a field starts at. -/
def FieldSpec.start (s : FieldSpec) : ℕ := startBit s.bytePos.toNat s.bitPos

/-- A format of disjoint bit fields inside the buffer. -/
structure BitFormat (specs : List FieldSpec) : Prop where
  lenUnit : ∀ s ∈ specs, s.lenUnit = 1
  bitPos : ∀ s ∈ specs, s.bitPos.toNat ≤ 7
  index : ∀ s ∈ specs, s.index = none
  len_pos : ∀ s ∈ specs, 1 ≤ s.len.toNat
  len_le : ∀ s ∈ specs, s.len.toNat ≤ 32
  inside : ∀ s ∈ specs, s.start + s.len.toNat ≤ 8 * MAX_PROTO_DATA_LEN
  disjoint : specs.Pairwise fun s t =>
    s.start + s.len.toNat ≤ t.start ∨ t.start + t.len.toNat ≤ s.start

/-- The layer that a field with a value is. -/
def valueLayer (v : FieldSpec × UInt32) : Layer := bitLayer v.1.start v.1.len.toNat v.2.toNat

/-- No field has a one in the bit in front of a field that starts inside a byte and is shorter
than a word. -/
def ClearInFront (vals : List (FieldSpec × UInt32)) : Prop :=
  ∀ v ∈ vals, v.1.bitPos.toNat < 7 → v.1.len.toNat < 32 →
    ∀ w ∈ vals, (valueLayer w).sets (v.1.start - 1) = false

/-! ## Reading back -/

/-- A value read with the bits of `v` and the bit `b` above them is `v` when `b` is zero or falls
off the word. -/
theorem eq_of_testBit_iff {v d : UInt32} {n : ℕ} (hn : n ≤ 32) (hv : v.toNat < 2 ^ n) {b : Bool}
    (h : ∀ m < 32, d.toNat.testBit m =
      (decide (m < n) && v.toNat.testBit m || decide (m = n) && b)) :
    d = v ↔ (n < 32 → b = false) := by
  have hvn : ∀ m, n ≤ m → v.toNat.testBit m = false := fun m hm =>
    Nat.testBit_lt_two_pow (hv.trans_le (Nat.pow_le_pow_right (by decide) hm))
  constructor
  · rintro rfl hn'
    simpa [hvn n le_rfl] using (h n hn').symm
  · intro hb
    refine UInt32.toNat_inj.1 (Nat.eq_of_testBit_eq fun m => ?_)
    have h32 : ∀ x : UInt32, 32 ≤ m → x.toNat.testBit m = false := fun x hm =>
      Nat.testBit_lt_two_pow (x.toNat_lt.trans_le (Nat.pow_le_pow_right (n := 2) (by decide) hm))
    rcases Nat.lt_or_ge m 32 with hm | hm
    · rw [h m hm]
      rcases Nat.lt_trichotomy m n with hmn | rfl | hmn
      · simp [hmn, hmn.ne]
      · simp [hb hm, hvn]
      · simp [hvn m hmn.le, hmn.ne', not_lt.2 hmn.le]
    · rw [h32 _ hm, h32 _ hm]

section Message

variable {specs : List FieldSpec} {vals : List (FieldSpec × UInt32)}

theorem pairwise_valueLayer (hf : BitFormat specs) (hvals : vals.map Prod.fst = specs) :
    (vals.map valueLayer).Pairwise fun l l' =>
      l.start + l.len ≤ l'.start ∨ l'.start + l'.len ≤ l.start := by
  have h := hf.disjoint
  rw [← hvals, List.pairwise_map] at h
  exact List.pairwise_map.2 h

/-- Reading a field of the message gives its value when no field has a one in front of it. -/
theorem read_eq_iff (hf : BitFormat specs) (hvals : vals.map Prod.fst = specs)
    {dp : List UInt8} (hdp : ∀ k, bitAt dp k = (vals.map valueLayer).any (·.sets k))
    {v : FieldSpec × UInt32} (hv : v ∈ vals) (hfit : v.2.toNat < 2 ^ v.1.len.toNat) {d : UInt32}
    (hd : ∀ m < 32, d.toNat.testBit m =
      (decide (m < v.1.len.toNat) && bitAt dp (v.1.start + v.1.len.toNat - 1 - m) ||
        decide (m = v.1.len.toNat ∧ v.1.len.toNat ≠ 0 ∧ v.1.bitPos.toNat ≠ 7) &&
          bitAt dp (v.1.start - 1))) :
    d = v.2 ↔ (v.1.bitPos.toNat < 7 → v.1.len.toNat < 32 →
      ∀ w ∈ vals, (valueLayer w).sets (v.1.start - 1) = false) := by
  have hs : v.1 ∈ specs := hvals ▸ List.mem_map_of_mem hv
  have hlen := hf.len_pos _ hs
  have hbit := hf.bitPos _ hs
  have key := eq_of_testBit_iff (hf.len_le _ hs) hfit (d := d)
    (b := decide (v.1.bitPos.toNat ≠ 7) && bitAt dp (v.1.start - 1)) fun m hm => by
      rw [hd m hm]
      congr 1
      · rcases Nat.lt_or_ge m v.1.len.toNat with hmn | hmn
        · have hcov : (valueLayer v).covers (v.1.start + v.1.len.toNat - 1 - m) = true := by
            rw [Layer.covers_eq_true]
            simp only [valueLayer, bitLayer]
            omega
          rw [hdp, any_sets_eq_bits (pairwise_valueLayer hf hvals) (List.mem_map_of_mem hv) hcov]
          simp only [valueLayer, bitLayer]
          congr 2
          omega
        · rw [decide_eq_false (not_lt.2 hmn), Bool.false_and, Bool.false_and]
      · rw [← Bool.and_assoc, ← Bool.decide_and]
        congr 1
        exact decide_eq_decide.2 (by omega)
  rw [key, hdp]
  have hany : (vals.map valueLayer).any (·.sets (v.1.start - 1)) = false ↔
      ∀ w ∈ vals, (valueLayer w).sets (v.1.start - 1) = false := by
    simp
  constructor
  · intro h hb hl
    have := h hl
    rw [decide_eq_true (by omega), Bool.true_and, hany] at this
    exact this
  · intro h hl
    rcases Nat.lt_or_ge v.1.bitPos.toNat 7 with hb | hb
    · rw [hany.2 (h hb hl), Bool.and_false]
    · rw [decide_eq_false (by omega), Bool.false_and]

end Message

/-! ## The round trip -/

/-- The values as they are given to the fields. -/
def bitValues (vals : List (FieldSpec × UInt32)) : List (FieldSpec × FieldValue) :=
  vals.map fun v => (v.1, .int v.2)

/-- The values that an analyzer for the format parses from the buffer into which another one has
generated the values `vals`. -/
def bitRoundTrip {specs : List FieldSpec} (i j : Init specs) (env env' : Env)
    (vals : List (FieldSpec × UInt32)) : Option (List FieldValue) := do
  let pa ← assign (i.infos.zip ((bitValues vals).map Prod.snd)) i.analyzer
  let r ← paGenerateProtocolData env pa
  let r' ← paParseProtocolData env' { j.analyzer with
    protocolData := r.2.protocolData
    protocolDataLen := r.2.protocolDataLen }
  some (j.infos.map fun a => (r'.2.info a).value)

/-- Fields without a variable length stay where the format puts them. -/
theorem place_none {l : List ProtoInfo} (h : ∀ f ∈ l, f.vlenthFlag = false) :
    place 0 (l.map fun f => (f, none)) = l := by
  induction l with
  | nil => rfl
  | cons f l ih =>
    obtain ⟨hf, h⟩ := List.forall_mem_cons.1 h
    simp only [List.map_cons, place, ProtoInfo.shift_zero, ProtoInfo.shiftBy_none,
      ProtoInfo.resolve_none _ hf, UInt8.zero_add]
    rw [ih h]

section Run

variable {specs : List FieldSpec} {vals : List (FieldSpec × UInt32)}

/-- A field of the format with a value lays the bits of the value over the buffer. -/
theorem laid_valueLayer (hf : BitFormat specs) {v : FieldSpec × UInt32} (hs : v.1 ∈ specs)
    (hfit : v.2.toNat < 2 ^ v.1.len.toNat) {f : ProtoInfo} (ha : Armed v.1 0 f)
    (hd : f.data = v.2) : Laid f.core (valueLayer v) := by
  have hpos : f.bytePos = v.1.bytePos := by simpa using ha.bytePos
  have hlen : f.len = v.1.len := ha.len (hf.index _ hs)
  have hb := hf.bitPos _ hs
  have heq : valueLayer v = bitLayer (startBit f.core.bytePos.toNat f.core.bitPos)
      f.core.len.toNat f.core.data.toNat := by
    simp only [ProtoInfo.core, hpos, ha.bitPos, hlen, hd]
    rfl
  rw [heq]
  refine .bit (ha.lenUnit.trans (hf.lenUnit _ hs)) ?_ ?_ ?_
  · change f.bitPos.toNat < 8
    rw [ha.bitPos]
    omega
  · change f.len.toNat ≤ 32
    rw [hlen]
    exact hf.len_le _ hs
  · change f.data.toNat < 2 ^ f.len.toNat
    rwa [hd, hlen]

/-- The length that a last field reports counts its bits. -/
theorem bytePos_add_len_ne_zero (hf : BitFormat specs) {s : FieldSpec} (hs : s ∈ specs)
    {f : ProtoInfo} (ha : Armed s 0 f) : f.bytePos.toUInt16 + f.len ≠ 0 := by
  intro h
  have h' := congrArg UInt16.toNat h
  have hl₁ := hf.len_pos _ hs
  have hl₂ := hf.len_le _ hs
  have hp := f.bytePos.toNat_lt
  simp only [ha.len (hf.index _ hs), UInt16.toNat_add, UInt8.toNat_toUInt16,
    UInt16.toNat_zero] at h'
  omega

/-- Generating from a fresh analyzer writes the bits of the values. -/
theorem paGenerate_bits (hf : BitFormat specs) (hvals : vals.map Prod.fst = specs)
    (hfits : ∀ v ∈ vals, v.2.toNat < 2 ^ v.1.len.toNat) (i : Init specs) (env : Env) :
    ∃ pa₀ pa₁, assign (i.infos.zip ((bitValues vals).map Prod.snd)) i.analyzer = some pa₀ ∧
      paGenerateProtocolData env pa₀ = some (0, pa₁) ∧
      pa₁.protocolData.length = MAX_PROTO_DATA_LEN ∧
      (vals ≠ [] → pa₁.protocolDataLen ≠ 0) ∧
      ∀ k, bitAt pa₁.protocolData k = (vals.map valueLayer).any (·.sets k) := by
  have hbv : (bitValues vals).map Prod.fst = specs := by
    rw [bitValues, List.map_map, ← hvals]
    rfl
  have hzip : i.infos.zip (bitValues vals) =
      (i.infos.zip vals).map fun e => (e.1, e.2.1, FieldValue.int e.2.2) := List.zip_map_right
  have hfields := i.fields_eq_map hvals
  have hinfos := i.map_fst_zip hvals
  have hsnd := i.map_snd_zip hvals
  obtain ⟨info₀, hassign, hgiven⟩ := i.assign_eq hbv i.analyzer i.bufOk
  set pa₀ : ProtocolAnalyzer := { i.analyzer with info := info₀ } with hpa₀
  have harm : ∀ e ∈ i.infos.zip vals, Armed e.2.1 0 (info₀ e.1) ∧ (info₀ e.1).data = e.2.2 :=
    fun e he => by
      obtain ⟨hg, hok, hv⟩ := hgiven _ (hzip ▸ List.mem_map_of_mem he)
      exact ⟨(i.armed (e.1, e.2.1) (hfields ▸ List.mem_map_of_mem he)).of_value hg hok, hv⟩
  have hspec : ∀ e ∈ i.infos.zip vals, e.2.1 ∈ specs := fun e he =>
    hvals ▸ List.mem_map_of_mem (List.of_mem_zip he).2
  have hflag : ∀ e ∈ i.infos.zip vals, (info₀ e.1).vlenthFlag = false := by
    intro e he
    rw [(harm e he).1.vlenthFlag, hf.index _ (hspec e he)]
    rfl
  have hmap : pa₀.hmap = i.analyzer.hmap := rfl
  obtain ⟨info₁, h₁, -, h₃⟩ := paGenerateProtocolData_eq i.nodup_infos
    (show pa₀.paListHeadP = some i.infos from i.paListHeadP_analyzer)
    (i.finds hmap env.keyStr i.infos) (i.finds hmap env.flagKeyStr i.infos)
  generalize hd : pa₀.foundData _ = d at h₁
  have hnone : ∀ e ∈ i.infos.zip vals, d e.1 = none := by
    intro e he
    rw [← hd, ProtocolAnalyzer.foundData, show (pa₀.info e.1).vlenthFlag = false from hflag e he]
    rfl
  have hcore : (i.infos.map fun a => (info₁ a).core) =
      (i.infos.zip vals).map fun e => (info₀ e.1).core := by
    rw [h₁]
    have hp : (i.infos.map fun a => ((pa₀.info a).core, d a)) =
        ((i.infos.zip vals).map fun e => (info₀ e.1).core).map fun f => (f, none) := by
      conv_lhs => rw [← hinfos]
      rw [List.map_map, List.map_map]
      refine List.map_congr_left fun e he => ?_
      simp only [Function.comp_apply, hnone e he, hpa₀]
    rw [hp]
    refine place_none fun f hf => ?_
    obtain ⟨e, he, rfl⟩ := List.mem_map.1 hf
    exact hflag e he
  have hlaid : List.Forall₂ Laid (i.infos.map fun a => (info₁ a).core) (vals.map valueLayer) := by
    have hvl : vals.map valueLayer = (i.infos.zip vals).map fun e => valueLayer e.2 := by
      conv_lhs => rw [← hsnd]
      rw [List.map_map]
      rfl
    rw [hcore, hvl, List.forall₂_map_left_iff, List.forall₂_map_right_iff, List.forall₂_same]
    exact fun e he => laid_valueLayer hf (hspec e he) (hfits _ (List.of_mem_zip he).2)
      (harm e he).1 (harm e he).2
  obtain ⟨dp, hdp, hlen, hbits⟩ := writeFields_laid env hlaid i.analyzer.protocolData
    fun l hl => by
      obtain ⟨v, hv, rfl⟩ := List.mem_map.1 hl
      rw [i.protocolData_analyzer, List.length_replicate]
      exact hf.inside _ (hvals ▸ List.mem_map_of_mem hv)
  have hwrite : writeFields env (i.infos.map info₁) pa₀.protocolData = some dp := by
    rw [← writeFields_map_core, List.map_map]
    exact hdp
  refine ⟨pa₀, _, hassign, by rw [h₃, hwrite]; rfl, ?_, fun hne => ?_, fun k => ?_⟩
  · exact hlen.trans (by simp)
  · change dataLenOf (i.infos.map info₁) env.dataLen ≠ 0
    have hlen' : i.infos.zip vals ≠ [] := fun h => hne (by rw [← hsnd, h]; rfl)
    rw [← dataLenOf_map_core, List.map_map]
    change dataLenOf (i.infos.map fun a => (info₁ a).core) env.dataLen ≠ 0
    rw [hcore, dataLenOf, List.getLast?_map, List.getLast?_eq_some_getLast hlen']
    have he := List.getLast_mem hlen'
    have hlast := bytePos_add_len_ne_zero hf (hspec _ he) (harm _ he).1
    exact hlast
  · have hzero : bitAt i.analyzer.protocolData = fun _ => false :=
      funext fun k => bitAt_replicate_zero _ k
    change bitAt dp k = _
    rw [hbits, hzero, applyAll_false, leaves_eq_any]
    intro l hl
    obtain ⟨v, -, rfl⟩ := List.mem_map.1 hl
    rfl

/-- Parsing a buffer reads every field at its place. -/
theorem paParse_bits (hf : BitFormat specs) (j : Init specs) (env : Env) {dp : List UInt8}
    (hdp : dp.length = MAX_PROTO_DATA_LEN) {len : UInt16} (hlen : len ≠ 0) :
    ∃ pa', paParseProtocolData env
        { j.analyzer with protocolData := dp, protocolDataLen := len } = some (0, pa') ∧
      ∀ p ∈ j.fields, (pa'.info p.1).lenUnit = 1 ∧
        ∀ m < 32, (pa'.info p.1).data.toNat.testBit m =
          (decide (m < p.2.len.toNat) && bitAt dp (p.2.start + p.2.len.toNat - 1 - m) ||
            decide (m = p.2.len.toNat ∧ p.2.len.toNat ≠ 0 ∧ p.2.bitPos.toNat ≠ 7) &&
              bitAt dp (p.2.start - 1)) := by
  set pa : ProtocolAnalyzer :=
    { j.analyzer with protocolData := dp, protocolDataLen := len } with hpa
  have hspec : ∀ a ∈ j.infos, ∃ s ∈ specs, (a, s) ∈ j.fields ∧ pa.info a = s.info := by
    intro a ha
    rw [← j.map_fst_fields] at ha
    obtain ⟨p, hp, rfl⟩ := List.mem_map.1 ha
    exact ⟨p.2, j.snd_mem hp, hp, j.info_analyzer hp⟩
  have hread : ∀ p ∈ j.fields, ∃ d, paGetProtocolField env p.2.info dp =
      some { p.2.info with data := d } ∧ ∀ m < 32, d.toNat.testBit m =
        (decide (m < p.2.len.toNat) && bitAt dp (p.2.start + p.2.len.toNat - 1 - m) ||
          decide (m = p.2.len.toNat ∧ p.2.len.toNat ≠ 0 ∧ p.2.bitPos.toNat ≠ 7) &&
            bitAt dp (p.2.start - 1)) := by
    intro p hp
    have hs := j.snd_mem hp
    have hin := hf.inside _ hs
    have hb := hf.bitPos _ hs
    refine paGetProtocolField_bit (f := p.2.info) env (hf.lenUnit _ hs) (show p.2.bitPos.toNat < 8
      by omega) (hf.len_le _ hs) ?_ (by rw [hdp]; exact hin)
    simp only [FieldSpec.start, startBit, MAX_PROTO_DATA_LEN] at hin
    change p.2.bytePos.toNat < 128
    omega
  have hflag : ∀ a ∈ j.infos, (pa.info a).vlenthFlag = false := by
    intro a ha
    obtain ⟨s, hs, -, hinfo⟩ := hspec a ha
    rw [hinfo]
    change s.index.isSome = false
    rw [hf.index s hs]
    rfl
  set F : Addr → ProtoInfo := fun a => (paGetProtocolField env (pa.info a) dp).getD (pa.info a)
    with hF
  have hloop : paParseLoop env j.infos pa = some { pa with
      info := fun a => if a ∈ j.infos then F a else pa.info a } := by
    refine paParseLoop_eq (d := fun _ => none) j.nodup_infos
      (j.finds (show pa.hmap = j.analyzer.hmap from rfl) env.keyStr j.infos) ?_ ?_
    · rintro pre a post hsplit
      rw [hflag a (by rw [hsplit]; simp)]
      rfl
    · rintro pre a post hsplit
      have ha : a ∈ j.infos := by
        rw [hsplit]
        simp
      obtain ⟨s, hs, hp, hinfo⟩ := hspec a ha
      obtain ⟨d, hd, -⟩ := hread _ hp
      have hsum : (pre.map fun b => (pa.info b).shiftBy none).sum = 0 :=
        List.sum_eq_zero fun x hx => by
          obtain ⟨b, -, rfl⟩ := List.mem_map.1 hx
          rfl
      have hFa : F a = { s.info with data := d } := by
        simp only [hF, hinfo, hd, Option.getD_some]
      rw [hsum, ProtoInfo.shift_zero, ProtoInfo.resolve_none _ (hflag a ha), hFa, hinfo]
      exact hd
  refine ⟨{ pa with info := fun a => if a ∈ j.infos then F a else pa.info a }, ?_,
    fun p hp => ?_⟩
  · simp only [paParseProtocolData, show pa.paListHeadP = some j.infos from j.paListHeadP_analyzer,
      show pa.protocolDataLen = len from rfl, if_neg hlen, hloop, Option.bind_eq_bind,
      Option.bind_some]
  · obtain ⟨d, hd, hbits⟩ := hread p hp
    have hp1 : p.1 ∈ j.infos := j.fst_mem hp
    have hFp : F p.1 = { p.2.info with data := d } := by
      rw [hF]
      simp only [show pa.info p.1 = p.2.info from j.info_analyzer hp, hd, Option.getD_some]
    simp only [if_pos hp1, hFp]
    exact ⟨hf.lenUnit _ (j.snd_mem hp), hbits⟩

/-- **Decoding undoes encoding exactly when the bits in front are clear.** One fresh analyzer
generates a message of bit fields and another one parses its buffer; the values are unchanged if
and only if no field has a one in the bit in front of a field that starts inside a byte. -/
theorem paParse_paGenerate_bits_iff (hf : BitFormat specs) (hvals : vals.map Prod.fst = specs)
    (hfits : ∀ v ∈ vals, v.2.toNat < 2 ^ v.1.len.toNat) (i j : Init specs) (env env' : Env) :
    bitRoundTrip i j env env' vals = some ((bitValues vals).map Prod.snd) ↔
      ClearInFront vals := by
  obtain ⟨pa₀, pa₁, h₀, h₁, hlen, hne, hbits⟩ := paGenerate_bits hf hvals hfits i env
  rcases eq_or_ne vals [] with rfl | hv
  · -- a format without fields: nothing is read, whatever the parser returns
    obtain rfl : specs = [] := hvals.symm
    have hj : j.infos = [] := List.length_eq_zero_iff.1 j.length_infos
    have hrun : bitRoundTrip i j env env' ([] : List (FieldSpec × UInt32)) = some [] := by
      simp only [bitRoundTrip, h₀, h₁, Option.bind_eq_bind, Option.bind_some,
        paParseProtocolData, j.paListHeadP_analyzer, hj, List.map_nil]
      split_ifs <;> rfl
    rw [hrun]
    simp [bitValues, ClearInFront]
  · obtain ⟨pa₂, h₂, hread⟩ := paParse_bits hf j env' hlen (hne hv)
    have hrun : bitRoundTrip i j env env' vals =
        some (j.infos.map fun a => (pa₂.info a).value) := by
      simp only [bitRoundTrip, h₀, h₁, h₂, Option.bind_eq_bind, Option.bind_some]
    have hinfos := j.map_fst_zip hvals
    have hsnd := j.map_snd_zip hvals
    have hfields := j.fields_eq_map hvals
    have hlhs : (j.infos.map fun a => (pa₂.info a).value) =
        (j.infos.zip vals).map fun e => (pa₂.info e.1).value := by
      conv_lhs => rw [← hinfos]
      rw [List.map_map]
      rfl
    have hrhs : (bitValues vals).map Prod.snd =
        (j.infos.zip vals).map fun e => FieldValue.int e.2.2 := by
      rw [bitValues]
      conv_lhs => rw [← hsnd]
      rw [List.map_map, List.map_map]
      rfl
    have hfield : ∀ e ∈ j.infos.zip vals, (pa₂.info e.1).value = .int e.2.2 ↔
        (e.2.1.bitPos.toNat < 7 → e.2.1.len.toNat < 32 →
          ∀ w ∈ vals, (valueLayer w).sets (e.2.1.start - 1) = false) := by
      intro e he
      obtain ⟨hu, hd⟩ := hread _ (hfields ▸ List.mem_map_of_mem he)
      have hval : (pa₂.info e.1).value = .int (pa₂.info e.1).data :=
        if_neg fun h => by rw [hu] at h; exact absurd h.1 (by decide)
      have hev := (List.of_mem_zip he).2
      rw [hval, FieldValue.int.injEq]
      exact read_eq_iff hf hvals hbits hev (hfits _ hev) hd
    rw [hrun, Option.some.injEq, hlhs, hrhs, List.map_inj_left]
    constructor
    · intro h v hv
      rw [← hsnd] at hv
      obtain ⟨e, he, rfl⟩ := List.mem_map.1 hv
      exact (hfield e he).1 (h e he)
    · intro h e he
      exact (hfield e he).2 (h e.2 (List.of_mem_zip he).2)

end Run

/-- The first two fields of the `ackd` PDU. -/
def specsLbPf : List FieldSpec :=
  [⟨cname "LB", 0, 7, 1, 1, none⟩, ⟨cname "PF", 0, 6, 1, 1, none⟩]

instance (specs : List FieldSpec) : Decidable (BitFormat specs) :=
  decidable_of_iff ((∀ s ∈ specs, s.lenUnit = 1) ∧ (∀ s ∈ specs, s.bitPos.toNat ≤ 7) ∧
      (∀ s ∈ specs, s.index = none) ∧ (∀ s ∈ specs, 1 ≤ s.len.toNat) ∧
      (∀ s ∈ specs, s.len.toNat ≤ 32) ∧
      (∀ s ∈ specs, s.start + s.len.toNat ≤ 8 * MAX_PROTO_DATA_LEN) ∧
      specs.Pairwise fun s t =>
        s.start + s.len.toNat ≤ t.start ∨ t.start + t.len.toNat ≤ s.start)
    ⟨fun ⟨h₁, h₂, h₃, h₄, h₅, h₆, h₇⟩ => ⟨h₁, h₂, h₃, h₄, h₅, h₆, h₇⟩,
      fun ⟨h₁, h₂, h₃, h₄, h₅, h₆, h₇⟩ => ⟨h₁, h₂, h₃, h₄, h₅, h₆, h₇⟩⟩

/-- An analyzer for the two fields. -/
def initLbPf : Init specsLbPf :=
  .standalone specsLbPf [64, 128] [4096, 4128] rfl rfl (by decide) (by decide) (by simp)

/-- With `LB` zero the values survive. -/
theorem paParse_paGenerate_bits_iff_lbPf :
    bitRoundTrip initLbPf initLbPf ⟨true, fun _ _ => 0, fun _ _ => 0, 0⟩
        ⟨true, fun _ _ => 0, fun _ _ => 0, 0⟩ (specsLbPf.zip [0, 1]) =
      some ((bitValues (specsLbPf.zip [0, 1])).map Prod.snd) ↔
    ClearInFront (specsLbPf.zip [0, 1]) :=
  paParse_paGenerate_bits_iff (by decide +kernel) (by decide) (by decide) initLbPf initLbPf _ _

/-- With `LB` one, `PF` is read as two more than it is. -/
theorem bitRoundTrip_ne : ¬ ∀ (specs : List FieldSpec), BitFormat specs →
    ∀ vals : List (FieldSpec × UInt32), vals.map Prod.fst = specs →
      (∀ v ∈ vals, v.2.toNat < 2 ^ v.1.len.toNat) → ∀ (i j : Init specs) (env env' : Env),
        bitRoundTrip i j env env' vals = some ((bitValues vals).map Prod.snd) := by
  intro h
  have hrun := h specsLbPf (by decide +kernel) (specsLbPf.zip [1, 0]) (by decide) (by decide)
    initLbPf initLbPf ⟨true, fun _ _ => 0, fun _ _ => 0, 0⟩ ⟨true, fun _ _ => 0, fun _ _ => 0, 0⟩
  exact absurd hrun (by decide +kernel)

end HpiDriver
