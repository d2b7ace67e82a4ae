import HpiDriver.ProtoAnalyzer.Numbers
import Mathlib.Data.Nat.Digits.Lemmas

/-!
# Format tables

A format is written down as a list of calls of `pfs_set_proto_info`, with every number as a decimal
string. The calls build what is written (`setFields_builtAs`): `atoi` reads the numbers back
(`atoi_decimal`), each call fills in one field (`pfsSetProtoInfo_eq`), and appends it to those
before.
-/

namespace HpiDriver

/-! ## Decimal strings -/

/-- A number as a decimal string. -/
def decimal (n : ℕ) : List UInt8 :=
  (if n = 0 then [0] else (Nat.digits 10 n).reverse).map fun d => UInt8.ofNat (48 + d)

theorem decimal_ne_nil (n : ℕ) : decimal n ≠ [] := by
  unfold decimal
  split_ifs with h
  · simp
  · simpa using Nat.digits_ne_nil_iff_ne_zero.2 h

theorem toNat_decimalDigit {d : ℕ} (hd : d < 10) : (UInt8.ofNat (48 + d)).toNat = 48 + d := by
  rw [UInt8.toNat_ofNat']
  omega

theorem isDigit_decimalDigit {d : ℕ} (hd : d < 10) : IsDigit (UInt8.ofNat (48 + d)) := by
  rw [IsDigit, UInt8.le_iff_toNat_le, UInt8.le_iff_toNat_le, toNat_decimalDigit hd]
  exact ⟨Nat.le_add_right _ _, by rw [show (57 : UInt8).toNat = 57 from rfl]; omega⟩

theorem digitValue_decimalDigit {d : ℕ} (hd : d < 10) : digitValue (UInt8.ofNat (48 + d)) = d := by
  rw [digitValue_eq, toNat_decimalDigit hd, if_pos (by omega)]
  omega

theorem isDigit_of_mem_decimal {n : ℕ} {c : UInt8} (hc : c ∈ decimal n) : IsDigit c := by
  obtain ⟨d, hd, rfl⟩ := List.mem_map.1 hc
  refine isDigit_decimalDigit ?_
  split_ifs at hd with h
  · obtain rfl := List.mem_singleton.1 hd
    decide
  · exact Nat.digits_lt_base (by decide) (List.mem_reverse.1 hd)

theorem digitsValue_decimal (n : ℕ) : digitsValue 10 (decimal n) = n := by
  rcases Nat.eq_zero_or_pos n with rfl | hn
  · rfl
  · have hmap : (Nat.digits 10 n).map (fun d => digitValue (UInt8.ofNat (48 + d))) =
        Nat.digits 10 n := by
      conv_rhs => rw [← List.map_id (Nat.digits 10 n)]
      exact List.map_congr_left fun d hd =>
        digitValue_decimalDigit (Nat.digits_lt_base (by decide) hd)
    rw [digitsValue, decimal, if_neg hn.ne', ← List.map_reverse, List.reverse_reverse, List.map_map]
    exact (congrArg (Nat.ofDigits 10) hmap).trans (Nat.ofDigits_digits 10 n)

/-- `atoi` reads what is written. -/
theorem atoi_decimal {n : ℕ} (hn : n < 2 ^ 31) : atoi (some (decimal n)) = n := by
  have h := atoi_of_digits (decimal_ne_nil n) (fun c hc => isDigit_of_mem_decimal hc)
    (by rwa [digitsValue_decimal])
  rwa [digitsValue_decimal] at h

example : atoi (some (decimal 1307)) = 1307 := by decide

/-! ## One call -/

theorem ofInt_atoi_decimal (x : UInt8) : UInt8.ofInt (atoi (some (decimal x.toNat))) = x := by
  have hx := x.toNat_lt
  rw [atoi_decimal (by omega)]
  refine UInt8.toNat_inj.1 ?_
  simp only [UInt8.ofInt, UInt8.toNat_ofNat']
  omega

theorem ofInt_atoi_decimal_len (x : UInt16) :
    UInt16.ofInt (atoi (some (decimal x.toNat))) = x := by
  have hx := x.toNat_lt
  rw [atoi_decimal (by omega)]
  refine UInt16.toNat_inj.1 ?_
  simp only [UInt16.ofInt, UInt16.toNat_ofNat']
  omega

/-- `strcpy` into a zeroed array. -/
theorem strcpy_replicate (n : CName) :
    strcpy (List.replicate MAX_NAME_LEN 0) n.chars = some n.array := by
  have hlt := n.length_lt
  obtain ⟨k, hk⟩ : ∃ k, MAX_NAME_LEN - n.chars.length = k + 1 :=
    ⟨MAX_NAME_LEN - n.chars.length - 1, by omega⟩
  rw [strcpy, List.length_replicate, if_pos hlt, List.drop_replicate, CName.array, hk,
    List.replicate_succ, show MAX_NAME_LEN - (n.chars.length + 1) = k by omega]

/-- The call of `pfs_set_proto_info` that a description of a field is. -/
def setField (s : FieldSpec) (hlHead : List ProtoInfo) : Option (List ProtoInfo) :=
  pfsSetProtoInfo (some s.name.chars) (some (decimal s.bytePos.toNat))
    (some (decimal s.bitPos.toNat)) (some (decimal s.len.toNat)) (some (decimal s.lenUnit.toNat))
    (s.vlenthIndex.map CName.chars) hlHead

section Attribs

variable (info : ProtoInfo)

theorem setProtoInfoAttribs_name (value : List UInt8) :
    setProtoInfoAttribs (str "name") (some value) info =
      (strcpy info.name value).map fun name => { info with name := name } := by
  rw [setProtoInfoAttribs, if_pos rfl]
  simp only [Option.bind_eq_bind, Option.bind_some]
  cases strcpy info.name value <;> rfl

theorem setProtoInfoAttribs_bytePos (x : UInt8) :
    setProtoInfoAttribs (str "byte_pos") (some (decimal x.toNat)) info =
      some { info with bytePos := x } := by
  rw [setProtoInfoAttribs, if_neg (by decide), if_pos rfl, ofInt_atoi_decimal]

theorem setProtoInfoAttribs_bitPos (x : UInt8) :
    setProtoInfoAttribs (str "bit_pos") (some (decimal x.toNat)) info =
      some { info with bitPos := x } := by
  rw [setProtoInfoAttribs, if_neg (by decide), if_neg (by decide), if_pos rfl, ofInt_atoi_decimal]

theorem setProtoInfoAttribs_len (x : UInt16) :
    setProtoInfoAttribs (str "len") (some (decimal x.toNat)) info =
      some { info with len := x } := by
  rw [setProtoInfoAttribs, if_neg (by decide), if_neg (by decide), if_neg (by decide), if_pos rfl,
    ofInt_atoi_decimal_len]

theorem setProtoInfoAttribs_lenUnit (x : UInt8) :
    setProtoInfoAttribs (str "len_unit") (some (decimal x.toNat)) info =
      some { info with lenUnit := x } := by
  rw [setProtoInfoAttribs, if_neg (by decide), if_neg (by decide), if_neg (by decide),
    if_neg (by decide), if_pos rfl, ofInt_atoi_decimal]

theorem setProtoInfoAttribs_index_none :
    setProtoInfoAttribs (str "vlenth_index") none info = some info := by
  rw [setProtoInfoAttribs, if_neg (by decide), if_neg (by decide), if_neg (by decide),
    if_neg (by decide), if_neg (by decide), if_pos rfl]

/-- An empty name is replaced by `N/A` and sets no flag. -/
theorem setProtoInfoAttribs_index_some (n : CName)
    (hzero : info.vlenthIndex = List.replicate MAX_NAME_LEN 0) :
    setProtoInfoAttribs (str "vlenth_index") (some n.chars) info = some
      (if n.chars = [] then { info with vlenthIndex := str "N/A" ++ List.replicate 17 0 }
        else { info with vlenthIndex := n.array, vlenthFlag := true, vlenthFlagBak := true }) := by
  rw [setProtoInfoAttribs, if_neg (by decide), if_neg (by decide), if_neg (by decide),
    if_neg (by decide), if_neg (by decide), if_pos rfl, hzero]
  simp only [strcpy_replicate, Option.bind_eq_bind, Option.bind_some, CName.cString_array]
  by_cases hn : n.chars = []
  · have hlen : ¬ n.chars.length > 0 := by rw [hn]; decide
    have harray : n.array = List.replicate MAX_NAME_LEN 0 := by rw [CName.array, hn]; rfl
    rw [if_neg hlen, if_pos hn, harray]
    rfl
  · rw [if_pos (List.length_pos_iff.2 hn), if_neg hn]

end Attribs

/-- **One call appends one field**, as it is written. -/
theorem setField_eq (s : FieldSpec) (hlHead : List ProtoInfo) :
    setField s hlHead = some (hlHead ++ [s.info]) := by
  have hname : ProtoInfo.zero.name = List.replicate MAX_NAME_LEN 0 := rfl
  simp only [setField, pfsSetProtoInfo, setProtoInfoAttribs_name, hname, strcpy_replicate,
    Option.map_some, Option.bind_eq_bind, Option.bind_some, setProtoInfoAttribs_bytePos,
    setProtoInfoAttribs_bitPos, setProtoInfoAttribs_len, setProtoInfoAttribs_lenUnit]
  cases hi : s.vlenthIndex with
  | none =>
    simp only [Option.map_none, setProtoInfoAttribs_index_none, Option.bind_some, FieldSpec.info,
      FieldSpec.index, hi]
    rfl
  | some n =>
    rw [Option.map_some, setProtoInfoAttribs_index_some _ n rfl, Option.bind_some]
    by_cases hn : n.chars = []
    · simp only [FieldSpec.info, FieldSpec.index, hi, if_pos hn]
      rfl
    · simp only [FieldSpec.info, FieldSpec.index, hi, if_neg hn]
      rfl

/-! ## Whole tables -/

/-- The field is the one that the description `s` describes: its name and numbers, the flags and
the name of the length field if there is one, no value and no buffer. -/
structure BuiltAs (s : FieldSpec) (f : ProtoInfo) : Prop where
  name : cString f.name = s.name.chars
  bytePos : f.bytePos = s.bytePos
  bitPos : f.bitPos = s.bitPos
  len : f.len = s.len
  lenUnit : f.lenUnit = s.lenUnit
  indexed : ∀ n, s.vlenthIndex = some n → n.chars ≠ [] →
    f.vlenthFlag = true ∧ f.vlenthFlagBak = true ∧ cString f.vlenthIndex = n.chars
  unindexed : (∀ n, s.vlenthIndex = some n → n.chars = []) →
    f.vlenthFlag = false ∧ f.vlenthFlagBak = false
  data : f.data = 0
  buf : f.buf = ⟨0, none⟩

theorem FieldSpec.builtAs_info (s : FieldSpec) : BuiltAs s s.info where
  name := CName.cString_array _
  bytePos := rfl
  bitPos := rfl
  len := rfl
  lenUnit := rfl
  indexed n hn hne := by
    have hindex : s.index = some n := by rw [FieldSpec.index, hn]; exact if_neg hne
    exact ⟨by rw [FieldSpec.info, hindex]; rfl, by rw [FieldSpec.info, hindex]; rfl,
      s.vlenthIndex_info hindex⟩
  unindexed h := by
    have hindex : s.index = none := by
      rw [FieldSpec.index]
      cases hs : s.vlenthIndex with
      | none => rfl
      | some n => exact if_pos (h n hs)
    exact ⟨by rw [FieldSpec.info, hindex]; rfl, by rw [FieldSpec.info, hindex]; rfl⟩
  data := rfl
  buf := rfl

theorem setFields_eq (specs : List FieldSpec) (hlHead : List ProtoInfo) :
    specs.foldlM (fun hl s => setField s hl) hlHead =
      some (hlHead ++ specs.map FieldSpec.info) := by
  induction specs generalizing hlHead with
  | nil => simp
  | cons s specs ih =>
    rw [List.foldlM_cons, setField_eq, Option.bind_eq_bind, Option.bind_some, ih]
    simp

/-- **A format table is built as it is written.** The calls leave one field for each description,
in the order of the table, and the first `n` of them are what the first `n` calls have built. -/
theorem setFields_builtAs (specs : List FieldSpec) :
    ∃ hl, specs.foldlM (fun hl s => setField s hl) [] = some hl ∧
      List.Forall₂ BuiltAs specs hl ∧
      ∀ n, (specs.take n).foldlM (fun hl s => setField s hl) [] = some (hl.take n) := by
  refine ⟨specs.map FieldSpec.info, setFields_eq specs [], ?_, fun n => ?_⟩
  · rw [List.forall₂_map_right_iff]
    exact List.forall₂_same.2 fun s _ => s.builtAs_info
  · rw [setFields_eq, List.nil_append, List.map_take]

end HpiDriver
