import HpiDriver.ProtoAnalyzer.ByteField
import Mathlib.Data.Nat.Digits.Defs

/-!
# Numbers in format tables

`hexstr2num` and `str2num` of `libproto_analyzer/protocol_format_set.c`, next to the `atoi` of
`FormatSet`. Both digit loops are meant to read one grammar (`numeral`): a decimal number with an
optional sign, or `0x` and up to eight hexadecimal digits. They read the numbers that the format
tables are written with, but take a missing digit for zero, let a large number wrap around, and
take every character behind `0x` for a digit, the lower-case ones with a wrong value. The exact
strings on which the loops and the grammar agree are those of `readsNumeral_iff`.
-/

namespace HpiDriver

/-! ## The parsers -/

/-- `strncmp`; behind the end of a string is the NUL that ends it. -/
def strncmp (s₁ s₂ : List UInt8) (n : ℕ) : ℤ := memcmp s₁ s₂ n

/-- `t`, the value of a character in the loop of `hexstr2num`. -/
def hexCharValue (signed : Bool) (c : UInt8) : UInt32 :=
  if 65 ≤ c ∧ c ≤ 70 then UInt32.ofInt (charOf signed c.toNat - 55)
  else UInt32.ofInt (charOf signed c.toNat - 48)

/-- The loop of `hexstr2num`. -/
def hexLoop (signed : Bool) (s : List UInt8) : UInt32 :=
  s.foldl (fun ret c => ret <<< 4 ||| hexCharValue signed c) 0

/-- `hexstr2num` -/
def hexstr2num (signed : Bool) (s : List UInt8) : ℤ :=
  if strncmp s (str "0x") 2 ≠ 0 ∧ strncmp s (str "0X") 2 ≠ 0 then -1
  else if wrapInt s.length > 10 then -1
  else wrapInt (hexLoop signed (s.drop 2)).toNat

/-- `str2num` -/
def str2num (signed : Bool) (s : List UInt8) : ℤ :=
  if strncmp s (str "0x") 2 ≠ 0 ∧ strncmp s (str "0X") 2 ≠ 0 then atoi (some s)
  else hexstr2num signed s

/-! ## The grammar -/

def IsDigit (c : UInt8) : Prop := 48 ≤ c ∧ c ≤ 57

/-- The hexadecimal digits that are no lower-case letters. -/
def IsUpperHexDigit (c : UInt8) : Prop := IsDigit c ∨ 65 ≤ c ∧ c ≤ 70

def IsHexDigit (c : UInt8) : Prop := IsUpperHexDigit c ∨ 97 ≤ c ∧ c ≤ 102

instance : DecidablePred IsDigit := fun _ => inferInstanceAs (Decidable (_ ∧ _))

instance : DecidablePred IsUpperHexDigit := fun _ => inferInstanceAs (Decidable (_ ∨ _))

instance : DecidablePred IsHexDigit := fun _ => inferInstanceAs (Decidable (_ ∨ _))

-- decided along the string, not over all characters
instance (ds : List UInt8) : Decidable (∀ c ∈ ds, IsDigit c) := List.decidableBAll IsDigit ds

instance (ds : List UInt8) : Decidable (∀ c ∈ ds, IsHexDigit c) := List.decidableBAll IsHexDigit ds

/-- The value of a digit of either case. -/
def digitValue (c : UInt8) : ℕ :=
  if c ≤ 57 then c.toNat - 48 else if c ≤ 70 then c.toNat - 55 else c.toNat - 87

/-- The number that the digits `ds` are in base `b`. -/
def digitsValue (b : ℕ) (ds : List UInt8) : ℕ := Nat.ofDigits b (ds.reverse.map digitValue)

/-- Whether there is a minus sign, and what follows the sign. -/
def splitSign : List UInt8 → Bool × List UInt8
  | 45 :: ds => (true, ds)
  | 43 :: ds => (false, ds)
  | ds => (false, ds)

/-- The number that an optional sign and decimal digits are. -/
def decimalValue (s : List UInt8) : ℤ :=
  if (splitSign s).1 then -(digitsValue 10 (splitSign s).2 : ℤ) else digitsValue 10 (splitSign s).2

/-- The range of a signed number of 32 bits. -/
def FitsInt (v : ℤ) : Prop := -2 ^ 31 ≤ v ∧ v < 2 ^ 31

instance : DecidablePred FitsInt := fun _ => inferInstanceAs (Decidable (_ ∧ _))

/-- An optional sign and decimal digits, with a value in range. -/
def decimalNumeral (s : List UInt8) : Option ℤ :=
  if (splitSign s).2 ≠ [] ∧ (∀ c ∈ (splitSign s).2, IsDigit c) ∧ FitsInt (decimalValue s) then
    some (decimalValue s)
  else none

/-- One to eight hexadecimal digits. -/
def hexNumeral (ds : List UInt8) : Option ℤ :=
  if ds ≠ [] ∧ ds.length ≤ 8 ∧ ∀ c ∈ ds, IsHexDigit c then some (wrapInt (digitsValue 16 ds))
  else none

/-- The string starts with `0x` or `0X`. -/
def HexPrefixed (s : List UInt8) : Prop := s.take 2 = str "0x" ∨ s.take 2 = str "0X"

instance : DecidablePred HexPrefixed := fun _ => inferInstanceAs (Decidable (_ ∨ _))

/-- The number that a string is for, if it is one. -/
def numeral (s : List UInt8) : Option ℤ :=
  if HexPrefixed s then hexNumeral (s.drop 2) else decimalNumeral s

/-- `str2num` returns the value of a number and `-1` for every other string. -/
def ReadsNumeral (signed : Bool) (s : List UInt8) : Prop :=
  str2num signed s = (numeral s).getD (-1)

/-! ## Decimal numbers -/

@[simp] theorem digitsValue_nil (b : ℕ) : digitsValue b [] = 0 := rfl

@[simp] theorem digitsValue_concat (b : ℕ) (ds : List UInt8) (c : UInt8) :
    digitsValue b (ds ++ [c]) = digitValue c + b * digitsValue b ds := by
  simp [digitsValue, Nat.ofDigits_cons]

theorem digitValue_of_isDigit {c : UInt8} (hc : IsDigit c) :
    (digitValue c : ℤ) = (c.toNat : ℤ) - 48 := by
  have h48 : 48 ≤ c.toNat := UInt8.le_iff_toNat_le.1 hc.1
  rw [digitValue, if_pos hc.2]
  omega

/-- Only the value of the accumulator matters, not when it wraps around. -/
theorem wrapInt_mul_add (x y z : ℤ) : wrapInt (wrapInt x * y + z) = wrapInt (x * y + z) := by
  have hmul : wrapInt (wrapInt x * y) = wrapInt (x * y) := Int.bmod_mul_bmod
  exact Int.add_bmod_eq_add_bmod_right z hmul

theorem wrapInt_neg (x : ℤ) : wrapInt (-wrapInt x) = wrapInt (-x) := Int.bmod_neg_bmod

theorem wrapInt_eq_self {x : ℤ} (h : FitsInt x) : wrapInt x = x := by
  have h₁ := h.1
  have h₂ := h.2
  exact Int.bmod_eq_of_le (by omega) (by omega)

theorem wrapInt_eq_neg_one_iff (x : ℤ) : wrapInt x = -1 ↔ x % 2 ^ 32 = 2 ^ 32 - 1 := by
  rw [wrapInt, Int.bmod_eq_emod]
  split_ifs <;> omega

theorem atoiLoop_append (p q : List UInt8) (r : ℤ) :
    atoiLoop (p ++ q) r = (atoiLoop p r).bind (atoiLoop q) := by
  induction p generalizing r with
  | nil => rfl
  | cons c p ih =>
    rw [List.cons_append, atoiLoop, atoiLoop]
    split_ifs
    · rfl
    · exact ih _

theorem not_isDigit_iff {c : UInt8} : ¬ IsDigit c ↔ c < 48 ∨ 57 < c := by
  rw [IsDigit, not_and_or, UInt8.not_le, UInt8.not_le]

/-- The loop of `atoi` computes the number that the digits are, as far as it fits. -/
theorem atoiLoop_eq (ds : List UInt8) :
    atoiLoop ds 0 =
      if ∀ c ∈ ds, IsDigit c then some (wrapInt (digitsValue 10 ds)) else none := by
  induction ds using List.reverseRecOn with
  | nil => rfl
  | append_singleton ds c ih =>
    rw [atoiLoop_append, ih]
    by_cases hds : ∀ c ∈ ds, IsDigit c
    · rw [if_pos hds, Option.bind_some, atoiLoop]
      by_cases hc : IsDigit c
      · have hall : ∀ c' ∈ ds ++ [c], IsDigit c' := by
          simpa [or_imp, forall_and] using And.intro hds hc
        rw [if_neg (fun h => not_isDigit_iff.2 h hc), if_pos hall, atoiLoop, wrapInt_mul_add,
          digitsValue_concat, Nat.cast_add, digitValue_of_isDigit hc, Nat.cast_mul]
        ring_nf
      · rw [if_pos (not_isDigit_iff.1 hc), if_neg (fun h => hc (h c (by simp)))]
    · rw [if_neg hds, if_neg (fun h => hds fun c' hc' => h c' (by simp [hc']))]
      rfl

theorem atoi_eq_splitSign (s : List UInt8) :
    atoi (some s) = match atoiLoop (splitSign s).2 0 with
      | none => -1
      | some r => if (splitSign s).1 then wrapInt (-r) else r := rfl

theorem atoi_eq (s : List UInt8) :
    atoi (some s) =
      if ∀ c ∈ (splitSign s).2, IsDigit c then wrapInt (decimalValue s) else -1 := by
  rw [atoi_eq_splitSign, atoiLoop_eq]
  by_cases hds : ∀ c ∈ (splitSign s).2, IsDigit c
  · rw [if_pos hds, if_pos hds, decimalValue]
    cases (splitSign s).1 with
    | false => simp only [Bool.false_eq_true, if_false]
    | true => simp only [if_true, wrapInt_neg]
  · rw [if_neg hds, if_neg hds]

/-- `atoi` reads a decimal number in range. -/
theorem atoi_of_digits {ds : List UInt8} (hne : ds ≠ []) (hds : ∀ c ∈ ds, IsDigit c)
    (hlt : digitsValue 10 ds < 2 ^ 31) : atoi (some ds) = digitsValue 10 ds := by
  have hsplit : splitSign ds = (false, ds) := by
    have hminus : ¬ IsDigit 45 := by decide
    have hplus : ¬ IsDigit 43 := by decide
    unfold splitSign
    split
    · exact absurd (hds _ List.mem_cons_self) hminus
    · exact absurd (hds _ List.mem_cons_self) hplus
    · rfl
  have hval : decimalValue ds = digitsValue 10 ds := by rw [decimalValue, hsplit]; rfl
  rw [atoi_eq, hsplit, if_pos hds, hval, wrapInt_eq_self ⟨by omega, by exact_mod_cast hlt⟩]

/-- There is a digit to read if every character is one, and the number is in range or wraps around
to `-1`. -/
def DecimalAgrees (s : List UInt8) : Prop :=
  (∃ c ∈ (splitSign s).2, ¬ IsDigit c) ∨
    (splitSign s).2 ≠ [] ∧ (FitsInt (decimalValue s) ∨ decimalValue s % 2 ^ 32 = 2 ^ 32 - 1)

theorem atoi_eq_numeral_iff (s : List UInt8) :
    atoi (some s) = (decimalNumeral s).getD (-1) ↔ DecimalAgrees s := by
  rw [atoi_eq, decimalNumeral, DecimalAgrees]
  by_cases hds : ∀ c ∈ (splitSign s).2, IsDigit c
  · have hnot : ¬ ∃ c ∈ (splitSign s).2, ¬ IsDigit c := by simpa using hds
    rw [if_pos hds]
    by_cases hne : (splitSign s).2 = []
    · have hzero : decimalValue s = 0 := by
        rw [decimalValue, hne]
        split_ifs <;> rfl
      simp [hne, hzero, wrapInt]
    · by_cases hr : FitsInt (decimalValue s)
      · rw [if_pos ⟨hne, hds, hr⟩, wrapInt_eq_self hr]
        simp [hne, hr]
      · rw [if_neg fun h => hr h.2.2, Option.getD_none, wrapInt_eq_neg_one_iff]
        simp only [hnot, hr, hne, ne_eq, not_false_eq_true, true_and, false_or]
  · have hbad : ∃ c ∈ (splitSign s).2, ¬ IsDigit c := by simpa using hds
    rw [if_neg hds, if_neg fun h => hds h.2.1]
    simp [hbad]

/-! ## Hexadecimal numbers -/

theorem hexLoop_concat (signed : Bool) (ds : List UInt8) (c : UInt8) :
    hexLoop signed (ds ++ [c]) = hexLoop signed ds <<< 4 ||| hexCharValue signed c := by
  rw [hexLoop, List.foldl_append]
  rfl

theorem testBit_hexLoop_concat (signed : Bool) (ds : List UInt8) (c : UInt8) {j : ℕ} (hj : j < 32) :
    (hexLoop signed (ds ++ [c])).toNat.testBit j =
      (decide (4 ≤ j) && (hexLoop signed ds).toNat.testBit (j - 4) ||
        (hexCharValue signed c).toNat.testBit j) := by
  have h4 : (4 : UInt32).toNat % 32 = 4 := rfl
  rw [hexLoop_concat, UInt32.toNat_or, Nat.testBit_or, UInt32.toNat_shiftLeft, h4,
    Nat.testBit_mod_two_pow, Nat.testBit_shiftLeft, decide_eq_true hj, Bool.true_and]

theorem isUpperHexDigit_iff {c : UInt8} :
    IsUpperHexDigit c ↔ 48 ≤ c.toNat ∧ c.toNat ≤ 57 ∨ 65 ≤ c.toNat ∧ c.toNat ≤ 70 := by
  simp only [IsUpperHexDigit, IsDigit, UInt8.le_iff_toNat_le]
  rfl

theorem isHexDigit_iff {c : UInt8} :
    IsHexDigit c ↔ IsUpperHexDigit c ∨ 97 ≤ c.toNat ∧ c.toNat ≤ 102 := by
  simp only [IsHexDigit, UInt8.le_iff_toNat_le]
  rfl

theorem digitValue_eq (c : UInt8) :
    digitValue c = if c.toNat ≤ 57 then c.toNat - 48
      else if c.toNat ≤ 70 then c.toNat - 55 else c.toNat - 87 := by
  simp only [digitValue, UInt8.le_iff_toNat_le]
  rfl

theorem digitValue_lt {c : UInt8} (hc : IsHexDigit c) : digitValue c < 16 := by
  rw [isHexDigit_iff, isUpperHexDigit_iff] at hc
  rw [digitValue_eq]
  split_ifs <;> omega

theorem toNat_ofInt_sub {a b : ℕ} (hb : b ≤ a) (ha : a < 256) :
    (UInt32.ofInt ((a : ℤ) - b)).toNat = a - b := by
  rw [← Int.natCast_sub hb, UInt32.ofInt, UInt32.toNat_ofNat']
  omega

theorem toNat_hexCharValue (signed : Bool) {c : UInt8} (h48 : 48 ≤ c.toNat) (hlt : c.toNat < 128) :
    (hexCharValue signed c).toNat =
      if 65 ≤ c.toNat ∧ c.toNat ≤ 70 then c.toNat - 55 else c.toNat - 48 := by
  simp only [hexCharValue, UInt8.le_iff_toNat_le, charOf_natCast signed hlt]
  rw [show (65 : UInt8).toNat = 65 from rfl, show (70 : UInt8).toNat = 70 from rfl]
  split_ifs with h
  · exact @toNat_ofInt_sub c.toNat 55 (by omega) c.toNat_lt
  · exact @toNat_ofInt_sub c.toNat 48 h48 c.toNat_lt

/-- The loop of `hexstr2num` takes the upper-case digits for what they are. -/
theorem hexCharValue_of_upper (signed : Bool) {c : UInt8} (hc : IsUpperHexDigit c) :
    (hexCharValue signed c).toNat = digitValue c := by
  rw [isUpperHexDigit_iff] at hc
  rw [toNat_hexCharValue signed (by omega) (by omega), digitValue_eq]
  split_ifs <;> omega

/-- A lower-case digit has bit 3, but the loop of `hexstr2num` clears it. -/
theorem testBit_three_of_lower (signed : Bool) {c : UInt8} (hc : IsHexDigit c)
    (hup : ¬ IsUpperHexDigit c) :
    (hexCharValue signed c).toNat.testBit 3 = false ∧ (digitValue c).testBit 3 = true := by
  have hlow : 97 ≤ c.toNat ∧ c.toNat ≤ 102 := (isHexDigit_iff.1 hc).resolve_left hup
  rw [toNat_hexCharValue signed (by omega) (by omega), digitValue_eq, if_neg (by omega),
    if_neg (by omega), if_neg (by omega)]
  have hbits : ∀ n < 103, 97 ≤ n →
      (n - 48).testBit 3 = false ∧ (n - 87).testBit 3 = true := by decide
  exact hbits _ (by omega) hlow.1

theorem digitsValue_lt {ds : List UInt8} (hds : ∀ c ∈ ds, IsHexDigit c) :
    digitsValue 16 ds < 16 ^ ds.length := by
  have hlt : ∀ d ∈ ds.reverse.map digitValue, d < 16 := by
    intro d hd
    obtain ⟨c, hc, rfl⟩ := List.mem_map.1 hd
    exact digitValue_lt (hds c (List.mem_reverse.1 hc))
  have := Nat.ofDigits_lt_base_pow_length (by decide) hlt
  rwa [List.length_map, List.length_reverse] at this

theorem digitsValue_lt_word {ds : List UInt8} (hds : ∀ c ∈ ds, IsHexDigit c)
    (hlen : ds.length ≤ 8) : digitsValue 16 ds < 2 ^ 32 :=
  calc digitsValue 16 ds < 16 ^ ds.length := digitsValue_lt hds
    _ ≤ 16 ^ 8 := Nat.pow_le_pow_right (by decide) hlen
    _ = 2 ^ 32 := rfl

theorem forall_mem_concat {α : Type*} {P : α → Prop} {l : List α} {a : α} :
    (∀ x ∈ l ++ [a], P x) ↔ (∀ x ∈ l, P x) ∧ P a := by
  simp [or_imp, forall_and]

/-- Without lower-case letters the loop computes the number that the digits are. -/
theorem hexLoop_of_upper (signed : Bool) {ds : List UInt8} (hds : ∀ c ∈ ds, IsUpperHexDigit c)
    (hlen : ds.length ≤ 8) : (hexLoop signed ds).toNat = digitsValue 16 ds := by
  induction ds using List.reverseRecOn with
  | nil => rfl
  | append_singleton ds c ih =>
    obtain ⟨hds, hc⟩ := forall_mem_concat.1 hds
    rw [List.length_append, List.length_singleton] at hlen
    have hlt : digitsValue 16 ds < 16 ^ 7 :=
      (digitsValue_lt fun c hc => .inl (hds c hc)).trans_le
        (Nat.pow_le_pow_right (by decide) (by omega))
    have hdigit := digitValue_lt (.inl hc)
    have hfit : digitsValue 16 ds <<< 4 % 2 ^ 32 = digitsValue 16 ds <<< 4 := by
      rw [Nat.shiftLeft_eq]
      omega
    have h4 : (4 : UInt32).toNat % 32 = 4 := rfl
    rw [hexLoop_concat, UInt32.toNat_or, UInt32.toNat_shiftLeft, h4, ih hds (by omega),
      hexCharValue_of_upper signed hc, hfit,
      ← Nat.shiftLeft_add_eq_or_of_lt (by simpa using hdigit), Nat.shiftLeft_eq,
      digitsValue_concat]
    omega

/-- With a lower-case letter the loop misses a bit of the number. -/
theorem exists_testBit_of_lower (signed : Bool) {ds : List UInt8} (hds : ∀ c ∈ ds, IsHexDigit c)
    (hlow : ¬ ∀ c ∈ ds, IsUpperHexDigit c) (hlen : ds.length ≤ 8) :
    ∃ j < 4 * ds.length, (hexLoop signed ds).toNat.testBit j = false ∧
      (digitsValue 16 ds).testBit j = true := by
  induction ds using List.reverseRecOn with
  | nil => simp at hlow
  | append_singleton ds c ih =>
    obtain ⟨hds, hc⟩ := forall_mem_concat.1 hds
    rw [List.length_append, List.length_singleton] at hlen ⊢
    have hval : ∀ j, (digitsValue 16 (ds ++ [c])).testBit j =
        if j < 4 then (digitValue c).testBit j else (digitsValue 16 ds).testBit (j - 4) := by
      intro j
      rw [digitsValue_concat, show digitValue c + 16 * digitsValue 16 ds =
        2 ^ 4 * digitsValue 16 ds + digitValue c by omega]
      exact Nat.testBit_two_pow_mul_add _ (digitValue_lt hc) j
    by_cases hup : IsUpperHexDigit c
    · -- the letter is further up, and this digit stays within its four bits
      obtain ⟨j, hj, hcode, hspec⟩ :=
        ih hds (fun h => hlow (forall_mem_concat.2 ⟨h, hup⟩)) (by omega)
      have hdigit : (digitValue c).testBit (j + 4) = false :=
        Nat.testBit_lt_two_pow ((digitValue_lt hc).trans_le
          (Nat.pow_le_pow_right (n := 2) (by decide) (show 4 ≤ j + 4 by omega)))
      refine ⟨j + 4, by omega, ?_, ?_⟩
      · rw [testBit_hexLoop_concat signed ds c (by omega), Nat.add_sub_cancel, hcode,
          hexCharValue_of_upper signed hup, hdigit, Bool.and_false, Bool.or_false]
      · rw [hval, if_neg (by omega), Nat.add_sub_cancel, hspec]
    · obtain ⟨hcode, hspec⟩ := testBit_three_of_lower signed hc hup
      refine ⟨3, by omega, ?_, ?_⟩
      · rw [testBit_hexLoop_concat signed ds c (by decide), hcode]
        rfl
      · rw [hval, if_pos (by decide), hspec]

/-- The values of the characters, four bits apart, cover a word. -/
def CoversWord (signed : Bool) (ds : List UInt8) : Prop :=
  ∀ j < 32, ∃ q c, ds.reverse[q]? = some c ∧ 4 * q ≤ j ∧
    (hexCharValue signed c).toNat.testBit (j - 4 * q) = true

theorem testBit_hexLoop (signed : Bool) (ds : List UInt8) {j : ℕ} (hj : j < 32) :
    (hexLoop signed ds).toNat.testBit j = true ↔ ∃ q c, ds.reverse[q]? = some c ∧ 4 * q ≤ j ∧
      (hexCharValue signed c).toNat.testBit (j - 4 * q) = true := by
  induction ds using List.reverseRecOn generalizing j with
  | nil => simp [hexLoop]
  | append_singleton ds c ih =>
    rw [testBit_hexLoop_concat signed ds c hj, Bool.or_eq_true, Bool.and_eq_true, decide_eq_true_eq,
      ih (show j - 4 < 32 by omega), List.reverse_append, List.reverse_singleton,
      List.singleton_append]
    constructor
    · rintro (⟨h4, q, c', hc', hq, hbit⟩ | hbit)
      · exact ⟨q + 1, c', hc', by omega, by rwa [show j - 4 * (q + 1) = j - 4 - 4 * q by omega]⟩
      · exact ⟨0, c, rfl, by omega, hbit⟩
    · rintro ⟨q, c', hc', hq, hbit⟩
      cases q with
      | zero =>
        obtain rfl : c = c' := Option.some.inj hc'
        exact .inr hbit
      | succ q =>
        refine .inl ⟨by omega, q, c', hc', by omega, ?_⟩
        rwa [show j - 4 - 4 * q = j - 4 * (q + 1) by omega]

theorem wrapInt_hexLoop_iff (signed : Bool) (ds : List UInt8) :
    wrapInt (hexLoop signed ds).toNat = -1 ↔ CoversWord signed ds := by
  have hlt := (hexLoop signed ds).toNat_lt
  have hones : wrapInt (hexLoop signed ds).toNat = -1 ↔ (hexLoop signed ds).toNat = 2 ^ 32 - 1 := by
    rw [wrapInt_eq_neg_one_iff]
    omega
  rw [hones]
  constructor
  · intro h j hj
    rw [← testBit_hexLoop signed ds hj, h, Nat.testBit_two_pow_sub_one, decide_eq_true hj]
  · intro h
    refine Nat.eq_of_testBit_eq fun j => ?_
    rw [Nat.testBit_two_pow_sub_one]
    rcases Nat.lt_or_ge j 32 with hj | hj
    · rw [(testBit_hexLoop signed ds hj).2 (h j hj), decide_eq_true hj]
    · rw [decide_eq_false (by omega)]
      exact Nat.testBit_lt_two_pow (hlt.trans_le (Nat.pow_le_pow_right (n := 2) (by decide) hj))

/-- The characters behind `0x` are too many, or one to eight digits without lower-case letters, or
no number, and their values cover a word. -/
def HexAgrees (signed : Bool) (ds : List UInt8) : Prop :=
  wrapInt ((ds.length + 2 : ℕ) : ℤ) > 10 ∨
    (ds ≠ [] ∧ ds.length ≤ 8 ∧ ∀ c ∈ ds, IsUpperHexDigit c) ∨
    (8 < ds.length ∨ ∃ c ∈ ds, ¬ IsHexDigit c) ∧ CoversWord signed ds

theorem not_coversWord_nil (signed : Bool) : ¬ CoversWord signed [] := by
  intro h
  obtain ⟨q, c, hc, -⟩ := h 0 (by decide)
  simp at hc

theorem hexLoop_eq_numeral_iff (signed : Bool) {ds : List UInt8}
    (hlen : ¬ wrapInt ((ds.length + 2 : ℕ) : ℤ) > 10) :
    wrapInt (hexLoop signed ds).toNat = (hexNumeral ds).getD (-1) ↔ HexAgrees signed ds := by
  rw [hexNumeral, HexAgrees]
  by_cases hnum : ds ≠ [] ∧ ds.length ≤ 8 ∧ ∀ c ∈ ds, IsHexDigit c
  · obtain ⟨hne, h8, hds⟩ := hnum
    have hbad : ¬ (8 < ds.length ∨ ∃ c ∈ ds, ¬ IsHexDigit c) := by
      rintro (h | ⟨c, hc, h⟩)
      · omega
      · exact h (hds c hc)
    rw [if_pos ⟨hne, h8, hds⟩, Option.getD_some]
    by_cases hup : ∀ c ∈ ds, IsUpperHexDigit c
    · rw [hexLoop_of_upper signed hup h8]
      simp only [true_iff]
      exact .inr (.inl ⟨hne, h8, hup⟩)
    · obtain ⟨j, -, hcode, hspec⟩ := exists_testBit_of_lower signed hds hup h8
      have hlt := digitsValue_lt_word hds h8
      have hlt' := (hexLoop signed ds).toNat_lt
      have hne' : wrapInt (hexLoop signed ds).toNat ≠ wrapInt (digitsValue 16 ds) := by
        intro h
        have hmod := congrArg (· % ((2 ^ 32 : ℕ) : ℤ)) h
        simp only [wrapInt, Int.bmod_emod] at hmod
        have hsame : (hexLoop signed ds).toNat = digitsValue 16 ds := by omega
        rw [hsame, hspec] at hcode
        cases hcode
      simp only [hne', hlen, hup, hbad, and_false, false_and, or_self]
  · have hor : ds = [] ∨ 8 < ds.length ∨ ∃ c ∈ ds, ¬ IsHexDigit c := by
      by_contra h
      simp only [not_or, not_exists, not_and, not_not] at h
      exact hnum ⟨h.1, by omega, h.2.2⟩
    have hup : ¬ (ds ≠ [] ∧ ds.length ≤ 8 ∧ ∀ c ∈ ds, IsUpperHexDigit c) :=
      fun h => hnum ⟨h.1, h.2.1, fun c hc => .inl (h.2.2 c hc)⟩
    rw [if_neg hnum, Option.getD_none, wrapInt_hexLoop_iff]
    rcases hor with rfl | hbad
    · simp [not_coversWord_nil, wrapInt]
    · simp only [hlen, hup, hbad, false_or, true_and]

theorem strncmp_eq_zero_iff {s : List UInt8} {a b : UInt8} (hb : b ≠ 0) :
    strncmp s [a, b] 2 = 0 ↔ s.take 2 = [a, b] := by
  rw [strncmp, memcmp_eq_zero_iff_getD]
  have hget : (∀ i < 2, s.getD i 0 = [a, b].getD i 0) ↔ s.getD 0 0 = a ∧ s.getD 1 0 = b :=
    ⟨fun h => ⟨h 0 (by decide), h 1 (by decide)⟩, fun h i hi => by
      rcases (show i = 0 ∨ i = 1 by omega) with rfl | rfl
      · exact h.1
      · exact h.2⟩
  rw [hget]
  match s with
  | [] => simp [hb.symm]
  | [c] => simp [hb.symm]
  | c :: d :: s => simp

theorem hexPrefixed_iff (s : List UInt8) :
    ¬ (strncmp s (str "0x") 2 ≠ 0 ∧ strncmp s (str "0X") 2 ≠ 0) ↔ HexPrefixed s := by
  have hx : strncmp s (str "0x") 2 = 0 ↔ s.take 2 = str "0x" := strncmp_eq_zero_iff (by decide)
  have hX : strncmp s (str "0X") 2 = 0 ↔ s.take 2 = str "0X" := strncmp_eq_zero_iff (by decide)
  rw [HexPrefixed, ← hx, ← hX, not_and_or, not_not, not_not]

theorem HexPrefixed.length_eq {s : List UInt8} (h : HexPrefixed s) :
    s.length = (s.drop 2).length + 2 := by
  have htake : (s.take 2).length = 2 := by
    rcases h with h | h <;> rw [h] <;> rfl
  rw [List.length_take] at htake
  rw [List.length_drop]
  omega

/-- **The strings that `str2num` reads right.** With the prefix of a hexadecimal number they are
those of `HexAgrees`, and without it those of `DecimalAgrees`. -/
theorem readsNumeral_iff (signed : Bool) (s : List UInt8) :
    ReadsNumeral signed s ↔
      if HexPrefixed s then HexAgrees signed (s.drop 2) else DecimalAgrees s := by
  rw [ReadsNumeral, str2num, numeral]
  by_cases hp : HexPrefixed s
  · have hcmp := (hexPrefixed_iff s).2 hp
    rw [if_pos hp, if_pos hp, if_neg hcmp, hexstr2num, if_neg hcmp, hp.length_eq]
    by_cases hlen : wrapInt (((s.drop 2).length + 2 : ℕ) : ℤ) > 10
    · have hlong : 8 < (s.drop 2).length := by
        by_contra hle
        rw [wrapInt_eq_self ⟨by omega, by omega⟩] at hlen
        omega
      have hnum : hexNumeral (s.drop 2) = none := if_neg fun h => by omega
      rw [if_pos hlen, hnum]
      exact ⟨fun _ => .inl hlen, fun _ => rfl⟩
    · rw [if_neg hlen]
      exact hexLoop_eq_numeral_iff signed hlen
  · rw [if_neg hp, if_neg hp, if_pos (not_not.1 (mt (hexPrefixed_iff s).1 hp))]
    exact atoi_eq_numeral_iff s

/-- A lower-case digit is misread: `0xff` is 886. -/
theorem not_readsNumeral : ¬ ∀ (signed : Bool) (s : List UInt8), ReadsNumeral signed s := by
  intro h
  have hff : str2num true (str "0xff") = (numeral (str "0xff")).getD (-1) := h true (str "0xff")
  exact absurd hff (by decide +kernel)

end HpiDriver
