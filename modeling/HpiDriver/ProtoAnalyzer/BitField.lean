import HpiDriver.Foundations.BitString
import HpiDriver.ProtoAnalyzer.ByteField

/-!
# Bit fields

A bit field runs from a bit of a byte to the less significant ones and on into the bytes behind,
most significant bit first. The mask of `get_bit_data` and `set_bit_data` is one bit too wide.
Writing a field ors its bits into the buffer, and the bit of the data above them into the bit in
front of the field (`paSetProtocolBitData_eq`); for a value that fits the field that bit is zero
(`paSetProtocolField_bit`). Reading one takes the bit in front of the field for a bit of the value
(`paGetProtocolField_bit`), unless the field starts at the top of a byte or fills the word.
-/

namespace HpiDriver

open Blocks BitString

/-! ## Bits of a byte -/

/-- `pow` multiplies once too often. -/
theorem toNat_pow_two {w : ℕ} (hw : w < 31) : (pow 2 (UInt32.ofNat w)).toNat = 2 ^ (w + 1) := by
  have key : ∀ n < 32, ((List.range n).foldl (fun (p : UInt32) _ => p * 2) 1).toNat = 2 ^ n :=
    fun n hn => by
      induction n with
      | zero => rfl
      | succ n ih =>
        have hlt : 2 ^ n < 2 ^ 31 := Nat.pow_lt_pow_right (by decide) (by omega)
        rw [List.range_succ, List.foldl_append, List.foldl_cons, List.foldl_nil,
          UInt32.toNat_mul, ih (by omega), pow_succ]
        exact Nat.mod_eq_of_lt (by simpa using Nat.mul_lt_mul_of_pos_right hlt (by decide))
  rw [pow, UInt32.toNat_ofNat', Nat.mod_eq_of_lt (by omega)]
  exact key _ (by omega)

/-- The mask for `w` bits has `w + 1` bits. -/
theorem testBit_mask {w : ℕ} (hw : w ≤ 8) (j : ℕ) :
    (pow 2 (UInt8.ofNat w).toUInt32 - 1).toNat.testBit j = decide (j ≤ w) := by
  have h8 : (UInt8.ofNat w).toUInt32 = UInt32.ofNat w := by
    refine UInt32.toNat_inj.1 ?_
    rw [UInt8.toNat_toUInt32, UInt8.toNat_ofNat', UInt32.toNat_ofNat',
      Nat.mod_eq_of_lt (by omega), Nat.mod_eq_of_lt (by omega)]
  have hpow := toNat_pow_two (show w < 31 by omega)
  have hle : (1 : UInt32) ≤ pow 2 (UInt32.ofNat w) := by
    rw [UInt32.le_iff_toNat_le, hpow]
    exact Nat.one_le_two_pow
  rw [h8, UInt32.toNat_sub_of_le _ _ hle, hpow]
  rw [show (1 : UInt32).toNat = 1 from rfl, Nat.testBit_two_pow_sub_one]
  exact decide_eq_decide.2 Nat.lt_succ_iff

/-- `get_bit_data` returns the `w` bits from `k` on and the one above them. -/
theorem testBit_getBitData (data : UInt32) {k w : ℕ} (hk : k < 32) (hw : w ≤ 8) {j : ℕ}
    (hj : j < 8) :
    (getBitData data (UInt8.ofNat k) (UInt8.ofNat w)).toNat.testBit j =
      (data.toNat.testBit (k + j) && decide (j ≤ w)) := by
  have hk8 : (UInt8.ofNat k).toUInt32.toNat % 32 = k := by
    rw [UInt8.toNat_toUInt32, UInt8.toNat_ofNat']
    omega
  rw [getBitData, UInt32.toNat_toUInt8, Nat.testBit_mod_two_pow, UInt32.toNat_and,
    Nat.testBit_and, testBit_mask hw, UInt32.toNat_shiftRight, hk8, Nat.testBit_shiftRight]
  simp [hj]

/-- `set_bit_data` ors the `w` low bits of `data`, and the one above them, into the byte. -/
theorem testBit_setBitData (buf data : UInt8) {k w : ℕ} (hk : k < 8) (hw : w ≤ 8) {j : ℕ}
    (hj : j < 8) :
    (setBitData buf data (UInt8.ofNat k) (UInt8.ofNat w)).toNat.testBit j =
      (buf.toNat.testBit j || decide (k ≤ j) && data.toNat.testBit (j - k) &&
        decide (j - k ≤ w)) := by
  have hk8 : (UInt8.ofNat k).toUInt32.toNat % 32 = k := by
    rw [UInt8.toNat_toUInt32, UInt8.toNat_ofNat']
    omega
  rw [setBitData, UInt32.toNat_toUInt8, Nat.testBit_mod_two_pow, UInt32.toNat_or,
    Nat.testBit_or, UInt32.toNat_shiftLeft, hk8, Nat.testBit_mod_two_pow, Nat.testBit_shiftLeft,
    UInt32.toNat_and, Nat.testBit_and, testBit_mask hw, UInt8.toNat_toUInt32,
    UInt8.toNat_toUInt32]
  simp [hj, show j < 32 by omega, Bool.and_assoc]

/-! ## The parts of a field -/

/-- The parts of a field of `n` bits that starts at bit `p` of byte `i`. -/
def bitChunks : ℕ → ℕ → ℕ → ℕ → List Chunk
  | 0, _, _, _ => []
  | fuel + 1, i, p, n =>
    if n = 0 then []
    else ⟨i, (p + 1 - min n (p + 1) : ℕ), UInt8.ofNat (min n (p + 1)), (n - min n (p + 1) : ℕ)⟩ ::
      bitChunks fuel (i + 1) 7 (n - min n (p + 1))

@[simp] theorem bitChunks_zero (fuel i p : ℕ) : bitChunks fuel i p 0 = [] := by
  cases fuel <;> rfl

theorem ofInt_natCast (n : ℕ) : UInt8.ofInt n = UInt8.ofNat n := by
  refine UInt8.toNat_inj.1 ?_
  simp only [UInt8.ofInt, UInt8.toNat_ofNat']
  omega

/-- The number of bits that a pass handles. -/
theorem passWidth_eq (n p : ℕ) :
    UInt8.ofInt (if (n : ℤ) > (p : ℤ) + 1 then (p : ℤ) + 1 else n) =
      UInt8.ofNat (min n (p + 1)) := by
  have h : (if (n : ℤ) > (p : ℤ) + 1 then (p : ℤ) + 1 else (n : ℤ)) =
      ((min n (p + 1) : ℕ) : ℤ) := by
    split_ifs <;> omega
  rw [h]
  exact ofInt_natCast _

theorem toNat_passWidth {n p : ℕ} (hp : p < 8) :
    (UInt8.ofNat (min n (p + 1))).toNat = min n (p + 1) := by
  rw [UInt8.toNat_ofNat']
  omega

/-- The parts that are read. -/
theorem getChunks_eq (fuel i n : ℕ) (pos : UInt8) :
    getChunks fuel i n pos = bitChunks fuel i (pos.toNat % 8) n := by
  induction fuel generalizing i n pos with
  | zero => rfl
  | succ fuel ih =>
    have hp : pos.toNat % 8 < 8 := Nat.mod_lt _ (by decide)
    simp only [getChunks, bitChunks]
    rcases Nat.eq_zero_or_pos n with rfl | hn
    · simp
    · have hcast : (pos.toNat : ℤ) % 8 = ((pos.toNat % 8 : ℕ) : ℤ) := by omega
      rw [if_pos (show (n : ℤ) > 0 by omega), if_neg (show n ≠ 0 by omega), hcast,
        passWidth_eq, toNat_passWidth hp]
      have hsub : (n : ℤ) - (min n (pos.toNat % 8 + 1) : ℕ) =
          ((n - min n (pos.toNat % 8 + 1) : ℕ) : ℤ) := by omega
      rw [hsub, ih]
      congr 1
      · congr 1
        omega
      · -- the next part, if there is one, starts at the top of a byte
        rcases Nat.lt_or_ge (pos.toNat % 8 + 1) n with hlt | hge
        · congr 1
          rw [UInt8.toNat_sub, toNat_passWidth hp]
          omega
        · rw [show n - min n (pos.toNat % 8 + 1) = 0 by omega, bitChunks_zero, bitChunks_zero]

/-- The parts that are written, whether or not plain `char` is signed. -/
theorem setChunks_eq (signed : Bool) (fuel i n pos : ℕ)
    (hpos : pos < 128 ∨ signed = false ∧ pos < 256) :
    setChunks signed fuel i n pos = bitChunks fuel i (pos % 8) n := by
  induction fuel generalizing i n pos with
  | zero => rfl
  | succ fuel ih =>
    have hp : pos % 8 < 8 := Nat.mod_lt _ (by decide)
    simp only [setChunks, bitChunks]
    rcases Nat.eq_zero_or_pos n with rfl | hn
    · simp
    · have hcast : (pos : ℤ).tmod 8 = ((pos % 8 : ℕ) : ℤ) := by
        rw [Int.tmod_eq_emod_of_nonneg (by omega)]
        omega
      rw [if_pos (show (n : ℤ) > 0 by omega), if_neg (show n ≠ 0 by omega), hcast,
        passWidth_eq, toNat_passWidth hp]
      have hsub : (n : ℤ) - (min n (pos % 8 + 1) : ℕ) = ((n - min n (pos % 8 + 1) : ℕ) : ℤ) := by
        omega
      rw [hsub]
      congr 1
      · congr 1
        omega
      · rcases Nat.lt_or_ge (pos % 8 + 1) n with hlt | hge
        · have hw : min n (pos % 8 + 1) = pos % 8 + 1 := by omega
          rw [hw]
          -- at the bottom of the byte the position wraps around, by hand or by its type
          have hnext : ∃ q : ℕ, (q < 128 ∨ signed = false ∧ q < 256) ∧ q % 8 = 7 ∧
              (if charOf signed ((pos : ℤ) - (pos % 8 + 1 : ℕ)) < 0 then 7
                else charOf signed ((pos : ℤ) - (pos % 8 + 1 : ℕ))) = (q : ℤ) := by
            cases signed with
            | true =>
              have hpos : pos < 128 := by simpa using hpos
              have hchar : charOf true ((pos : ℤ) - (pos % 8 + 1 : ℕ)) =
                  (pos : ℤ) - (pos % 8 + 1 : ℕ) := by
                rw [charOf, if_pos rfl]
                exact Int.bmod_eq_of_le (by omega) (by omega)
              rw [hchar]
              rcases Nat.lt_or_ge pos 8 with h8 | h8
              · exact ⟨7, .inl (by decide), rfl, by rw [if_pos (by omega)]; rfl⟩
              · exact ⟨pos - (pos % 8 + 1), .inl (by omega), by omega,
                  by rw [if_neg (by omega)]; omega⟩
            | false =>
              refine ⟨(((pos : ℤ) - (pos % 8 + 1 : ℕ)) % 256).toNat, .inr ⟨rfl, by omega⟩,
                by omega, ?_⟩
              simp only [charOf, Bool.false_eq_true, if_false]
              rw [if_neg (by omega)]
              omega
          obtain ⟨q, hq, hq7, hqz⟩ := hnext
          rw [hqz, ih _ _ _ hq, hq7]
        · rw [show n - min n (pos % 8 + 1) = 0 by omega, bitChunks_zero]
          cases fuel <;> rfl

/-! ## One part -/

/-- The pass that writes a part ors its bits into the buffer, and the bit of the value above them
into the bit in front of the part, unless that bit falls off the byte. -/
theorem writeChunk_eq {data : UInt32} {dp : List UInt8} {N p w v : ℕ} (hp : p < 8) (hw₁ : 1 ≤ w)
    (hw : w ≤ p + 1) (hv : v < 32) (hN : N < dp.length) :
    ∃ dp', (do
        let b ← dp[N]?
        arrayStore dp N (setBitData b (getBitData data (UInt8.ofNat v) (UInt8.ofNat w))
          (UInt8.ofNat (p + 1 - w)) (UInt8.ofNat w))) = some dp' ∧
      dp'.length = dp.length ∧ ∀ k, bitAt dp' k = (bitAt dp k ||
        (decide (8 * N + 7 - p ≤ k ∧ k < 8 * N + 7 - p + w) &&
            data.toNat.testBit (v + (8 * N + 7 - p + w - 1 - k)) ||
          decide (p ≠ 7 ∧ k + 1 = 8 * N + 7 - p) && data.toNat.testBit (v + w))) := by
  rw [List.getElem?_eq_getElem hN]
  simp only [Option.bind_eq_bind, Option.bind_some, arrayStore, if_pos hN]
  refine ⟨_, rfl, List.length_set .., fun k => ?_⟩
  rw [bitAt_set hN]
  by_cases hk : k / 8 = N
  · have hb : bitAt dp k = dp[N].toNat.testBit (7 - k % 8) := by
      rw [bitAt, hk, List.getD_eq_getElem _ _ hN]
    obtain ⟨j, hj, rfl⟩ : ∃ j < 8, k = 8 * N + 7 - j := ⟨7 - k % 8, by omega, by omega⟩
    rw [if_pos hk, hb, show 7 - (8 * N + 7 - j) % 8 = j by omega,
      testBit_setBitData _ _ (by omega) (by omega) hj]
    have hcov : (8 * N + 7 - p ≤ 8 * N + 7 - j ∧ 8 * N + 7 - j < 8 * N + 7 - p + w) ↔
        p + 1 - w ≤ j ∧ j ≤ p := by omega
    have hfront : (p ≠ 7 ∧ 8 * N + 7 - j + 1 = 8 * N + 7 - p) ↔ j = p + 1 := by omega
    rw [decide_eq_decide.2 hcov, decide_eq_decide.2 hfront]
    congr 1
    by_cases hlow : p + 1 - w ≤ j
    · rw [testBit_getBitData _ hv (by omega) (by omega), decide_eq_true hlow, Bool.true_and]
      rcases Nat.lt_trichotomy j (p + 1) with hjp | rfl | hjp
      · -- the part itself
        rw [decide_eq_true (show j - (p + 1 - w) ≤ w by omega),
          decide_eq_true (show p + 1 - w ≤ j ∧ j ≤ p by omega),
          decide_eq_false (show ¬ j = p + 1 by omega),
          show v + (8 * N + 7 - p + w - 1 - (8 * N + 7 - j)) = v + (j - (p + 1 - w)) by omega]
        simp
      · -- the bit above it
        rw [show v + (p + 1 - (p + 1 - w)) = v + w by omega,
          decide_eq_true (show p + 1 - (p + 1 - w) ≤ w by omega),
          decide_eq_false (show ¬ (p + 1 - w ≤ p + 1 ∧ p + 1 ≤ p) by omega)]
        simp
      · rw [decide_eq_false (show ¬ j - (p + 1 - w) ≤ w by omega),
          decide_eq_false (show ¬ (p + 1 - w ≤ j ∧ j ≤ p) by omega),
          decide_eq_false (show ¬ j = p + 1 by omega)]
        simp
    · rw [decide_eq_false hlow, decide_eq_false (show ¬ (p + 1 - w ≤ j ∧ j ≤ p) by omega),
        decide_eq_false (show ¬ j = p + 1 by omega)]
      simp
  · have hcov : ¬ (8 * N + 7 - p ≤ k ∧ k < 8 * N + 7 - p + w) := by omega
    have hfront : ¬ (p ≠ 7 ∧ k + 1 = 8 * N + 7 - p) := by omega
    rw [if_neg hk, decide_eq_false hcov, decide_eq_false hfront, Bool.false_and, Bool.false_and,
      Bool.or_false, Bool.or_false]

/-- The pass that reads a part ors its bits into the value, and the bit in front of it as well. -/
theorem readChunk_eq {acc : UInt32} {dp : List UInt8} {N p w v : ℕ} (hp : p < 8) (hw₁ : 1 ≤ w)
    (hw : w ≤ p + 1) (hv : v < 32) (hN : N < dp.length) :
    ∃ acc', (do
        let b ← dp[N]?
        some (acc ||| (getBitData b.toUInt32 (UInt8.ofNat (p + 1 - w)) (UInt8.ofNat w)).toUInt32 <<<
          UInt32.ofNat v)) = some acc' ∧
      ∀ m < 32, acc'.toNat.testBit m = (acc.toNat.testBit m ||
        decide (v ≤ m ∧ m < v + w) && bitAt dp (8 * N + 7 - p + w - 1 - (m - v)) ||
        decide (m = v + w ∧ p ≠ 7) && bitAt dp (8 * N + 7 - p - 1)) := by
  rw [List.getElem?_eq_getElem hN]
  refine ⟨_, rfl, fun m hm => ?_⟩
  have hv' : (UInt32.ofNat v).toNat % 32 = v := by
    rw [UInt32.toNat_ofNat']
    omega
  have hbit : ∀ j < 8, dp[N].toNat.testBit j = bitAt dp (8 * N + 7 - j) := by
    intro j hj
    rw [bitAt_eq hj, List.getD_eq_getElem _ _ hN]
  rw [UInt32.toNat_or, Nat.testBit_or, UInt32.toNat_shiftLeft, hv', Nat.testBit_mod_two_pow,
    Nat.testBit_shiftLeft, UInt8.toNat_toUInt32, decide_eq_true hm, Bool.true_and, Bool.or_assoc]
  congr 1
  by_cases hvm : v ≤ m
  · rcases Nat.lt_or_ge (m - v) 8 with h8 | h8
    · rw [testBit_getBitData _ (by omega) (by omega) h8, UInt8.toNat_toUInt32,
        decide_eq_true hvm, Bool.true_and]
      rcases Nat.lt_trichotomy m (v + w) with hmw | rfl | hmw
      · rw [hbit _ (by omega), decide_eq_true (show m - v ≤ w by omega),
          decide_eq_true (show v ≤ m ∧ m < v + w from ⟨hvm, hmw⟩),
          decide_eq_false (show ¬ (m = v + w ∧ p ≠ 7) by omega),
          show 8 * N + 7 - (p + 1 - w + (m - v)) = 8 * N + 7 - p + w - 1 - (m - v) by omega]
        simp
      · rw [decide_eq_true (show v + w - v ≤ w by omega),
          decide_eq_false (show ¬ (v ≤ v + w ∧ v + w < v + w) by omega),
          show p + 1 - w + (v + w - v) = p + 1 by omega]
        by_cases hp7 : p = 7
        · subst hp7
          rw [testBit_eq_false_of_le _ (by decide)]
          simp
        · rw [hbit _ (by omega), show 8 * N + 7 - (p + 1) = 8 * N + 7 - p - 1 by omega]
          simp [hp7]
      · rw [decide_eq_false (show ¬ m - v ≤ w by omega),
          decide_eq_false (show ¬ (v ≤ m ∧ m < v + w) by omega),
          decide_eq_false (show ¬ (m = v + w ∧ p ≠ 7) by omega)]
        simp
    · rw [testBit_eq_false_of_le _ h8]
      rw [decide_eq_false (show ¬ (v ≤ m ∧ m < v + w) by omega)]
      by_cases hmw : m = v + w ∧ p ≠ 7
      · omega
      · rw [decide_eq_false hmw]
        simp
  · rw [decide_eq_false hvm, decide_eq_false (show ¬ (v ≤ m ∧ m < v + w) by omega),
      decide_eq_false (show ¬ (m = v + w ∧ p ≠ 7) by omega)]
    simp

/-! ## Whole fields -/

/-- The layer that a bit field is. -/
def bitLayer (start n data : ℕ) : Layer :=
  ⟨start, n, fun k => data.testBit (start + n - 1 - k), false⟩

theorem bitLayer_apply (start n data : ℕ) (f : ℕ → Bool) (k : ℕ) :
    (bitLayer start n data).apply f k = (f k ||
      decide (start ≤ k ∧ k < start + n) && data.testBit (start + n - 1 - k)) := by
  simp only [bitLayer, Layer.apply, Layer.hides, Layer.sets, Layer.covers, Bool.and_false,
    Bool.not_false, Bool.and_true]
  rfl

/-- The passes that write a field or its bits into the buffer, and the bit of the value above them
into the bit in front of the field, if the field does not start at the top of its byte. -/
theorem writeChunks_eq {data : UInt32} {dp : List UInt8} {B fuel i p n : ℕ} (hp : p < 8)
    (hf : n ≤ fuel) (hn : n ≤ 32) (hle : 8 * (B + i) + 7 - p + n ≤ 8 * dp.length) :
    ∃ dp', (bitChunks fuel i p n).foldlM (fun dp c => do
        let tDataGet := getBitData data (UInt8.ofInt c.valuePos) c.width
        let b ← dp[B + c.byte]?
        arrayStore dp (B + c.byte) (setBitData b tDataGet (UInt8.ofInt c.low) c.width)) dp =
          some dp' ∧ dp'.length = dp.length ∧
      ∀ k, bitAt dp' k =
        ((bitLayer (8 * (B + i) + 7 - p) n data.toNat).apply (bitAt dp) k ||
          decide (n ≠ 0 ∧ p ≠ 7 ∧ k + 1 = 8 * (B + i) + 7 - p) && data.toNat.testBit n) := by
  simp only [bitLayer_apply]
  have hzero : ∀ (start : ℕ) (f : ℕ → Bool) (P : Prop) [Decidable P] (b b' : Bool) (k : ℕ),
      (f k || decide (start ≤ k ∧ k < start + 0) && b || decide (0 ≠ 0 ∧ P) && b') = f k := by
    intro start f P _ b b' k
    rw [decide_eq_false (show ¬ (start ≤ k ∧ k < start + 0) by omega),
      decide_eq_false (show ¬ (0 ≠ 0 ∧ P) from fun h => h.1 rfl), Bool.false_and, Bool.false_and,
      Bool.or_false, Bool.or_false]
  induction fuel generalizing i p n dp with
  | zero =>
    obtain rfl : n = 0 := by omega
    exact ⟨dp, rfl, rfl, fun k => (hzero _ _ _ _ _ _).symm⟩
  | succ fuel ih =>
    rcases Nat.eq_zero_or_pos n with rfl | hpos
    · exact ⟨dp, rfl, rfl, fun k => (hzero _ _ _ _ _ _).symm⟩
    · obtain ⟨w, hw⟩ : ∃ w, w = min n (p + 1) := ⟨_, rfl⟩
      obtain ⟨dp₁, h₁, hl₁, hb₁⟩ := @writeChunk_eq data dp (B + i) p w (n - w) hp (by omega)
        (by omega) (by omega) (by omega)
      obtain ⟨dp', h₂, hl₂, hb₂⟩ := @ih dp₁ (i + 1) 7 (n - w) (by decide) (by omega) (by omega)
        (by rw [hl₁]; omega)
      refine ⟨dp', ?_, hl₂.trans hl₁, fun k => ?_⟩
      · rw [bitChunks, if_neg (by omega), ← hw, List.foldlM_cons, ofInt_natCast, ofInt_natCast, h₁]
        exact h₂
      · -- only the first part has a bit in front of it that lies in its byte
        have hfront : (n ≠ 0 ∧ p ≠ 7 ∧ k + 1 = 8 * (B + i) + 7 - p) ↔
            p ≠ 7 ∧ k + 1 = 8 * (B + i) + 7 - p := by omega
        rw [hb₂, hb₁, decide_eq_decide.2 hfront, Nat.sub_add_cancel (show w ≤ n by omega),
          decide_eq_false (show ¬ (n - w ≠ 0 ∧ 7 ≠ 7 ∧ _) from fun h => h.2.1 rfl),
          Bool.false_and, Bool.or_false]
        generalize (decide (p ≠ 7 ∧ k + 1 = 8 * (B + i) + 7 - p) && data.toNat.testBit n) = leak
        generalize hS : 8 * (B + i) + 7 - p = S
        rcases Nat.lt_or_ge (p + 1) n with hlt | hge
        · -- the part fills the byte up, the rest starts at the next one
          rw [show 8 * (B + (i + 1)) + 7 - 7 = S + w by omega,
            show S + w + (n - w) = S + n by omega]
          by_cases hk : S ≤ k ∧ k < S + w
          · rw [decide_eq_true hk, decide_eq_true (show S ≤ k ∧ k < S + n by omega),
              decide_eq_false (show ¬ (S + w ≤ k ∧ k < S + n) by omega),
              show n - w + (S + w - 1 - k) = S + n - 1 - k by omega]
            simp [Bool.or_assoc]
          · have hrest : (S + w ≤ k ∧ k < S + n) ↔ S ≤ k ∧ k < S + n := by omega
            rw [decide_eq_false hk, decide_eq_decide.2 hrest, Bool.false_and, Bool.false_or,
              Bool.or_assoc, Bool.or_comm leak, Bool.or_assoc]
        · obtain rfl : w = n := by omega
          rw [Nat.sub_self, Nat.zero_add, decide_eq_false (show ¬ (8 * (B + (i + 1)) + 7 - 7 ≤ k ∧
            k < 8 * (B + (i + 1)) + 7 - 7 + 0) by omega), Bool.false_and, Bool.or_false,
            Bool.or_assoc]

theorem readChunks_eq (acc : UInt32) {dp : List UInt8} {B : ℤ} {C fuel i p n : ℕ} (hB : B = C)
    (hp : p < 8) (hf : n ≤ fuel) (hn : n ≤ 32)
    (hle : 8 * (C + i) + 7 - p + n ≤ 8 * dp.length) :
    ∃ acc', (bitChunks fuel i p n).foldlM (fun (acc : UInt32) c => do
        let b ← if B + c.byte < 0 then none else dp[(B + c.byte).toNat]?
        let tDataGet := getBitData b.toUInt32 (UInt8.ofInt c.low) c.width
        some (acc ||| tDataGet.toUInt32 <<< UInt32.ofInt c.valuePos)) acc = some acc' ∧
      ∀ m < 32, acc'.toNat.testBit m = (acc.toNat.testBit m ||
        decide (m < n) && bitAt dp (8 * (C + i) + 7 - p + n - 1 - m) ||
        decide (m = n ∧ n ≠ 0 ∧ p ≠ 7) && bitAt dp (8 * (C + i) + 7 - p - 1)) := by
  induction fuel generalizing i p n acc with
  | zero =>
    obtain rfl : n = 0 := by omega
    exact ⟨acc, rfl, fun m _ => by simp⟩
  | succ fuel ih =>
    rcases Nat.eq_zero_or_pos n with rfl | hpos
    · exact ⟨acc, rfl, fun m _ => by simp⟩
    · obtain ⟨w, hw⟩ : ∃ w, w = min n (p + 1) := ⟨_, rfl⟩
      obtain ⟨acc₁, h₁, hb₁⟩ := @readChunk_eq acc dp (C + i) p w (n - w) hp (by omega)
        (by omega) (by omega) (by omega)
      obtain ⟨acc', h₂, hb₂⟩ := @ih acc₁ (i + 1) 7 (n - w) (by decide) (by omega) (by omega)
        (by omega)
      refine ⟨acc', ?_, fun m hm => ?_⟩
      · have hofInt : UInt32.ofInt ((n - w : ℕ) : ℤ) = UInt32.ofNat (n - w) := by
          refine UInt32.toNat_inj.1 ?_
          simp only [UInt32.ofInt, UInt32.toNat_ofNat']
          omega
        have hpos' : ¬ B + (i : ℤ) < 0 := by omega
        have hnat : (B + (i : ℤ)).toNat = C + i := by omega
        rw [bitChunks, if_neg (by omega), ← hw, List.foldlM_cons, ofInt_natCast, hofInt]
        simp only [if_neg hpos', hnat]
        rw [h₁]
        exact h₂
      · rw [hb₂ m hm, hb₁ m hm]
        generalize hS : 8 * (C + i) + 7 - p = S
        rw [Nat.sub_add_cancel (show w ≤ n by omega),
          decide_eq_false (show ¬ (m = n - w ∧ n - w ≠ 0 ∧ 7 ≠ 7) by omega), Bool.false_and,
          Bool.or_false]
        rcases Nat.lt_or_ge m (n - w) with hmw | hmw
        · -- a bit of a later part, so this one fills the byte up
          rw [decide_eq_false (show ¬ (n - w ≤ m ∧ m < n) by omega),
            decide_eq_false (show ¬ (m = n ∧ p ≠ 7) by omega),
            decide_eq_false (show ¬ (m = n ∧ n ≠ 0 ∧ p ≠ 7) by omega), decide_eq_true hmw,
            decide_eq_true (show m < n by omega),
            show 8 * (C + (i + 1)) + 7 - 7 + (n - w) - 1 - m = S + n - 1 - m by omega]
          simp
        · rw [decide_eq_false (show ¬ m < n - w by omega), Bool.false_and, Bool.or_false,
            show S + w - 1 - (m - (n - w)) = S + n - 1 - m by omega]
          have h₃ : (n - w ≤ m ∧ m < n) ↔ m < n := by omega
          have h₄ : (m = n ∧ p ≠ 7) ↔ m = n ∧ n ≠ 0 ∧ p ≠ 7 := by omega
          rw [decide_eq_decide.2 h₃, decide_eq_decide.2 h₄]

/-- The bit that a bit field starts at. -/
def startBit (bytePos : ℕ) (bitPos : UInt8) : ℕ := 8 * bytePos + 7 - bitPos.toNat

/-- **Writing a bit field ors its bits into the buffer**, and the bit of the data above them into
the bit in front of the field, unless the field starts at the top of its byte. -/
theorem paSetProtocolBitData_eq (env : Env) (data : UInt32) {bytePos bitPos : UInt8} {len : UInt16}
    {dp : List UInt8} (hb : bitPos.toNat < 8) (hlen : len.toNat ≤ 32)
    (hle : startBit bytePos.toNat bitPos + len.toNat ≤ 8 * dp.length) :
    ∃ dp', paSetProtocolBitData env data bytePos bitPos len dp = some dp' ∧
      dp'.length = dp.length ∧ ∀ k, bitAt dp' k =
        ((bitLayer (startBit bytePos.toNat bitPos) len.toNat data.toNat).apply (bitAt dp) k ||
          decide (len.toNat ≠ 0 ∧ bitPos.toNat ≠ 7 ∧ k + 1 = startBit bytePos.toNat bitPos) &&
            data.toNat.testBit len.toNat) := by
  have hshort : shortOf len = (len.toNat : ℤ) := shortOf_eq (by omega)
  rw [paSetProtocolBitData, chunkFuel, hshort, Int.toNat_natCast, charOf_natCast _ (by omega),
    setChunks_eq _ _ _ _ _ (.inl (by omega)), Nat.mod_eq_of_lt hb]
  exact writeChunks_eq hb (Nat.le_succ _) hlen hle

/-- The bits of a value that fits in the field are all that is written. -/
theorem paSetProtocolField_bit {f : ProtoInfo} (env : Env) {dp : List UInt8} (hu : f.lenUnit = 1)
    (hb : f.bitPos.toNat < 8) (hlen : f.len.toNat ≤ 32) (hdata : f.data.toNat < 2 ^ f.len.toNat)
    (pos : UInt8) (hle : startBit pos.toNat f.bitPos + f.len.toNat ≤ 8 * dp.length) :
    ∃ dp', paSetProtocolField env f pos dp = some dp' ∧ dp'.length = dp.length ∧
      ∀ k, bitAt dp' k = (bitLayer (startBit pos.toNat f.bitPos) f.len.toNat f.data.toNat).apply
        (bitAt dp) k := by
  rw [paSetProtocolField, if_neg (by rw [hu]; decide), if_pos hu]
  obtain ⟨dp', h, hl, hbits⟩ := paSetProtocolBitData_eq env f.data hb hlen hle
  refine ⟨dp', h, hl, fun k => ?_⟩
  rw [hbits, Nat.testBit_lt_two_pow hdata, Bool.and_false, Bool.or_false]

/-- **Reading a bit field reads one bit too many.** The bits of the value are those of the field;
the bit in front of the field becomes one more bit of the value, unless the field starts at the
top of its byte. -/
theorem paGetProtocolField_bit {f : ProtoInfo} (env : Env) {dp : List UInt8} (hu : f.lenUnit = 1)
    (hb : f.bitPos.toNat < 8) (hlen : f.len.toNat ≤ 32) (hpos : f.bytePos.toNat < 128)
    (hle : startBit f.bytePos.toNat f.bitPos + f.len.toNat ≤ 8 * dp.length) :
    ∃ d, paGetProtocolField env f dp = some { f with data := d } ∧
      ∀ m < 32, d.toNat.testBit m =
        (decide (m < f.len.toNat) &&
            bitAt dp (startBit f.bytePos.toNat f.bitPos + f.len.toNat - 1 - m) ||
          decide (m = f.len.toNat ∧ f.len.toNat ≠ 0 ∧ f.bitPos.toNat ≠ 7) &&
            bitAt dp (startBit f.bytePos.toNat f.bitPos - 1)) := by
  have hshort : shortOf f.len = (f.len.toNat : ℤ) := shortOf_eq (by omega)
  have hchar : charOf env.charSigned f.bytePos.toNat = (f.bytePos.toNat : ℤ) :=
    charOf_natCast _ hpos
  obtain ⟨d, hd, hbits⟩ := readChunks_eq 0 (i := 0) hchar hb (Nat.le_succ _) hlen hle
  refine ⟨d, ?_, fun m hm => ?_⟩
  · rw [paGetProtocolField, if_neg (by rw [hu]; decide), if_pos hu, paGetProtocolBitData,
      chunkFuel, hshort, Int.toNat_natCast, getChunks_eq, Nat.mod_eq_of_lt hb]
    simp only [Option.bind_eq_bind] at hd ⊢
    rw [hd]
    rfl
  · have := hbits m hm
    simpa [startBit] using this

end HpiDriver
