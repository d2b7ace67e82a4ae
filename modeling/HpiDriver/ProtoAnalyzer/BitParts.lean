import HpiDriver.ProtoAnalyzer.BitField

/-!
# The parts of a bit field

The loops of `pa_set_protocol_bit_data` and `pa_get_protocol_bit_data` cut a field up byte by byte.
They keep the position in variables of different types, and reset or wrap them in different ways,
but go through the same parts (`setChunks_getChunks_cutsUp`). What the writer leaves in the buffer
is exactly the field only where the bit of the data above the field, which it writes too, does not
show (`writesOnlyField_iff`).
-/

namespace HpiDriver

open BitString

/-! ## One way to cut a field up -/

/-- The places in the value of the bits of a part, most significant first. -/
def Chunk.valueBits (c : Chunk) : List ℤ :=
  (List.range c.width.toNat).reverse.map fun j : ℕ => c.valuePos + j

/-- The parts are a field of `n` bits, cut up at the ends of its bytes. -/
structure CutsUp (n : ℕ) (cs : List Chunk) : Prop where
  width : ∀ c ∈ cs, 1 ≤ c.width.toNat ∧ c.width.toNat ≤ 8
  total : (cs.map fun c => c.width.toNat).sum = n
  bytes : cs.map Chunk.byte = List.range cs.length
  values : cs.flatMap Chunk.valueBits = (List.range n).reverse.map fun j : ℕ => (j : ℤ)

/-- Fuel for every bit is enough. -/
theorem bitChunks_of_le {fuel i p n : ℕ} (hf : n ≤ fuel) :
    bitChunks fuel i p n = bitChunks n i p n := by
  induction n using Nat.strong_induction_on generalizing fuel i p with
  | _ n ih =>
    rcases Nat.eq_zero_or_pos n with rfl | hn
    · rw [bitChunks_zero, bitChunks_zero]
    · obtain ⟨fuel, rfl⟩ : ∃ k, fuel = k + 1 := ⟨fuel - 1, by omega⟩
      obtain ⟨m, rfl⟩ : ∃ m, n = m + 1 := ⟨n - 1, by omega⟩
      have hlt : m + 1 - min (m + 1) (p + 1) < m + 1 := by omega
      rw [bitChunks, bitChunks, if_neg (by omega), if_neg (by omega),
        @ih _ hlt fuel _ _ (by omega), @ih _ hlt m _ _ (by omega)]

theorem valueBits_mk {i : ℕ} {low : ℤ} {n p : ℕ} (hp : p < 8) :
    (Chunk.mk i low (UInt8.ofNat (min n (p + 1))) (n - min n (p + 1) : ℕ)).valueBits =
      (List.range (min n (p + 1))).reverse.map fun j : ℕ => ((n - min n (p + 1) + j : ℕ) : ℤ) := by
  rw [Chunk.valueBits, toNat_passWidth hp]
  exact List.map_congr_left fun j _ => (Int.natCast_add _ _).symm

/-- The numbers below `m + w`, from the top: the `w` upper ones, then the rest. -/
theorem reverse_range_add (m w : ℕ) :
    (List.range (m + w)).reverse =
      (List.range w).reverse.map (m + ·) ++ (List.range m).reverse := by
  rw [List.range_add, List.reverse_append, List.map_reverse]

theorem bitChunks_cutsUp {fuel i p n : ℕ} (hp : p < 8) (hf : n ≤ fuel) :
    (∀ c ∈ bitChunks fuel i p n, 1 ≤ c.width.toNat ∧ c.width.toNat ≤ 8) ∧
      ((bitChunks fuel i p n).map fun c => c.width.toNat).sum = n ∧
      (bitChunks fuel i p n).map Chunk.byte = List.range' i (bitChunks fuel i p n).length ∧
      (bitChunks fuel i p n).flatMap Chunk.valueBits =
        (List.range n).reverse.map fun j : ℕ => (j : ℤ) := by
  induction fuel generalizing i p n with
  | zero =>
    obtain rfl : n = 0 := by omega
    simp
  | succ fuel ih =>
    rcases Nat.eq_zero_or_pos n with rfl | hn
    · simp
    · have hw := toNat_passWidth (n := n) hp
      obtain ⟨hwidth, htotal, hbytes, hvalues⟩ :=
        @ih (i + 1) 7 (n - min n (p + 1)) (by decide) (by omega)
      rw [bitChunks, if_neg (by omega)]
      refine ⟨List.forall_mem_cons.2 ⟨?_, hwidth⟩, ?_, ?_, ?_⟩
      · simp only [hw]
        omega
      · rw [List.map_cons, List.sum_cons, htotal]
        simp only [hw]
        omega
      · rw [List.map_cons, hbytes, List.length_cons, List.range'_succ]
      · have hsplit := reverse_range_add (n - min n (p + 1)) (min n (p + 1))
        rw [Nat.sub_add_cancel (Nat.min_le_left _ _)] at hsplit
        rw [List.flatMap_cons, hvalues, valueBits_mk hp, hsplit, List.map_append, List.map_map]
        rfl

/-- **The writer and the reader cut a field up the same way**, whether or not plain `char` is
signed. -/
theorem setChunks_getChunks_cutsUp (signed : Bool) {bitPos : UInt8} {len : UInt16}
    (hpos : bitPos.toNat < 128) (hlen : len.toNat < 32768) :
    ∃ cs, CutsUp len.toNat cs ∧ ∀ fuel, len.toNat ≤ fuel →
      setChunks signed fuel 0 (shortOf len) (charOf signed bitPos.toNat) = cs ∧
        getChunks fuel 0 (shortOf len) bitPos = cs := by
  have hp : bitPos.toNat % 8 < 8 := Nat.mod_lt _ (by decide)
  have hshort : shortOf len = (len.toNat : ℤ) := shortOf_eq hlen
  obtain ⟨hwidth, htotal, hbytes, hvalues⟩ := @bitChunks_cutsUp len.toNat 0 _ _ hp le_rfl
  refine ⟨bitChunks len.toNat 0 (bitPos.toNat % 8) len.toNat,
    ⟨hwidth, htotal, by rw [hbytes, List.range_eq_range'], hvalues⟩, fun fuel hf => ?_⟩
  rw [hshort, charOf_natCast _ hpos, setChunks_eq _ _ _ _ _ (.inl hpos), getChunks_eq,
    bitChunks_of_le hf]
  exact ⟨rfl, rfl⟩

/-- Thirteen bits from bit 2 on are cut into three, eight and two. -/
theorem setChunks_getChunks_cutsUp_thirteen :
    ∃ cs, CutsUp 13 cs ∧ ∀ fuel, 13 ≤ fuel →
      setChunks true fuel 0 (shortOf 13) (charOf true 2) = cs ∧
        getChunks fuel 0 (shortOf 13) 2 = cs :=
  @setChunks_getChunks_cutsUp true 2 13 (by decide) (by decide)

/-! ## What the writer touches -/

/-- `pa_set_protocol_bit_data` ors the `len` low bits of the data into the field and leaves every
other bit of the buffer as it is. -/
def WritesOnlyField (env : Env) (data : UInt32) (bytePos bitPos : UInt8) (len : UInt16)
    (dp : List UInt8) : Prop :=
  ∃ dp', paSetProtocolBitData env data bytePos bitPos len dp = some dp' ∧
    dp'.length = dp.length ∧ ∀ k, bitAt dp' k =
      (bitLayer (startBit bytePos.toNat bitPos) len.toNat (data.toNat % 2 ^ len.toNat)).apply
        (bitAt dp) k

/-- A layer has only bits of the data below its length. -/
theorem bitLayer_mod (start n data : ℕ) (f : ℕ → Bool) (k : ℕ) :
    (bitLayer start n (data % 2 ^ n)).apply f k = (bitLayer start n data).apply f k := by
  rw [bitLayer_apply, bitLayer_apply]
  by_cases hk : start ≤ k ∧ k < start + n
  · rw [Nat.testBit_mod_two_pow, decide_eq_true (show start + n - 1 - k < n by omega),
      Bool.true_and]
  · rw [decide_eq_false hk, Bool.false_and, Bool.false_and]

/-- **Only the bit of the data above the field can do harm.** Writing a bit field touches nothing
else exactly when the field starts at the top of its byte, that bit is zero, or the bit in front of
the field is one already. -/
theorem writesOnlyField_iff (env : Env) (data : UInt32) {bytePos bitPos : UInt8} {len : UInt16}
    {dp : List UInt8} (hb : bitPos.toNat < 8) (hlen₁ : 1 ≤ len.toNat) (hlen : len.toNat ≤ 32)
    (hle : startBit bytePos.toNat bitPos + len.toNat ≤ 8 * dp.length) :
    WritesOnlyField env data bytePos bitPos len dp ↔
      bitPos = 7 ∨ data.toNat.testBit len.toNat = false ∨
        bitAt dp (startBit bytePos.toNat bitPos - 1) = true := by
  obtain ⟨dp₁, h₁, hl₁, hb₁⟩ := paSetProtocolBitData_eq env data hb hlen hle
  have h7 : bitPos = 7 ↔ bitPos.toNat = 7 := by
    rw [← UInt8.toNat_inj]
    rfl
  have hpos : bitPos.toNat ≠ 7 → 0 < startBit bytePos.toNat bitPos := by
    rw [startBit]
    omega
  constructor
  · rintro ⟨dp', h', -, hb'⟩
    obtain rfl : dp₁ = dp' := Option.some.inj (h₁.symm.trans h')
    by_contra hbad
    simp only [not_or, Bool.not_eq_false, Bool.not_eq_true] at hbad
    obtain ⟨hne, hset, hclear⟩ := hbad
    have hne : bitPos.toNat ≠ 7 := fun h => hne (h7.2 h)
    have hstart := hpos hne
    -- the bit in front of the field, which no bit of the field covers
    have hbit := (hb₁ (startBit bytePos.toNat bitPos - 1)).symm.trans (hb' _)
    rw [bitLayer_mod, decide_eq_true (show len.toNat ≠ 0 ∧ bitPos.toNat ≠ 7 ∧
      startBit bytePos.toNat bitPos - 1 + 1 = startBit bytePos.toNat bitPos by omega), hset,
      bitLayer_apply, hclear, decide_eq_false (by omega)] at hbit
    simp at hbit
  · intro hgood
    refine ⟨dp₁, h₁, hl₁, fun k => ?_⟩
    rw [hb₁, bitLayer_mod]
    by_cases hk : len.toNat ≠ 0 ∧ bitPos.toNat ≠ 7 ∧ k + 1 = startBit bytePos.toNat bitPos
    · rcases hgood with h | h | h
      · exact absurd (h7.1 h) hk.2.1
      · rw [h, Bool.and_false, Bool.or_false]
      · rw [show startBit bytePos.toNat bitPos - 1 = k by omega] at h
        rw [bitLayer_apply, h]
        simp
    · rw [decide_eq_false hk, Bool.false_and, Bool.or_false]

/-- Three bits from bit 4 on, with a value of three bits. -/
theorem writesOnlyField_iff_three :
    WritesOnlyField ⟨true, fun _ _ => 0, fun _ _ => 0, 0⟩ 5 0 4 3 [0x80] ↔
      (4 : UInt8) = 7 ∨ (5 : UInt32).toNat.testBit 3 = false ∨
        bitAt [0x80] (startBit 0 4 - 1) = true :=
  @writesOnlyField_iff _ 5 0 4 3 _ (by decide) (by decide) (by decide) (by decide)

/-- The value two in one bit sets the bit in front of it. -/
theorem not_writesOnlyField : ¬ ∀ (env : Env) (data : UInt32) (bytePos bitPos : UInt8)
    (len : UInt16) (dp : List UInt8), bitPos.toNat < 8 → 1 ≤ len.toNat → len.toNat ≤ 32 →
      startBit bytePos.toNat bitPos + len.toNat ≤ 8 * dp.length →
        WritesOnlyField env data bytePos bitPos len dp := by
  intro h
  obtain ⟨dp', hdp', -, hbits⟩ := h ⟨true, fun _ _ => 0, fun _ _ => 0, 0⟩ 2 0 0 1 [0] (by decide)
    (by decide) (by decide) (by decide)
  have hrun : paSetProtocolBitData ⟨true, fun _ _ => 0, fun _ _ => 0, 0⟩ 2 0 0 1 [0] =
      some [2] := by decide +kernel
  obtain rfl : [2] = dp' := Option.some.inj (hrun.symm.trans hdp')
  exact absurd (hbits 6) (by decide)

end HpiDriver
