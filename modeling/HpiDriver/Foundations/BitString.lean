import HpiDriver.Foundations.Blocks
import Mathlib.Data.Nat.Bitwise
import Mathlib.Data.UInt

/-!
# Byte arrays as bit strings

A byte array read as one string of bits, the most significant bit of every byte first: `bitAt bs k`
is bit `k`. A `Layer` is a run of bits laid over such a string; it either replaces the bits below
it or is or-ed into them. After several layers (`applyAll`) a bit is what was below, unless a
replacing layer covers it, or-ed with what the layers leave there (`applyAll_eq`).
-/

namespace BitString

open Blocks

/-! ## Bits of an array -/

/-- Bit `k` of the array, the most significant bit of a byte first. -/
def bitAt (bs : List UInt8) (k : ℕ) : Bool := (bs.getD (k / 8) 0).toNat.testBit (7 - k % 8)

theorem bitAt_eq {bs : List UInt8} {n j : ℕ} (hj : j < 8) :
    bitAt bs (8 * n + 7 - j) = (bs.getD n 0).toNat.testBit j := by
  rw [bitAt, show (8 * n + 7 - j) / 8 = n by omega, show 7 - (8 * n + 7 - j) % 8 = j by omega]

theorem testBit_eq_false_of_le (b : UInt8) {j : ℕ} (hj : 8 ≤ j) : b.toNat.testBit j = false :=
  Nat.testBit_lt_two_pow (b.toNat_lt.trans_le (Nat.pow_le_pow_right (n := 2) (by decide) hj))

/-- Bytes with the same bits are the same. -/
theorem UInt8_eq_of_testBit {b c : UInt8}
    (h : ∀ j < 8, b.toNat.testBit j = c.toNat.testBit j) : b = c := by
  refine UInt8.toNat_inj.1 (Nat.eq_of_testBit_eq fun j => ?_)
  rcases Nat.lt_or_ge j 8 with hj | hj
  · exact h j hj
  · rw [testBit_eq_false_of_le b hj, testBit_eq_false_of_le c hj]

/-- Arrays have the same byte where they have the same bits. -/
theorem getD_eq_iff {bs bs' : List UInt8} {n : ℕ} :
    bs.getD n 0 = bs'.getD n 0 ↔ ∀ k, k / 8 = n → bitAt bs k = bitAt bs' k := by
  constructor
  · rintro h k rfl
    rw [bitAt, bitAt, h]
  · refine fun h => UInt8_eq_of_testBit fun j hj => ?_
    have := h (8 * n + 7 - j) (by omega)
    rwa [bitAt_eq hj, bitAt_eq hj] at this

theorem eq_of_bitAt {bs bs' : List UInt8} (hl : bs.length = bs'.length)
    (h : bitAt bs = bitAt bs') : bs = bs' := by
  refine List.ext_getElem hl fun n hn hn' => ?_
  have hget : bs.getD n 0 = bs'.getD n 0 := getD_eq_iff.2 fun k _ => congrFun h k
  rwa [List.getD_eq_getElem _ _ hn, List.getD_eq_getElem _ _ hn'] at hget

theorem bitAt_replicate_zero (n k : ℕ) : bitAt (List.replicate n 0) k = false := by
  have h : (List.replicate n (0 : UInt8)).getD (k / 8) 0 = 0 := by
    rw [List.getD_eq_getElem?_getD, List.getElem?_replicate]
    split_ifs <;> rfl
  rw [bitAt, h]
  exact Nat.zero_testBit _

theorem bitAt_set {bs : List UInt8} {n : ℕ} (hn : n < bs.length) (b : UInt8) (k : ℕ) :
    bitAt (bs.set n b) k = if k / 8 = n then b.toNat.testBit (7 - k % 8) else bitAt bs k := by
  unfold bitAt
  rw [List.getD_eq_getElem?_getD, List.getD_eq_getElem?_getD, List.getElem?_set]
  by_cases hk : n = k / 8
  · subst hk
    simp [hn]
  · rw [if_neg hk, if_neg (Ne.symm hk)]

theorem bitAt_blit {dst src : List UInt8} {pos : ℕ} (h : pos + src.length ≤ dst.length) (k : ℕ) :
    bitAt (blit dst pos src) k =
      if 8 * pos ≤ k ∧ k < 8 * (pos + src.length) then bitAt src (k - 8 * pos)
      else bitAt dst k := by
  unfold bitAt
  rw [List.getD_eq_getElem?_getD, getElem?_blit h]
  split_ifs with h₁ h₂ h₂
  · rw [show (k - 8 * pos) / 8 = k / 8 - pos by omega, show (k - 8 * pos) % 8 = k % 8 by omega,
      List.getD_eq_getElem?_getD]
  · omega
  · omega
  · rw [List.getD_eq_getElem?_getD]

/-! ## Layers -/

/-- A run of bits laid over a bit string, replacing what is below it or or-ed into it. -/
structure Layer where
  start : ℕ
  len : ℕ
  bits : ℕ → Bool
  replaces : Bool

namespace Layer

/-- The layer covers bit `k`. -/
def covers (l : Layer) (k : ℕ) : Bool := l.start ≤ k ∧ k < l.start + l.len

/-- The layer covers bit `k` and has a one there. -/
def sets (l : Layer) (k : ℕ) : Bool := l.covers k && l.bits k

/-- The layer hides what is below it at bit `k`. -/
def hides (l : Layer) (k : ℕ) : Bool := l.covers k && l.replaces

/-- The bit string under the layer. -/
def apply (l : Layer) (f : ℕ → Bool) (k : ℕ) : Bool := f k && !l.hides k || l.sets k

theorem covers_eq_true {l : Layer} {k : ℕ} :
    l.covers k = true ↔ l.start ≤ k ∧ k < l.start + l.len := by
  simp [covers]

end Layer

/-- The bit string under the layers, the first one lowest. -/
def applyAll (ls : List Layer) (f : ℕ → Bool) : ℕ → Bool := ls.foldl (fun f l => l.apply f) f

/-- Some layer hides what is below all of them at bit `k`. -/
def hidden (ls : List Layer) (k : ℕ) : Bool := ls.any (·.hides k)

/-- Some layer sets bit `k` and none above hides it. -/
def leaves : List Layer → ℕ → Bool
  | [], _ => false
  | l :: ls, k => l.sets k && !hidden ls k || leaves ls k

/-- **What is under the layers.** -/
theorem applyAll_eq (ls : List Layer) (f : ℕ → Bool) (k : ℕ) :
    applyAll ls f k = (f k && !hidden ls k || leaves ls k) := by
  induction ls generalizing f with
  | nil => simp [applyAll, hidden, leaves]
  | cons l ls ih =>
    rw [applyAll, List.foldl_cons]
    refine (ih _).trans ?_
    simp only [Layer.apply, leaves, hidden, List.any_cons]
    cases f k <;> cases l.hides k <;> cases l.sets k <;> cases ls.any (·.hides k) <;> simp

/-- Over zeros there is what the layers leave. -/
theorem applyAll_false (ls : List Layer) (k : ℕ) :
    applyAll ls (fun _ => false) k = leaves ls k := by
  rw [applyAll_eq, Bool.false_and, Bool.false_or]

/-- Layers that replace nothing leave what any of them sets. -/
theorem leaves_eq_any {ls : List Layer} (h : ∀ l ∈ ls, l.replaces = false) (k : ℕ) :
    leaves ls k = ls.any (·.sets k) := by
  induction ls with
  | nil => rfl
  | cons l ls ih =>
    obtain ⟨-, h⟩ := List.forall_mem_cons.1 h
    have hh : hidden ls k = false := by
      rw [hidden, List.any_eq_false]
      intro l hl
      simp [Layer.hides, h l hl]
    rw [leaves, hh, ih h, List.any_cons, Bool.not_false, Bool.and_true]

/-- Where one of several disjoint layers is, it alone sets bits. -/
theorem any_sets_eq_bits {ls : List Layer}
    (hd : ls.Pairwise fun l l' => l.start + l.len ≤ l'.start ∨ l'.start + l'.len ≤ l.start)
    {l : Layer} (hl : l ∈ ls) {k : ℕ} (hk : l.covers k = true) :
    ls.any (·.sets k) = l.bits k := by
  have hout : ∀ {l l' : Layer}, l.covers k = true →
      (l.start + l.len ≤ l'.start ∨ l'.start + l'.len ≤ l.start) → l'.sets k = false :=
    fun {l l'} h hdis => by
      have hc := Layer.covers_eq_true.1 h
      have hc' : l'.covers k = false := by
        rw [Bool.eq_false_iff, ne_eq, Layer.covers_eq_true]
        omega
      rw [Layer.sets, hc', Bool.false_and]
  induction ls with
  | nil => simp at hl
  | cons l' ls ih =>
    obtain ⟨hd', hd⟩ := List.pairwise_cons.1 hd
    rw [List.any_cons]
    rcases List.mem_cons.1 hl with rfl | hl
    · have hrest : ls.any (·.sets k) = false := by
        rw [List.any_eq_false]
        intro m hm
        rw [hout hk (hd' m hm)]
        decide
      rw [hrest, Layer.sets, hk, Bool.true_and, Bool.or_false]
    · rw [hout hk (hd' l hl).symm, Bool.false_or, ih hd hl]

/-- Two strings are the same under the layers at bit `k` exactly when they are there, or some
layer hides the bit, or the layers leave a one. -/
theorem applyAll_eq_leaves_iff (ls : List Layer) (f : ℕ → Bool) (k : ℕ) :
    applyAll ls f k = leaves ls k ↔ (f k = true → hidden ls k = true ∨ leaves ls k = true) := by
  rw [applyAll_eq]
  cases f k <;> cases hidden ls k <;> cases leaves ls k <;> simp

/-- Laying the layers over a string twice is laying them over it once. -/
theorem applyAll_applyAll (ls : List Layer) (f : ℕ → Bool) :
    applyAll ls (applyAll ls f) = applyAll ls f := by
  funext k
  rw [applyAll_eq, applyAll_eq]
  cases f k <;> cases hidden ls k <;> cases leaves ls k <;> rfl

/-! ## Writing -/

/-- Where it succeeds, `w` lays the layers over a block of bytes, and it succeeds or fails for all
blocks of one length. -/
structure Lays (w : List UInt8 → Option (List UInt8)) (ls : List Layer) : Prop where
  spec : ∀ {bs bs'}, w bs = some bs' → bs'.length = bs.length ∧ bitAt bs' = applyAll ls (bitAt bs)
  isSome_congr : ∀ {bs bs' : List UInt8}, bs'.length = bs.length → (w bs).isSome = (w bs').isSome

namespace Lays

variable {w w' : List UInt8 → Option (List UInt8)} {ls ls' : List Layer}

/-- Writing the same again changes nothing. -/
theorem again (h : Lays w ls) {bs bs' : List UInt8} (hw : w bs = some bs') :
    w bs' = some bs' := by
  obtain ⟨hlen, hbits⟩ := h.spec hw
  have hsome := h.isSome_congr hlen
  rw [hw, Option.isSome_some, eq_comm, Option.isSome_iff_exists] at hsome
  obtain ⟨bs'', hw'⟩ := hsome
  obtain ⟨hlen', hbits'⟩ := h.spec hw'
  rw [hw', eq_of_bitAt hlen' (by rw [hbits', hbits, applyAll_applyAll])]

theorem id : Lays some [] where
  spec h := by
    obtain rfl := Option.some.inj h
    exact ⟨rfl, rfl⟩
  isSome_congr _ := rfl

theorem fail : Lays (fun _ => none) [] where
  spec h := by cases h
  isSome_congr _ := rfl

theorem bind (h : Lays w ls) (h' : Lays w' ls') :
    Lays (fun bs => (w bs).bind w') (ls ++ ls') where
  spec {bs bs'} hb := by
    obtain ⟨bs₁, h₁, h₂⟩ := Option.bind_eq_some_iff.1 hb
    obtain ⟨hl₁, hb₁⟩ := h.spec h₁
    obtain ⟨hl₂, hb₂⟩ := h'.spec h₂
    refine ⟨hl₂.trans hl₁, ?_⟩
    rw [hb₂, hb₁, applyAll, applyAll, applyAll, List.foldl_append]
  isSome_congr {bs bs'} hl := by
    have hs := h.isSome_congr hl
    cases hw : w bs with
    | none =>
      rw [hw, Option.isSome_none, eq_comm, Option.isSome_eq_false_iff,
          Option.isNone_iff_eq_none] at hs
      rw [hs]
    | some bs₁ =>
      rw [hw, Option.isSome_some, eq_comm, Option.isSome_iff_exists] at hs
      obtain ⟨bs₂, hw'⟩ := hs
      rw [hw', Option.bind_some, Option.bind_some]
      exact h'.isSome_congr (((h.spec hw').1.trans hl).trans (h.spec hw).1.symm)

/-- Writes one after another. -/
theorem foldlM {β : Type*} {w : List UInt8 → β → Option (List UInt8)} {l : List β}
    (h : ∀ b ∈ l, ∃ ls, Lays (fun bs => w bs b) ls) :
    ∃ ls, Lays (fun bs => l.foldlM w bs) ls := by
  induction l with
  | nil => exact ⟨[], id⟩
  | cons b l ih =>
    obtain ⟨⟨ls, hb⟩, h⟩ := List.forall_mem_cons.1 h
    obtain ⟨ls', hl⟩ := ih h
    exact ⟨_, hb.bind hl⟩

end Lays

end BitString
