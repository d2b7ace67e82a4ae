import HpiDriver.Foundations.Blocks
import HpiDriver.Foundations.BigEndian
import Mathlib.Data.List.GetD
import Mathlib.Data.Int.Basic

/-!
# Memory as the driver sees it

The driver is compiled for a 32-bit machine: an address is a `UInt32`, a `NULL`-able pointer an
`Option Addr`. A byte array is a `List UInt8`; a C string is the list of its characters without
the terminating NUL. The functions of `string.h` that the driver calls are given here as the C
standard defines them; `none` is an access outside an array.
-/

namespace HpiDriver

open Blocks

/-- Addresses of heap blocks. -/
abbrev Addr := UInt32

/-- What `list_del` and `hlist_del` leave in the forward link of a removed node. -/
def LIST_POISON1 : Addr := 0x00100100

/-- What `list_del` leaves in the backward link of a removed node. -/
def LIST_POISON2 : Addr := 0x00200200

/-- `memcmp`: the difference of the first two bytes that differ among the first `n`, else `0`. -/
def memcmp (s₁ s₂ : List UInt8) (n : ℕ) : ℤ :=
  match (List.range n).find? (fun i => s₁.getD i 0 != s₂.getD i 0) with
  | none => 0
  | some i => ((s₁.getD i 0).toNat : ℤ) - (s₂.getD i 0).toNat

/-- The C string in a character array: the bytes in front of the first NUL. -/
def cString (a : List UInt8) : List UInt8 := a.takeWhile (· != 0)

/-- `arr[i] = b` -/
def arrayStore (arr : List UInt8) (i : ℕ) (b : UInt8) : Option (List UInt8) :=
  if i < arr.length then some (arr.set i b) else none

/-- `memcpy(arr + pos, src, n)`, with `bs` the `n` bytes at `src`. -/
def memcpyTo (arr : List UInt8) (pos : ℕ) (bs : List UInt8) : Option (List UInt8) :=
  if bs = [] then some arr
  else if pos + bs.length ≤ arr.length then some (blit arr pos bs)
  else none

/-- The `n` bytes that `memcpy` reads at `arr + pos`. -/
def memcpyFrom (arr : List UInt8) (pos n : ℕ) : Option (List UInt8) :=
  if n = 0 then some []
  else if pos + n ≤ arr.length then some (slice arr pos n)
  else none

theorem memcpyTo_eq {arr bs : List UInt8} {pos : ℕ} (h : pos + bs.length ≤ arr.length) :
    memcpyTo arr pos bs = some (blit arr pos bs) := by
  unfold memcpyTo
  split_ifs with hb
  · rw [hb, blit_nil]
  · rfl

theorem memcpyFrom_eq {arr : List UInt8} {pos n : ℕ} (h : pos + n ≤ arr.length) :
    memcpyFrom arr pos n = some (slice arr pos n) := by
  unfold memcpyFrom
  split_ifs with hn
  · rw [hn, slice_zero]
  · rfl

theorem length_memcpyTo {arr arr' bs : List UInt8} {pos : ℕ} (h : memcpyTo arr pos bs = some arr') :
    arr'.length = arr.length := by
  unfold memcpyTo at h
  split_ifs at h with _ hb
  · rw [Option.some.inj h]
  · rw [← Option.some.inj h, length_blit hb]

theorem length_le_of_memcpyTo {arr arr' bs : List UInt8} (h : memcpyTo arr 0 bs = some arr') :
    bs.length ≤ arr.length := by
  unfold memcpyTo at h
  split_ifs at h with hb hle
  · rw [hb]
    exact Nat.zero_le _
  · rwa [Nat.zero_add] at hle

theorem length_memcpyFrom {arr bs : List UInt8} {pos n : ℕ} (h : memcpyFrom arr pos n = some bs) :
    bs.length = n := by
  unfold memcpyFrom at h
  split_ifs at h with h0 hle
  · rw [← Option.some.inj h, h0, List.length_nil]
  · rw [← Option.some.inj h, length_slice hle]

/-- Copying the same bytes to the same place again. -/
theorem memcpyTo_memcpyTo {arr arr' bs : List UInt8} {pos : ℕ}
    (h : memcpyTo arr pos bs = some arr') : memcpyTo arr' pos bs = some arr' := by
  have hl := length_memcpyTo h
  unfold memcpyTo at h
  split_ifs at h with hb hle
  · rw [memcpyTo, if_pos hb]
  · rw [memcpyTo_eq (by rwa [hl]), ← Option.some.inj h, blit_blit_self hle]

theorem arrayStore_eq_memcpyTo (arr : List UInt8) (i : ℕ) (b : UInt8) :
    arrayStore arr i b = memcpyTo arr i [b] := by
  unfold arrayStore memcpyTo
  rw [if_neg (List.cons_ne_nil _ _), List.length_singleton]
  by_cases hi : i < arr.length
  · have := foldl_set arr i 1 (fun _ => b) hi
    rw [if_pos hi, if_pos (by omega)]
    simpa using this
  · rw [if_neg hi, if_neg (by omega)]

theorem memcpyTo_bind (arr : List UInt8) (pos : ℕ) (bs : List UInt8) (b : UInt8) :
    (memcpyTo arr pos bs).bind (fun arr => memcpyTo arr (pos + bs.length) [b]) =
      memcpyTo arr pos (bs ++ [b]) := by
  by_cases h : pos + (bs ++ [b]).length ≤ arr.length
  · have h' : pos + bs.length + 1 ≤ arr.length := by simpa [Nat.add_assoc] using h
    have hb : pos + bs.length ≤ arr.length := by omega
    have hl : pos + bs.length + [b].length ≤ (blit arr pos bs).length := by
      rw [length_blit hb]
      exact h'
    rw [memcpyTo_eq hb, memcpyTo_eq h, Option.bind_some, memcpyTo_eq hl]
    refine congrArg some (List.ext_getElem? fun k => ?_)
    rw [getElem?_blit hl, getElem?_blit hb, getElem?_blit h]
    simp only [List.length_append, List.length_singleton]
    rcases Nat.lt_trichotomy k (pos + bs.length) with hk | rfl | hk
    · rw [if_neg (by omega)]
      by_cases hp : pos ≤ k
      · rw [if_pos (by omega), if_pos (by omega), List.getElem?_append_left (by omega)]
      · rw [if_neg (by omega), if_neg (by omega)]
    · rw [if_pos (by omega), if_pos (by omega), List.getElem?_append_right (by omega)]
      simp
    · rw [if_neg (by omega), if_neg (by omega), if_neg (by omega)]
  · have hr : memcpyTo arr pos (bs ++ [b]) = none := by
      unfold memcpyTo
      rw [if_neg (by simp), if_neg h]
    rw [hr]
    cases hm : memcpyTo arr pos bs with
    | none => rfl
    | some arr' =>
      have hl := length_memcpyTo hm
      simp only [List.length_append, List.length_singleton] at h
      simp only [Option.bind_some, memcpyTo, List.cons_ne_nil, if_false, List.length_singleton]
      rw [if_neg (by omega)]

/-- Storing `n` bytes one after another is copying them. -/
theorem foldlM_arrayStore (arr : List UInt8) (pos n : ℕ) (f : ℕ → UInt8) :
    (List.range n).foldlM (fun arr i => arrayStore arr (pos + i) (f i)) arr =
      memcpyTo arr pos ((List.range n).map f) := by
  induction n with
  | zero => rfl
  | succ n ih =>
    have hlen : n = ((List.range n).map f).length := by simp
    rw [List.range_succ, List.foldlM_append, ih, List.map_append, List.map_singleton,
      ← memcpyTo_bind, ← hlen]
    refine congrArg _ (funext fun arr => ?_)
    simp [arrayStore_eq_memcpyTo]

theorem getD_eq_of_take_eq {s₁ s₂ : List UInt8} {n i : ℕ} (h : s₁.take n = s₂.take n)
    (hi : i < n) : s₁.getD i 0 = s₂.getD i 0 := by
  have := congrArg (fun l => l[i]?) h
  simp only [List.getElem?_take_of_lt hi] at this
  simp [List.getD_eq_getElem?_getD, this]

theorem take_eq_iff_getD {s₁ s₂ : List UInt8} {n : ℕ} (h₁ : n ≤ s₁.length) (h₂ : n ≤ s₂.length) :
    s₁.take n = s₂.take n ↔ ∀ i < n, s₁.getD i 0 = s₂.getD i 0 := by
  refine ⟨fun h i hi => getD_eq_of_take_eq h hi, fun h => ?_⟩
  refine List.ext_getElem (by simp [h₁, h₂]) fun i hi₁ _ => ?_
  have hi : i < n := by simp only [List.length_take] at hi₁; omega
  have := h i hi
  rw [List.getD_eq_getElem _ _ (by omega), List.getD_eq_getElem _ _ (by omega)] at this
  simpa using this

/-- Blocks compare equal exactly when no byte differs. -/
theorem memcmp_eq_zero_iff_getD {s₁ s₂ : List UInt8} {n : ℕ} :
    memcmp s₁ s₂ n = 0 ↔ ∀ i < n, s₁.getD i 0 = s₂.getD i 0 := by
  rw [memcmp]
  cases hf : (List.range n).find? (fun i => s₁.getD i 0 != s₂.getD i 0) with
  | none => simpa using hf
  | some i =>
    have hne : s₁.getD i 0 ≠ s₂.getD i 0 := by simpa using List.find?_some hf
    have hi : i < n := by simpa using List.mem_of_find?_eq_some hf
    have hne' : (s₁.getD i 0).toNat ≠ (s₂.getD i 0).toNat := fun e => hne (UInt8.toNat_inj.1 e)
    constructor
    · intro h
      change ((s₁.getD i 0).toNat : ℤ) - (s₂.getD i 0).toNat = 0 at h
      omega
    · intro h
      exact absurd (h i hi) hne

/-- Two blocks of at least `n` bytes compare equal exactly when their first `n` bytes agree. -/
theorem memcmp_eq_zero_iff {s₁ s₂ : List UInt8} {n : ℕ} (h₁ : n ≤ s₁.length)
    (h₂ : n ≤ s₂.length) : memcmp s₁ s₂ n = 0 ↔ s₁.take n = s₂.take n := by
  rw [take_eq_iff_getD h₁ h₂, memcmp_eq_zero_iff_getD]

end HpiDriver
