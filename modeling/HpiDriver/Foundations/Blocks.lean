import Mathlib.Data.List.Basic
import Mathlib.Tactic.SplitIfs

/-!
# Blocks of a list

Reading and overwriting a run of consecutive entries of a list: `slice l pos n` is the `n` entries
from `pos` on and `blit dst pos src` is `dst` with `src` written at `pos`. Both are only meant for
runs inside the list; the lemmas say so in a hypothesis. A `slice` sees the `blit` at its own
place (`slice_blit`) and nothing of a `blit` elsewhere (`slice_blit_of_disjoint`).
-/

namespace Blocks

variable {α : Type*}

/-- The `n` entries of `l` from `pos` on. -/
def slice (l : List α) (pos n : ℕ) : List α := (l.drop pos).take n

/-- `dst` with `src` written at `pos`. -/
def blit (dst : List α) (pos : ℕ) (src : List α) : List α :=
  dst.take pos ++ src ++ dst.drop (pos + src.length)

variable {l dst src : List α} {pos n q k : ℕ}

theorem length_slice (h : pos + n ≤ l.length) : (slice l pos n).length = n := by
  simp only [slice, List.length_take, List.length_drop]
  omega

@[simp] theorem slice_zero (l : List α) (pos : ℕ) : slice l pos 0 = [] := by
  simp [slice]

theorem getElem?_slice (l : List α) (pos n k : ℕ) :
    (slice l pos n)[k]? = if k < n then l[pos + k]? else none := by
  rw [slice, List.getElem?_take]
  simp

theorem slice_eq_iff (hs : src.length = n) :
    slice l pos n = src ↔ ∀ k < n, l[pos + k]? = src[k]? := by
  constructor
  · rintro rfl k hk
    rw [getElem?_slice, if_pos hk]
  · intro hk
    refine List.ext_getElem? fun k => ?_
    rw [getElem?_slice]
    split_ifs with hkn
    · exact hk k hkn
    · exact (List.getElem?_eq_none (by omega)).symm

theorem slice_slice (l : List α) (h : q + n ≤ k) :
    slice (slice l pos k) q n = slice l (pos + q) n := by
  refine List.ext_getElem? fun i => ?_
  simp only [getElem?_slice]
  split_ifs with h₁ h₂
  · rw [Nat.add_assoc]
  · omega
  · rfl

theorem slice_append_left {l' : List α} (h : pos + n ≤ l.length) :
    slice (l ++ l') pos n = slice l pos n := by
  refine List.ext_getElem? fun i => ?_
  simp only [getElem?_slice]
  split_ifs with hi
  · exact List.getElem?_append_left (by omega)
  · rfl

theorem slice_append_right {l' : List α} (h : pos = l.length + q) :
    slice (l ++ l') pos n = slice l' q n := by
  subst h
  rw [slice, slice, List.drop_append, List.drop_eq_nil_of_le (by omega), List.nil_append,
    Nat.add_sub_cancel_left]

theorem slice_self (h : l.length = n) : slice l 0 n = l := by
  simp [slice, ← h]

theorem take_eq_slice (l : List α) (n : ℕ) : l.take n = slice l 0 n := by
  simp [slice]

theorem length_blit (h : pos + src.length ≤ dst.length) :
    (blit dst pos src).length = dst.length := by
  simp only [blit, List.length_append, List.length_take, List.length_drop]
  omega

theorem getElem?_blit (h : pos + src.length ≤ dst.length) (k : ℕ) :
    (blit dst pos src)[k]? =
      if pos ≤ k ∧ k < pos + src.length then src[k - pos]? else dst[k]? := by
  have hp : (dst.take pos).length = pos := by simp; omega
  rw [blit, List.append_assoc]
  split_ifs with hk
  · rw [List.getElem?_append_right (by omega), hp, List.getElem?_append_left (by omega)]
  · rcases Nat.lt_or_ge k pos with hlt | hge
    · rw [List.getElem?_append_left (by omega), List.getElem?_take_of_lt hlt]
    · rw [List.getElem?_append_right (by omega), hp, List.getElem?_append_right (by omega),
        List.getElem?_drop]
      congr 1
      omega

@[simp] theorem blit_nil (dst : List α) (pos : ℕ) : blit dst pos [] = dst := by
  simp [blit]

theorem slice_blit (h : pos + src.length ≤ dst.length) :
    slice (blit dst pos src) pos src.length = src := by
  rw [slice_eq_iff rfl]
  intro k hk
  rw [getElem?_blit h, if_pos (by omega), Nat.add_sub_cancel_left]

/-- What ends with the block that was written. -/
theorem take_blit (h : pos + src.length ≤ dst.length) :
    (blit dst pos src).take (pos + src.length) = dst.take pos ++ src := by
  rw [blit, List.take_append_of_le_length, List.take_of_length_le]
  · rw [List.length_append, List.length_take]
    omega
  · rw [List.length_append, List.length_take]
    omega

/-- Two blocks written one behind the other. -/
theorem blit_blit {src' : List α} (h : pos + src.length + src'.length ≤ dst.length) :
    blit (blit dst pos src) (pos + src.length) src' = blit dst pos (src ++ src') := by
  have h₁ : pos + src.length ≤ dst.length := by omega
  have h₂ : pos + src.length + src'.length ≤ (blit dst pos src).length := by
    rwa [length_blit h₁]
  have h₃ : pos + (src ++ src').length ≤ dst.length := by
    rw [List.length_append]
    omega
  refine List.ext_getElem? fun k => ?_
  rw [getElem?_blit h₂, getElem?_blit h₁, getElem?_blit h₃, List.length_append,
    List.getElem?_append, Nat.sub_sub]
  split_ifs <;> first | rfl | omega

theorem blit_blit_self (h : pos + src.length ≤ dst.length) :
    blit (blit dst pos src) pos src = blit dst pos src := by
  have hl := length_blit h
  refine List.ext_getElem? fun k => ?_
  rw [getElem?_blit (by rwa [hl]), getElem?_blit h]
  split_ifs <;> rfl

theorem slice_blit_of_disjoint (h : pos + src.length ≤ dst.length)
    (hd : q + n ≤ pos ∨ pos + src.length ≤ q) : slice (blit dst pos src) q n = slice dst q n := by
  refine List.ext_getElem? fun k => ?_
  simp only [getElem?_slice]
  split_ifs with hk
  · rw [getElem?_blit h, if_neg (by omega)]
  · rfl

/-- Writing entry by entry from `pos` on is writing the block. -/
theorem foldl_set (dst : List α) (pos n : ℕ) (f : ℕ → α) (h : pos + n ≤ dst.length) :
    (List.range n).foldl (fun l i => l.set (pos + i) (f i)) dst =
      blit dst pos ((List.range n).map f) := by
  induction n with
  | zero => exact (blit_nil _ _).symm
  | succ n ih =>
    have hb : pos + ((List.range n).map f).length ≤ dst.length := by simp; omega
    have hb' : pos + ((List.range (n + 1)).map f).length ≤ dst.length := by simpa using h
    rw [List.range_succ, List.foldl_append, ih (by omega), ← List.range_succ]
    refine List.ext_getElem? fun k => ?_
    simp only [List.foldl_cons, List.foldl_nil, List.getElem?_set, length_blit hb,
      getElem?_blit hb, getElem?_blit hb', List.length_map, List.length_range, List.getElem?_map]
    rcases Nat.lt_trichotomy k (pos + n) with hk | rfl | hk
    · rw [if_neg (by omega)]
      by_cases hp : pos ≤ k
      · rw [if_pos (by omega), if_pos (by omega), List.getElem?_range (by omega),
          List.getElem?_range (by omega)]
      · rw [if_neg (by omega), if_neg (by omega)]
    · rw [if_pos rfl, if_pos (by omega), if_pos (by omega), List.getElem?_range (by omega)]
      simp
    · rw [if_neg (by omega), if_neg (by omega), if_neg (by omega)]

/-! ## Several blocks -/

/-- `dst` with blocks written one after another, each at its position. -/
def blitAll (dst : List α) (ws : List (ℕ × List α)) : List α :=
  ws.foldl (fun l w => blit l w.1 w.2) dst

variable {ws : List (ℕ × List α)}

theorem length_blitAll (h : ∀ w ∈ ws, w.1 + w.2.length ≤ dst.length) :
    (blitAll dst ws).length = dst.length := by
  induction ws generalizing dst with
  | nil => rfl
  | cons w ws ih =>
    obtain ⟨hw, h⟩ := List.forall_mem_cons.1 h
    have hl := length_blit hw
    exact (ih fun v hv => by rw [hl]; exact h v hv).trans hl

theorem slice_blitAll_of_disjoint (h : ∀ w ∈ ws, w.1 + w.2.length ≤ dst.length)
    (hd : ∀ w ∈ ws, q + n ≤ w.1 ∨ w.1 + w.2.length ≤ q) :
    slice (blitAll dst ws) q n = slice dst q n := by
  induction ws generalizing dst with
  | nil => rfl
  | cons w ws ih =>
    obtain ⟨hw, h⟩ := List.forall_mem_cons.1 h
    obtain ⟨hdw, hd⟩ := List.forall_mem_cons.1 hd
    have hl := length_blit hw
    exact (ih (fun v hv => by rw [hl]; exact h v hv) hd).trans (slice_blit_of_disjoint hw hdw)

/-- Disjoint blocks are all there after they have been written. -/
theorem slice_blitAll (h : ∀ w ∈ ws, w.1 + w.2.length ≤ dst.length)
    (hd : ws.Pairwise fun w v => w.1 + w.2.length ≤ v.1 ∨ v.1 + v.2.length ≤ w.1) :
    ∀ w ∈ ws, slice (blitAll dst ws) w.1 w.2.length = w.2 := by
  induction ws generalizing dst with
  | nil => simp
  | cons w ws ih =>
    obtain ⟨hw, h⟩ := List.forall_mem_cons.1 h
    obtain ⟨hdw, hd⟩ := List.pairwise_cons.1 hd
    have hl := length_blit hw
    have h' : ∀ v ∈ ws, v.1 + v.2.length ≤ (blit dst w.1 w.2).length := by
      intro v hv
      rw [hl]
      exact h v hv
    refine List.forall_mem_cons.2 ⟨?_, ih h' hd⟩
    exact (slice_blitAll_of_disjoint h' hdw).trans (slice_blit hw)

end Blocks
