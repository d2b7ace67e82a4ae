import Mathlib.Data.List.Nodup
import Mathlib.Logic.Function.Basic

/-!
# Back-linked lists

Singly linked lists whose nodes also point back at the cell that points at them, so that a node
is unlinked in constant time without knowing its list. The cells are the heads `first b` of a
family of lists and the `next` fields of the nodes; a store of links is read through `ptr` and
`pprev`, and `Spells L B` says that for every `b` the list at `first b` is `B b`, all of them
disjoint and free of repetitions. `Spells.push` and `Spells.unlink` are the two updates;
everything a caller needs to know about the store is `Spells`.
-/

namespace BackLinked

variable {ι α : Type*}

/-- The cells that hold a pointer to a node. -/
inductive Slot (ι α : Type*)
  /-- The head of list `b`. -/
  | first (b : ι)
  /-- The forward link of node `a`. -/
  | next (a : α)
  deriving DecidableEq

/-- The links in memory: what each cell holds, and the cell each node points back at. -/
structure Links (ι α : Type*) where
  ptr : Slot ι α → Option α
  pprev : α → Option (Slot ι α)

namespace Links

section Store

variable [DecidableEq α]

/-- Let node `a` point back at `s`. -/
def setPrev (a : α) (s : Option (Slot ι α)) (L : Links ι α) : Links ι α :=
  { L with pprev := Function.update L.pprev a s }

/-- Let the node behind `v`, if there is one, point back at `s`. -/
def setPrevOf (v : Option α) (s : Option (Slot ι α)) (L : Links ι α) : Links ι α :=
  match v with
  | none => L
  | some a => L.setPrev a s

@[simp] theorem setPrev_ptr (a : α) (s : Option (Slot ι α)) (L : Links ι α) :
    (L.setPrev a s).ptr = L.ptr := rfl

@[simp] theorem setPrev_pprev (a : α) (s : Option (Slot ι α)) (L : Links ι α) (x : α) :
    (L.setPrev a s).pprev x = if x = a then s else L.pprev x := by
  simp [setPrev, Function.update_apply]

@[simp] theorem setPrevOf_ptr (v : Option α) (s : Option (Slot ι α)) (L : Links ι α) :
    (L.setPrevOf v s).ptr = L.ptr := by
  cases v <;> rfl

@[simp] theorem setPrevOf_pprev (v : Option α) (s : Option (Slot ι α)) (L : Links ι α) (x : α) :
    (L.setPrevOf v s).pprev x = if v = some x then s else L.pprev x := by
  cases v with
  | none => simp [setPrevOf]
  | some a => simp [setPrevOf, eq_comm]

variable [DecidableEq ι]

/-- Store `v` in the cell `s`. -/
def setPtr (s : Slot ι α) (v : Option α) (L : Links ι α) : Links ι α :=
  { L with ptr := Function.update L.ptr s v }

@[simp] theorem setPtr_ptr (s : Slot ι α) (v : Option α) (L : Links ι α) (t : Slot ι α) :
    (L.setPtr s v).ptr t = if t = s then v else L.ptr t := by
  simp [setPtr, Function.update_apply]

@[simp] theorem setPtr_pprev (s : Slot ι α) (v : Option α) (L : Links ι α) :
    (L.setPtr s v).pprev = L.pprev := rfl

/-- Link `a` in front of list `b`. -/
def push (a : α) (b : ι) (L : Links ι α) : Links ι α :=
  L.setPtr (.next a) (L.ptr (.first b))
    |>.setPrevOf (L.ptr (.first b)) (some (.next a))
    |>.setPtr (.first b) (some a)
    |>.setPrev a (some (.first b))

/-- Take `a` out of whichever list it is in. -/
def unlink (a : α) (L : Links ι α) : Links ι α :=
  match L.pprev a with
  | none => L
  | some s => (L.setPtr s (L.ptr (.next a))).setPrevOf (L.ptr (.next a)) (some s)

theorem push_ptr (a : α) (b : ι) (L : Links ι α) (c : Slot ι α) :
    (L.push a b).ptr c =
      if c = .first b then some a else if c = .next a then L.ptr (.first b) else L.ptr c := by
  simp [push]

theorem push_pprev (a : α) (b : ι) (L : Links ι α) (x : α) :
    (L.push a b).pprev x =
      if x = a then some (.first b)
      else if L.ptr (.first b) = some x then some (.next a) else L.pprev x := by
  simp [push]

theorem unlink_ptr {a : α} {t : Slot ι α} {L : Links ι α} (h : L.pprev a = some t)
    (c : Slot ι α) : (L.unlink a).ptr c = if c = t then L.ptr (.next a) else L.ptr c := by
  simp [unlink, h]

theorem unlink_pprev {a : α} {t : Slot ι α} {L : Links ι α} (h : L.pprev a = some t) (x : α) :
    (L.unlink a).pprev x = if L.ptr (.next a) = some x then some t else L.pprev x := by
  simp [unlink, h]

end Store

end Links

/-! ## Chains -/

/-- The list that starts at the cell `s` is `xs`, with its back links in place. -/
def IsChain (L : Links ι α) : Slot ι α → List α → Prop
  | s, [] => L.ptr s = none
  | s, a :: xs => L.ptr s = some a ∧ L.pprev a = some s ∧ IsChain L (.next a) xs

/-- The cell behind the list `xs` when it starts at `s`. -/
def lastSlot (s : Slot ι α) : List α → Slot ι α
  | [] => s
  | a :: xs => lastSlot (.next a) xs

theorem lastSlot_cases (s : Slot ι α) (xs : List α) :
    lastSlot s xs = s ∧ xs = [] ∨ ∃ x ∈ xs, lastSlot s xs = .next x := by
  induction xs generalizing s with
  | nil => exact .inl ⟨rfl, rfl⟩
  | cons a xs ih =>
    refine .inr ?_
    rcases ih (.next a) with ⟨h, -⟩ | ⟨x, hx, h⟩
    · exact ⟨a, by simp, h⟩
    · exact ⟨x, by simp [hx], h⟩

namespace IsChain

variable {L L' : Links ι α} {s : Slot ι α} {xs ys : List α} {a : α}

theorem ptr_eq_head? (h : IsChain L s xs) : L.ptr s = xs.head? := by
  cases xs with
  | nil => exact h
  | cons a xs => exact h.1

/-- A chain only depends on its own cells. -/
theorem congr (h : IsChain L s xs) (hs : L'.ptr s = L.ptr s)
    (hp : ∀ x ∈ xs, L'.pprev x = L.pprev x)
    (hn : ∀ x ∈ xs, L'.ptr (.next x) = L.ptr (.next x)) : IsChain L' s xs := by
  induction xs generalizing s with
  | nil => exact hs.trans h
  | cons a xs ih =>
    obtain ⟨h₁, h₂, h₃⟩ := h
    exact ⟨hs.trans h₁, (hp a (by simp)).trans h₂,
      ih h₃ (hn a (by simp)) (fun x hx => hp x (by simp [hx])) (fun x hx => hn x (by simp [hx]))⟩

theorem of_append (h : IsChain L s (xs ++ ys)) : IsChain L (lastSlot s xs) ys := by
  induction xs generalizing s with
  | nil => exact h
  | cons a xs ih => exact ih h.2.2

/-- The back link of a node is the cell in front of it. -/
theorem pprev_eq (h : IsChain L s (xs ++ a :: ys)) : L.pprev a = some (lastSlot s xs) :=
  h.of_append.2.1

theorem next_eq (h : IsChain L s (xs ++ a :: ys)) : L.ptr (.next a) = ys.head? :=
  h.of_append.2.2.ptr_eq_head?

variable [DecidableEq ι] [DecidableEq α]

/-- Unlinking a node of a chain leaves the chain of the others. -/
theorem unlink (h : IsChain L s (xs ++ a :: ys)) (hd : (xs ++ a :: ys).Nodup)
    (hs : ∀ x ∈ xs ++ a :: ys, s ≠ .next x) : IsChain (L.unlink a) s (xs ++ ys) := by
  have hp := h.pprev_eq
  have hn := h.next_eq
  induction xs generalizing s with
  | nil =>
    obtain ⟨-, -, h₃⟩ := h
    have hys : ys.Nodup := (List.nodup_cons.1 hd).2
    simp only [lastSlot] at hp
    cases ys with
    | nil => simp [IsChain, Links.unlink_ptr hp, hn]
    | cons b zs =>
      refine ⟨by simp [Links.unlink_ptr hp, hn], by simp [Links.unlink_pprev hp, hn], ?_⟩
      refine h₃.2.2.congr ?_ (fun x hx => ?_) (fun x hx => ?_)
      · rw [Links.unlink_ptr hp, if_neg (hs b (by simp)).symm]
      · have hxb : b ≠ x := fun e => (List.nodup_cons.1 hys).1 (e ▸ hx)
        simp [Links.unlink_pprev hp, hn, hxb]
      · rw [Links.unlink_ptr hp, if_neg (hs x (by simp [hx])).symm]
  | cons b xs ih =>
    obtain ⟨h₁, h₂, h₃⟩ := h
    have hbn : b ∉ xs ++ a :: ys := (List.nodup_cons.1 hd).1
    have hb : ∀ x ∈ xs ++ a :: ys, (Slot.next b : Slot ι α) ≠ .next x := by
      rintro x hx ⟨⟩
      exact hbn hx
    refine ⟨?_, ?_, ih h₃ (List.nodup_cons.1 hd).2 hb hp⟩
    · have hne : s ≠ lastSlot s (b :: xs) := by
        rcases lastSlot_cases s (b :: xs) with ⟨-, h⟩ | ⟨x, hx, h⟩
        · cases h
        · rw [h]
          exact hs x (List.mem_append_left _ hx)
      rw [Links.unlink_ptr hp, if_neg hne, h₁]
    · have hne : ys.head? ≠ some b := fun e =>
        hbn (by simp [List.mem_of_mem_head? (Option.mem_def.2 e)])
      rw [Links.unlink_pprev hp, hn, if_neg hne, h₂]

end IsChain

/-! ## Families of disjoint lists -/

/-- The store `L` holds the lists `B`, pairwise disjoint and free of repetitions. -/
structure Spells (L : Links ι α) (B : ι → List α) : Prop where
  chain (b : ι) : IsChain L (.first b) (B b)
  nodup (b : ι) : (B b).Nodup
  disjoint {b b' : ι} {a : α} : a ∈ B b → a ∈ B b' → b = b'

namespace Spells

variable {L : Links ι α} {B : ι → List α} {a : α} {b : ι}

theorem first_eq (h : Spells L B) (b : ι) : L.ptr (.first b) = (B b).head? :=
  (h.chain b).ptr_eq_head?

theorem next_eq (h : Spells L B) {xs ys : List α} (e : B b = xs ++ a :: ys) :
    L.ptr (.next a) = ys.head? :=
  (e ▸ h.chain b).next_eq

theorem empty : Spells (⟨fun _ => none, fun _ => none⟩ : Links ι α) fun _ => [] where
  chain _ := rfl
  nodup _ := List.nodup_nil
  disjoint h := by simp at h

/-- The lists do not depend on the links of a node that is in none of them. -/
theorem congr {L' : Links ι α} (h : Spells L B) (ha : ∀ b, a ∉ B b)
    (hf : ∀ b, L'.ptr (.first b) = L.ptr (.first b))
    (hp : ∀ x, x ≠ a → L'.pprev x = L.pprev x)
    (hn : ∀ x, x ≠ a → L'.ptr (.next x) = L.ptr (.next x)) : Spells L' B where
  chain b := (h.chain b).congr (hf b) (fun x hx => hp x fun e => ha b (e ▸ hx))
    (fun x hx => hn x fun e => ha b (e ▸ hx))
  nodup := h.nodup
  disjoint := h.disjoint

variable [DecidableEq ι] [DecidableEq α]

theorem push (h : Spells L B) (ha : ∀ b, a ∉ B b) (b : ι) :
    Spells (L.push a b) (Function.update B b (a :: B b)) where
  chain b' := by
    by_cases hb : b' = b
    · subst hb
      rw [Function.update_self]
      refine ⟨by simp [Links.push_ptr], by simp [Links.push_pprev], ?_⟩
      have hc := h.chain b'
      have hd := h.nodup b'
      have hab := ha b'
      -- the old head now points back at `a`, every later node is as before
      cases hB : B b' with
      | nil => simp [IsChain, Links.push_ptr, h.first_eq, hB]
      | cons c cs =>
        rw [hB] at hc hd hab
        have hca : c ≠ a := fun e => hab (by simp [e])
        refine ⟨by simp [Links.push_ptr, h.first_eq, hB],
          by simp [Links.push_pprev, h.first_eq, hB, hca], ?_⟩
        refine hc.2.2.congr ?_ (fun x hx => ?_) (fun x hx => ?_)
        · simp [Links.push_ptr, hca]
        · have hxc : c ≠ x := fun e => (List.nodup_cons.1 hd).1 (e ▸ hx)
          have hxa : x ≠ a := fun e => hab (by simp [← e, hx])
          simp [Links.push_pprev, h.first_eq, hB, hxc, hxa]
        · have hxa : x ≠ a := fun e => hab (by simp [← e, hx])
          simp [Links.push_ptr, hxa]
    · rw [Function.update_of_ne hb]
      refine (h.chain b').congr ?_ (fun x hx => ?_) (fun x hx => ?_)
      · simp [Links.push_ptr, hb]
      · have hxa : x ≠ a := fun e => ha b' (e ▸ hx)
        have hxf : (B b).head? ≠ some x := fun e =>
          hb (h.disjoint hx (List.mem_of_mem_head? (Option.mem_def.2 e)))
        simp [Links.push_pprev, h.first_eq, hxa, hxf]
      · have hxa : x ≠ a := fun e => ha b' (e ▸ hx)
        simp [Links.push_ptr, hxa]
  nodup b' := by
    by_cases hb : b' = b
    · subst hb
      simp [ha b', h.nodup b']
    · rw [Function.update_of_ne hb]
      exact h.nodup b'
  disjoint {b₁ b₂ x} h₁ h₂ := by
    have key : ∀ b', x ∈ Function.update B b (a :: B b) b' → b' = b ∧ x = a ∨ x ∈ B b' := by
      intro b' hx
      by_cases hb : b' = b
      · subst hb
        rcases List.mem_cons.1 (by simpa using hx) with e | e
        · exact .inl ⟨rfl, e⟩
        · exact .inr e
      · exact .inr (by simpa [Function.update_of_ne hb] using hx)
    rcases key b₁ h₁ with ⟨e₁, rfl⟩ | e₁ <;> rcases key b₂ h₂ with ⟨e₂, e₂'⟩ | e₂
    · rw [e₁, e₂]
    · exact absurd e₂ (ha b₂)
    · exact absurd (e₂' ▸ e₁) (ha b₁)
    · exact h.disjoint e₁ e₂

theorem unlink (h : Spells L B) (ha : a ∈ B b) :
    Spells (L.unlink a) (Function.update B b ((B b).erase a)) where
  chain b' := by
    obtain ⟨xs, ys, hB⟩ := List.append_of_mem ha
    have hc := h.chain b
    have hd := h.nodup b
    rw [hB] at hc hd
    have hax : a ∉ xs := by
      intro e
      have := List.disjoint_of_nodup_append hd e
      simp at this
    by_cases hb : b' = b
    · subst hb
      rw [Function.update_self, hB, List.erase_append_right _ hax, List.erase_cons_head]
      exact hc.unlink hd (by simp)
    · rw [Function.update_of_ne hb]
      have hp := hc.pprev_eq
      have hn := hc.next_eq
      have hmem : ∀ x ∈ B b', x ∉ xs ∧ x ∉ ys := by
        intro x hx
        refine ⟨fun e => hb (h.disjoint hx ?_), fun e => hb (h.disjoint hx ?_)⟩ <;> simp [hB, e]
      refine (h.chain b').congr ?_ (fun x hx => ?_) (fun x hx => ?_)
      · have hne : (Slot.first b' : Slot ι α) ≠ lastSlot (.first b) xs := by
          rcases lastSlot_cases (.first b : Slot ι α) xs with ⟨e, -⟩ | ⟨x, -, e⟩ <;> rw [e] <;>
            simp [hb]
        rw [Links.unlink_ptr hp, if_neg hne]
      · have hne : ys.head? ≠ some x := fun e =>
          (hmem x hx).2 (List.mem_of_mem_head? (Option.mem_def.2 e))
        rw [Links.unlink_pprev hp, hn, if_neg hne]
      · have hne : (Slot.next x : Slot ι α) ≠ lastSlot (.first b) xs := by
          rcases lastSlot_cases (.first b : Slot ι α) xs with ⟨e, -⟩ | ⟨y, hy, e⟩ <;> rw [e]
          · simp
          · rintro ⟨⟩
            exact (hmem x hx).1 hy
        rw [Links.unlink_ptr hp, if_neg hne]
  nodup b' := by
    by_cases hb : b' = b
    · subst hb
      simpa using (h.nodup b').erase a
    · simpa [Function.update_of_ne hb] using h.nodup b'
  disjoint {b₁ b₂ x} h₁ h₂ := by
    have key : ∀ b', x ∈ Function.update B b ((B b).erase a) b' → x ∈ B b' := by
      intro b' hx
      by_cases hb : b' = b
      · subst hb
        exact List.mem_of_mem_erase (by simpa using hx)
      · simpa [Function.update_of_ne hb] using hx
    exact h.disjoint (key b₁ h₁) (key b₂ h₂)

end Spells

end BackLinked
