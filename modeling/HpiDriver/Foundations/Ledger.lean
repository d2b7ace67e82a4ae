import Mathlib.Data.List.Nodup
import Mathlib.Data.Set.Image
import Mathlib.Order.BooleanAlgebra.Set

/-!
# Ledgers of blocks

What a program asks of an allocator, as a list of events over names for its blocks. The books are in
order (`Books`) when a name stands for one block at a time and only what is held is returned: no
block is lost on the way, and none is returned twice. What is held at the end is what the program
leaks, or what somebody else has taken over.
-/

namespace Ledger

variable {β γ : Type*}

/-- A block is handed out or returned. -/
inductive Event (β : Type*)
  | alloc (b : β)
  | free (b : β)
  deriving DecidableEq

/-- The same about a block with another name. -/
def Event.map (f : β → γ) : Event β → Event γ
  | alloc b => alloc (f b)
  | free b => free (f b)

theorem Event.map_frees (f : β → γ) (bs : List β) :
    (bs.map f).map Event.free = (bs.map .free).map (Event.map f) := by
  rw [List.map_map, List.map_map]
  rfl

/-- From the blocks `H` on, the events can happen one after another, and the blocks `H'` are held
afterwards. -/
inductive Books : Set β → List (Event β) → Set β → Prop
  | nil (H : Set β) : Books H [] H
  | alloc {b : β} {es : List (Event β)} {H H' : Set β} (hb : b ∉ H)
    (h : Books (insert b H) es H') : Books H (.alloc b :: es) H'
  | free {b : β} {es : List (Event β)} {H H' : Set β} (hb : b ∈ H)
    (h : Books (H \ {b}) es H') : Books H (.free b :: es) H'

namespace Books

variable {b : β} {bs : List β} {es es' : List (Event β)} {H H' H'' : Set β}

theorem cast (h : Books H es H') (e : H' = H'') : Books H es H'' := e ▸ h

theorem append (h : Books H es H') (h' : Books H' es' H'') : Books H (es ++ es') H'' := by
  induction h with
  | nil H => exact h'
  | alloc hb _ ih => exact .alloc hb (ih h')
  | free hb _ ih => exact .free hb (ih h')

theorem alloc_one (hb : b ∉ H) : Books H [.alloc b] (insert b H) := .alloc hb (.nil _)

theorem free_one (hb : b ∈ H) : Books H [.free b] (H \ {b}) := .free hb (.nil _)

/-- A block is returned and another one takes its name. -/
theorem renew (hb : b ∈ H) : Books H [.free b, .alloc b] H :=
  .free hb ((alloc_one fun h => h.2 rfl).cast
    (by rw [Set.insert_sdiff_singleton, Set.insert_eq_of_mem hb]))

theorem allocs (hnd : bs.Nodup) (hbs : ∀ b ∈ bs, b ∉ H) :
    Books H (bs.map .alloc) (H ∪ {b | b ∈ bs}) := by
  induction bs generalizing H with
  | nil => exact (nil H).cast (by simp)
  | cons b bs ih =>
    obtain ⟨hb, hnd⟩ := List.nodup_cons.1 hnd
    obtain ⟨hbH, hbs⟩ := List.forall_mem_cons.1 hbs
    have hrest : ∀ c ∈ bs, c ∉ insert b H := fun c hc h =>
      h.elim (fun e => hb (e ▸ hc)) (hbs c hc)
    refine .alloc hbH ((ih hnd hrest).cast ?_)
    ext c
    simp [or_assoc, or_left_comm]

theorem frees (hnd : bs.Nodup) (hbs : ∀ b ∈ bs, b ∈ H) :
    Books H (bs.map .free) (H \ {b | b ∈ bs}) := by
  induction bs generalizing H with
  | nil => exact (nil H).cast (by simp)
  | cons b bs ih =>
    obtain ⟨hb, hnd⟩ := List.nodup_cons.1 hnd
    obtain ⟨hbH, hbs⟩ := List.forall_mem_cons.1 hbs
    have hrest : ∀ c ∈ bs, c ∈ H \ {b} := fun c hc => ⟨hbs c hc, fun e => hb (e ▸ hc)⟩
    refine .free hbH ((ih hnd hrest).cast ?_)
    ext c
    simp [not_or, and_assoc]

/-- **Books within larger ones**, which name the blocks by `f` and have no others of these names. -/
theorem map {f : β → γ} (hf : Function.Injective f) {K : Set γ} (hK : ∀ b, f b ∉ K)
    (h : Books H es H') : Books (K ∪ f '' H) (es.map (Event.map f)) (K ∪ f '' H') := by
  induction h with
  | nil H => exact nil _
  | @alloc b es H H' hb _ ih =>
    have hfb : f b ∉ K ∪ f '' H := by
      rintro (h | ⟨c, hc, hcb⟩)
      · exact hK b h
      · exact hb (hf hcb ▸ hc)
    refine .alloc hfb ?_
    rwa [← Set.union_insert, ← Set.image_insert_eq]
  | @free b es H H' hb _ ih =>
    refine .free (.inr ⟨b, hb, rfl⟩) ?_
    have hsdiff : (K ∪ f '' H) \ {f b} = K ∪ f '' (H \ {b}) := by
      ext c
      simp only [Set.mem_sdiff, Set.mem_union, Set.mem_image, Set.mem_singleton_iff]
      constructor
      · rintro ⟨h | ⟨d, hd, rfl⟩, hne⟩
        · exact .inl h
        · exact .inr ⟨d, ⟨hd, fun h => hne (h ▸ rfl)⟩, rfl⟩
      · rintro (h | ⟨d, ⟨hd, hne⟩, rfl⟩)
        · exact ⟨.inl h, fun hc => hK b (hc ▸ h)⟩
        · exact ⟨.inr ⟨d, hd, rfl⟩, fun h => hne (hf h)⟩
    rwa [hsdiff]

end Books

/-- Blocks are only returned to be asked for again at once. -/
inductive Renews : List (Event β) → Prop
  | nil : Renews []
  | alloc (b : β) {es : List (Event β)} (h : Renews es) : Renews (.alloc b :: es)
  | renew (b : β) {es : List (Event β)} (h : Renews es) : Renews (.free b :: .alloc b :: es)

namespace Renews

variable {es es' : List (Event β)} {H H' : Set β}

theorem append (h : Renews es) (h' : Renews es') : Renews (es ++ es') := by
  induction h with
  | nil => exact h'
  | alloc b _ ih => exact .alloc b ih
  | renew b _ ih => exact .renew b ih

theorem allocs (bs : List β) : Renews (bs.map .alloc) := by
  induction bs with
  | nil => exact .nil
  | cons b bs ih => exact .alloc b ih

theorem flatMap {α : Type*} {f : α → List (Event β)} (hf : ∀ a, Renews (f a)) (l : List α) :
    Renews (l.flatMap f) := by
  induction l with
  | nil => exact .nil
  | cons a l ih => exact (hf a).append ih

theorem map (f : β → γ) (h : Renews es) : Renews (es.map (Event.map f)) := by
  induction h with
  | nil => exact .nil
  | alloc b _ ih => exact .alloc (f b) ih
  | renew b _ ih => exact .renew (f b) ih

/-- **Nothing that was asked for is given back for good.** -/
theorem held_eq (hr : Renews es) (h : Books H es H') : H' = H ∪ {b | .alloc b ∈ es} := by
  induction hr generalizing H with
  | nil =>
    cases h
    simp
  | alloc b _ ih =>
    cases h with
    | alloc _ h =>
      rw [ih h]
      ext c
      simp [or_assoc, or_left_comm]
  | renew b _ ih =>
    cases h with
    | free hb h =>
      cases h with
      | alloc _ h =>
        rw [ih h, Set.insert_sdiff_singleton, Set.insert_eq_of_mem hb]
        ext c
        by_cases hc : c = b
        · subst hc
          simp [hb]
        · simp [hc]

end Renews

end Ledger
