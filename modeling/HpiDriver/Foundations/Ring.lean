import Mathlib.Data.List.Nodup
import Mathlib.Logic.Function.Basic

/-!
# Rings

Doubly linked lists that run in a ring through a head node, as in `linux/list.h`: every node has a
next and a previous one, the head of an empty list is its own neighbour, and `Spells L h l` says
that the ring through `h` is `l` in both directions. A node is linked in behind the head
(`Spells.insert_head`), behind a node of the list (`Spells.insert_mem`) or at the end
(`Spells.insert_tail`), and any node of the list can be taken out (`Spells.remove`).
-/

namespace Ring

variable {α : Type*}

/-- The links in memory. -/
structure Links (α : Type*) where
  next : α → α
  prev : α → α

namespace Links

variable [DecidableEq α]

/-- Let `b` be behind `a`. -/
def setNext (a b : α) (L : Links α) : Links α := { L with next := Function.update L.next a b }

/-- Let `b` be in front of `a`. -/
def setPrev (a b : α) (L : Links α) : Links α := { L with prev := Function.update L.prev a b }

/-- Link `n` in between `p` and `q`. -/
def between (n p q : α) (L : Links α) : Links α :=
  L.setPrev q n |>.setNext n q |>.setPrev n p |>.setNext p n

theorem between_next (n p q : α) (L : Links α) (x : α) :
    (L.between n p q).next x = if x = p then n else if x = n then q else L.next x := by
  simp [between, setNext, setPrev, Function.update_apply]

theorem between_prev (n p q : α) (L : Links α) (x : α) :
    (L.between n p q).prev x = if x = n then p else if x = q then n else L.prev x := by
  simp [between, setNext, setPrev, Function.update_apply]

/-- Take out what is between `p` and `q`. -/
def join (p q : α) (L : Links α) : Links α := L.setPrev q p |>.setNext p q

theorem join_next (p q : α) (L : Links α) (x : α) :
    (L.join p q).next x = if x = p then q else L.next x := by
  simp [join, setNext, setPrev, Function.update_apply]

theorem join_prev (p q : α) (L : Links α) (x : α) :
    (L.join p q).prev x = if x = q then p else L.prev x := by
  simp [join, setNext, setPrev, Function.update_apply]

end Links

/-! ## Segments -/

/-- From `a` the links lead through `l` to `b`, and back. -/
def Segment (L : Links α) : α → List α → α → Prop
  | a, [], b => L.next a = b ∧ L.prev b = a
  | a, x :: l, b => L.next a = x ∧ L.prev x = a ∧ Segment L x l b

namespace Segment

variable {L L' : Links α} {a b n x : α} {l l' : List α}

theorem append : Segment L a (l ++ x :: l') b ↔ Segment L a l x ∧ Segment L x l' b := by
  induction l generalizing a with
  | nil => simp only [List.nil_append, Segment, and_assoc]
  | cons y l ih => simp only [List.cons_append, Segment, ih, and_assoc]

/-- A segment depends on the links of its nodes only. -/
theorem congr (h : Segment L a l b) (hn : ∀ y ∈ a :: l, L'.next y = L.next y)
    (hp : ∀ y ∈ l ++ [b], L'.prev y = L.prev y) : Segment L' a l b := by
  induction l generalizing a with
  | nil => exact ⟨(hn a (by simp)).trans h.1, (hp b (by simp)).trans h.2⟩
  | cons y l ih =>
    obtain ⟨h₁, h₂, h₃⟩ := h
    refine ⟨(hn a List.mem_cons_self).trans h₁, (hp y List.mem_cons_self).trans h₂, ?_⟩
    exact ih h₃ (fun z hz => hn z (List.mem_cons_of_mem _ hz))
      fun z hz => hp z (List.mem_cons_of_mem _ hz)

theorem next_eq (h : Segment L a l b) : L.next a = l.headD b := by
  cases l with
  | nil => exact h.1
  | cons y l => exact h.1

theorem prev_eq (h : Segment L a l b) : L.prev b = l.getLastD a := by
  induction l generalizing a with
  | nil => exact h.2
  | cons y l ih =>
    rw [List.getLastD_cons]
    exact ih h.2.2

variable [DecidableEq α]

/-- A segment from another node. -/
theorem join (h : Segment L x l b) (ha : a ∉ l) (hb : b ∉ l) (hl : l.Nodup) :
    Segment (L.join a (L.next x)) a l b := by
  rw [h.next_eq]
  cases l with
  | nil => exact ⟨by simp [Links.join_next], by simp [Links.join_prev]⟩
  | cons y l =>
    simp only [List.mem_cons, not_or] at ha hb
    obtain ⟨hy, -⟩ := List.nodup_cons.1 hl
    refine ⟨by simp [Links.join_next], by simp [Links.join_prev], ?_⟩
    refine h.2.2.congr (fun z hz => ?_) fun z hz => ?_
    · rw [Links.join_next, if_neg]
      rintro rfl
      rcases List.mem_cons.1 hz with rfl | hz
      · exact ha.1 rfl
      · exact ha.2 hz
    · rw [Links.join_prev, List.headD_cons, if_neg]
      rintro rfl
      rcases List.mem_append.1 hz with hz | hz
      · exact hy hz
      · exact hb.1 (List.mem_singleton.1 hz).symm

/-- A node linked in at the front of a segment. -/
theorem between (h : Segment L a l b) (hn : n ∉ a :: l) (hnb : n ≠ b) (ha : a ∉ l)
    (hb : b ∉ l) (hl : l.Nodup) :
    Segment (L.between n a (L.next a)) a (n :: l) b := by
  have hna : n ≠ a := fun e => hn (by simp [e])
  have hnl : n ∉ l := fun e => hn (List.mem_cons_of_mem _ e)
  refine ⟨by simp [Links.between_next], by simp [Links.between_prev], ?_⟩
  cases l with
  | nil =>
    have hab := h.1
    simp only [Segment]
    rw [Links.between_next, Links.between_prev, if_neg hna, if_pos rfl, if_neg hnb.symm, hab,
      if_pos rfl]
    exact ⟨rfl, rfl⟩
  | cons y l =>
    obtain ⟨h₁, -, h₃⟩ := h
    simp only [List.mem_cons, not_or] at hnl ha hb
    obtain ⟨hy, -⟩ := List.nodup_cons.1 hl
    refine ⟨?_, ?_, h₃.congr (fun z hz => ?_) fun z hz => ?_⟩
    · rw [Links.between_next, if_neg hna, if_pos rfl, h₁]
    · rw [Links.between_prev, if_neg (Ne.symm hnl.1), h₁, if_pos rfl]
    · rw [Links.between_next, if_neg, if_neg]
      · rintro rfl
        rcases List.mem_cons.1 hz with rfl | hz
        · exact hnl.1 rfl
        · exact hnl.2 hz
      · rintro rfl
        rcases List.mem_cons.1 hz with rfl | hz
        · exact ha.1 rfl
        · exact ha.2 hz
    · rw [Links.between_prev, h₁, if_neg, if_neg]
      · rintro rfl
        rcases List.mem_append.1 hz with hz | hz
        · exact hy hz
        · exact hb.1 (List.mem_singleton.1 hz).symm
      · rintro rfl
        rcases List.mem_append.1 hz with hz | hz
        · exact hnl.2 hz
        · exact hnb (List.mem_singleton.1 hz)

end Segment

/-! ## Rings -/

/-- The ring through `h` is `l`. -/
structure Spells (L : Links α) (h : α) (l : List α) : Prop where
  nodup : (h :: l).Nodup
  segment : Segment L h l h

namespace Spells

variable {L : Links α} {h n p : α} {l l' : List α}

/-- A node that is its own neighbour is an empty ring. -/
theorem empty (hn : L.next h = h) (hp : L.prev h = h) : Spells L h [] :=
  ⟨List.nodup_singleton h, hn, hp⟩

theorem next_head (hs : Spells L h l) : L.next h = l.headD h := hs.segment.next_eq

theorem prev_head (hs : Spells L h l) : L.prev h = l.getLastD h := hs.segment.prev_eq

theorem prev_head_mem (hs : Spells L h l) : L.prev h ∈ h :: l := by
  rw [hs.prev_head]
  exact List.getLastD_mem_cons

theorem next_mem (hs : Spells L h (l ++ p :: l')) : L.next p = l'.headD h :=
  (Segment.append.1 hs.segment).2.next_eq

/-- A ring depends on the links of its nodes only. -/
theorem congr {L' : Links α} (hs : Spells L h l) (hn : ∀ y ∈ h :: l, L'.next y = L.next y)
    (hp : ∀ y ∈ h :: l, L'.prev y = L.prev y) : Spells L' h l := by
  refine ⟨hs.nodup, hs.segment.congr hn fun y hy => hp y ?_⟩
  rcases List.mem_append.1 hy with hy | hy
  · exact List.mem_cons_of_mem _ hy
  · exact List.mem_cons.2 (.inl (List.mem_singleton.1 hy))

/-- The neighbours of a node of a ring are nodes of the ring. -/
theorem next_mem_cons (hs : Spells L h l) (hp : p ∈ h :: l) : L.next p ∈ h :: l := by
  rcases List.mem_cons.1 hp with rfl | hp
  · rw [hs.next_head]
    cases l <;> simp
  · obtain ⟨l₁, l₂, rfl⟩ := List.append_of_mem hp
    rw [hs.next_mem]
    cases l₂ <;> simp

theorem prev_mem (hs : Spells L h (l ++ p :: l')) : L.prev p = l.getLastD h :=
  (Segment.append.1 hs.segment).1.prev_eq

theorem prev_mem_cons (hs : Spells L h l) (hp : p ∈ l) : L.prev p ∈ h :: l := by
  obtain ⟨l₁, l₂, rfl⟩ := List.append_of_mem hp
  rw [hs.prev_mem, List.getLastD_eq_getLast?]
  cases hl : l₁.getLast? with
  | none => exact List.mem_cons_self
  | some q => exact List.mem_cons_of_mem _ (List.mem_append_left _ (List.mem_of_getLast? hl))

variable [DecidableEq α]

/-- A node is linked in behind the head. -/
theorem insert_head (hs : Spells L h l) (hn : n ∉ h :: l) :
    Spells (L.between n h (L.next h)) h (n :: l) := by
  obtain ⟨hh, hl⟩ := List.nodup_cons.1 hs.nodup
  have hnh : n ≠ h := fun e => hn (by simp [e])
  refine ⟨?_, hs.segment.between hn hnh hh hh hl⟩
  exact List.nodup_cons.2 ⟨by simp [Ne.symm hnh, hh],
    List.nodup_cons.2 ⟨fun e => hn (List.mem_cons_of_mem _ e), hl⟩⟩

/-- A node is linked in behind a node of the list. -/
theorem insert_mem (hs : Spells L h (l ++ p :: l')) (hn : n ∉ h :: (l ++ p :: l')) :
    Spells (L.between n p (L.next p)) h (l ++ p :: n :: l') := by
  obtain ⟨hh, hl⟩ := List.nodup_cons.1 hs.nodup
  obtain ⟨hl₁, hl₂, hdisj⟩ := List.nodup_append.1 hl
  obtain ⟨hp, hl'⟩ := List.nodup_cons.1 hl₂
  simp only [List.mem_cons, List.mem_append, not_or] at hn hh
  obtain ⟨hnh, hnl, hnp, hnl'⟩ := hn
  obtain ⟨hhl, hhp, hhl'⟩ := hh
  obtain ⟨h₁, h₂⟩ := Segment.append.1 hs.segment
  have hnext : L.next p = h ∨ L.next p ∈ l' := by
    rw [h₂.next_eq]
    cases l' with
    | nil => exact .inl rfl
    | cons q l' => exact .inr List.mem_cons_self
  refine ⟨List.nodup_cons.2 ⟨by simp [hhl, hhp, hhl', Ne.symm hnh], ?_⟩,
    Segment.append.2 ⟨h₁.congr (fun z hz => ?_) fun z hz => ?_, ?_⟩⟩
  · refine List.nodup_append.2 ⟨hl₁, List.nodup_cons.2 ⟨by simp [hp, Ne.symm hnp],
      List.nodup_cons.2 ⟨hnl', hl'⟩⟩, fun a ha b hb => ?_⟩
    simp only [List.mem_cons] at hb
    rcases hb with rfl | rfl | hb
    · exact hdisj a ha _ List.mem_cons_self
    · rintro rfl
      exact hnl ha
    · exact hdisj a ha b (List.mem_cons_of_mem _ hb)
  · rw [Links.between_next, if_neg, if_neg]
    · rintro rfl
      rcases List.mem_cons.1 hz with rfl | hz
      · exact hnh rfl
      · exact hnl hz
    · rintro rfl
      rcases List.mem_cons.1 hz with rfl | hz
      · exact hhp rfl
      · exact hdisj _ hz _ List.mem_cons_self rfl
  · rw [Links.between_prev, if_neg, if_neg]
    · rintro rfl
      rcases List.mem_append.1 hz with hz | hz
      · rcases hnext with e | e
        · exact hhl (e ▸ hz)
        · exact hdisj _ hz _ (List.mem_cons_of_mem _ e) rfl
      · rw [List.mem_singleton] at hz
        rcases hnext with e | e
        · exact hhp (e.symm.trans hz)
        · exact hp (hz ▸ e)
    · rintro rfl
      rcases List.mem_append.1 hz with hz | hz
      · exact hnl hz
      · exact hnp (List.mem_singleton.1 hz)
  · exact h₂.between (by simp [hnp, hnl']) hnh hp hhl' hl'

/-- A node is linked in at the end. -/
theorem insert_tail (hs : Spells L h l) (hn : n ∉ h :: l) :
    Spells (L.between n (L.prev h) h) h (l ++ [n]) := by
  rw [hs.prev_head]
  rcases List.eq_nil_or_concat l with rfl | ⟨l, p, rfl⟩
  · have hnext : L.next h = h := hs.next_head
    have hins := hs.insert_head hn
    rwa [hnext] at hins
  · rw [List.concat_eq_append] at *
    have hnext : L.next p = h := hs.next_mem
    have hins := hs.insert_mem hn
    rw [hnext] at hins
    rw [List.getLastD_concat, List.append_assoc]
    exact hins

/-- A node of the list is taken out. -/
theorem remove (hs : Spells L h (l ++ p :: l')) :
    Spells (L.join (L.prev p) (L.next p)) h (l ++ l') := by
  have hsub : (l ++ l').Sublist (l ++ p :: l') :=
    (List.Sublist.refl l).append (List.sublist_cons_self p l')
  refine ⟨hs.nodup.sublist (hsub.cons_cons h), ?_⟩
  obtain ⟨h₁, h₂⟩ := Segment.append.1 hs.segment
  obtain ⟨hh, hl⟩ := List.nodup_cons.1 hs.nodup
  obtain ⟨hl₁, hl₂, hdisj⟩ := List.nodup_append.1 hl
  obtain ⟨hp, hl'⟩ := List.nodup_cons.1 hl₂
  simp only [List.mem_append, List.mem_cons, not_or] at hh
  obtain ⟨hhl, hhp, hhl'⟩ := hh
  rw [hs.prev_mem]
  rcases List.eq_nil_or_concat l with rfl | ⟨l, q, rfl⟩
  · exact h₂.join hhl' hhl' hl'
  · -- in front of the last node before `p` nothing changes
    rw [List.concat_eq_append] at *
    have hq : q ∉ l' := fun e => hdisj q (by simp) q (List.mem_cons_of_mem _ e) rfl
    have hnext : L.next p ∉ l ++ [q] := by
      rw [h₂.next_eq]
      cases l' with
      | nil => exact hhl
      | cons z l' => exact fun e => hdisj z e z (by simp) rfl
    rw [List.getLastD_concat, List.append_assoc, List.singleton_append]
    refine Segment.append.2 ⟨?_, h₂.join hq hhl' hl'⟩
    refine (Segment.append.1 h₁).1.congr (fun z hz => ?_) fun z hz => ?_
    · rw [Links.join_next, if_neg]
      rintro rfl
      rcases List.mem_cons.1 hz with rfl | hz
      · exact hhl (by simp)
      · exact (List.nodup_append.1 hl₁).2.2 z hz z (by simp) rfl
    · rw [Links.join_prev, if_neg]
      rintro rfl
      exact hnext hz

end Spells

end Ring
