import HpiDriver.DataStructure.LinkListRun
import HpiDriver.Foundations.Ledger

/-!
# Destroying a linked list

`llist_destroy` takes the position behind an element before it deletes the element, deletes all of
them from the first one on, and returns the head node. Over the life of a list the books of its
nodes are in order (`llistDestroy_books`): every node that an insertion asks for goes back to the
allocator, once, unless a `llist_detach` has handed it to its caller, who still holds it at the end.
The `llist_t` itself stays with its owner.
-/

namespace HpiDriver

open Ring Ledger

variable {δ : Type} {m : LList δ} {log : List (Addr × δ)}

/-- `llist_pos_next` -/
def llistPosNext (llist : LList δ) (pos : Addr) : Option Addr :=
  if pos ∈ llist.live then some (llist.links.next pos) else none

/-- The loop of `llist_destroy`: the nodes it returns, and the list it leaves. It stops with `none`
when it has not come to the head within `fuel` steps. -/
def llistDestroyLoop : ℕ → Addr → Addr → LList δ → Option (List Addr × LList δ)
  | 0, pos, _, llist => if pos = llist.head then some ([], llist) else none
  | fuel + 1, pos, next, llist =>
    if pos = llist.head then some ([], llist)
    else do
      let llist ← llistDelete pos llist
      let next' ← llistPosNext llist next
      let r ← llistDestroyLoop fuel next next' llist
      some (pos :: r.1, r.2)

/-- `llist_destroy` -/
def llistDestroy (fuel : ℕ) (llist : LList δ) : Option (List Addr × LList δ) := do
  let next ← llistPosNext llist llist.begin_
  let (freed, llist) ← llistDestroyLoop fuel llist.begin_ next llist
  if llist.head = llist.begin_ then
    some (freed ++ [llist.head], { llist with live := llist.live.erase llist.head })
  else some (freed, llist)

namespace LList

/-- The node behind the first one is the first one of the rest. -/
theorem Linked.next_begin {e : Addr × δ} (h : m.Linked (e :: log)) :
    m.links.next e.1 = (nodes log).headD m.head :=
  h.spells.next_mem (l := [])

/-- A pass of the loop takes the first element out. -/
theorem Linked.delete_first {e : Addr × δ} (h : m.Linked (e :: log)) :
    e.1 ≠ m.head ∧
      ∃ m', llistDelete e.1 m = some m' ∧ m'.head = m.head ∧ m'.Linked log ∧
        llistPosNext m' ((nodes log).headD m.head) =
          some (m'.links.next ((nodes log).headD m.head)) := by
  obtain ⟨hhead, hnd⟩ := List.nodup_cons.1 h.spells.nodup
  have hmem : e.1 ∈ nodes (e :: log) := List.mem_cons_self
  obtain ⟨m', hdel, hhead', -, hm'⟩ := h.unlink hmem
  rw [← List.nil_append (e :: log),
    removeNode_append List.not_mem_nil (List.nodup_cons.1 hnd).1] at hm'
  refine ⟨fun he => hhead (he ▸ List.mem_cons_self), m', hdel, hhead', hm', if_pos ?_⟩
  rw [hm'.mem_live, hhead']
  cases log with
  | nil => exact List.mem_cons_self
  | cons x log => exact List.mem_cons_of_mem _ List.mem_cons_self

/-- The whole loop, from the first element on. -/
theorem Linked.destroyLoop (h : m.Linked log) :
    ∃ m', m'.Linked [] ∧ m'.head = m.head ∧ ∀ fuel, log.length ≤ fuel →
      llistDestroyLoop fuel m.begin_ (m.links.next m.begin_) m = some (nodes log, m') := by
  induction log generalizing m with
  | nil =>
    refine ⟨m, h, rfl, fun fuel _ => ?_⟩
    have hbegin : m.begin_ = m.head := h.begin_
    cases fuel <;> rw [llistDestroyLoop, if_pos hbegin] <;> rfl
  | cons e log ih =>
    obtain ⟨hne, m₁, hdel, hhead, h₁, hnext⟩ := h.delete_first
    obtain ⟨m', hm', hhead', hloop⟩ := ih h₁
    refine ⟨m', hm', hhead'.trans hhead, fun fuel hf => ?_⟩
    obtain ⟨fuel, rfl⟩ : ∃ k, fuel = k + 1 := ⟨fuel - 1, by simp at hf; omega⟩
    have hbegin : m.begin_ = e.1 := h.begin_
    have hbegin₁ : m₁.begin_ = (nodes log).headD m.head := by rw [h₁.begin_, hhead]
    have hrest := hloop fuel (by simpa using hf)
    rw [hbegin₁] at hrest
    rw [hbegin, h.next_begin, llistDestroyLoop, if_neg hne, hdel, Option.bind_eq_bind,
      Option.bind_some, hnext, Option.bind_eq_bind, Option.bind_some, hrest]
    rfl

/-- `llist_destroy` returns the elements in order, and the head behind them. -/
theorem Linked.destroy (h : m.Linked log) :
    ∃ m', m'.live = [] ∧ ∀ fuel, log.length ≤ fuel →
      llistDestroy fuel m = some (nodes log ++ [m.head], m') := by
  obtain ⟨m', hm', hhead, hloop⟩ := h.destroyLoop
  have hbegin : m.begin_ ∈ m.live := by
    rw [h.mem_live, h.begin_]
    cases log with
    | nil => exact List.mem_cons_self
    | cons x log => exact List.mem_cons_of_mem _ List.mem_cons_self
  have hlive : m'.live = [m'.head] := List.perm_singleton.1 hm'.live
  refine ⟨{ m' with live := m'.live.erase m'.head }, ?_, fun fuel hf => ?_⟩
  · simp [hlive]
  · have hdone : m'.head = m'.begin_ := hm'.begin_.symm
    rw [llistDestroy, llistPosNext, if_pos hbegin, Option.bind_eq_bind, Option.bind_some,
      hloop fuel hf, Option.bind_eq_bind, Option.bind_some]
    simp only
    rw [if_pos hdone, hhead]

end LList

/-! ## The books of a list -/

namespace LListEdit

/-- The nodes that an edit asks the allocator for or returns to it. -/
def events : LListEdit δ → List (Event Addr)
  | insert p _ _ => [.alloc p]
  | delete pos => [.free pos]
  | detach _ => []

/-- The nodes that an edit hands to its caller. -/
def detached : LListEdit δ → List Addr
  | detach pos => [pos]
  | _ => []

end LListEdit

/-- What the callers of `llist_detach` hold after a history, when they had the nodes `out`. -/
def detachedNodes (edits : List (LListEdit δ)) (out : List Addr) : List Addr :=
  edits.foldl (fun out e => e.detached ++ out) out

/-- The allocator hands out no node that a caller of `llist_detach` holds. -/
def SparesDetached : List (LListEdit δ) → List Addr → Prop
  | [], _ => True
  | e :: edits, out =>
    (∀ p, .alloc p ∈ e.events → p ∉ out) ∧ SparesDetached edits (e.detached ++ out)

/-- The nodes in use: the head, those of the elements, and those that have been handed out. -/
def nodesInUse (head : Addr) (log : List (Addr × δ)) (out : List Addr) : List Addr :=
  head :: nodes log ++ out

namespace LListEdit

variable {head : Addr} {out : List Addr} {e : LListEdit δ}

/-- The nodes in use without one of the elements. -/
theorem perm_nodesInUse {pos : Addr} (hnd : (nodes log).Nodup) (hpos : pos ∈ nodes log) :
    (nodesInUse head log out).Perm (pos :: nodesInUse head (removeNode pos log) out) := by
  obtain ⟨l, x, l', rfl, rfl⟩ : ∃ l x l', log = l ++ x :: l' ∧ x.1 = pos := by
    obtain ⟨x, hx, rfl⟩ := List.mem_map.1 hpos
    obtain ⟨l, l', rfl⟩ := List.append_of_mem hx
    exact ⟨l, x, l', rfl, rfl⟩
  rw [nodes, List.map_append, List.map_cons] at hnd
  obtain ⟨-, hl', hdisj⟩ := List.nodup_append.1 hnd
  have hl : x.1 ∉ nodes l := fun h => hdisj _ h _ List.mem_cons_self rfl
  rw [removeNode_append hl (List.nodup_cons.1 hl').1, List.perm_iff_count]
  intro a
  simp only [nodesInUse, nodes, List.map_append, List.map_cons, List.count_append,
    List.count_cons]
  omega

/-- **An edit keeps the books**, and the nodes in use stay apart. -/
theorem events_books (hnd : (nodesInUse head log out).Nodup) (hallowed : e.Allowed head log)
    (hspares : ∀ p, .alloc p ∈ e.events → p ∉ out) :
    Books {a | a ∈ nodesInUse head log out} e.events
        {a | a ∈ nodesInUse head (e.apply head log) (e.detached ++ out)} ∧
      (nodesInUse head (e.apply head log) (e.detached ++ out)).Nodup := by
  have hnodes : (nodes log).Nodup := (List.nodup_cons.1 (List.nodup_append.1 hnd).1).2
  cases e with
  | insert p pos data =>
    have hout : p ∉ {a | a ∈ nodesInUse head log out} := by
      change p ∉ nodesInUse head log out
      rw [nodesInUse, List.mem_append, not_or]
      exact ⟨hallowed.1, hspares p (List.mem_singleton_self _)⟩
    have hperm : (nodesInUse head (placeBehind head pos (p, data) log) out).Perm
        (p :: nodesInUse head log out) := by
      have hplace := (perm_placeBehind (e := (p, data)) hallowed.2).map Prod.fst
      rw [List.perm_iff_count] at hplace ⊢
      intro a
      have ha := hplace a
      simp only [nodesInUse, nodes, List.map_cons, List.count_append, List.count_cons] at ha ⊢
      omega
    refine ⟨(Books.alloc_one hout).cast ?_, hperm.nodup_iff.2 (List.nodup_cons.2 ⟨hout, hnd⟩)⟩
    ext a
    exact (hperm.mem_iff.trans List.mem_cons).symm
  | delete pos =>
    have hperm : (nodesInUse head log out).Perm
        (pos :: nodesInUse head (removeNode pos log) out) := perm_nodesInUse hnodes hallowed
    obtain ⟨hpos, hnd'⟩ := List.nodup_cons.1 (hperm.nodup_iff.1 hnd)
    have hin : pos ∈ {a | a ∈ nodesInUse head log out} := hperm.mem_iff.2 List.mem_cons_self
    refine ⟨(Books.free_one hin).cast ?_, hnd'⟩
    ext a
    simp only [Set.mem_sdiff, Set.mem_ofPred_eq, Set.mem_singleton_iff, hperm.mem_iff,
      List.mem_cons]
    constructor
    · rintro ⟨rfl | ha, hne⟩
      · exact absurd rfl hne
      · exact ha
    · exact fun ha => ⟨.inr ha, fun h => hpos (h ▸ ha)⟩
  | detach pos =>
    -- the node changes hands, and stays in use
    have hperm : (nodesInUse head log out).Perm
        (nodesInUse head (removeNode pos log) (pos :: out)) :=
      (perm_nodesInUse hnodes hallowed).trans List.perm_middle.symm
    refine ⟨(Books.nil _).cast ?_, hperm.nodup_iff.1 hnd⟩
    ext a
    exact hperm.mem_iff

end LListEdit

/-- The edits of a history keep the books, one after another. -/
theorem runEdits_books {head : Addr} {edits : List (LListEdit δ)} {out : List Addr}
    (hnd : (nodesInUse head log out).Nodup) (hallowed : AllowedEdits head edits log)
    (hspares : SparesDetached edits out) :
    Books {a | a ∈ nodesInUse head log out} (edits.flatMap LListEdit.events)
        {a | a ∈ nodesInUse head (applyEdits head edits log) (detachedNodes edits out)} ∧
      (nodesInUse head (applyEdits head edits log) (detachedNodes edits out)).Nodup := by
  induction edits generalizing log out with
  | nil => exact ⟨.nil _, hnd⟩
  | cons e edits ih =>
    obtain ⟨he, hallowed⟩ := hallowed
    obtain ⟨hespares, hspares⟩ := hspares
    obtain ⟨hbooks, hnd'⟩ := LListEdit.events_books hnd he hespares
    obtain ⟨hrest, hnd''⟩ := ih hnd' hallowed hspares
    exact ⟨hbooks.append hrest, hnd''⟩

/-- **The life of a linked list.** After every history of edits of a new list, with nodes that
nobody holds, `llist_destroy` ends within a pass for each element that is left. It returns their
nodes in order and the head last. With that every node that the list ever asked for has gone back to
the allocator, once, and what is still held are exactly the nodes that `llist_detach` has handed to
its callers. -/
theorem llistDestroy_books (head : Addr) (edits : List (LListEdit δ))
    (hallowed : AllowedEdits head edits []) (hspares : SparesDetached edits []) :
    ∃ m m' freed, runEdits edits (llistInit head) = some m ∧
      (∀ fuel, (applyEdits head edits []).length ≤ fuel →
        llistDestroy fuel m = some (freed, m')) ∧
      freed = nodes (applyEdits head edits []) ++ [head] ∧ m'.live = [] ∧
      Books ∅ (.alloc head :: (edits.flatMap LListEdit.events ++ freed.map .free))
        {a | a ∈ detachedNodes edits []} := by
  have hhead : (nodesInUse head ([] : List (Addr × δ)) []).Nodup := List.nodup_singleton head
  obtain ⟨hedits, hnd⟩ := runEdits_books hhead hallowed hspares
  obtain ⟨m, hrun, rfl, hm⟩ := runEdits_linked (LList.holds_init (δ := δ) head).toLinked hallowed
  obtain ⟨m', hlive, hdestroy⟩ := hm.destroy
  refine ⟨m, m', _, hrun, hdestroy, rfl, hlive, ?_⟩
  have hperm : (nodes (applyEdits m.head edits []) ++ [m.head]).Perm
      (m.head :: nodes (applyEdits m.head edits [])) := List.perm_append_singleton ..
  obtain ⟨hlist, -, hdisj⟩ := List.nodup_append.1 hnd
  have hfree := Books.frees (H := {a | a ∈ nodesInUse m.head (applyEdits m.head edits [])
      (detachedNodes edits [])}) (hperm.nodup_iff.2 hlist) fun a ha =>
    List.mem_append_left _ (hperm.mem_iff.1 ha)
  have hstart : {a | a ∈ nodesInUse m.head ([] : List (Addr × δ)) []} = insert m.head ∅ := by
    ext a
    simp [nodesInUse]
  rw [hstart] at hedits
  apply Books.alloc (Set.notMem_empty _) (hedits.append (hfree.cast _))
  ext a
  simp only [nodesInUse, Set.mem_sdiff, Set.mem_ofPred_eq, hperm.mem_iff, List.mem_append]
  constructor
  · rintro ⟨ha | ha, hne⟩
    · exact absurd ha hne
    · exact ha
  · exact fun ha => ⟨.inr ha, fun h => hdisj a h a ha rfl⟩

/-- The element that is left in `threeEdits` goes back, and the head behind it. The other one has
been detached, and is still held. -/
theorem llistDestroy_books_threeEdits :
    ∃ m m' freed, runEdits threeEdits (llistInit 64) = some m ∧
      (∀ fuel, 1 ≤ fuel → llistDestroy fuel m = some (freed, m')) ∧
      freed = [192, 64] ∧ m'.live = [] ∧
      Books ∅ (.alloc 64 :: ([.alloc 128, .alloc 192] ++ freed.map .free))
        {a | a ∈ detachedNodes threeEdits []} :=
  llistDestroy_books 64 threeEdits (by simp [threeEdits, AllowedEdits, LListEdit.Allowed,
    LListEdit.apply, placeBehind, insertAfter]) (by simp [threeEdits, SparesDetached,
    LListEdit.events, LListEdit.detached])

example : detachedNodes threeEdits [] = [128] := rfl

end HpiDriver
