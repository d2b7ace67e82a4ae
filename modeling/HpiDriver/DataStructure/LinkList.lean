import HpiDriver.Memory
import HpiDriver.Foundations.Ring

/-!
# The linked list

`libdata_structure/link_list/link_list.c`: a ring of nodes through a head node, each with a copy
of the data of its element. The list caches the positions of its first element in `begin` and of
its last one in `end`; both are the head node when the list is empty.

The pointer `llist` of a position always leads back to its list and is left out: a position is the
address of a node. The locks of the list are compiled to nothing. Only live nodes can be followed:
a removed one has been freed or leads to `LIST_POISON1`, and `none` stands for the state behind an
access to such a node.

`Linked` says that the ring of a list holds given elements, and `Holds` that the cursor `end` is
the last of them as well. Insertions and removals do to `Linked` what they should (`Linked.insert`,
`Linked.unlink`), whatever `end` is; `Holds` is lost when the only element is removed.
-/

namespace HpiDriver

open Ring

variable {δ : Type}

/-! ## Kernel lists -/

/-- `INIT_LIST_HEAD` -/
def initListHead (p : Addr) (L : Links Addr) : Links Addr := (L.setNext p p).setPrev p p

/-- `list_add` -/
def listAdd (new head : Addr) (L : Links Addr) : Links Addr := L.between new head (L.next head)

/-- `list_del` -/
def listDel (entry : Addr) (L : Links Addr) : Links Addr :=
  ((L.join (L.prev entry) (L.next entry)).setNext entry LIST_POISON1).setPrev entry LIST_POISON2

/-! ## The list -/

/-- `struct llist_s`, with the memory it owns: the links of its nodes, the data in them, and the
nodes that are in use, the head among them. -/
structure LList (δ : Type) where
  listCount : UInt32
  begin_ : Addr
  end_ : Addr
  head : Addr
  links : Links Addr
  data : Addr → Option δ
  live : List Addr

/-- `llist_init`; `p` is the node that the allocator hands out for the head. -/
def llistInit (p : Addr) : LList δ where
  listCount := 0
  begin_ := p
  end_ := p
  head := p
  links := initListHead p ⟨fun _ => 0, fun _ => 0⟩
  data := fun _ => none
  live := [p]

/-- `llist_insert`; `p` is the allocator's answer, which is not checked. -/
def llistInsert (p : Option Addr) (pos : Addr) (data : δ) (llist : LList δ) : Option (LList δ) := do
  let p ← p
  if pos ∈ llist.live ∧ llist.links.next pos ∈ llist.live then
    let llist := { llist with
      data := Function.update llist.data p (some data)
      live := p :: llist.live
      links := listAdd p pos llist.links }
    let llist := if pos = llist.head then { llist with begin_ := p } else llist
    let llist := if pos = llist.end_ then { llist with end_ := p } else llist
    some { llist with listCount := llist.listCount + 1 }
  else none

/-- What `llist_delete` and `llist_detach` have in common: the node at `pos` leaves the list. -/
def llistUnlink (pos : Addr) (llist : LList δ) : Option (LList δ) :=
  let next := llist.links.next pos
  let prev := llist.links.prev pos
  if pos ∈ llist.live ∧ next ∈ llist.live ∧ prev ∈ llist.live then
    let llist :=
      if pos = llist.begin_ then { llist with begin_ := next }
      else if pos = llist.end_ then { llist with end_ := prev }
      else llist
    some { llist with
      links := listDel pos llist.links
      listCount := llist.listCount - 1
      live := llist.live.erase pos }
  else none

/-- `llist_delete`, which frees the node. -/
def llistDelete (pos : Addr) (llist : LList δ) : Option (LList δ) := llistUnlink pos llist

/-- `llist_detach`, which hands the node to its caller. -/
def llistDetach (pos : Addr) (llist : LList δ) : Option (Addr × LList δ) :=
  (llistUnlink pos llist).map (pos, ·)

/-- `llist_push_front` -/
def llistPushFront (p : Option Addr) (data : δ) (llist : LList δ) : Option (LList δ) :=
  llistInsert p llist.head data llist

/-- `llist_push_back` -/
def llistPushBack (p : Option Addr) (data : δ) (llist : LList δ) : Option (LList δ) :=
  llistInsert p llist.end_ data llist

/-- `llist_pop_back` -/
def llistPopBack (llist : LList δ) : Option (LList δ) := llistDelete llist.end_ llist

/-- `llist_pop_front` -/
def llistPopFront (llist : LList δ) : Option (LList δ) := llistDelete llist.begin_ llist

/-- `llist_detach_back` -/
def llistDetachBack (llist : LList δ) : Option (Addr × LList δ) := llistDetach llist.end_ llist

/-- `llist_detach_front` -/
def llistDetachFront (llist : LList δ) : Option (Addr × LList δ) := llistDetach llist.begin_ llist

/-- `llist_pos_get_pointer` -/
def llistPosGetPointer (llist : LList δ) (pos : Addr) : Option δ := llist.data pos

/-- The loop of `llist_for_each` from `pos`: the positions it calls its function on. It stops with
`none` when it has not come back to the head within `fuel` steps. -/
def llistForEachLoop (llist : LList δ) : ℕ → Addr → Option (List Addr)
  | 0, pos => if pos = llist.head then some [] else none
  | fuel + 1, pos =>
    if pos = llist.head then some []
    else (llistForEachLoop llist fuel (llist.links.next pos)).map (pos :: ·)

/-- `llist_for_each` -/
def llistForEach (llist : LList δ) : Option (List Addr) :=
  llistForEachLoop llist llist.live.length llist.begin_

/-- The data that `llist_for_each` hands to its function, in order. -/
def llistContents (llist : LList δ) : Option (List δ) := do
  let ps ← llistForEach llist
  ps.mapM (llistPosGetPointer llist)

/-! ## Sequences of elements -/

/-- The nodes of a sequence of elements. -/
abbrev nodes (log : List (Addr × δ)) : List Addr := log.map Prod.fst

/-- The sequence with `e` behind the node `pos`. -/
def insertAfter (pos : Addr) (e : Addr × δ) : List (Addr × δ) → List (Addr × δ)
  | [] => []
  | x :: log => if x.1 = pos then x :: e :: log else x :: insertAfter pos e log

/-- The sequence with `e` behind the node `pos`, or in front when that is the head. -/
def placeBehind (head pos : Addr) (e : Addr × δ) (log : List (Addr × δ)) : List (Addr × δ) :=
  if pos = head then e :: log else insertAfter pos e log

/-- The sequence without the node `pos`. -/
def removeNode (pos : Addr) (log : List (Addr × δ)) : List (Addr × δ) :=
  log.filter fun e => e.1 ≠ pos

theorem placeBehind_head (head : Addr) (e : Addr × δ) (log : List (Addr × δ)) :
    placeBehind head head e log = e :: log := if_pos rfl

theorem placeBehind_ne {head pos : Addr} (h : pos ≠ head) (e : Addr × δ) (log : List (Addr × δ)) :
    placeBehind head pos e log = insertAfter pos e log := if_neg h

section Sequences

variable {head pos : Addr} {e x : Addr × δ} {l l' log : List (Addr × δ)}

theorem exists_split (hpos : pos ∈ nodes log) (hnd : (nodes log).Nodup) :
    ∃ l x l', log = l ++ x :: l' ∧ x.1 = pos ∧ pos ∉ nodes l ∧ pos ∉ nodes l' := by
  obtain ⟨x, hx, rfl⟩ := List.mem_map.1 hpos
  obtain ⟨l, l', rfl⟩ := List.append_of_mem hx
  rw [nodes, List.map_append, List.map_cons] at hnd
  obtain ⟨-, hnd', hdisj⟩ := List.nodup_append.1 hnd
  exact ⟨l, x, l', rfl, rfl, fun h => hdisj _ h _ List.mem_cons_self rfl,
    (List.nodup_cons.1 hnd').1⟩

theorem insertAfter_append (hl : x.1 ∉ nodes l) :
    insertAfter x.1 e (l ++ x :: l') = l ++ x :: e :: l' := by
  induction l with
  | nil => simp [insertAfter]
  | cons y l ih =>
    rw [nodes, List.map_cons, List.mem_cons, not_or] at hl
    rw [List.cons_append, insertAfter, if_neg (Ne.symm hl.1), ih hl.2, List.cons_append]

theorem removeNode_append (hl : x.1 ∉ nodes l) (hl' : x.1 ∉ nodes l') :
    removeNode x.1 (l ++ x :: l') = l ++ l' := by
  have key : ∀ k : List (Addr × δ), x.1 ∉ nodes k → removeNode x.1 k = k := fun k hk =>
    List.filter_eq_self.2 fun y hy => by
      have : y.1 ≠ x.1 := fun h => hk (h ▸ List.mem_map_of_mem hy)
      simpa using this
  have hx : removeNode x.1 [x] = [] := by simp [removeNode]
  have happ : ∀ k k' : List (Addr × δ),
      removeNode x.1 (k ++ k') = removeNode x.1 k ++ removeNode x.1 k' := fun k k' =>
    List.filter_append ..
  rw [happ, key l hl, ← List.singleton_append, happ, hx, key l' hl', List.nil_append]

theorem perm_insertAfter (hpos : pos ∈ nodes log) : (insertAfter pos e log).Perm (e :: log) := by
  induction log with
  | nil => simp at hpos
  | cons y log ih =>
    by_cases hy : y.1 = pos
    · rw [insertAfter, if_pos hy]
      exact .swap ..
    · rw [insertAfter, if_neg hy]
      have hpos : pos ∈ nodes log :=
        (List.mem_cons.1 hpos).resolve_left fun h => hy h.symm
      exact ((ih hpos).cons y).trans (.swap ..)

theorem perm_placeBehind (hpos : pos ∈ head :: nodes log) :
    (placeBehind head pos e log).Perm (e :: log) := by
  unfold placeBehind
  split_ifs with h
  · exact .refl _
  · exact perm_insertAfter ((List.mem_cons.1 hpos).resolve_left h)

end Sequences

/-! ## What a list holds -/

namespace LList

/-- The ring of the list holds the elements `log`, each with its node, and `begin` is the first of
them. -/
structure Linked (m : LList δ) (log : List (Addr × δ)) : Prop where
  spells : Spells m.links m.head (nodes log)
  data : ∀ e ∈ log, m.data e.1 = some e.2
  begin_ : m.begin_ = (nodes log).headD m.head
  listCount : m.listCount = UInt32.ofNat log.length
  live : m.live.Perm (m.head :: nodes log)

/-- The list holds the elements `log`, and its cursors are where they should be. -/
structure Holds (m : LList δ) (log : List (Addr × δ)) : Prop extends m.Linked log where
  end_ : m.end_ = (nodes log).getLastD m.head

variable {m : LList δ} {log : List (Addr × δ)}

/-- An initialised list holds nothing. -/
theorem holds_init (p : Addr) : (llistInit p : LList δ).Holds [] where
  spells := .empty (by simp [llistInit, initListHead, Links.setNext, Links.setPrev])
    (by simp [llistInit, initListHead, Links.setNext, Links.setPrev])
  data := by simp
  begin_ := rfl
  listCount := rfl
  live := .refl _
  end_ := rfl

theorem Linked.mem_live (h : m.Linked log) {a : Addr} : a ∈ m.live ↔ a ∈ m.head :: nodes log :=
  h.live.mem_iff

/-! ### Insertion -/

/-- What an insertion does when it follows live nodes only. -/
theorem llistInsert_eq {p pos : Addr} (hpos : pos ∈ m.live) (hnext : m.links.next pos ∈ m.live)
    (d : δ) :
    llistInsert (some p) pos d m = some { m with
      data := Function.update m.data p (some d)
      live := p :: m.live
      links := listAdd p pos m.links
      begin_ := if pos = m.head then p else m.begin_
      end_ := if pos = m.end_ then p else m.end_
      listCount := m.listCount + 1 } := by
  simp only [llistInsert, Option.bind_eq_bind, Option.bind_some]
  rw [if_pos ⟨hpos, hnext⟩]
  split_ifs <;> simp_all

/-- An insertion behind a node that is not live does not get through. -/
theorem llistInsert_eq_none {p : Option Addr} {pos : Addr} (hpos : pos ∉ m.live) (d : δ) :
    llistInsert p pos d m = none := by
  cases p with
  | none => rfl
  | some p => exact if_neg fun h => hpos h.1

/-- **`llist_insert` puts the new element right behind its position.** -/
theorem Linked.insert (h : m.Linked log) {p pos : Addr} (hp : p ∉ m.head :: nodes log)
    (hpos : pos ∈ m.head :: nodes log) (d : δ) :
    ∃ m', llistInsert (some p) pos d m = some m' ∧ m'.head = m.head ∧
      m'.end_ = (if pos = m.end_ then p else m.end_) ∧
      m'.Linked (placeBehind m.head pos (p, d) log) := by
  have heq := llistInsert_eq (p := p) (h.mem_live.2 hpos)
    (h.mem_live.2 (h.spells.next_mem_cons hpos)) d
  have hperm := perm_placeBehind (e := (p, d)) hpos
  refine ⟨_, heq, rfl, rfl, ?_, fun e he => ?_, ?_, ?_, ?_⟩
  · -- the ring
    by_cases hh : pos = m.head
    · rw [hh, placeBehind_head]
      exact h.spells.insert_head hp
    · rw [placeBehind_ne hh]
      obtain ⟨l, x, l', rfl, rfl, hl, -⟩ := exists_split ((List.mem_cons.1 hpos).resolve_left hh)
        (List.nodup_cons.1 h.spells.nodup).2
      have hs := h.spells
      rw [insertAfter_append hl]
      simp only [nodes, List.map_append, List.map_cons] at hs hp ⊢
      exact hs.insert_mem hp
  · dsimp only
    rcases List.mem_cons.1 (hperm.mem_iff.1 he) with rfl | he
    · rw [Function.update_self]
    · have hne : e.1 ≠ p := fun h => hp (h ▸ List.mem_cons_of_mem _ (List.mem_map_of_mem he))
      rw [Function.update_of_ne hne, h.data e he]
  · dsimp only
    by_cases hh : pos = m.head
    · rw [if_pos hh, hh, placeBehind_head]
      rfl
    · rw [if_neg hh, placeBehind_ne hh, h.begin_]
      cases log with
      | nil => rfl
      | cons x log =>
        unfold insertAfter
        split_ifs <;> rfl
  · dsimp only
    rw [h.listCount, hperm.length_eq, List.length_cons, UInt32.ofNat_add]
    rfl
  · exact ((h.live.cons p).trans (.swap ..)).trans ((hperm.map Prod.fst).symm.cons m.head)

/-- An insertion keeps the cursor `end`. -/
theorem Holds.insert (h : m.Holds log) {p pos : Addr} (hp : p ∉ m.head :: nodes log)
    (hpos : pos ∈ m.head :: nodes log) (d : δ) :
    ∃ m', llistInsert (some p) pos d m = some m' ∧ m'.head = m.head ∧
      m'.Holds (placeBehind m.head pos (p, d) log) := by
  obtain ⟨m', heq, hhead, hend, hlinked⟩ := h.toLinked.insert hp hpos d
  refine ⟨m', heq, hhead, hlinked, ?_⟩
  obtain ⟨hh, hnd⟩ := List.nodup_cons.1 h.spells.nodup
  rw [hend, h.end_, hhead]
  by_cases hpos' : pos = m.head
  · rw [hpos', placeBehind_head]
    rcases List.eq_nil_or_concat log with rfl | ⟨l, x, rfl⟩
    · simp
    · have hx : m.head ≠ x.1 := fun e => hh (by simp [e])
      simp [hx, List.getLast?_cons]
  · rw [placeBehind_ne hpos']
    obtain ⟨l, x, l', rfl, rfl, hl, hl'⟩ :=
      exists_split ((List.mem_cons.1 hpos).resolve_left hpos') hnd
    rw [insertAfter_append hl]
    rcases List.eq_nil_or_concat l' with rfl | ⟨l', y, rfl⟩
    · simp
    · have hy : x.1 ≠ y.1 := fun e => hl' (by simp [e])
      simp [hy, List.getLast?_cons]

/-! ### Removal -/

/-- What a removal does when it follows live nodes only. -/
theorem llistUnlink_eq {pos : Addr} (hpos : pos ∈ m.live) (hnext : m.links.next pos ∈ m.live)
    (hprev : m.links.prev pos ∈ m.live) :
    llistUnlink pos m = some { m with
      begin_ := if pos = m.begin_ then m.links.next pos else m.begin_
      end_ := if pos ≠ m.begin_ ∧ pos = m.end_ then m.links.prev pos else m.end_
      links := listDel pos m.links
      listCount := m.listCount - 1
      live := m.live.erase pos } := by
  unfold llistUnlink
  rw [if_pos ⟨hpos, hnext, hprev⟩]
  split_ifs <;> simp_all

/-- **`llist_delete` and `llist_detach` remove just their element.** -/
theorem Linked.unlink (h : m.Linked log) {pos : Addr} (hpos : pos ∈ nodes log) :
    ∃ m', llistUnlink pos m = some m' ∧ m'.head = m.head ∧
      m'.end_ = (if pos ≠ m.begin_ ∧ pos = m.end_ then m.links.prev pos else m.end_) ∧
      m'.Linked (removeNode pos log) := by
  have hpos' : pos ∈ m.head :: nodes log := List.mem_cons_of_mem _ hpos
  have heq := llistUnlink_eq (h.mem_live.2 hpos') (h.mem_live.2 (h.spells.next_mem_cons hpos'))
    (h.mem_live.2 (h.spells.prev_mem_cons hpos))
  obtain ⟨l, x, l', rfl, rfl, hl, hl'⟩ := exists_split hpos (List.nodup_cons.1 h.spells.nodup).2
  have hs := h.spells
  simp only [nodes, List.map_append, List.map_cons] at hs
  obtain ⟨hhead, -⟩ := List.nodup_cons.1 hs.nodup
  have hx : x.1 ∉ m.head :: (l.map Prod.fst ++ l'.map Prod.fst) := by
    have hne : x.1 ≠ m.head := fun e => hhead (by simp [← e])
    rw [List.mem_cons, List.mem_append, not_or, not_or]
    exact ⟨hne, hl, hl'⟩
  refine ⟨_, heq, rfl, rfl, ?_, ?_, ?_, ?_, ?_⟩
  all_goals rw [removeNode_append hl hl']
  · -- the poison is in the removed node only
    simp only [nodes, List.map_append]
    refine hs.remove.congr (fun y hy => ?_) fun y hy => ?_
    · exact Function.update_of_ne (fun e : y = x.1 => hx (e ▸ hy)) ..
    · exact Function.update_of_ne (fun e : y = x.1 => hx (e ▸ hy)) ..
  · intro e he
    exact h.data e (by simp at he ⊢; tauto)
  · dsimp only
    rw [h.begin_]
    cases l with
    | nil => simpa using hs.next_mem (l := [])
    | cons y l =>
      have hy : x.1 ≠ y.1 := fun e => hl (by simp [e])
      simp [hy]
  · dsimp only
    rw [h.listCount, List.length_append, List.length_cons, ← Nat.add_assoc, UInt32.ofNat_add,
      ← List.length_append]
    exact UInt32.add_sub_cancel _ _
  · have herase : (m.head :: nodes (l ++ x :: l')).erase x.1 = m.head :: nodes (l ++ l') := by
      simp only [nodes, List.map_append, List.map_cons]
      rw [List.erase_cons_tail (by simpa using fun e => hx (by simp [← e])),
        List.erase_append_right _ hl, List.erase_cons_head]
    have herased := h.live.erase x.1
    rwa [herase] at herased

/-- A removal keeps the cursor `end` when other elements are left. -/
theorem Holds.unlink (h : m.Holds log) {pos : Addr} (hpos : pos ∈ nodes log)
    (hlen : log.length ≠ 1) :
    ∃ m', llistUnlink pos m = some m' ∧ m'.head = m.head ∧ m'.Holds (removeNode pos log) := by
  obtain ⟨m', heq, hhead, hend, hlinked⟩ := h.toLinked.unlink hpos
  refine ⟨m', heq, hhead, hlinked, ?_⟩
  obtain ⟨l, x, l', rfl, rfl, hl, hl'⟩ := exists_split hpos (List.nodup_cons.1 h.spells.nodup).2
  have hprev : m.links.prev x.1 = (nodes l).getLastD m.head := by
    have hs := h.spells
    simp only [nodes, List.map_append, List.map_cons] at hs
    exact hs.prev_mem
  rw [hend, h.end_, hhead, removeNode_append hl hl', h.begin_, hprev]
  rcases List.eq_nil_or_concat l' with rfl | ⟨l', z, rfl⟩
  · cases l with
    | nil => simp at hlen
    | cons y l =>
      have hy : x.1 ≠ y.1 := fun e => hl (by simp [e])
      simp [hy, List.getLast?_cons]
  · have hz : x.1 ≠ z.1 := fun e => hl' (by simp [e])
    simp [hz, List.getLast?_cons]

/-- When the only element is removed, the cursor `end` stays at its node. -/
theorem Holds.unlink_singleton {e : Addr × δ} (h : m.Holds [e]) :
    ∃ m', llistUnlink e.1 m = some m' ∧ m'.head = m.head ∧ m'.end_ = e.1 ∧ m'.Linked [] := by
  obtain ⟨m', heq, hhead, hend, hlinked⟩ := h.toLinked.unlink (show e.1 ∈ nodes [e] by simp)
  have hbegin : m.begin_ = e.1 := h.begin_
  rw [hbegin, if_neg (fun h => h.1 rfl), h.end_] at hend
  exact ⟨m', heq, hhead, hend, by simpa [removeNode] using hlinked⟩

/-! ### Appending -/

/-- The last node of a list, or the head of an empty one. -/
theorem Holds.end_mem (h : m.Holds log) : m.end_ ∈ m.head :: nodes log := by
  rw [h.end_]
  rcases List.eq_nil_or_concat log with rfl | ⟨l, x, rfl⟩ <;> simp

/-- Behind the last node is the end of the sequence. -/
theorem Holds.placeBehind_end (h : m.Holds log) (e : Addr × δ) :
    placeBehind m.head m.end_ e log = log ++ [e] := by
  obtain ⟨hh, hnd⟩ := List.nodup_cons.1 h.spells.nodup
  rw [h.end_]
  rcases List.eq_nil_or_concat log with rfl | ⟨l, x, rfl⟩
  · simp [placeBehind]
  · rw [List.concat_eq_append] at hh hnd ⊢
    simp only [nodes, List.map_append, List.map_cons, List.map_nil] at hh hnd ⊢
    have hx : x.1 ≠ m.head := fun e => hh (by simp [← e])
    have hl : x.1 ∉ nodes l := fun h => (List.nodup_append.1 hnd).2.2 _ h _ (by simp) rfl
    rw [List.getLastD_concat, placeBehind_ne hx, insertAfter_append hl]
    simp

/-- **`llist_push_back` appends.** -/
theorem Holds.pushBack (h : m.Holds log) {p : Addr} (hp : p ∉ m.head :: nodes log) (d : δ) :
    ∃ m', llistPushBack (some p) d m = some m' ∧ m'.head = m.head ∧ m'.Holds (log ++ [(p, d)]) := by
  obtain ⟨m', heq, hhead, hholds⟩ := h.insert hp h.end_mem d
  rw [h.placeBehind_end] at hholds
  exact ⟨m', heq, hhead, hholds⟩

/-! ### Walking through the list -/

/-- The walk from a node of the list visits it and the nodes behind it. -/
theorem Linked.forEachLoop (h : m.Linked log) (pre : List Addr) {post : List Addr}
    (hsplit : nodes log = pre ++ post) {fuel : ℕ} (hf : post.length ≤ fuel) :
    llistForEachLoop m fuel (post.headD m.head) = some post := by
  induction post generalizing pre fuel with
  | nil => cases fuel <;> simp [llistForEachLoop]
  | cons a post ih =>
    obtain ⟨fuel, rfl⟩ : ∃ n, fuel = n + 1 := ⟨fuel - 1, by simp at hf; omega⟩
    have hs := h.spells
    rw [hsplit] at hs
    have hne : a ≠ m.head := by
      rintro rfl
      exact (List.nodup_cons.1 hs.nodup).1 (by simp)
    have hrest := ih (pre ++ [a]) (by simp [hsplit]) (by simpa using hf)
    rw [List.headD_cons, llistForEachLoop, if_neg hne, hs.next_mem, hrest]
    rfl

/-- **`llist_for_each` visits the elements in order.** -/
theorem Linked.forEach (h : m.Linked log) : llistForEach m = some (nodes log) := by
  rw [llistForEach, h.begin_]
  exact h.forEachLoop [] rfl (by simp [h.live.length_eq])

theorem Linked.contents (h : m.Linked log) : llistContents m = some (log.map Prod.snd) := by
  rw [llistContents, h.forEach]
  simp only [nodes, Option.bind_eq_bind, Option.bind_some, List.mapM_map]
  have key : ∀ l : List (Addr × δ), (∀ e ∈ l, m.data e.1 = some e.2) →
      l.mapM (fun e => llistPosGetPointer m e.1) = some (l.map Prod.snd) := by
    intro l hl
    induction l with
    | nil => rfl
    | cons e l ih =>
      obtain ⟨he, hl⟩ := List.forall_mem_cons.1 hl
      rw [List.mapM_cons, ih hl, llistPosGetPointer, he]
      rfl
  exact key log h.data

end LList

end HpiDriver
