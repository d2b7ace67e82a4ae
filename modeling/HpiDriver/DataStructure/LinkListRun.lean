import HpiDriver.DataStructure.LinkList

/-!
# Histories of a linked list

Two kinds of histories from `llist_init` on. An edit names the node it works at; along every
history of edits the ring is the sequence that the edits make, whatever the cursor `end` is
(`runEdits_ring`). A call may also go through the cursors, as `llist_push_back` and
`llist_pop_back` do; `end` is the last element along a history of calls exactly as long as no call
removes the only element (`runCalls_end_iff`), since `llist_delete` and `llist_detach` look at
`end` only when the node is not the first one.
-/

namespace HpiDriver

open Ring LList

variable {δ : Type} {head : Addr}

/-! ## Edits -/

/-- An insertion or a removal at a node; `p` is the node that the allocator hands out. -/
inductive LListEdit (δ : Type)
  | insert (p pos : Addr) (data : δ)
  | delete (pos : Addr)
  | detach (pos : Addr)

namespace LListEdit

/-- What the edit does to the list. -/
def run : LListEdit δ → LList δ → Option (LList δ)
  | insert p pos data, m => llistInsert (some p) pos data m
  | delete pos, m => llistDelete pos m
  | detach pos, m => (llistDetach pos m).map Prod.snd

/-- What it should do to the sequence of elements. -/
def apply (head : Addr) : LListEdit δ → List (Addr × δ) → List (Addr × δ)
  | insert p pos data, log => placeBehind head pos (p, data) log
  | delete pos, log => removeNode pos log
  | detach pos, log => removeNode pos log

/-- The new node is not in use; an insertion is behind an element or the head, a removal at an
element. -/
def Allowed (head : Addr) : LListEdit δ → List (Addr × δ) → Prop
  | insert p pos _, log => p ∉ head :: nodes log ∧ pos ∈ head :: nodes log
  | delete pos, log => pos ∈ nodes log
  | detach pos, log => pos ∈ nodes log

/-- The edit removes an element. -/
def Removes : LListEdit δ → Prop
  | insert .. => False
  | delete _ => True
  | detach _ => True

variable {m : LList δ} {log : List (Addr × δ)} {e : LListEdit δ}

/-- The removals are all the same. -/
theorem run_of_removes (he : e.Removes) (hallowed : e.Allowed head log) :
    ∃ pos ∈ nodes log,
      (∀ m, e.run m = llistUnlink pos m) ∧ e.apply head log = removeNode pos log := by
  cases e with
  | insert => exact he.elim
  | delete pos => exact ⟨pos, hallowed, fun _ => rfl, rfl⟩
  | detach pos => exact ⟨pos, hallowed, fun m => by simp [run, llistDetach], rfl⟩

/-- An edit of a linked list. -/
theorem run_linked (hm : m.Linked log) (hallowed : e.Allowed m.head log) :
    ∃ m', e.run m = some m' ∧ m'.head = m.head ∧ m'.Linked (e.apply m.head log) := by
  cases e with
  | insert p pos data =>
    obtain ⟨m', heq, hhead, -, hlinked⟩ := hm.insert hallowed.1 hallowed.2 data
    exact ⟨m', heq, hhead, hlinked⟩
  | delete pos =>
    obtain ⟨m', heq, hhead, -, hlinked⟩ := hm.unlink hallowed
    exact ⟨m', heq, hhead, hlinked⟩
  | detach pos =>
    obtain ⟨m', heq, hhead, -, hlinked⟩ := hm.unlink hallowed
    exact ⟨m', by simp [run, llistDetach, heq], hhead, hlinked⟩

/-- An edit that leaves an element keeps the cursor `end`. -/
theorem run_holds (hm : m.Holds log) (hallowed : e.Allowed m.head log)
    (hsole : e.Removes → log.length ≠ 1) :
    ∃ m', e.run m = some m' ∧ m'.head = m.head ∧ m'.Holds (e.apply m.head log) := by
  by_cases he : e.Removes
  · obtain ⟨pos, hpos, hrun, happly⟩ := run_of_removes he hallowed
    rw [hrun, happly]
    exact hm.unlink hpos (hsole he)
  · cases e with
    | insert p pos data => exact hm.insert hallowed.1 hallowed.2 data
    | delete => exact absurd trivial he
    | detach => exact absurd trivial he

/-- The removal of the only element leaves the cursor `end` behind. -/
theorem run_sole (hm : m.Holds log) (hallowed : e.Allowed m.head log) (he : e.Removes)
    (hlen : log.length = 1) :
    ∃ m', e.run m = some m' ∧ e.apply m.head log = [] ∧ m'.end_ ≠ m'.head := by
  obtain ⟨x, rfl⟩ := List.length_eq_one_iff.1 hlen
  obtain ⟨pos, hpos, hrun, happly⟩ := run_of_removes he hallowed
  obtain rfl : pos = x.1 := by simpa using hpos
  obtain ⟨m', heq, hhead, hend, -⟩ := hm.unlink_singleton
  have hne : m.head ≠ x.1 := by simpa using (List.nodup_cons.1 hm.spells.nodup).1
  refine ⟨m', (hrun m).trans heq, ?_, ?_⟩
  · rw [happly]
    simp [removeNode]
  · rw [hend, hhead]
    exact hne.symm

end LListEdit

/-- One edit after another. -/
def runEdits (edits : List (LListEdit δ)) (m : LList δ) : Option (LList δ) :=
  edits.foldlM (fun m e => e.run m) m

/-- The sequence that a history of edits makes. -/
def applyEdits (head : Addr) (edits : List (LListEdit δ)) (log : List (Addr × δ)) :
    List (Addr × δ) :=
  edits.foldl (fun log e => e.apply head log) log

/-- Every edit of the history is allowed where it comes. -/
def AllowedEdits (head : Addr) : List (LListEdit δ) → List (Addr × δ) → Prop
  | [], _ => True
  | e :: edits, log => e.Allowed head log ∧ AllowedEdits head edits (e.apply head log)

theorem runEdits_linked {edits : List (LListEdit δ)} {m : LList δ} {log : List (Addr × δ)}
    (hm : m.Linked log) (hallowed : AllowedEdits m.head edits log) :
    ∃ m', runEdits edits m = some m' ∧ m'.head = m.head ∧
      m'.Linked (applyEdits m.head edits log) := by
  induction edits generalizing m log with
  | nil => exact ⟨m, rfl, rfl, hm⟩
  | cons e edits ih =>
    obtain ⟨he, hallowed⟩ := hallowed
    obtain ⟨m₁, hrun, hhead, hm₁⟩ := e.run_linked hm he
    rw [← hhead] at hm₁ hallowed
    obtain ⟨m₂, hruns, hhead₂, hm₂⟩ := ih hm₁ hallowed
    refine ⟨m₂, ?_, hhead₂.trans hhead, ?_⟩
    · rw [runEdits, List.foldlM_cons, hrun]
      exact hruns
    · rw [hhead] at hm₂
      exact hm₂

/-- **The ring spells the sequence.** After every history of edits of a new list the links of the
list run through its elements in both directions, the count and the cursor `begin` are right, and
`llist_for_each` visits the elements in order. -/
theorem runEdits_ring (head : Addr) (edits : List (LListEdit δ))
    (hallowed : AllowedEdits head edits []) :
    ∃ m, runEdits edits (llistInit head) = some m ∧ m.head = head ∧
      Spells m.links head (nodes (applyEdits head edits [])) ∧
      m.listCount.toNat = (applyEdits head edits []).length % 2 ^ 32 ∧
      m.begin_ = (nodes (applyEdits head edits [])).headD head ∧
      llistForEach m = some (nodes (applyEdits head edits [])) ∧
      llistContents m = some ((applyEdits head edits []).map Prod.snd) := by
  obtain ⟨m, hrun, rfl, hm⟩ := runEdits_linked (LList.holds_init head).toLinked hallowed
  refine ⟨m, hrun, rfl, hm.spells, ?_, hm.begin_, hm.forEach, hm.contents⟩
  rw [hm.listCount, UInt32.toNat_ofNat']
  rfl

/-- Two elements put in, the first one taken out again. -/
def threeEdits : List (LListEdit ℕ) := [.insert 128 64 7, .insert 192 128 8, .detach 128]

/-- The second element is left, between the head and itself. -/
theorem runEdits_threeEdits :
    ∃ m, runEdits threeEdits (llistInit 64) = some m ∧ m.head = 64 ∧
      Spells m.links 64 [192] ∧ m.listCount.toNat = 1 ∧ m.begin_ = 192 ∧
      llistForEach m = some [192] ∧ llistContents m = some [8] :=
  runEdits_ring 64 threeEdits (by simp [threeEdits, AllowedEdits, LListEdit.Allowed,
    LListEdit.apply, placeBehind, insertAfter])

/-! ## Calls -/

/-- A call of a function of the list. -/
inductive LListCall (δ : Type)
  | pushFront (p : Addr) (data : δ)
  | pushBack (p : Addr) (data : δ)
  | insert (p pos : Addr) (data : δ)
  | delete (pos : Addr)
  | popFront
  | popBack
  | detach (pos : Addr)
  | detachFront
  | detachBack

namespace LListCall

/-- What the call does to the list. -/
def run : LListCall δ → LList δ → Option (LList δ)
  | pushFront p data, m => llistPushFront (some p) data m
  | pushBack p data, m => llistPushBack (some p) data m
  | insert p pos data, m => llistInsert (some p) pos data m
  | delete pos, m => llistDelete pos m
  | popFront, m => llistPopFront m
  | popBack, m => llistPopBack m
  | detach pos, m => (llistDetach pos m).map Prod.snd
  | detachFront, m => (llistDetachFront m).map Prod.snd
  | detachBack, m => (llistDetachBack m).map Prod.snd

/-- What it should do to the sequence of elements. -/
def apply (head : Addr) : LListCall δ → List (Addr × δ) → List (Addr × δ)
  | pushFront p data, log => (p, data) :: log
  | pushBack p data, log => log ++ [(p, data)]
  | insert p pos data, log => placeBehind head pos (p, data) log
  | delete pos, log => removeNode pos log
  | popFront, log => log.tail
  | popBack, log => log.dropLast
  | detach pos, log => removeNode pos log
  | detachFront, log => log.tail
  | detachBack, log => log.dropLast

/-- The new node is not in use; an insertion is behind an element or the head, a removal at an
element. -/
def Allowed (head : Addr) : LListCall δ → List (Addr × δ) → Prop
  | pushFront p _, log => p ∉ head :: nodes log
  | pushBack p _, log => p ∉ head :: nodes log
  | insert p pos _, log => p ∉ head :: nodes log ∧ pos ∈ head :: nodes log
  | delete pos, log => pos ∈ nodes log
  | popFront, log => log ≠ []
  | popBack, log => log ≠ []
  | detach pos, log => pos ∈ nodes log
  | detachFront, log => log ≠ []
  | detachBack, log => log ≠ []

/-- The call removes an element. -/
def Removes : LListCall δ → Prop
  | pushFront .. => False
  | pushBack .. => False
  | insert .. => False
  | _ => True

/-- The edit that a call amounts to, when the cursors of the list are `begin_` and `end_`. -/
def edit (head begin_ end_ : Addr) : LListCall δ → LListEdit δ
  | pushFront p data => .insert p head data
  | pushBack p data => .insert p end_ data
  | insert p pos data => .insert p pos data
  | delete pos => .delete pos
  | popFront => .delete begin_
  | popBack => .delete end_
  | detach pos => .detach pos
  | detachFront => .detach begin_
  | detachBack => .detach end_

variable {m : LList δ} {log : List (Addr × δ)} {c : LListCall δ}

theorem run_eq_edit (c : LListCall δ) (m : LList δ) :
    c.run m = (c.edit m.head m.begin_ m.end_).run m := by
  cases c <;> rfl

theorem removes_edit (c : LListCall δ) (head begin_ end_ : Addr) :
    (c.edit head begin_ end_).Removes ↔ c.Removes := by
  cases c <;> rfl

/-- With the cursors where they should be, the edit is the one that the call is meant to be. -/
theorem edit_spec (hm : m.Holds log) (hallowed : c.Allowed m.head log) :
    (c.edit m.head m.begin_ m.end_).Allowed m.head log ∧
      (c.edit m.head m.begin_ m.end_).apply m.head log = c.apply m.head log := by
  have hnd := (List.nodup_cons.1 hm.spells.nodup).2
  have hfirst : log ≠ [] → m.begin_ ∈ nodes log ∧ removeNode m.begin_ log = log.tail := by
    intro hne
    obtain ⟨x, l, rfl⟩ := List.exists_cons_of_ne_nil hne
    have hbegin : m.begin_ = x.1 := hm.begin_
    rw [hbegin]
    exact ⟨List.mem_cons_self,
      removeNode_append (l := []) List.not_mem_nil (List.nodup_cons.1 hnd).1⟩
  have hlast : log ≠ [] → m.end_ ∈ nodes log ∧ removeNode m.end_ log = log.dropLast := by
    intro hne
    obtain ⟨l, x, rfl⟩ := (List.eq_nil_or_concat log).resolve_left hne
    rw [List.concat_eq_append] at hm hnd ⊢
    have hend : m.end_ = x.1 := hm.end_.trans (by simp)
    rw [nodes, List.map_append] at hnd
    have hx : x.1 ∉ nodes l := fun h => (List.nodup_append.1 hnd).2.2 _ h _ (by simp) rfl
    rw [hend, List.dropLast_concat, removeNode_append hx List.not_mem_nil, List.append_nil]
    exact ⟨by simp, rfl⟩
  cases c with
  | pushFront p data => exact ⟨⟨hallowed, List.mem_cons_self⟩, placeBehind_head ..⟩
  | pushBack p data => exact ⟨⟨hallowed, hm.end_mem⟩, hm.placeBehind_end _⟩
  | insert p pos data => exact ⟨hallowed, rfl⟩
  | delete pos => exact ⟨hallowed, rfl⟩
  | popFront => exact hfirst hallowed
  | popBack => exact hlast hallowed
  | detach pos => exact ⟨hallowed, rfl⟩
  | detachFront => exact hfirst hallowed
  | detachBack => exact hlast hallowed

end LListCall

/-- One call after another. -/
def runCalls (calls : List (LListCall δ)) (m : LList δ) : Option (LList δ) :=
  calls.foldlM (fun m c => c.run m) m

/-- The sequence that a history of calls makes. -/
def applyCalls (head : Addr) (calls : List (LListCall δ)) (log : List (Addr × δ)) :
    List (Addr × δ) :=
  calls.foldl (fun log c => c.apply head log) log

/-- Every call of the history is allowed where it comes. -/
def AllowedCalls (head : Addr) : List (LListCall δ) → List (Addr × δ) → Prop
  | [], _ => True
  | c :: calls, log => c.Allowed head log ∧ AllowedCalls head calls (c.apply head log)

/-- The elements of the list are `log`, and `llist_end` is the last of them. -/
structure LList.EndsWith (m : LList δ) (log : List (Addr × δ)) : Prop where
  forEach : llistForEach m = some (nodes log)
  end_ : m.end_ = (nodes log).getLastD m.head

theorem runCalls_endsWith_iff {calls : List (LListCall δ)} {m : LList δ} {log : List (Addr × δ)}
    (hm : m.Holds log) (hallowed : AllowedCalls m.head calls log) :
    (∀ pre, pre <+: calls → ∃ m', runCalls pre m = some m' ∧
        m'.EndsWith (applyCalls m.head pre log)) ↔
      ∀ pre c post, calls = pre ++ c :: post → c.Removes →
        (applyCalls m.head pre log).length ≠ 1 := by
  induction calls generalizing m log with
  | nil =>
    refine ⟨fun _ pre c post h => by simp at h, fun _ pre hpre => ?_⟩
    rw [List.prefix_nil.1 hpre]
    exact ⟨m, rfl, hm.forEach, hm.end_⟩
  | cons c calls ih =>
    obtain ⟨hc, hallowed⟩ := hallowed
    obtain ⟨hedit, happly⟩ := LListCall.edit_spec hm hc
    have hrem := c.removes_edit m.head m.begin_ m.end_
    by_cases hsole : c.Removes ∧ log.length = 1
    · -- the state behind this call is wrong
      refine ⟨fun h => ?_, fun h => absurd hsole.2 (h [] c calls rfl hsole.1)⟩
      obtain ⟨m₁, hrun, hnil, hend⟩ := LListEdit.run_sole hm hedit (hrem.2 hsole.1) hsole.2
      obtain ⟨m', hrun', hends⟩ := h [c] ⟨calls, rfl⟩
      have hm₁ : m' = m₁ := by
        rw [runCalls, List.foldlM_cons, LListCall.run_eq_edit, hrun] at hrun'
        exact (Option.some.inj hrun').symm
      have hlog : applyCalls m.head [c] log = [] := happly.symm.trans hnil
      rw [hlog] at hends
      exact absurd (hm₁ ▸ hends.end_) hend
    · obtain ⟨m₁, hrun, hhead, hm₁⟩ := LListEdit.run_holds hm hedit
        fun he hlen => hsole ⟨hrem.1 he, hlen⟩
      rw [← LListCall.run_eq_edit] at hrun
      rw [happly] at hm₁
      have ih := ih hm₁ (hhead ▸ hallowed)
      rw [hhead] at ih
      have hcons : ∀ pre, runCalls (c :: pre) m = runCalls pre m₁ := by
        intro pre
        rw [runCalls, List.foldlM_cons, hrun]
        rfl
      constructor
      · intro h pre c' post hsplit hrem'
        cases pre with
        | nil =>
          obtain ⟨rfl, rfl⟩ := List.cons.inj hsplit
          exact fun hlen => hsole ⟨hrem', hlen⟩
        | cons c'' pre =>
          obtain ⟨rfl, rfl⟩ := List.cons.inj hsplit
          refine ih.1 (fun pre' hpre' => ?_) pre c' post rfl hrem'
          obtain ⟨m', hrun', hends⟩ := h (c :: pre') (List.cons_prefix_cons.2 ⟨rfl, hpre'⟩)
          exact ⟨m', (hcons pre').symm.trans hrun', hends⟩
      · intro h pre hpre
        rcases List.prefix_cons_iff.1 hpre with rfl | ⟨pre, rfl, hpre'⟩
        · exact ⟨m, rfl, hm.forEach, hm.end_⟩
        · obtain ⟨m', hrun', hends⟩ := ih.2 (fun pre' c' post hsplit =>
            h (c :: pre') c' post (by rw [hsplit, List.cons_append])) pre hpre'
          exact ⟨m', (hcons pre).trans hrun', hends⟩

/-- **When the cursor `end` is the last element.** In every state that a history of calls of a new
list reaches, the list has the elements it should have and `llist_end` is the last of them, exactly
when no call of the history removes the only element. -/
theorem runCalls_end_iff (head : Addr) (calls : List (LListCall δ))
    (hallowed : AllowedCalls head calls []) :
    (∀ pre, pre <+: calls → ∃ m, runCalls pre (llistInit head) = some m ∧
        m.EndsWith (applyCalls head pre [])) ↔
      ∀ pre c post, calls = pre ++ c :: post → c.Removes →
        (applyCalls head pre []).length ≠ 1 :=
  runCalls_endsWith_iff (LList.holds_init head) hallowed

/-- Two elements pushed to the two ends, the last one popped. -/
def popCalls : List (LListCall ℕ) := [.pushBack 128 7, .pushFront 192 8, .popBack]

theorem runCalls_end_iff_popCalls :
    (∀ pre, pre <+: popCalls → ∃ m, runCalls pre (llistInit 64) = some m ∧
        m.EndsWith (applyCalls 64 pre [])) ↔
      ∀ pre c post, popCalls = pre ++ c :: post → c.Removes →
        (applyCalls 64 pre []).length ≠ 1 :=
  runCalls_end_iff 64 popCalls
    (by simp [popCalls, AllowedCalls, LListCall.Allowed, LListCall.apply])

/-- After an element is pushed and popped again, `llist_end` is not the head. -/
theorem not_runCalls_end : ¬ ∀ (head : Addr) (calls : List (LListCall ℕ)),
    AllowedCalls head calls [] → ∀ pre, pre <+: calls →
      ∃ m, runCalls pre (llistInit head) = some m ∧ m.EndsWith (applyCalls head pre []) := by
  intro h
  obtain ⟨m, hrun, hends⟩ := h 64 [.pushBack 128 7, .popFront]
    (by simp [AllowedCalls, LListCall.Allowed, LListCall.apply]) _ (List.prefix_refl _)
  have hend : (runCalls [.pushBack 128 7, .popFront] (llistInit 64 : LList ℕ)).map
      (fun m => (m.head, m.end_)) = some (64, 128) := by decide
  rw [hrun] at hend
  obtain ⟨hhead, hend⟩ := Prod.mk.inj (Option.some.inj hend)
  exact absurd (hend.symm.trans (hends.end_.trans hhead)) (by decide)

end HpiDriver
