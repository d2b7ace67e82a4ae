import HpiDriver.TaskAdmin

/-!
# The queue of system-designated data tasks

`add_task` and `get_task` as producer and consumer of a queue, from a new task admin on. `get_task`
detaches the first node of the list but never writes the task it was asked for, does not notice
that the list is empty, and the list does not survive the removal of its only element. So the calls
work as a queue exactly in the histories where none of this shows (`fifo_iff`).
-/

namespace HpiDriver

open LList

/-- A call for system-designated data tasks; `node` is what the allocator hands out, `mem` and
`padding` are what `add_task` finds, and `out` is what the pointer of `get_task` leads to. -/
inductive QueueCall
  | add (node : Addr) (mem : Addr → Option UInt8) (padding : UInt8) (task : Task)
  | get (slotNum : UInt16) (out : Task)

/-- The task of an `add_task` is a data task for a system-designated slot. -/
def QueueCall.SysData : QueueCall → Prop
  | add _ _ _ task => task.slotType = SLOT_TYPE_SYS_DESIGNATE ∧ task.type = TASK_TYPE_DATA
  | get .. => True

/-- The nodes that the allocator hands out during a history. -/
def addedNodes : List QueueCall → List Addr
  | [] => []
  | .add node .. :: calls => node :: addedNodes calls
  | .get .. :: calls => addedNodes calls

/-- The calls work as a queue that `waiting` is in: an `add_task` goes through; a `get_task` of an
empty queue returns `-1` and changes nothing, any other returns `1` and delivers the task that has
been waiting longest. -/
def Fifo : List QueueCall → List Task → TaskAdmin → Prop
  | [], _, _ => True
  | .add node mem padding task :: calls, waiting, admin =>
    ∃ admin', addTask ⟨some node, mem, padding⟩ task TASK_FLAG_SND admin = some admin' ∧
      Fifo calls (waiting ++ [task]) admin'
  | .get slotNum out :: calls, [], admin =>
    ∃ got, getTask admin TASK_FLAG_SND slotNum out = some got ∧ got.ret = -1 ∧
      got.admin = admin ∧ Fifo calls [] got.admin
  | .get slotNum out :: calls, t :: waiting, admin =>
    ∃ got, getTask admin TASK_FLAG_SND slotNum out = some got ∧ got.ret = 1 ∧
      got.task = t ∧ Fifo calls waiting got.admin

/-- Every `get_task` finds a task waiting and is handed that very task, and the one that takes the
last task is the end of the history. -/
def Benign : List QueueCall → List Task → Prop
  | [], _ => True
  | .add _ _ _ task :: calls, waiting => Benign calls (waiting ++ [task])
  | .get .. :: _, [] => False
  | .get _ out :: calls, t :: waiting =>
      out = t ∧ (waiting = [] → calls = []) ∧ Benign calls waiting

/-! ## One call -/

section Call

variable {admin : TaskAdmin} {log : List (Addr × Task)}

/-- The map of user-designated data tasks is as it was made. -/
def TaskAdmin.NoUserData (admin : TaskAdmin) : Prop :=
  admin.dataUserDesignateSlot = hashMapInit 2 10 10 defaultHashFunc defaultKeyCmpFunc

theorem TaskAdmin.NoUserData.search (h : admin.NoUserData) (key : List UInt8) :
    (hashMapSearch admin.dataUserDesignateSlot key).hlistNodeP = none := by
  rw [h, hashMapSearch]
  split_ifs
  · rfl
  · rfl

/-- Without user-designated tasks `get_task` goes for the list. -/
theorem getTask_eq (h : admin.NoUserData) (slotNum : UInt16) (out : Task) {n : Addr}
    {llist : LList Task} (hdetach : llistDetachFront admin.dataSysDesignateSlot = some (n, llist))
    (hn : n ≠ 0) :
    getTask admin TASK_FLAG_SND slotNum out =
      some ⟨1, out, { admin with dataSysDesignateSlot := llist }⟩ := by
  unfold getTask
  rw [if_neg (by decide), if_pos rfl, getTaskState, if_pos one_ne_zero]
  simp only [h.search, ne_eq, not_true_eq_false, if_false, hdetach, Option.bind_eq_bind,
    Option.bind_some]
  exact if_pos hn

/-- The first element is detached. -/
theorem detachFront_cons {m : LList Task} {e : Addr × Task} (h : m.Holds (e :: log)) :
    ∃ m', llistDetachFront m = some (e.1, m') ∧ m'.head = m.head ∧ m'.Linked log ∧
      (log ≠ [] → m'.Holds log) ∧ (log = [] → m'.end_ = e.1) := by
  have hbegin : m.begin_ = e.1 := h.begin_
  have hmem : e.1 ∈ nodes (e :: log) := List.mem_cons_self
  have hremove : removeNode e.1 (e :: log) = log :=
    removeNode_append (l := []) List.not_mem_nil
      (List.nodup_cons.1 (List.nodup_cons.1 h.spells.nodup).2).1
  obtain ⟨m', heq, hhead, hend, hlinked⟩ := h.toLinked.unlink hmem
  rw [hremove] at hlinked
  refine ⟨m', ?_, hhead, hlinked, fun hne => ?_, fun hnil => ?_⟩
  · rw [llistDetachFront, llistDetach, hbegin, heq]
    rfl
  · obtain ⟨m'', heq', -, hholds⟩ := h.unlink hmem (by simpa using hne)
    rw [hremove] at hholds
    exact Option.some.inj (heq.symm.trans heq') ▸ hholds
  · subst hnil
    rw [hend, hbegin, if_neg fun h => h.1 rfl]
    exact h.end_

/-- An empty list has its head detached. -/
theorem detachFront_nil {m : LList Task} (h : m.Linked []) :
    ∃ m', llistDetachFront m = some (m.head, m') := by
  have hbegin : m.begin_ = m.head := h.begin_
  have hnext : m.links.next m.head = m.head := h.spells.next_head
  have hprev : m.links.prev m.head = m.head := h.spells.segment.2
  have hlive : m.head ∈ m.live := h.mem_live.2 List.mem_cons_self
  have heq := llistUnlink_eq hlive (hnext.symm ▸ hlive) (hprev.symm ▸ hlive)
  rw [llistDetachFront, hbegin, llistDetach, heq]
  exact ⟨_, rfl⟩

end Call

/-! ## Histories -/

section History

variable {admin : TaskAdmin} {calls : List QueueCall}

/-- A `get_task` of an empty queue returns `1`. -/
theorem exists_getTask_nil (h : admin.NoUserData) (hm : admin.dataSysDesignateSlot.Linked [])
    (hhead : admin.dataSysDesignateSlot.head ≠ 0) (slotNum : UInt16) (out : Task) :
    ∃ got, getTask admin TASK_FLAG_SND slotNum out = some got ∧ got.ret = 1 := by
  obtain ⟨m', hdetach⟩ := detachFront_nil hm
  exact ⟨_, getTask_eq h slotNum out hdetach hhead, rfl⟩

/-- A queue that has been emptied takes no call any more. -/
theorem fifo_emptied (h : admin.NoUserData) (hm : admin.dataSysDesignateSlot.Linked [])
    (hhead : admin.dataSysDesignateSlot.head ≠ 0)
    (hend : admin.dataSysDesignateSlot.end_ ≠ admin.dataSysDesignateSlot.head)
    (hsys : ∀ c ∈ calls, c.SysData) : Fifo calls [] admin ↔ calls = [] := by
  cases calls with
  | nil => simp [Fifo]
  | cons c calls =>
    refine iff_of_false (fun hfifo => ?_) (List.cons_ne_nil _ _)
    cases c with
    | add node mem padding task =>
      obtain ⟨admin', hadd, -⟩ := hfifo
      obtain ⟨hslot, htype⟩ := hsys _ List.mem_cons_self
      have hlive : admin.dataSysDesignateSlot.end_ ∉ admin.dataSysDesignateSlot.live := by
        rw [hm.mem_live]
        simpa using hend
      rw [addTask_sysData _ hslot htype, llistPushBack, llistInsert_eq_none hlive] at hadd
      simp at hadd
    | get slotNum out =>
      obtain ⟨got, hgot, hret, -⟩ := hfifo
      obtain ⟨got', hgot', hret'⟩ := exists_getTask_nil h hm hhead slotNum out
      rw [hgot] at hgot'
      obtain rfl := Option.some.inj hgot'
      rw [hret] at hret'
      exact absurd hret' (by decide)

theorem fifo_iff_benign {log : List (Addr × Task)} (h : admin.NoUserData)
    (hm : admin.dataSysDesignateSlot.Holds log)
    (hsys : ∀ c ∈ calls, c.SysData)
    (hnodes : (admin.dataSysDesignateSlot.head :: (nodes log ++ addedNodes calls)).Nodup)
    (hnull : 0 ∉ admin.dataSysDesignateSlot.head :: (nodes log ++ addedNodes calls)) :
    Fifo calls (log.map Prod.snd) admin ↔ Benign calls (log.map Prod.snd) := by
  induction calls generalizing admin log with
  | nil => simp [Fifo, Benign]
  | cons c calls ih =>
    obtain ⟨hc, hsys'⟩ := List.forall_mem_cons.1 hsys
    cases c with
    | add node mem padding task =>
      have hfresh : node ∉ admin.dataSysDesignateSlot.head :: nodes log := fun hmem =>
        (List.nodup_append.1 hnodes).2.2 node hmem node List.mem_cons_self rfl
      obtain ⟨llist, hpush, hhead, hholds⟩ := hm.pushBack hfresh task
      have hadd : addTask ⟨some node, mem, padding⟩ task TASK_FLAG_SND admin =
          some { admin with dataSysDesignateSlot := llist } := by
        rw [addTask_sysData _ hc.1 hc.2, hpush]
        rfl
      have hsame : nodes (log ++ [(node, task)]) ++ addedNodes calls =
          nodes log ++ addedNodes (.add node mem padding task :: calls) := by
        simp [addedNodes]
      have hih := @ih { admin with dataSysDesignateSlot := llist } _ h hholds hsys'
        (by rw [hhead, hsame]; exact hnodes) (by rw [hhead, hsame]; exact hnull)
      rw [List.map_append, List.map_singleton] at hih
      simp only [Fifo, Benign, hadd, Option.some.injEq, exists_eq_left', hih]
    | get slotNum out =>
      have hnull' : admin.dataSysDesignateSlot.head ≠ 0 := fun e => hnull (by simp [e])
      cases log with
      | nil =>
        obtain ⟨got, hgot, hret⟩ := exists_getTask_nil h hm.toLinked hnull' slotNum out
        simp only [List.map_nil, Fifo, Benign, hgot, Option.some.injEq, exists_eq_left', hret]
        simp
      | cons e log =>
        obtain ⟨m', hdetach, hhead, hlinked, hholds, hend⟩ := detachFront_cons hm
        have hne : e.1 ≠ 0 := fun h => hnull (by simp [h])
        have hhead' : e.1 ≠ admin.dataSysDesignateSlot.head := fun h =>
          (List.nodup_cons.1 hnodes).1 (by simp [← h])
        have hgot := getTask_eq h slotNum out hdetach hne
        have hsub : (admin.dataSysDesignateSlot.head :: (nodes log ++ addedNodes calls)).Sublist
            (admin.dataSysDesignateSlot.head :: (nodes (e :: log) ++ addedNodes calls)) :=
          (List.sublist_cons_self _ _).cons_cons _
        simp only [List.map_cons, Fifo, Benign, hgot, Option.some.injEq, exists_eq_left', true_and]
        refine and_congr_right fun _ => ?_
        by_cases hlog : log = []
        · -- the queue is empty now, and `end` is at the node that was detached
          subst hlog
          have hfifo := @fifo_emptied { admin with dataSysDesignateSlot := m' } calls h hlinked
            (by rwa [hhead]) (by rwa [hend rfl, hhead]) hsys'
          rw [List.map_nil, hfifo]
          refine ⟨fun hnil => ⟨fun _ => hnil, ?_⟩, fun hb => hb.1 rfl⟩
          rw [hnil]
          trivial
        · rw [@ih { admin with dataSysDesignateSlot := m' } log h (hholds hlog) hsys'
            (by rw [hhead]; exact hnodes.sublist hsub)
            (by rw [hhead]; exact fun hmem => hnull (hsub.subset hmem))]
          simp [hlog]

end History

/-- **When `add_task` and `get_task` make a queue.** From a new task admin on, with nodes that the
allocator hands out once, the calls of a history work as a queue exactly when every `get_task`
finds a task waiting and is handed that very task, and a `get_task` that takes the last task ends
the history. -/
theorem fifo_iff (dataHead voiceHead : Addr) (uninit : List UInt8) (calls : List QueueCall)
    (hsys : ∀ c ∈ calls, c.SysData) (hnodes : (dataHead :: addedNodes calls).Nodup)
    (hnull : 0 ∉ dataHead :: addedNodes calls) :
    Fifo calls [] (createTaskAdmin dataHead voiceHead uninit) ↔ Benign calls [] :=
  @fifo_iff_benign (createTaskAdmin dataHead voiceHead uninit) calls [] rfl
    (LList.holds_init dataHead) hsys hnodes hnull

/-- Two tasks, the first one fetched. -/
def fetchFirst : List QueueCall :=
  [.add 128 (fun _ => none) 0 ⟨1, 0, 0, 7, 3⟩, .add 192 (fun _ => none) 0 ⟨2, 0, 0, 8, 4⟩,
    .get 7 ⟨1, 0, 0, 7, 3⟩]

theorem fifo_iff_fetchFirst :
    Fifo fetchFirst [] (createTaskAdmin 64 96 []) ↔ Benign fetchFirst [] :=
  fifo_iff 64 96 [] fetchFirst (by simp [fetchFirst, QueueCall.SysData, SLOT_TYPE_SYS_DESIGNATE,
    TASK_TYPE_DATA]) (by simp [fetchFirst, addedNodes]) (by simp [fetchFirst, addedNodes])

/-- A task and a `get_task` with another task at its pointer. -/
def unfetched : List QueueCall :=
  [.add 128 (fun _ => none) 0 ⟨1, 0, 0, 7, 3⟩, .get 7 ⟨0, 0, 0, 0, 0⟩]

/-- The task that was added is not delivered. -/
theorem not_fifo : ¬ ∀ (dataHead voiceHead : Addr) (uninit : List UInt8) (calls : List QueueCall),
    (∀ c ∈ calls, c.SysData) → (dataHead :: addedNodes calls).Nodup →
      0 ∉ dataHead :: addedNodes calls →
        Fifo calls [] (createTaskAdmin dataHead voiceHead uninit) := by
  intro h
  have hfifo := h 64 96 [] unfetched (by simp [unfetched, QueueCall.SysData,
    SLOT_TYPE_SYS_DESIGNATE, TASK_TYPE_DATA]) (by simp [unfetched, addedNodes])
    (by simp [unfetched, addedNodes])
  have hbenign := (@fifo_iff_benign (createTaskAdmin 64 96 []) unfetched [] rfl
    (LList.holds_init 64) (by simp [unfetched, QueueCall.SysData, SLOT_TYPE_SYS_DESIGNATE,
      TASK_TYPE_DATA]) (by simp [unfetched, addedNodes, createTaskAdmin, llistInit])
    (by simp [unfetched, addedNodes, createTaskAdmin, llistInit])).1 hfifo
  exact absurd hbenign.1 (by decide)

end HpiDriver
