import HpiDriver.DataStructure.HashListInv
import HpiDriver.Foundations.Simulation
import HpiDriver.TaskAdmin.Queue

/-!
# The board of a task admin

What the four containers of a task admin hold, apart from how they hold it: two sequences of tasks
and two collections of records (`Board`). A call of `add_task` puts its task into one of them, or
into none; a call of `get_task` takes the first one out of the sequence of the data tasks, unless it
finds its slot among the records. Every history of calls of a new admin does to the admin what it
does to the board (`runAdmin_board`), as long as the allocator hands out nodes that are not in use,
the memory can be read at the slot number of every task for a user-designated slot, and no
`get_task` goes for the sequence when fewer than two tasks are in it.
-/

namespace HpiDriver

open Simulation

/-! ## Boards -/

/-- A container of an admin. -/
inductive Container
  | dataSys
  | voiceSys
  | dataUser
  | voiceUser
  deriving DecidableEq

/-- The container that a task is for. -/
def Task.container (task : Task) : Option Container :=
  if task.slotType = SLOT_TYPE_SYS_DESIGNATE ∧ task.type = TASK_TYPE_DATA then some .dataSys
  else if task.slotType = SLOT_TYPE_SYS_DESIGNATE ∧ task.type = TASK_TYPE_VOICE then some .voiceSys
  else if task.slotType = SLOT_TYPE_USER_DESIGNATE ∧ task.type = TASK_TYPE_DATA then some .dataUser
  else if task.slotType = SLOT_TYPE_USER_DESIGNATE ∧ task.type = TASK_TYPE_VOICE then
    some .voiceUser
  else none

/-- The elements of the containers, each with its node, the records the newest first. The heads of
the two lists belong to the board as well, and the nodes that `get_task` has taken out: it does not
free them, so they are never handed out again. -/
structure Board where
  dataHead : Addr
  voiceHead : Addr
  dataSys : List (Addr × Task)
  voiceSys : List (Addr × Task)
  dataUser : List Record
  voiceUser : List Record
  fetched : List Addr

namespace Board

/-- A board with nothing on it. -/
def empty (dataHead voiceHead : Addr) : Board := ⟨dataHead, voiceHead, [], [], [], [], []⟩

/-- The nodes in use. -/
def nodes (b : Board) : List Addr :=
  b.dataHead :: b.voiceHead :: (b.dataSys.map Prod.fst ++ b.voiceSys.map Prod.fst ++
    b.dataUser.map Prod.fst ++ b.voiceUser.map Prod.fst ++ b.fetched)

/-- The record that `add_task` makes of a task at the node `n`. -/
def record (env : AddEnv) (task : Task) (n : Addr) : Record :=
  (n, env.taskKey task.slotNum ++ task.bytes env.padding)

/-- What `add_task` means; without a node nothing is added. -/
def add (env : AddEnv) (task : Task) (flag : UInt8) (b : Board) : Board :=
  if flag = TASK_FLAG_SND then
    match task.container, env.node with
    | some .dataSys, some n => { b with dataSys := b.dataSys ++ [(n, task)] }
    | some .voiceSys, some n => { b with voiceSys := b.voiceSys ++ [(n, task)] }
    | some .dataUser, some n => { b with dataUser := record env task n :: b.dataUser }
    | some .voiceUser, some n => { b with voiceUser := record env task n :: b.voiceUser }
    | _, _ => b
  else b

/-- When `add_task` may be called: the node is not in use, the lists need one, and the maps need
the memory at the number of the slot. -/
def AddOk (env : AddEnv) (task : Task) (flag : UInt8) (b : Board) : Prop :=
  flag = TASK_FLAG_SND → (∀ n ∈ env.node, n ∉ b.nodes) ∧
    (task.container = some .dataSys ∨ task.container = some .voiceSys → env.node ≠ none) ∧
    (task.container = some .dataUser ∨ task.container = some .voiceUser →
      env.Readable task.slotNum)

theorem forall_mem_toList_iff (o : Option Addr) (l : List Addr) :
    (∀ n ∈ o.toList, n ∉ l) ↔ ∀ n ∈ o, n ∉ l := by
  simp only [Option.mem_toList, Option.mem_def]

/-- Decided on the one address, not by running through all of them. -/
def decidableNotMem (o : Option Addr) (l : List Addr) : Decidable (∀ n ∈ o, n ∉ l) :=
  @decidable_of_iff _ (∀ n ∈ o.toList, n ∉ l) (forall_mem_toList_iff o l)
    (List.decidableBAll (fun n => n ∉ l) o.toList)

instance (env : AddEnv) (task : Task) (flag : UInt8) (b : Board) :
    Decidable (b.AddOk env task flag) :=
  have := decidableNotMem env.node b.nodes
  inferInstanceAs (Decidable (flag = TASK_FLAG_SND → _))

/-- `get_task` finds a record for the slot. -/
def Finds (slotNum : UInt16) (b : Board) : Prop :=
  ∃ r ∈ b.dataUser, r.2.take 2 = lookupKey slotNum

instance (slotNum : UInt16) (b : Board) : Decidable (b.Finds slotNum) :=
  inferInstanceAs (Decidable (∃ r ∈ b.dataUser, _))

/-- What `get_task` means. -/
def get (flag : UInt8) (slotNum : UInt16) (b : Board) : Board :=
  if flag = TASK_FLAG_SND ∧ ¬ b.Finds slotNum then
    match b.dataSys with
    | [] => b
    | e :: dataSys => { b with dataSys := dataSys, fetched := e.1 :: b.fetched }
  else b

/-- When `get_task` may be called: the list it takes a task from has another one. -/
def GetOk (flag : UInt8) (slotNum : UInt16) (b : Board) : Prop :=
  flag = TASK_FLAG_SND → ¬ b.Finds slotNum → 2 ≤ b.dataSys.length

instance (flag : UInt8) (slotNum : UInt16) (b : Board) : Decidable (b.GetOk flag slotNum) :=
  inferInstanceAs (Decidable (flag = TASK_FLAG_SND → _))

end Board

/-! ## Admins and boards -/

/-- A call of a function of the admin. -/
inductive AdminCall
  | add (env : AddEnv) (task : Task) (flag : UInt8)
  | get (flag : UInt8) (slotNum : UInt16) (out : Task)

namespace AdminCall

/-- The admin after a call. -/
def run : AdminCall → TaskAdmin → Option TaskAdmin
  | add env task flag, admin => addTask env task flag admin
  | get flag slotNum out, admin => (getTask admin flag slotNum out).map Got.admin

/-- What the call means. -/
def apply : AdminCall → Board → Board
  | add env task flag, b => b.add env task flag
  | get flag slotNum _, b => b.get flag slotNum

/-- When the call may come. -/
def Allowed : AdminCall → Board → Prop
  | add env task flag, b => b.AddOk env task flag
  | get flag slotNum _, b => b.GetOk flag slotNum

instance : (c : AdminCall) → (b : Board) → Decidable (c.Allowed b)
  | add env task flag, b => inferInstanceAs (Decidable (b.AddOk env task flag))
  | get flag slotNum _, b => inferInstanceAs (Decidable (b.GetOk flag slotNum))

end AdminCall

/-- The calls of an admin. -/
def adminCalls : Refinement AdminCall TaskAdmin Board where
  step := AdminCall.run
  next := AdminCall.apply
  Ok := AdminCall.Allowed

instance (c : AdminCall) (b : Board) : Decidable (adminCalls.Ok c b) :=
  inferInstanceAs (Decidable (c.Allowed b))

/-- The map holds the records, and all nodes that it has asked for. -/
structure UserMap (m : HashMap) (records : List Record) : Prop where
  holds : Holds m records
  config : m.config = ⟨2, 10, 10, defaultHashFunc, defaultKeyCmpFunc⟩
  live : m.live = records.map Prod.fst

/-- The containers of the admin hold what is on the board. -/
structure TaskAdmin.Shows (admin : TaskAdmin) (b : Board) : Prop where
  dataSys : admin.dataSysDesignateSlot.Holds b.dataSys
  dataHead : admin.dataSysDesignateSlot.head = b.dataHead
  voiceSys : admin.voiceSysDesignateSlot.Holds b.voiceSys
  voiceHead : admin.voiceSysDesignateSlot.head = b.voiceHead
  dataUser : UserMap admin.dataUserDesignateSlot b.dataUser
  voiceUser : UserMap admin.voiceUserDesignateSlot b.voiceUser
  keyLen : admin.pair.keyLen = 2
  valueLen : admin.pair.valueLen = 8

namespace UserMap

variable {m : HashMap} {records : List Record}

/-- The maps of a new admin. -/
theorem init : UserMap (hashMapInit 2 10 10 defaultHashFunc defaultKeyCmpFunc) [] where
  holds := Holds.init (by decide) _ _
  config := rfl
  live := rfl

/-- A new record is put in front of the others. -/
theorem insert (h : UserMap m records) {r : Record} (hfresh : r.1 ∉ records.map Prod.fst)
    (hlen : r.2.length = 10) : UserMap (hashMapInsert m (some r.1) r.2).2 (r :: records) where
  holds := by
    apply h.holds.insert
    · rwa [h.live]
    · rw [hlen]
      exact (congrArg MapConfig.dataSize h.config).symm
    · exact hashMapInsert_default h.holds.bucketSize_pos (congrArg MapConfig.hashFunc h.config) _ _
  config := (config_hashMapInsert ..).trans h.config
  live := by rw [live_hashMapInsert, h.live, List.map_cons]

/-- The lookup of a key finds the newest record with it. -/
theorem search (h : UserMap m records) {key : List UInt8} (hkey : key.length = 2) :
    (hashMapSearch m key).hlistNodeP =
      (records.find? fun r => r.2.take 2 = key).map Prod.fst := by
  have hkeySize : m.keySize = 2 := congrArg MapConfig.keySize h.config
  have hdataSize : m.dataSize = 10 := congrArg MapConfig.dataSize h.config
  rw [h.holds.search_default (congrArg MapConfig.hashFunc h.config)
    (congrArg MapConfig.keyCmpFunc h.config) (by omega) (by omega), hkeySize, ← hkey,
    List.take_length]

end UserMap

/-! ## One call -/

section Add

variable {admin : TaskAdmin} {b : Board} {env : AddEnv} {task : Task} {n : Addr}

/-- Where `add_task` puts a task. -/
theorem addTask_eq (env : AddEnv) (task : Task) (admin : TaskAdmin) :
    addTask env task TASK_FLAG_SND admin =
      match task.container with
      | some .dataSys => (llistPushBack env.node task admin.dataSysDesignateSlot).map fun llist =>
          { admin with dataSysDesignateSlot := llist }
      | some .voiceSys => (llistPushBack env.node task admin.voiceSysDesignateSlot).map fun llist =>
          { admin with voiceSysDesignateSlot := llist }
      | some .dataUser => (makeTaskPair env admin.pair task).map fun pair => { admin with
          pair := pair
          dataUserDesignateSlot :=
            (hashMapInsert admin.dataUserDesignateSlot env.node pair.data).2 }
      | some .voiceUser => (makeTaskPair env admin.pair task).map fun pair => { admin with
          pair := pair
          voiceUserDesignateSlot :=
            (hashMapInsert admin.voiceUserDesignateSlot env.node pair.data).2 }
      | none => some admin := by
  unfold addTask Task.container
  rw [if_neg (by decide), if_pos rfl]
  split_ifs
  · exact Option.map_eq_bind.symm
  · exact Option.map_eq_bind.symm
  · exact Option.map_eq_bind.symm
  · exact Option.map_eq_bind.symm
  · rfl

/-- The record that `add_task` makes. -/
theorem exists_makeTaskPair (hread : env.Readable task.slotNum) (hkey : admin.pair.keyLen = 2)
    (hvalue : admin.pair.valueLen = 8) :
    ∃ pair, makeTaskPair env admin.pair task = some pair ∧ pair.keyLen = 2 ∧ pair.valueLen = 8 ∧
      ∀ n, pair.data = (Board.record env task n).2 := by
  refine ⟨_, makeTaskPair_eq hkey hread, hkey, hvalue, fun n => ?_⟩
  simp [makePair, hkey, hvalue, Board.record, AddEnv.taskKey, Task.bytes]

/-- Where the memory cannot be read, a task for a user-designated slot is not added. -/
theorem addTask_eq_none (hcontainer : task.container = some .dataUser ∨
    task.container = some .voiceUser) (hkey : admin.pair.keyLen = 2)
    (hread : ¬ env.Readable task.slotNum) : addTask env task TASK_FLAG_SND admin = none := by
  rw [addTask_eq]
  rcases hcontainer with hc | hc
  · simp only [hc, makeTaskPair_eq_none hkey hread, Option.map_none]
  · simp only [hc, makeTaskPair_eq_none hkey hread, Option.map_none]

/-- The nodes of the containers are in use. -/
theorem Board.notMem_nodes (h : n ∉ b.nodes) : (n ≠ b.dataHead ∧ n ≠ b.voiceHead) ∧
    n ∉ b.dataSys.map Prod.fst ∧ n ∉ b.voiceSys.map Prod.fst ∧
      n ∉ b.dataUser.map Prod.fst ∧ n ∉ b.voiceUser.map Prod.fst := by
  simp only [Board.nodes, List.mem_cons, List.mem_append, not_or] at h
  tauto

/-- A map takes a record, or nothing when there is no node for it. -/
theorem UserMap.add {m : HashMap} {records : List Record} (h : UserMap m records)
    (hfresh : ∀ n ∈ env.node, n ∉ records.map Prod.fst) {data : List UInt8}
    (hdata : ∀ n, data = (Board.record env task n).2) :
    UserMap (hashMapInsert m env.node data).2
      (match env.node with
        | some n => Board.record env task n :: records
        | none => records) := by
  cases hnode : env.node with
  | none => exact h
  | some n =>
    rw [hdata n]
    exact h.insert (hfresh n hnode) (by simp [Board.record, AddEnv.taskKey, Task.bytes])

/-- **`add_task` does what it means.** -/
theorem TaskAdmin.Shows.add (h : admin.Shows b) {flag : UInt8} (hok : b.AddOk env task flag) :
    ∃ admin', addTask env task flag admin = some admin' ∧ admin'.Shows (b.add env task flag) := by
  by_cases hflag : flag = TASK_FLAG_SND
  · subst hflag
    obtain ⟨hfresh, hnode, hread⟩ := hok rfl
    rw [addTask_eq, Board.add, if_pos rfl]
    cases hc : task.container with
    | none => exact ⟨admin, rfl, h⟩
    | some c =>
      cases c with
      | dataSys =>
        obtain ⟨n, hn⟩ := Option.ne_none_iff_exists'.1 (hnode (.inl hc))
        obtain ⟨⟨hd, -⟩, hfresh, -⟩ := Board.notMem_nodes (hfresh n hn)
        obtain ⟨llist, hpush, hhead, hholds⟩ := h.dataSys.pushBack (p := n)
          (by rw [h.dataHead]; simpa [hd] using hfresh) task
        simp only [hn, hpush, Option.map_some]
        exact ⟨_, rfl, { h with dataSys := hholds, dataHead := hhead.trans h.dataHead }⟩
      | voiceSys =>
        obtain ⟨n, hn⟩ := Option.ne_none_iff_exists'.1 (hnode (.inr hc))
        obtain ⟨⟨-, hv⟩, -, hfresh, -⟩ := Board.notMem_nodes (hfresh n hn)
        obtain ⟨llist, hpush, hhead, hholds⟩ := h.voiceSys.pushBack (p := n)
          (by rw [h.voiceHead]; simpa [hv] using hfresh) task
        simp only [hn, hpush, Option.map_some]
        exact ⟨_, rfl, { h with voiceSys := hholds, voiceHead := hhead.trans h.voiceHead }⟩
      | dataUser =>
        obtain ⟨pair, hpair, hkey, hvalue, hdata⟩ :=
          exists_makeTaskPair (hread (.inl hc)) h.keyLen h.valueLen
        have hmap := h.dataUser.add
          (fun n hn => (Board.notMem_nodes (hfresh n hn)).2.2.2.1) hdata
        simp only [hpair, Option.map_some]
        refine ⟨_, rfl, ?_⟩
        cases hn : env.node with
        | none => exact { h with keyLen := hkey, valueLen := hvalue }
        | some n =>
          rw [hn] at hmap
          exact { h with dataUser := hmap, keyLen := hkey, valueLen := hvalue }
      | voiceUser =>
        obtain ⟨pair, hpair, hkey, hvalue, hdata⟩ :=
          exists_makeTaskPair (hread (.inr hc)) h.keyLen h.valueLen
        have hmap := h.voiceUser.add
          (fun n hn => (Board.notMem_nodes (hfresh n hn)).2.2.2.2) hdata
        simp only [hpair, Option.map_some]
        refine ⟨_, rfl, ?_⟩
        cases hn : env.node with
        | none => exact { h with keyLen := hkey, valueLen := hvalue }
        | some n =>
          rw [hn] at hmap
          exact { h with voiceUser := hmap, keyLen := hkey, valueLen := hvalue }
  · refine ⟨admin, ?_, ?_⟩
    · unfold addTask
      rw [if_neg hflag]
      exact ite_self _
    · rwa [Board.add, if_neg hflag]

/-- The search of `get_task` finds a record exactly when there is one for the slot. -/
theorem TaskAdmin.Shows.search_ne_none (h : admin.Shows b) (slotNum : UInt16) :
    (hashMapSearch admin.dataUserDesignateSlot (lookupKey slotNum)).hlistNodeP ≠ none ↔
      b.Finds slotNum := by
  rw [h.dataUser.search rfl, ne_eq, Option.map_eq_none_iff, List.find?_eq_none, Board.Finds]
  simp

/-- **`get_task` does what it means.** -/
theorem TaskAdmin.Shows.get (h : admin.Shows b) {flag : UInt8} {slotNum : UInt16}
    (hok : b.GetOk flag slotNum) (out : Task) :
    ∃ got, getTask admin flag slotNum out = some got ∧ got.admin.Shows (b.get flag slotNum) := by
  unfold getTask Board.get
  by_cases hflag : flag = TASK_FLAG_SND
  · subst hflag
    rw [if_neg (by decide), if_pos rfl, getTaskState, if_pos one_ne_zero]
    by_cases hfinds : b.Finds slotNum
    · rw [if_pos ((h.search_ne_none slotNum).2 hfinds), if_neg fun h => h.2 hfinds]
      exact ⟨_, rfl, h⟩
    · rw [if_neg (mt (h.search_ne_none slotNum).1 hfinds), if_pos ⟨rfl, hfinds⟩]
      have hlen := hok rfl hfinds
      have hdata := h.dataSys
      cases hlog : b.dataSys with
      | nil =>
        rw [hlog] at hlen
        exact absurd hlen (by decide)
      | cons e dataSys =>
        rw [hlog] at hlen hdata
        have hne : dataSys ≠ [] := by
          rintro rfl
          simp at hlen
        obtain ⟨m', hdetach, hhead, -, hholds, -⟩ := detachFront_cons hdata
        simp only [hdetach, Option.bind_eq_bind, Option.bind_some]
        have hshows : ({ admin with dataSysDesignateSlot := m' } : TaskAdmin).Shows
            { b with dataSys := dataSys, fetched := e.1 :: b.fetched } :=
          { h with dataSys := hholds hne, dataHead := hhead.trans h.dataHead }
        split_ifs
        · exact ⟨_, rfl, hshows⟩
        · exact ⟨_, rfl, hshows⟩
  · have hnot : ¬ (flag = TASK_FLAG_SND ∧ ¬ b.Finds slotNum) := fun hget => hflag hget.1
    dsimp only
    rw [if_neg hflag, if_neg hnot, ite_self]
    exact ⟨_, rfl, h⟩

end Add

/-! ## Histories -/

/-- **One call does to the admin what it does to the board.** -/
theorem adminCalls_simulates : adminCalls.Simulates TaskAdmin.Shows := by
  rintro (⟨env, task, flag⟩ | ⟨flag, slotNum, out⟩) admin b h hok
  · exact h.add hok
  · obtain ⟨got, hgot, hshows⟩ := h.get hok out
    refine ⟨got.admin, ?_, hshows⟩
    change (getTask admin flag slotNum out).map Got.admin = _
    rw [hgot]
    rfl

/-- A new admin shows an empty board. -/
theorem shows_createTaskAdmin (dataHead voiceHead : Addr) (uninit : List UInt8) :
    (createTaskAdmin dataHead voiceHead uninit).Shows (.empty dataHead voiceHead) where
  dataSys := LList.holds_init dataHead
  dataHead := rfl
  voiceSys := LList.holds_init voiceHead
  voiceHead := rfl
  dataUser := .init
  voiceUser := .init
  keyLen := rfl
  valueLen := rfl

/-- **The four containers of a task admin.** After every history of calls of a new admin, the two
lists hold the tasks that were added to them, in order and less those that `get_task` has taken,
and in each of the two maps there is one record for each task that was added to it; a search finds
the newest record with its key. No call touches another container than its own. -/
theorem runAdmin_board (dataHead voiceHead : Addr) (uninit : List UInt8) (calls : List AdminCall)
    (hok : adminCalls.Admissible calls (.empty dataHead voiceHead)) :
    ∃ admin, adminCalls.run calls (createTaskAdmin dataHead voiceHead uninit) = some admin ∧
      let b := adminCalls.after calls (.empty dataHead voiceHead)
      llistContents admin.dataSysDesignateSlot = some (b.dataSys.map Prod.snd) ∧
      llistContents admin.voiceSysDesignateSlot = some (b.voiceSys.map Prod.snd) ∧
      ∀ c ∈ [(admin.dataUserDesignateSlot, b.dataUser),
          (admin.voiceUserDesignateSlot, b.voiceUser)],
        (∃ ps, hashMapForEach c.1 = some ps ∧
          (ps.map HashMapPos.hlistNodeP).Perm (c.2.map fun r => some r.1)) ∧
        ∀ key : List UInt8, key.length = 2 → (hashMapSearch c.1 key).hlistNodeP =
          (c.2.find? fun r => r.2.take 2 = key).map Prod.fst := by
  obtain ⟨admin, hrun, h⟩ :=
    adminCalls_simulates.run (shows_createTaskAdmin dataHead voiceHead uninit) hok
  refine ⟨admin, hrun, h.dataSys.contents, h.voiceSys.contents, ?_⟩
  intro c hc
  have hmap : UserMap c.1 c.2 := by
    rcases List.mem_pair.1 hc with rfl | rfl
    · exact h.dataUser
    · exact h.voiceUser
  exact ⟨⟨_, hmap.holds.forEach, hmap.holds.perm_allPositions⟩, fun key hkey => hmap.search hkey⟩

/-- A task for the first list, one for a slot of the user, and another one for the list; the first
one is fetched. -/
def mixedCalls : List AdminCall :=
  [.add ⟨some 128, fun _ => none, 0⟩ ⟨1, TASK_TYPE_DATA, SLOT_TYPE_SYS_DESIGNATE, 7, 3⟩
      TASK_FLAG_SND,
    .add ⟨some 192, fun _ => some 5, 0⟩ ⟨2, TASK_TYPE_VOICE, SLOT_TYPE_USER_DESIGNATE, 8, 4⟩
      TASK_FLAG_SND,
    .add ⟨some 256, fun _ => none, 0⟩ ⟨3, TASK_TYPE_DATA, SLOT_TYPE_SYS_DESIGNATE, 9, 3⟩
      TASK_FLAG_SND,
    .get TASK_FLAG_SND 7 ⟨0, 0, 0, 0, 0⟩]

theorem runAdmin_board_mixedCalls :
    ∃ admin, adminCalls.run mixedCalls (createTaskAdmin 64 96 []) = some admin ∧
      let b := adminCalls.after mixedCalls (.empty 64 96)
      llistContents admin.dataSysDesignateSlot = some (b.dataSys.map Prod.snd) ∧
      llistContents admin.voiceSysDesignateSlot = some (b.voiceSys.map Prod.snd) ∧
      ∀ c ∈ [(admin.dataUserDesignateSlot, b.dataUser),
          (admin.voiceUserDesignateSlot, b.voiceUser)],
        (∃ ps, hashMapForEach c.1 = some ps ∧
          (ps.map HashMapPos.hlistNodeP).Perm (c.2.map fun r => some r.1)) ∧
        ∀ key : List UInt8, key.length = 2 → (hashMapSearch c.1 key).hlistNodeP =
          (c.2.find? fun r => r.2.take 2 = key).map Prod.fst :=
  runAdmin_board 64 96 [] mixedCalls (by decide +kernel)

end HpiDriver
