import HpiDriver.DataStructure.HashList
import HpiDriver.DataStructure.LinkList

/-!
# The task admins

`task_admin/task_admin.c`: the queues of the tasks of one slot. Tasks for a slot that the system
designates wait in two linked lists, one for data and one for voice; tasks for a slot that the user
designates are kept in two hash maps under the slot number.
-/

namespace HpiDriver

/-- `TASK_FLAG_RCV` -/
def TASK_FLAG_RCV : UInt8 := 0

/-- `TASK_FLAG_SND` -/
def TASK_FLAG_SND : UInt8 := 1

/-- `TASK_TYPE_DATA` -/
def TASK_TYPE_DATA : UInt8 := 0

/-- `TASK_TYPE_VOICE` -/
def TASK_TYPE_VOICE : UInt8 := 1

/-- `SLOT_TYPE_SYS_DESIGNATE` -/
def SLOT_TYPE_SYS_DESIGNATE : UInt8 := 0

/-- `SLOT_TYPE_USER_DESIGNATE` -/
def SLOT_TYPE_USER_DESIGNATE : UInt8 := 1

/-- `CHC_STATE_MAINC_CHANNEL` -/
def CHC_STATE_MAINC_CHANNEL : UInt8 := 3

/-- `CHC_STATE_VOICE_CHANNEL` -/
def CHC_STATE_VOICE_CHANNEL : UInt8 := 4

/-- `CHC_STATE_DATA_CHANNEL` -/
def CHC_STATE_DATA_CHANNEL : UInt8 := 9

/-- `task_t` -/
structure Task where
  data : UInt8
  type : UInt8
  slotType : UInt8
  slotNum : UInt16
  tactInfo : UInt16
  deriving DecidableEq

/-- `sizeof(task_t)` -/
def sizeofTask : ℕ := 8

/-- The bytes of a task in memory, in front of its `uint16_t` members one byte of padding. -/
def Task.bytes (t : Task) (padding : UInt8) : List UInt8 :=
  [t.data, t.type, t.slotType, padding, t.slotNum.toUInt8, (t.slotNum >>> 8).toUInt8,
    t.tactInfo.toUInt8, (t.tactInfo >>> 8).toUInt8]

/-- `task_admin_t` -/
structure TaskAdmin where
  pair : Pair
  dataSysDesignateSlot : LList Task
  voiceSysDesignateSlot : LList Task
  dataUserDesignateSlot : HashMap
  voiceUserDesignateSlot : HashMap

/-- `create_task_admin`; the allocator hands out the head nodes of the two lists, and the block of
the pair, with `uninit` in it. -/
def createTaskAdmin (dataHead voiceHead : Addr) (uninit : List UInt8) : TaskAdmin :=
  let keySize := 2
  let dataSize := sizeofTask
  let bucketSize := 10
  { pair := createPair keySize dataSize uninit
    dataSysDesignateSlot := llistInit dataHead
    voiceSysDesignateSlot := llistInit voiceHead
    dataUserDesignateSlot :=
      hashMapInit keySize (dataSize + keySize) bucketSize defaultHashFunc defaultKeyCmpFunc
    voiceUserDesignateSlot :=
      hashMapInit keySize (dataSize + keySize) bucketSize defaultHashFunc defaultKeyCmpFunc }

/-- What a call of `add_task` finds: the answer of the allocator, the memory of the machine, which
cannot be read everywhere, and the padding of the task. -/
structure AddEnv where
  node : Option Addr
  mem : Addr → Option UInt8
  padding : UInt8

/-- The call of `make_pair` in `add_task`. It is handed the slot number where a pointer to the key
is expected, so the key is what the memory holds at that address, if it can be read there. -/
def makeTaskPair (env : AddEnv) (pair : Pair) (task : Task) : Option Pair := do
  let key ← (List.range pair.keyLen).mapM fun i =>
    env.mem (task.slotNum.toUInt32 + UInt32.ofNat i)
  some (makePair pair key (task.bytes env.padding))

/-- `add_task` -/
def addTask (env : AddEnv) (task : Task) (flag : UInt8) (admin : TaskAdmin) : Option TaskAdmin :=
  if flag = TASK_FLAG_RCV then some admin
  else if flag = TASK_FLAG_SND then
    if task.slotType = SLOT_TYPE_SYS_DESIGNATE ∧ task.type = TASK_TYPE_DATA then do
      let llist ← llistPushBack env.node task admin.dataSysDesignateSlot
      some { admin with dataSysDesignateSlot := llist }
    else if task.slotType = SLOT_TYPE_SYS_DESIGNATE ∧ task.type = TASK_TYPE_VOICE then do
      let llist ← llistPushBack env.node task admin.voiceSysDesignateSlot
      some { admin with voiceSysDesignateSlot := llist }
    else if task.slotType = SLOT_TYPE_USER_DESIGNATE ∧ task.type = TASK_TYPE_DATA then do
      let pair ← makeTaskPair env admin.pair task
      some { admin with
        pair := pair
        dataUserDesignateSlot :=
          (hashMapInsert admin.dataUserDesignateSlot env.node pair.data).2 }
    else if task.slotType = SLOT_TYPE_USER_DESIGNATE ∧ task.type = TASK_TYPE_VOICE then do
      let pair ← makeTaskPair env admin.pair task
      some { admin with
        pair := pair
        voiceUserDesignateSlot :=
          (hashMapInsert admin.voiceUserDesignateSlot env.node pair.data).2 }
    else some admin
  else some admin

/-- `get_task_state` -/
def getTaskState (_admin : TaskAdmin) (_type : UInt8) : ℤ := 1

/-- The key that `get_task` looks for: `&&` leaves `1` or `0` of each byte of the slot number. -/
def lookupKey (slotNum : UInt16) : List UInt8 :=
  [if slotNum >>> 8 ≠ 0 then 1 else 0, if slotNum ≠ 0 then 1 else 0]

/-- What a call of `get_task` leaves: its result, the task it was handed and the admin. -/
structure Got where
  ret : ℤ
  task : Task
  admin : TaskAdmin

/-- `get_task`; `task` is what its pointer leads to. -/
def getTask (admin : TaskAdmin) (flag : UInt8) (slotNum : UInt16) (task : Task) : Option Got :=
  let ret := -1
  if flag = TASK_FLAG_RCV then some ⟨ret, task, admin⟩
  else if flag = TASK_FLAG_SND then
    if getTaskState admin CHC_STATE_MAINC_CHANNEL ≠ 0 then
      let pos := hashMapSearch admin.dataUserDesignateSlot (lookupKey slotNum)
      if pos.hlistNodeP ≠ none then some ⟨1, task, admin⟩
      else do
        let (list, llist) ← llistDetachFront admin.dataSysDesignateSlot
        let admin := { admin with dataSysDesignateSlot := llist }
        if list ≠ 0 then some ⟨1, task, admin⟩ else some ⟨ret, task, admin⟩
    else if getTaskState admin CHC_STATE_VOICE_CHANNEL ≠ 0 then some ⟨ret, task, admin⟩
    else if getTaskState admin CHC_STATE_DATA_CHANNEL ≠ 0 then some ⟨ret, task, admin⟩
    else some ⟨ret, task, admin⟩
  else some ⟨ret, task, admin⟩

/-- The queue of system-designated data tasks holds `log`, and all other queues are empty. -/
structure TaskAdmin.Queues (admin : TaskAdmin) (log : List (Addr × Task)) : Prop where
  dataSys : admin.dataSysDesignateSlot.Holds log
  voiceSys : admin.voiceSysDesignateSlot.Holds []
  dataUser : hashMapForEach admin.dataUserDesignateSlot = some []
  voiceUser : hashMapForEach admin.voiceUserDesignateSlot = some []

/-- All queues of a new task admin are empty. -/
theorem queues_createTaskAdmin (dataHead voiceHead : Addr) (uninit : List UInt8) :
    (createTaskAdmin dataHead voiceHead uninit).Queues [] where
  dataSys := LList.holds_init dataHead
  voiceSys := LList.holds_init voiceHead
  dataUser := rfl
  voiceUser := rfl

/-- The two bytes at the address that is the slot number can be read. -/
def AddEnv.Readable (env : AddEnv) (slotNum : UInt16) : Prop :=
  (env.mem slotNum.toUInt32).isSome ∧ (env.mem (slotNum.toUInt32 + 1)).isSome

instance (env : AddEnv) (slotNum : UInt16) : Decidable (env.Readable slotNum) :=
  inferInstanceAs (Decidable (_ ∧ _))

/-- The two bytes at the address that is the slot number, where they can be read. -/
def AddEnv.taskKey (env : AddEnv) (slotNum : UInt16) : List UInt8 :=
  [(env.mem slotNum.toUInt32).getD 0, (env.mem (slotNum.toUInt32 + 1)).getD 0]

section Pair

variable {env : AddEnv} {pair : Pair} {task : Task}

/-- The key of a task is read from the memory. -/
theorem makeTaskPair_eq (hkey : pair.keyLen = 2) (h : env.Readable task.slotNum) :
    makeTaskPair env pair task =
      some (makePair pair (env.taskKey task.slotNum) (task.bytes env.padding)) := by
  obtain ⟨h₀, h₁⟩ := h
  obtain ⟨x, hx⟩ := Option.isSome_iff_exists.1 h₀
  obtain ⟨y, hy⟩ := Option.isSome_iff_exists.1 h₁
  simp [makeTaskPair, hkey, List.range_succ, AddEnv.taskKey, hx, hy]

/-- Where the memory cannot be read, `make_pair` does not come back. -/
theorem makeTaskPair_eq_none (hkey : pair.keyLen = 2) (h : ¬ env.Readable task.slotNum) :
    makeTaskPair env pair task = none := by
  have hmem : env.mem task.slotNum.toUInt32 = none ∨
      env.mem (task.slotNum.toUInt32 + 1) = none := by
    simp only [← Option.not_isSome_iff_eq_none]
    exact not_and_or.1 h
  rcases hmem with h₀ | h₁
  · simp [makeTaskPair, hkey, List.range_succ, h₀]
  · simp [makeTaskPair, hkey, List.range_succ, h₁]

end Pair

/-- A data task for a system-designated slot goes to the end of its list. -/
theorem addTask_sysData (env : AddEnv) {task : Task}
    (hslot : task.slotType = SLOT_TYPE_SYS_DESIGNATE) (htype : task.type = TASK_TYPE_DATA)
    (admin : TaskAdmin) :
    addTask env task TASK_FLAG_SND admin =
      (llistPushBack env.node task admin.dataSysDesignateSlot).map fun llist =>
        { admin with dataSysDesignateSlot := llist } := by
  unfold addTask
  rw [if_neg (by decide), if_pos rfl, if_pos ⟨hslot, htype⟩]
  exact Option.map_eq_bind.symm

/-- Sending a data task for a system-designated slot puts it at the end of its queue. -/
theorem TaskAdmin.Queues.addTask {admin : TaskAdmin} {log : List (Addr × Task)}
    (h : admin.Queues log) {env : AddEnv} {n : Addr} (hn : env.node = some n)
    (hfresh : n ∉ admin.dataSysDesignateSlot.head :: log.map Prod.fst) {task : Task}
    (hslot : task.slotType = SLOT_TYPE_SYS_DESIGNATE) (htype : task.type = TASK_TYPE_DATA) :
    ∃ admin', HpiDriver.addTask env task TASK_FLAG_SND admin = some admin' ∧
      admin'.dataSysDesignateSlot.head = admin.dataSysDesignateSlot.head ∧
      admin'.Queues (log ++ [(n, task)]) := by
  obtain ⟨llist, hpush, hhead, hholds⟩ := h.dataSys.pushBack hfresh task
  refine ⟨{ admin with dataSysDesignateSlot := llist }, ?_, hhead,
    ⟨hholds, h.voiceSys, h.dataUser, h.voiceUser⟩⟩
  rw [addTask_sysData env hslot htype, hn, hpush]
  rfl

end HpiDriver
