import HpiDriver.DataStructure.HashListInv
import HpiDriver.TaskAdmin

/-!
# The tasks for user-designated slots

`add_task` stores a task for a user-designated slot under the two bytes at the address that its slot
number is taken for; `get_task` looks for a key of zeros and ones. So whether a task is found is up
to what the memory holds at its slot number (`search_addUserTasks`), and tasks are found under their
slot number in every memory only where there are none (`findsUserTasks_iff`).
-/

namespace HpiDriver

/-- A call of `add_task` with a data task for a user-designated slot. -/
structure UserAdd where
  node : Addr
  padding : UInt8
  task : Task
  slotType_eq : task.slotType = SLOT_TYPE_USER_DESIGNATE
  type_eq : task.type = TASK_TYPE_DATA

/-- What a call finds in a memory with `mem` in it, which can be read everywhere. -/
def UserAdd.env (mem : Addr → UInt8) (a : UserAdd) : AddEnv :=
  ⟨some a.node, fun p => some (mem p), a.padding⟩

/-- One call after another, in a memory with `mem` in it. -/
def addUserTasks (mem : Addr → UInt8) (adds : List UserAdd) (admin : TaskAdmin) :
    Option TaskAdmin :=
  adds.foldlM (fun admin a => addTask (a.env mem) a.task TASK_FLAG_SND admin) admin

/-- The two bytes in memory at the address that is the slot number. -/
def slotKey (mem : Addr → UInt8) (slotNum : UInt16) : List UInt8 :=
  [mem slotNum.toUInt32, mem (slotNum.toUInt32 + 1)]

/-- The record that a call stores. -/
def UserAdd.record (mem : Addr → UInt8) (a : UserAdd) : Addr × List UInt8 :=
  (a.node, slotKey mem a.task.slotNum ++ a.task.bytes a.padding)

/-! ## What is stored -/

section Store

variable {admin : TaskAdmin}

/-- A data task for a user-designated slot goes to its map. -/
theorem addTask_userData (mem : Addr → UInt8) (a : UserAdd) (hkey : admin.pair.keyLen = 2)
    (hvalue : admin.pair.valueLen = 8) :
    ∃ admin', addTask (a.env mem) a.task TASK_FLAG_SND admin = some admin' ∧
      admin'.pair.keyLen = 2 ∧ admin'.pair.valueLen = 8 ∧
      admin'.dataUserDesignateSlot =
        (hashMapInsert admin.dataUserDesignateSlot (some a.node) (a.record mem).2).2 := by
  have hpair : makeTaskPair (a.env mem) admin.pair a.task =
      some (makePair admin.pair (slotKey mem a.task.slotNum) (a.task.bytes a.padding)) :=
    makeTaskPair_eq hkey ⟨rfl, rfl⟩
  have hdata : (makePair admin.pair (slotKey mem a.task.slotNum) (a.task.bytes a.padding)).data =
      (a.record mem).2 := by
    simp [makePair, hkey, hvalue, UserAdd.record, slotKey, Task.bytes]
  refine ⟨{ admin with
    pair := makePair admin.pair (slotKey mem a.task.slotNum) (a.task.bytes a.padding)
    dataUserDesignateSlot :=
      (hashMapInsert admin.dataUserDesignateSlot (some a.node) (a.record mem).2).2 },
    ?_, hkey, hvalue, rfl⟩
  unfold addTask
  rw [if_neg (by decide), if_pos rfl, a.slotType_eq, a.type_eq, if_neg (by decide),
    if_neg (by decide), if_pos ⟨rfl, rfl⟩, hpair, Option.bind_eq_bind, Option.bind_some, ← hdata]
  rfl

/-- The map of user-designated data tasks after some calls. -/
theorem exists_addUserTasks (mem : Addr → UInt8) (adds : List UserAdd)
    (hkey : admin.pair.keyLen = 2) (hvalue : admin.pair.valueLen = 8) :
    ∃ admin', addUserTasks mem adds admin = some admin' ∧
      admin'.dataUserDesignateSlot = (adds.map (UserAdd.record mem)).foldl
        (fun m r => (hashMapInsert m (some r.1) r.2).2) admin.dataUserDesignateSlot := by
  induction adds generalizing admin with
  | nil => exact ⟨admin, rfl, rfl⟩
  | cons a adds ih =>
    obtain ⟨admin₁, hadd, hkey₁, hvalue₁, hmap₁⟩ := addTask_userData mem a hkey hvalue
    obtain ⟨admin₂, hadds, hmap₂⟩ := ih hkey₁ hvalue₁
    refine ⟨admin₂, ?_, ?_⟩
    · rw [addUserTasks, List.foldlM_cons, hadd]
      exact hadds
    · rw [hmap₂, hmap₁]
      rfl

/-- **What `get_task` finds in the map.** The lookup leads to the task that was added last among
those whose slot number is the address of the key that is looked for. -/
theorem search_addUserTasks (mem : Addr → UInt8) (dataHead voiceHead : Addr) (uninit : List UInt8)
    {adds : List UserAdd} (hnodes : (adds.map UserAdd.node).Nodup) (slotNum : UInt16) :
    ∃ admin, addUserTasks mem adds (createTaskAdmin dataHead voiceHead uninit) = some admin ∧
      (hashMapSearch admin.dataUserDesignateSlot (lookupKey slotNum)).hlistNodeP =
        (adds.reverse.find? fun a => slotKey mem a.task.slotNum = lookupKey slotNum).map
          UserAdd.node := by
  obtain ⟨admin, hadds, hmap⟩ := exists_addUserTasks mem adds
    (show (createTaskAdmin dataHead voiceHead uninit).pair.keyLen = 2 from rfl) rfl
  refine ⟨admin, hadds, ?_⟩
  -- the map holds the records of the tasks, the newest first
  have hinit : Holds (hashMapInit 2 10 10 defaultHashFunc defaultKeyCmpFunc) [] :=
    Holds.init (by decide) _ _
  have hnodup : ((adds.map (UserAdd.record mem)).map Prod.fst).Nodup := by
    simpa [Function.comp_def, UserAdd.record] using hnodes
  have hholds := hinit.foldl_insert rfl hnodup (fun _ _ => List.not_mem_nil)
    (fun r hr => by
      obtain ⟨a, -, rfl⟩ := List.mem_map.1 hr
      rfl)
  have hconfig := config_foldl_insert (hashMapInit 2 10 10 defaultHashFunc defaultKeyCmpFunc)
    (adds.map (UserAdd.record mem))
  have hmap' : admin.dataUserDesignateSlot = (adds.map (UserAdd.record mem)).foldl
      (fun m r => (hashMapInsert m (some r.1) r.2).2)
      (hashMapInit 2 10 10 defaultHashFunc defaultKeyCmpFunc) := hmap
  rw [← hmap'] at hholds hconfig
  have hkeySize : admin.dataUserDesignateSlot.keySize = 2 := congrArg MapConfig.keySize hconfig
  have hdataSize : admin.dataUserDesignateSlot.dataSize = 10 :=
    congrArg MapConfig.dataSize hconfig
  rw [hholds.search_default (congrArg MapConfig.hashFunc hconfig)
    (congrArg MapConfig.keyCmpFunc hconfig) (by omega) (by rw [hkeySize]; rfl), hkeySize,
    List.append_nil, ← List.map_reverse, List.find?_map, Option.map_map]
  rfl

end Store

/-! ## Finding tasks -/

/-- After the calls `get_task` looks up a record exactly when a task for the slot was added, and
that of such a task. -/
def FindsUserTasks (mem : Addr → UInt8) (adds : List UserAdd) (slotNum : UInt16)
    (admin : TaskAdmin) : Prop :=
  ∃ admin', addUserTasks mem adds admin = some admin' ∧
    ((hashMapSearch admin'.dataUserDesignateSlot (lookupKey slotNum)).hlistNodeP ≠ none ↔
      ∃ a ∈ adds, a.task.slotNum = slotNum) ∧
    ∀ n, (hashMapSearch admin'.dataUserDesignateSlot (lookupKey slotNum)).hlistNodeP = some n →
      ∃ a ∈ adds, a.node = n ∧ a.task.slotNum = slotNum

/-- Where no task was added none is found. -/
theorem findsUserTasks_nil (mem : Addr → UInt8) (dataHead voiceHead : Addr) (uninit : List UInt8)
    (slotNum : UInt16) :
    FindsUserTasks mem [] slotNum (createTaskAdmin dataHead voiceHead uninit) := by
  obtain ⟨admin, hadds, hsearch⟩ :=
    search_addUserTasks mem dataHead voiceHead uninit (show ([].map UserAdd.node).Nodup from
      List.nodup_nil) slotNum
  refine ⟨admin, hadds, ?_, ?_⟩
  · simp [hsearch]
  · simp [hsearch]

/-- **When user-designated tasks are found under their slot number.** For nodes that the allocator
hands out once, `get_task` finds a record for a slot exactly when a task for the slot was added,
and that of such a task, in every memory only if no task was added at all. -/
theorem findsUserTasks_iff (dataHead voiceHead : Addr) (uninit : List UInt8) (adds : List UserAdd)
    (hnodes : (adds.map UserAdd.node).Nodup) (slotNum : UInt16) :
    (∀ mem, FindsUserTasks mem adds slotNum (createTaskAdmin dataHead voiceHead uninit)) ↔
      adds = [] := by
  constructor
  · intro h
    by_contra hne
    by_cases hslot : ∃ a ∈ adds, a.task.slotNum = slotNum
    · -- a memory full of twos hides every task
      obtain ⟨admin, hadds, hsearch⟩ :=
        search_addUserTasks (fun _ => 2) dataHead voiceHead uninit hnodes slotNum
      obtain ⟨admin', hadds', hfound, -⟩ := h fun _ => 2
      obtain rfl := Option.some.inj (hadds.symm.trans hadds')
      refine hfound.2 hslot ?_
      rw [hsearch, Option.map_eq_none_iff, List.find?_eq_none]
      intro a _
      simp only [slotKey, lookupKey]
      split_ifs <;> simp
    · -- a memory with the right bytes at the slot number of some task makes it be found
      obtain ⟨a, l, rfl⟩ := List.exists_cons_of_ne_nil hne
      obtain ⟨x, y, hxy⟩ : ∃ x y, lookupKey slotNum = [x, y] := ⟨_, _, rfl⟩
      let mem : Addr → UInt8 := fun p => if p = a.task.slotNum.toUInt32 then x else y
      obtain ⟨admin, hadds, hsearch⟩ :=
        search_addUserTasks mem dataHead voiceHead uninit hnodes slotNum
      obtain ⟨admin', hadds', hfound, -⟩ := h mem
      obtain rfl := Option.some.inj (hadds.symm.trans hadds')
      refine hslot (hfound.1 fun hnone => ?_)
      rw [hsearch, Option.map_eq_none_iff, List.find?_eq_none] at hnone
      refine hnone a (by simp) ?_
      simp [slotKey, mem, hxy]
  · rintro rfl mem
    exact findsUserTasks_nil mem dataHead voiceHead uninit slotNum

/-- A task for slot 7. -/
def slotSeven : UserAdd where
  node := 128
  padding := 0
  task := ⟨1, 0, 1, 7, 3⟩
  slotType_eq := rfl
  type_eq := rfl

theorem findsUserTasks_iff_slotSeven :
    (∀ mem, FindsUserTasks mem [slotSeven] 7 (createTaskAdmin 64 96 [])) ↔ [slotSeven] = [] :=
  findsUserTasks_iff 64 96 [] [slotSeven] (List.nodup_singleton _) 7

/-- With zeros in memory the task for slot 7 is not found under 7. -/
theorem not_findsUserTasks : ¬ ∀ (mem : Addr → UInt8) (dataHead voiceHead : Addr)
    (uninit : List UInt8) (adds : List UserAdd), (adds.map UserAdd.node).Nodup →
      ∀ slotNum, FindsUserTasks mem adds slotNum (createTaskAdmin dataHead voiceHead uninit) := by
  intro h
  have hnodes : ([slotSeven].map UserAdd.node).Nodup := List.nodup_singleton _
  obtain ⟨admin, hadds, hfound, -⟩ := h (fun _ => 0) 64 96 [] [slotSeven] hnodes 7
  obtain ⟨admin', hadds', hsearch⟩ := search_addUserTasks (fun _ => 0) 64 96 [] hnodes 7
  obtain rfl := Option.some.inj (hadds.symm.trans hadds')
  exact hfound.2 ⟨slotSeven, by simp, rfl⟩ (hsearch.trans (by decide))

end HpiDriver
