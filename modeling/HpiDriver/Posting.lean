import HpiDriver.ProtoAnalyzer.Layout
import HpiDriver.ProtoAnalyzer.Sheet
import HpiDriver.Session

/-!
# From the clients to the admins

A client of the device sets the values of a task with an analyzer of the format `0x3008`, generates
the message and writes it to the device, as `test_pdt_hpi_driver_3008` does. What it has done with
its analyzer is on a sheet; the message is the wire form of the values there (`Client.sends`), and
the driver reads the number of the slot and the activity in it. So after any sequence of clients
each admin holds one task for every client with a slot of its own, with the number and the activity
on the sheet of the client, and nothing else (`runPosts_tasks`).
-/

namespace HpiDriver

open Blocks BigEndian Simulation

/-! ## Clients -/

/-- What a client does with a new analyzer before it generates its message. The values on its sheet
stand for the bytes of a message. -/
structure Client where
  calls : List AnalyzerCall
  entry : List UInt8 → FieldValue
  sheet_eq : sheetAfter calls (.fresh specs3008) =
    some { Sheet.fresh specs3008 with entry := entry }
  num_eq : entry PROTO_NUM = .int 0x3008
  content : List Content
  map_fst_content : content.map Prod.fst = specs3008
  spells : ∀ c ∈ content, Spells entry c
  length_le : (wire content).length ≤ MAX_PROTO_DATA_LEN

/-- The bytes of a short field are the last ones of its number. -/
theorem FieldValue.beValue_of_written {v : FieldValue} {bs : List UInt8}
    (h : v.written bs.length = some bs) (h4 : bs.length ≤ 4) (h0 : bs.length ≠ 0) :
    beValue bs = v.number.toNat % 256 ^ bs.length := by
  cases v with
  | int n =>
    rw [written, if_pos h4] at h
    nth_rewrite 1 [← Option.some.inj h]
    exact beValue_beBytes_mod _ _
  | buf data =>
    rw [written, if_neg h0, if_neg fun hlong => absurd hlong.1 (by omega)] at h
    cases h

namespace Client

variable (c : Client)

/-- The message of the client. -/
def message : List UInt8 := wire c.content

/-- The number of the slot on the sheet. -/
def slotInfo : UInt16 := (c.entry SLOT_INFO).number.toUInt16

/-- The activity on the sheet. -/
def tactInfo : UInt16 := (c.entry TACT_INFO).number.toUInt8.toUInt16

/-- The slot is designated by the system. -/
def sys : Bool := c.slotInfo &&& 0x1000 ≠ 0

/-- The slot is one of the second admin. -/
def odd : Bool := c.slotInfo &&& 1 ≠ 0

/-- **What the client sends** is its message, with whatever analyzer it uses. -/
theorem sends (i : Init specs3008) (env : Env) :
    ∃ pa, afterCalls (c.calls ++ [.generate env]) i.analyzer = some pa ∧
      memcpyFrom pa.protocolData 0 pa.protocolDataLen.toNat = some c.message :=
  afterCalls_generate_wire i (sheetFormat_drvFormats specs3008 (by simp)) c.map_fst_content
    contiguous_specs3008 c.sheet_eq c.spells c.length_le env

theorem consistent : Consistent [] c.content := by
  refine consistent_of_spells (byteFormat_drvFormats specs3008 (by simp)) (by decide)
    c.map_fst_content c.spells fun e he => ?_
  have hle := c.length_le
  have hsub : e.2.length ≤ (wire c.content).length := by
    rw [wire]
    exact (List.sublist_flatten_of_mem (List.mem_map_of_mem he)).length_le
  simp only [MAX_PROTO_DATA_LEN] at hle
  omega

/-- The message as the driver sees it. -/
def taskMessage : TaskMessage where
  bytes := c.message
  content := c.content
  rest := []
  map_fst_content := c.map_fst_content
  consistent := c.consistent
  wire_eq := (List.append_nil _).symm
  length_le := c.length_le

/-- The bytes of a field are those of its number. -/
theorem written_of_getElem? {k : ℕ} {s : FieldSpec} {bs : List UInt8} (hs : specs3008[k]? = some s)
    (hbs : (c.content.map Prod.snd)[k]? = some bs) :
    (c.entry s.name.chars).written bs.length = some bs := by
  rw [← c.map_fst_content, List.getElem?_map] at hs
  obtain ⟨e, he, rfl⟩ := Option.map_eq_some_iff.1 hs
  rw [List.getElem?_map, he] at hbs
  obtain rfl := Option.some.inj hbs
  exact (c.spells e (List.mem_of_getElem? he)).written

/-- The driver reads the number of the slot. -/
theorem slotInfo_taskMessage : c.taskMessage.slotInfo = c.slotInfo := by
  obtain ⟨a, b, y, s, h⟩ := c.taskMessage.exists_content
  have hwritten := c.written_of_getElem? (k := 2) (s := byteField (cname "slot_info") 4 2 none) rfl
    (congrArg (·[2]?) h)
  have hvalue := FieldValue.beValue_of_written hwritten (by simp) (by simp)
  refine UInt16.toNat_inj.1 ?_
  rw [TaskMessage.slotInfo, hvalue, UInt16.toNat_ofNat', slotInfo, UInt32.toNat_toUInt16]
  simp only [List.length_cons, List.length_nil]
  change (c.entry SLOT_INFO).number.toNat % 256 ^ 2 % 2 ^ 16 = _
  omega

/-- The driver reads the activity. -/
theorem tactInfo_taskMessage : c.taskMessage.tactInfo = c.tactInfo := by
  obtain ⟨a, b, y, s, h⟩ := c.taskMessage.exists_content
  have hwritten := c.written_of_getElem? (k := 4) (s := byteField (cname "tact_info") 8 1 none) rfl
    (congrArg (·[4]?) h)
  have hvalue := FieldValue.beValue_of_written hwritten (by simp) (by simp)
  refine UInt16.toNat_inj.1 ?_
  rw [TaskMessage.tactInfo, hvalue, UInt16.toNat_ofNat', tactInfo, UInt8.toNat_toUInt16,
    UInt32.toNat_toUInt8]
  simp only [List.length_cons, List.length_nil]
  change (c.entry TACT_INFO).number.toNat % 256 ^ 1 % 2 ^ 16 = _
  omega

/-- The message starts with its number. -/
theorem exists_message_eq : ∃ s, c.message = 0x30 :: 0x08 :: s := by
  obtain ⟨a, b, y, s, h⟩ := c.taskMessage.exists_content
  have hlen : a.length = 2 := by
    have hspec : (c.content.map Prod.fst)[0]? = some (byteField (cname "proto_num") 0 2 none) := by
      rw [c.map_fst_content]
      rfl
    have hbytes : (c.content.map Prod.snd)[0]? = some a := congrArg (·[0]?) h
    rw [List.getElem?_map, Option.map_eq_some_iff] at hspec hbytes
    obtain ⟨e, he, hfst⟩ := hspec
    obtain ⟨e', he', rfl⟩ := hbytes
    obtain rfl := Option.some.inj (he.symm.trans he')
    rw [(c.spells e (List.mem_of_getElem? he)).length_eq (congrArg FieldSpec.index hfst), hfst]
    rfl
  have hwritten := c.written_of_getElem? (k := 0) (s := byteField (cname "proto_num") 0 2 none) rfl
    (congrArg (·[0]?) h)
  rw [hlen] at hwritten
  change (c.entry PROTO_NUM).written 2 = some a at hwritten
  rw [c.num_eq] at hwritten
  have ha : a = [0x30, 0x08] := (Option.some.inj hwritten).symm
  have hwire : c.message = (c.content.map Prod.snd).flatten := by
    rw [message, wire, List.flatMap_def]
  rw [hwire, show c.content.map Prod.snd = _ from h, ha]
  exact ⟨_, rfl⟩

end Client

/-! ## Posts -/

/-- The message of a client in the memory of the user, and what the write of it finds. -/
structure Post extends Delivery where
  client : Client
  message_eq : message = client.message
  init : Init specs3008
  num_eq : init.num = 0x3008
  pfs_eq : env.process.pfs = init.pfs
  blocks_eq : env.process.task.blocks = ⟨init.infos, init.nodes⟩
  node : Addr
  node_eq : env.process.task.add.node = some node

namespace Post

variable (p : Post)

theorem inMemory_message : InMemory p.toDelivery.write.data p.client.taskMessage.bytes := by
  have h := p.toDelivery.inMemory_data
  rwa [p.message_eq] at h

/-- The call of `do_command_0x3008`. -/
def call : TaskCall where
  message := p.client.taskMessage
  init := p.init
  num_eq := p.num_eq
  data := p.toDelivery.write.data
  inMemory := p.inMemory_message
  parse := p.env.process.task.parse
  keyStr := p.env.process.task.keyStr
  task := p.env.process.task.task
  node := p.node
  mem := p.env.process.task.add.mem
  padding := p.env.process.task.add.padding

theorem task_eq : p.env.process.task = p.call.env := by
  rw [TaskCall.env]
  change _ = TaskEnv.mk ⟨p.init.infos, p.init.nodes⟩ p.env.process.task.parse
    p.env.process.task.keyStr p.env.process.task.task
    ⟨some p.node, p.env.process.task.add.mem, p.env.process.task.add.padding⟩
  rw [← p.blocks_eq, ← p.node_eq]

theorem command_eq : p.toDelivery.command = 0x3008 := by
  obtain ⟨s, hs⟩ := p.client.exists_message_eq
  rw [Delivery.command, p.message_eq, hs]
  exact show (0x30 : UInt8).toUInt16 <<< 8 ||| (0x08 : UInt8).toUInt16 = 0x3008 by decide

/-- The write of the message. -/
def taskWrite : TaskWrite where
  toDelivery := p.toDelivery
  call := p.call
  message_eq := p.message_eq
  data_eq := rfl
  task_eq := p.task_eq
  pfs_eq := p.pfs_eq
  command_eq := p.command_eq

/-- The task that the client asks for. -/
def task : Task where
  data := p.env.process.task.task.data
  type := TASK_TYPE_DATA
  slotType := if p.client.sys then SLOT_TYPE_SYS_DESIGNATE else SLOT_TYPE_USER_DESIGNATE
  slotNum := p.client.slotInfo
  tactInfo := p.client.tactInfo

theorem made_call : p.call.made = p.task := by
  have hslot : p.call.message.slotInfo = p.client.slotInfo := p.client.slotInfo_taskMessage
  have htact : p.call.message.tactInfo = p.client.tactInfo := p.client.tactInfo_taskMessage
  rw [TaskCall.made, TaskCall.posted, hslot, htact, task, Client.sys]
  simp only [decide_eq_true_eq]
  rfl

theorem odd_call : p.call.odd = p.client.odd := by
  rw [TaskCall.odd, Client.odd, show p.call.message.slotInfo = _ from p.client.slotInfo_taskMessage]

theorem sys_call : p.call.sys = p.client.sys := by
  rw [TaskCall.sys, Client.sys, show p.call.message.slotInfo = _ from p.client.slotInfo_taskMessage]

/-- When the user designates the slot, the memory can be read at the number of the slot. -/
def KeyReadable : Prop :=
  p.client.sys = false → p.env.process.task.add.Readable p.client.slotInfo

/-- The key under which the task is kept, when the user designates its slot. -/
def key : List UInt8 :=
  p.env.process.task.add.taskKey p.client.slotInfo

theorem key_call : p.call.key = p.key := by
  rw [TaskCall.key, p.made_call, ← p.task_eq]
  rfl

theorem keyReadable_call (h : p.KeyReadable) : p.call.KeyReadable := by
  intro hsys
  rw [p.sys_call] at hsys
  rw [← p.task_eq, show p.call.message.slotInfo = _ from p.client.slotInfo_taskMessage]
  exact h hsys

end Post

/-- The admin holds the tasks of these posts, those of system-designated slots in the list of the
data tasks, in order, those of user-designated slots in the map, where a search finds the last one
with its key, and nothing else. -/
structure TaskAdmin.HasPosts (admin : TaskAdmin) (posts : List Post) : Prop where
  dataSys : llistContents admin.dataSysDesignateSlot =
    some ((posts.filter fun p => p.client.sys).map Post.task)
  voiceSys : llistContents admin.voiceSysDesignateSlot = some []
  dataUser : ∃ ps, hashMapForEach admin.dataUserDesignateSlot = some ps ∧
    (ps.map HashMapPos.hlistNodeP).Perm
      ((posts.filter fun p => !p.client.sys).map fun p => some p.node)
  search : ∀ key : List UInt8, key.length = 2 →
    (hashMapSearch admin.dataUserDesignateSlot key).hlistNodeP =
      ((posts.filter fun p => !p.client.sys).reverse.find? fun p => p.key = key).map Post.node
  voiceUser : hashMapForEach admin.voiceUserDesignateSlot = some []

/-- What the calls leave at an admin is what the clients asked for. -/
theorem TaskAdmin.Received.hasPosts {admin : TaskAdmin} {posts : List Post}
    (h : admin.Received (posts.map Post.call)) : admin.HasPosts posts where
  dataSys := by
    have hsys := h.dataSys
    simp only [List.filter_map, List.map_map, Function.comp_def, Post.sys_call, Post.made_call]
      at hsys
    exact hsys
  voiceSys := h.voiceSys
  dataUser := by
    have huser := h.dataUser
    simp only [List.filter_map, List.map_map, Function.comp_def, Post.sys_call] at huser
    exact huser
  search key hkey := by
    have hsearch := h.search key hkey
    simp only [List.filter_map, ← List.map_reverse, List.find?_map, Option.map_map,
      Function.comp_def, Post.sys_call, Post.key_call] at hsearch
    exact hsearch
  voiceUser := h.voiceUser

/-! ## Sessions of clients -/

/-- The tasks of the writes are those of the posts. -/
theorem postedTasks_posts (posts : List Post) :
    postedTasks (posts.map fun p => .task p.taskWrite) = posts.map Post.call := by
  rw [postedTasks, List.filterMap_map]
  exact congrFun (List.filterMap_eq_map' (f := Post.call)) posts

/-- What `test_pdt_hpi_driver_3008` sets. The name `sync_index` is too long for a lookup, which
finds what the one before has left on the stack. -/
def sets3008 : List AnalyzerCall :=
  [.setValue PROTO_NUM 0x3008 fun _ => 0, .setValue LAB 0x1834 fun _ => 0,
    .setValue SLOT_INFO 0x1234 fun _ => 0, .setValue SYNC_INFO 0 fun _ => 0,
    .setValue TACT_INFO 2 fun _ => 0, .setVariableLengthValue SLC_INFO 4 fun _ => 0,
    .setValue SLC_DATA 0xaabbccdd fun _ => 0, .setValue SYNC_INDEX 0x24 fun n => SLC_DATA.getD n 0,
    .setValue ST_INFO 0x32 fun _ => 0, .setVariableLengthValue DC_INFO 23 fun _ => 0,
    .setBuf DC_DATA [1, 2, 3, 4, 5, 6, 7, 8, 9, 10, 11, 12, 13, 14, 15, 0x11, 0x12, 0x13, 0x14, 0x15,
      0x16, 0x17, 0x18] fun _ => 0]

theorem isSome_sets3008 : (sheetAfter sets3008 (.fresh specs3008)).isSome := by
  decide +kernel

/-- The sheet of this client; the values are the only thing that it changes. -/
theorem sheetAfter_sets3008 : sheetAfter sets3008 (.fresh specs3008) =
    some { Sheet.fresh specs3008 with
      entry := ((sheetAfter sets3008 (.fresh specs3008)).get isSome_sets3008).entry } := rfl

/-- The message of this client, field by field. -/
def content3008 : List Content :=
  specs3008.zip [[0x30, 0x08], [0x18, 0x34], [0x12, 0x34], [0, 0], [2], [4], [0, 0, 0, 0x24], [0],
    [0x32], [23], [1, 2, 3, 4, 5, 6, 7, 8, 9, 10, 11, 12, 13, 14, 15, 0x11, 0x12, 0x13, 0x14, 0x15,
      0x16, 0x17, 0x18]]

theorem spells_content3008 : ∀ c ∈ content3008,
    Spells ((sheetAfter sets3008 (.fresh specs3008)).get isSome_sets3008).entry c := by
  decide +kernel

theorem length_content3008_le_max : (wire content3008).length ≤ MAX_PROTO_DATA_LEN :=
  show 40 ≤ 100 by decide

theorem length_content3008_le_size : (wire content3008).length ≤ MAX_BUF_SIZE :=
  show 40 ≤ 1024 by decide

theorem inMemory_content3008 :
    InMemory (fun n => (wire content3008).getD n 0) (wire content3008) := fun _ _ => rfl

/-- The client of `test_pdt_hpi_driver_3008`. -/
def client3008 : Client where
  calls := sets3008
  entry := ((sheetAfter sets3008 (.fresh specs3008)).get isSome_sets3008).entry
  sheet_eq := sheetAfter_sets3008
  num_eq := rfl
  content := content3008
  map_fst_content := rfl
  spells := spells_content3008
  length_le := length_content3008_le_max

theorem num_drvInit3008 : drvInit3008.num = 0x3008 := rfl

/-- Its message; the task goes to the node at `node`. -/
def post3008 (node : Addr) : Post where
  env := quietEnv (call3008 0 node).env ⟨[], []⟩ ⟨[], []⟩
  buf n := (wire content3008).getD n 0
  message := wire content3008
  inMemory := inMemory_content3008
  length_le := length_content3008_le_size
  client := client3008
  message_eq := rfl
  init := drvInit3008
  num_eq := num_drvInit3008
  pfs_eq := rfl
  blocks_eq := rfl
  node := node
  node_eq := rfl

theorem sys_client3008 : client3008.sys = true := by
  decide +kernel

/-- The system designates its slot, so no key is read. -/
theorem keyReadable_post3008 (node : Addr) : (post3008 node).KeyReadable := by
  intro h
  exact absurd (h.symm.trans sys_client3008) Bool.false_ne_true

end HpiDriver
