import HpiDriver.Business.Framing

/-!
# The tasks of `0x3008` messages

`do_command_0x3008` parses a message and makes a task of it, which goes to one of two task admins
by the parity of its slot number. Messages for slots that the system designates end up, in the
order of their arrival, in the queue of the admin they belong to and nowhere else
(`doCommand0x3008_dispatch`).
-/

namespace HpiDriver

open BigEndian

/-! ## Messages -/

/-- A well-formed `0x3008` message: the fields of the format lie in it one after another, as long
as the length fields say. -/
structure TaskMessage where
  bytes : List UInt8
  content : List Content
  rest : List UInt8
  map_fst_content : content.map Prod.fst = specs3008
  consistent : Consistent [] content
  wire_eq : bytes = wire content ++ rest
  length_le : bytes.length ≤ MAX_PROTO_DATA_LEN

namespace TaskMessage

variable (m : TaskMessage)

/-- The `slot_info` of the message. -/
def slotInfo : UInt16 := UInt16.ofNat (beValue [m.bytes.getD 4 0, m.bytes.getD 5 0])

/-- The `tact_info` of the message. -/
def tactInfo : UInt16 := UInt16.ofNat (beValue [m.bytes.getD 8 0])

/-- The fields in front of the first variable-length one. -/
theorem exists_content : ∃ a b y s, m.content.map Prod.snd = a :: b ::
    [m.bytes.getD 4 0, m.bytes.getD 5 0] :: y :: [m.bytes.getD 8 0] :: s := by
  have hlen := m.consistent.length_eq
  have hfst := m.map_fst_content
  have hwire := m.wire_eq
  generalize m.content = content at hlen hfst hwire ⊢
  obtain ⟨c₀, _, rfl, h₀, hfst⟩ := List.map_eq_cons_iff.1 hfst
  obtain ⟨c₁, _, rfl, h₁, hfst⟩ := List.map_eq_cons_iff.1 hfst
  obtain ⟨c₂, _, rfl, h₂, hfst⟩ := List.map_eq_cons_iff.1 hfst
  obtain ⟨c₃, _, rfl, h₃, hfst⟩ := List.map_eq_cons_iff.1 hfst
  obtain ⟨c₄, l, rfl, h₄, -⟩ := List.map_eq_cons_iff.1 hfst
  simp only [List.forall_mem_cons, h₀, h₁, h₂, h₃, h₄] at hlen
  obtain ⟨l₀, l₁, l₂, l₃, l₄, -⟩ := hlen
  obtain ⟨x₀, x₁, e₀⟩ := List.length_eq_two.1 (l₀ rfl)
  obtain ⟨y₀, y₁, e₁⟩ := List.length_eq_two.1 (l₁ rfl)
  obtain ⟨z₀, z₁, e₂⟩ := List.length_eq_two.1 (l₂ rfl)
  obtain ⟨w₀, w₁, e₃⟩ := List.length_eq_two.1 (l₃ rfl)
  obtain ⟨v, e₄⟩ := List.length_eq_one_iff.1 (l₄ rfl)
  refine ⟨c₀.2, c₁.2, c₃.2, l.map Prod.snd, ?_⟩
  simp [hwire, wire, e₀, e₁, e₂, e₃, e₄]

theorem bytes_ne_nil : m.bytes ≠ [] := by
  obtain ⟨a, b, y, s, h⟩ := m.exists_content
  have hw : wire m.content = (m.content.map Prod.snd).flatten := by
    rw [wire, List.flatMap_def]
  intro hnil
  have hwire := m.wire_eq
  rw [hnil, hw, h] at hwire
  simp at hwire

end TaskMessage

/-! ## One message -/

theorem contiguous_specs3008 : Contiguous 0 specs3008 := by decide +kernel

/-- A field that holds a number holds it in `data`. -/
theorem data_of_value {f : ProtoInfo} {n : UInt32} (h : f.value = .int n) : f.data = n := by
  unfold ProtoInfo.value at h
  split_ifs at h
  exact FieldValue.int.inj h

section Lookups

variable {pa : ProtocolAnalyzer} {a : Addr} {uninit : ℕ → UInt8}

theorem processSlotInfo_eq (h : paFindKey SLOT_INFO uninit pa = some (some a)) (task : Task) :
    processSlotInfo uninit pa task = some { task with slotNum := (pa.info a).data.toUInt16 } := by
  rw [processSlotInfo, h]
  rfl

theorem processTactInfo_eq (h : paFindKey TACT_INFO uninit pa = some (some a)) (task : Task) :
    processTactInfo uninit pa task = some { task with tactInfo := (pa.info a).data.toUInt16 } := by
  rw [processTactInfo, h]
  rfl

theorem processPrinted_eq {key : List UInt8} (h : paFindKey key uninit pa = some (some a)) :
    processPrinted key uninit pa = some () := by
  rw [processPrinted, h]
  rfl

end Lookups

section Find

variable {i : Init specs3008} {pa : ProtocolAnalyzer}

/-- A field of the format is found by its name. -/
theorem paFindKey_field (hmap : pa.hmap = i.analyzer.hmap) {k : ℕ} {s : FieldSpec}
    (hs : specs3008[k]? = some s) (hshort : s.name.chars.length < 10) (uninit : ℕ → UInt8) :
    ∃ a, i.infos[k]? = some a ∧ paFindKey s.name.chars uninit pa = some (some a) := by
  obtain ⟨hk, rfl⟩ := List.getElem?_eq_some_iff.1 hs
  have hk' : k < i.infos.length := by rwa [i.length_infos]
  refine ⟨i.infos[k], List.getElem?_eq_getElem hk', ?_⟩
  have hmem : (i.infos[k], specs3008[k]) ∈ i.fields := by
    rw [Init.fields, List.mem_iff_getElem]
    exact ⟨k, by rw [List.length_zip]; omega, List.getElem_zip⟩
  rw [i.paFindKey_short hmap specs3008[k].name.no_nul hshort,
    i.nameFind_eq_some (byteFormat_drvFormats specs3008 (by simp)).nodup_name hmem]

/-- A field of at most four bytes is looked up with its number. -/
theorem data_field {vals : List FieldValue}
    (hval : (i.infos.map fun a => (pa.info a).value) = vals) {k : ℕ} {a : Addr}
    (ha : i.infos[k]? = some a) {n : UInt32} (hn : vals[k]? = some (.int n)) :
    (pa.info a).data = n := by
  refine data_of_value (Option.some.inj ?_)
  rw [← hn, ← hval, List.getElem?_map, ha]
  rfl

end Find

/-- A message as it arrives: in memory, with what its processing finds. -/
structure TaskCall where
  message : TaskMessage
  init : Init specs3008
  num_eq : init.num = 0x3008
  data : ℕ → UInt8
  inMemory : InMemory data message.bytes
  parse : Env
  keyStr : List UInt8 → ℕ → UInt8
  task : Task
  node : Addr
  mem : Addr → Option UInt8
  padding : UInt8

namespace TaskCall

variable (c : TaskCall)

/-- What the call of `do_command_0x3008` finds. -/
def env : TaskEnv where
  blocks := ⟨c.init.infos, c.init.nodes⟩
  parse := c.parse
  keyStr := c.keyStr
  task := c.task
  add := ⟨some c.node, c.mem, c.padding⟩

/-- The call of `do_command_0x3008`. -/
def run (admins : TaskAdmins) : Option TaskAdmins :=
  doCommand0x3008 c.env c.init.pfs c.data (UInt32.ofNat c.message.bytes.length) admins

/-- The task of a message for a system-designated slot. -/
def posted : Task where
  data := c.task.data
  type := TASK_TYPE_DATA
  slotType := SLOT_TYPE_SYS_DESIGNATE
  slotNum := c.message.slotInfo
  tactInfo := c.message.tactInfo

/-- The message is for the second slot. -/
def odd : Bool := c.message.slotInfo &&& 1 ≠ 0

/-- The task of a message, for the kind of slot that the message names. -/
def made : Task :=
  { c.posted with
    slotType := if c.message.slotInfo &&& 0x1000 ≠ 0 then SLOT_TYPE_SYS_DESIGNATE
      else SLOT_TYPE_USER_DESIGNATE }

/-- The task of a message is handed to the admin of its slot. -/
theorem run_eq_made (admins : TaskAdmins) :
    c.run admins =
      if c.odd then (addTask c.env.add c.made TASK_FLAG_SND admins.slot2).map fun slot2 =>
        { admins with slot2 := slot2 }
      else (addTask c.env.add c.made TASK_FLAG_SND admins.slot1).map fun slot1 =>
        { admins with slot1 := slot1 } := by
  have hle := c.message.length_le
  simp only [MAX_PROTO_DATA_LEN] at hle
  have hlen : (UInt32.ofNat c.message.bytes.length).toNat = c.message.bytes.length := by
    rw [UInt32.toNat_ofNat']
    omega
  have hlen16 : (UInt32.ofNat c.message.bytes.length).toUInt16 =
      UInt16.ofNat c.message.bytes.length := by
    refine UInt16.toNat_inj.1 ?_
    rw [UInt32.toNat_toUInt16, hlen, UInt16.toNat_ofNat']
  have hbytes : messageBytes c.data 0 c.message.bytes.length = c.message.bytes := by
    have hmem : InMemory c.data ([] ++ c.message.bytes ++ []) := by
      rw [List.nil_append, List.append_nil]
      exact c.inMemory
    exact hmem.messageBytes_eq
  have hnew : newAnalyzer 0x3008 c.init.pfs ⟨c.init.infos, c.init.nodes⟩ =
      some c.init.analyzer := c.num_eq ▸ c.init.paInitProtocolAnalyzer_eq
  have hbf : ByteFormat specs3008 := byteFormat_drvFormats specs3008 (by simp)
  obtain ⟨pa, hparse, hmap, hval, -⟩ := c.init.parse_loadMessage hbf.lenUnit hbf.nodup_name
    contiguous_specs3008 c.parse c.message.map_fst_content c.message.consistent c.message.wire_eq
    c.message.bytes_ne_nil c.message.length_le
  obtain ⟨a, b, y, s, hcontent⟩ := c.message.exists_content
  have hvals : (c.init.infos.map fun a => (pa.info a).value) =
      (a :: b :: [c.message.bytes.getD 4 0, c.message.bytes.getD 5 0] :: y ::
        [c.message.bytes.getD 8 0] :: s).map decodeValue := by
    rw [hval, ← hcontent, List.map_map]
    rfl
  obtain ⟨slot, hslot, hfindSlot⟩ := paFindKey_field (i := c.init) (k := 2) hmap rfl (by decide)
    (c.keyStr SLOT_INFO)
  obtain ⟨tact, htact, hfindTact⟩ := paFindKey_field (i := c.init) (k := 4) hmap rfl (by decide)
    (c.keyStr TACT_INFO)
  obtain ⟨slc, -, hfindSlc⟩ := paFindKey_field (i := c.init) (k := 6) hmap rfl (by decide)
    (c.keyStr SLC_DATA)
  obtain ⟨dc, -, hfindDc⟩ := paFindKey_field (i := c.init) (k := 10) hmap rfl (by decide)
    (c.keyStr DC_DATA)
  have hslotData : (pa.info slot).data.toUInt16 = c.message.slotInfo := by
    rw [data_field hvals hslot rfl, UInt32.toUInt16_ofNat']
    rfl
  have htactData : (pa.info tact).data.toUInt16 = c.message.tactInfo := by
    rw [data_field hvals htact rfl, UInt32.toUInt16_ofNat']
    rfl
  have hload : ((memcpyTo c.init.analyzer.protocolData 0 c.message.bytes).bind fun dp =>
      paParseProtocolData c.parse { c.init.analyzer with
        protocolData := dp, protocolDataLen := UInt16.ofNat c.message.bytes.length }) =
          some (0, pa) := by
    rw [← hparse, loadMessage]
    simp only [Option.bind_eq_bind, Option.bind_assoc, Option.bind_some]
  have hslotInfo := processSlotInfo_eq hfindSlot c.task
  rw [hslotData] at hslotInfo
  have htactInfo := fun t => processTactInfo_eq hfindTact t
  rw [htactData] at htactInfo
  have hprintSlc : processPrinted SLC_DATA (c.keyStr SLC_DATA) pa = some () :=
    processPrinted_eq hfindSlc
  have hprintDc : processPrinted DC_DATA (c.keyStr DC_DATA) pa = some () :=
    processPrinted_eq hfindDc
  unfold run doCommand0x3008
  simp only [env, Option.bind_eq_bind]
  rw [hnew, Option.bind_some, hlen, hlen16, hbytes, ← Option.bind_assoc, hload, Option.bind_some,
    hslotInfo, Option.bind_some, htactInfo, Option.bind_some, hprintSlc, Option.bind_some,
    hprintDc, Option.bind_some]
  by_cases hodd : c.message.slotInfo &&& 1 ≠ 0
  · rw [if_pos hodd, if_pos (show c.odd = true from decide_eq_true hodd)]
    exact Option.map_eq_bind.symm
  · rw [if_neg hodd, if_neg (show ¬ c.odd = true from fun h => hodd (of_decide_eq_true h))]
    exact Option.map_eq_bind.symm

/-- A message for a system-designated slot is posted to the admin of its slot. -/
theorem run_eq (hsys : c.message.slotInfo &&& 0x1000 ≠ 0) (admins : TaskAdmins) :
    c.run admins =
      if c.odd then (addTask c.env.add c.posted TASK_FLAG_SND admins.slot2).map fun slot2 =>
        { admins with slot2 := slot2 }
      else (addTask c.env.add c.posted TASK_FLAG_SND admins.slot1).map fun slot1 =>
        { admins with slot1 := slot1 } := by
  have hmade : c.made = c.posted := by
    unfold made
    rw [if_pos hsys]
    rfl
  rw [run_eq_made, hmade]

end TaskCall

/-! ## Runs -/

/-- One message after another is processed. -/
def processCalls (calls : List TaskCall) (admins : TaskAdmins) : Option TaskAdmins :=
  calls.foldlM (fun admins c => c.run admins) admins

theorem processCalls_append (l : List TaskCall) (c : TaskCall) (admins : TaskAdmins) :
    processCalls (l ++ [c]) admins = (processCalls l admins).bind c.run := by
  simp [processCalls, List.foldlM_append]

/-- The queue of an admin, each task with the node that was allocated for it. -/
def queue (calls : List TaskCall) : List (Addr × Task) := calls.map fun c => (c.node, c.posted)

theorem map_fst_queue (calls : List TaskCall) :
    (queue calls).map Prod.fst = calls.map TaskCall.node := by
  simp [queue, Function.comp_def]

theorem map_snd_queue (calls : List TaskCall) :
    (queue calls).map Prod.snd = calls.map TaskCall.posted := by
  simp [queue, Function.comp_def]

theorem queue_append (l : List TaskCall) (c : TaskCall) :
    queue (l ++ [c]) = queue l ++ [(c.node, c.posted)] := by
  simp [queue]

/-- The queues other than that of the system-designated data tasks are empty. -/
structure TaskAdmin.OthersEmpty (admin : TaskAdmin) : Prop where
  voiceSys : llistContents admin.voiceSysDesignateSlot = some []
  dataUser : hashMapForEach admin.dataUserDesignateSlot = some []
  voiceUser : hashMapForEach admin.voiceUserDesignateSlot = some []

/-- A slot's admin after some messages: its head is where it was, and its queue holds the tasks of
its messages. -/
structure SlotAdmin (head : Addr) (calls : List TaskCall) (admin : TaskAdmin) : Prop where
  head_eq : admin.dataSysDesignateSlot.head = head
  queues : admin.Queues (queue calls)

namespace SlotAdmin

variable {head : Addr} {calls : List TaskCall} {admin : TaskAdmin}

theorem create (dataHead voiceHead : Addr) (uninit : List UInt8) :
    SlotAdmin dataHead [] (createTaskAdmin dataHead voiceHead uninit) :=
  ⟨rfl, queues_createTaskAdmin dataHead voiceHead uninit⟩

/-- A message is posted behind those before it. -/
theorem post (h : SlotAdmin head calls admin) (c : TaskCall)
    (hfresh : c.node ∉ head :: calls.map TaskCall.node) :
    ∃ admin', addTask c.env.add c.posted TASK_FLAG_SND admin = some admin' ∧
      SlotAdmin head (calls ++ [c]) admin' := by
  rw [← h.head_eq, ← map_fst_queue] at hfresh
  obtain ⟨admin', hadd, hhead, hqueues⟩ :=
    h.queues.addTask (show c.env.add.node = some c.node from rfl) hfresh
      (show c.posted.slotType = SLOT_TYPE_SYS_DESIGNATE from rfl) rfl
  rw [← queue_append] at hqueues
  exact ⟨admin', hadd, hhead.trans h.head_eq, hqueues⟩

theorem contents (h : SlotAdmin head calls admin) :
    llistContents admin.dataSysDesignateSlot = some (calls.map TaskCall.posted) := by
  rw [h.queues.dataSys.contents, map_snd_queue]

theorem othersEmpty (h : SlotAdmin head calls admin) : admin.OthersEmpty where
  voiceSys := h.queues.voiceSys.contents
  dataUser := h.queues.dataUser
  voiceUser := h.queues.voiceUser

end SlotAdmin

/-- What the two admins hold after a run from two new ones. -/
theorem exists_processCalls (calls : List TaskCall)
    (hsys : ∀ c ∈ calls, c.message.slotInfo &&& 0x1000 ≠ 0) {head₁ voice₁ head₂ voice₂ : Addr}
    (hfresh : (head₁ :: head₂ :: calls.map TaskCall.node).Nodup) (uninit₁ uninit₂ : List UInt8) :
    ∃ admins, processCalls calls ⟨createTaskAdmin head₁ voice₁ uninit₁,
        createTaskAdmin head₂ voice₂ uninit₂⟩ = some admins ∧
      SlotAdmin head₁ (calls.filter fun c => !c.odd) admins.slot1 ∧
      SlotAdmin head₂ (calls.filter TaskCall.odd) admins.slot2 := by
  induction calls using List.reverseRecOn with
  | nil => exact ⟨_, rfl, .create .., .create ..⟩
  | append_singleton l c ih =>
    obtain ⟨hsysl, hsysc⟩ := List.forall_mem_append.1 hsys
    rw [List.map_append, List.map_singleton, ← List.cons_append, ← List.cons_append] at hfresh
    obtain ⟨hl, -, hdisj⟩ := List.nodup_append.1 hfresh
    have hc : c.node ∉ head₁ :: head₂ :: l.map TaskCall.node :=
      fun h => hdisj _ h _ (List.mem_singleton_self _) rfl
    simp only [List.mem_cons, not_or] at hc
    have hfilter : ∀ p : TaskCall → Bool, c.node ∉ (l.filter p).map TaskCall.node :=
      fun p h => hc.2.2 ((List.filter_sublist.map _).subset h)
    obtain ⟨admins, hrun, hslot₁, hslot₂⟩ := ih hsysl hl
    rw [processCalls_append, hrun, Option.bind_some, c.run_eq (hsysc c (List.mem_singleton_self c)),
      List.filter_append, List.filter_append]
    cases hodd : c.odd with
    | true =>
      obtain ⟨slot2, hadd, hslot⟩ := hslot₂.post c (by simp [hc.2.1, hfilter])
      refine ⟨{ admins with slot2 := slot2 }, ?_, ?_, ?_⟩
      · rw [if_pos rfl, hadd]
        rfl
      · simpa [hodd] using hslot₁
      · simpa [hodd] using hslot
    | false =>
      obtain ⟨slot1, hadd, hslot⟩ := hslot₁.post c (by simp [hc.1, hfilter])
      refine ⟨{ admins with slot1 := slot1 }, ?_, ?_, ?_⟩
      · rw [if_neg Bool.false_ne_true, hadd]
        rfl
      · simpa [hodd] using hslot
      · simpa [hodd] using hslot₂

/-- **Dispatch of `0x3008` loses, duplicates and reorders nothing.** From two new admins, the
messages for system-designated slots end up in the order of their arrival in the queue of the
admin of their slot, and nothing ends up anywhere else. -/
theorem doCommand0x3008_dispatch (calls : List TaskCall)
    (hsys : ∀ c ∈ calls, c.message.slotInfo &&& 0x1000 ≠ 0) (head₁ voice₁ head₂ voice₂ : Addr)
    (hfresh : (head₁ :: head₂ :: calls.map TaskCall.node).Nodup) (uninit₁ uninit₂ : List UInt8) :
    ∃ admins, processCalls calls ⟨createTaskAdmin head₁ voice₁ uninit₁,
        createTaskAdmin head₂ voice₂ uninit₂⟩ = some admins ∧
      llistContents admins.slot1.dataSysDesignateSlot =
        some ((calls.filter fun c => !c.odd).map TaskCall.posted) ∧
      llistContents admins.slot2.dataSysDesignateSlot =
        some ((calls.filter TaskCall.odd).map TaskCall.posted) ∧
      admins.slot1.OthersEmpty ∧ admins.slot2.OthersEmpty := by
  obtain ⟨admins, hrun, hslot₁, hslot₂⟩ := exists_processCalls calls hsys hfresh uninit₁ uninit₂
  exact ⟨admins, hrun, hslot₁.contents, hslot₂.contents, hslot₁.othersEmpty, hslot₂.othersEmpty⟩

/-- An analyzer for `0x3008` from the format set of the driver. -/
def drvInit3008 : Init specs3008 :=
  .driver specs3008 0x3008 (registered_drvPfs mem_drvFormats_3008)
    (inRange_drvPfs mem_drvFormats_3008)
    ((List.range 11).map fun k => UInt32.ofNat (64 * (k + 1)))
    ((List.range 11).map fun k => UInt32.ofNat (4096 + 32 * k)) rfl rfl (by decide) (by decide)
    (by simp [List.range_succ])

/-- A message for the slot `slot` with two bytes of `slc_data` and one of `dc_data`. -/
def msg3008 (slot : UInt8) : TaskMessage where
  bytes := [0x30, 0x08, 0, 0, 0x10, slot, 0, 0, 3, 2, 10, 11, 0, 0, 1, 12]
  content := specs3008.zip [[0x30, 0x08], [0, 0], [0x10, slot], [0, 0], [3], [2], [10, 11], [0],
    [0], [1], [12]]
  rest := []
  map_fst_content := rfl
  consistent := ⟨rfl, rfl, rfl, rfl, rfl, rfl,
    ⟨by decide, _, List.mem_of_getElem? (i := 5) rfl, rfl, by decide, by decide⟩, rfl, rfl, rfl,
    ⟨by decide, _, List.mem_of_getElem? (i := 9) rfl, rfl, by decide, by decide⟩, trivial⟩
  wire_eq := rfl
  length_le := by simp [MAX_PROTO_DATA_LEN]

/-- The arrival of such a message; the task goes to the node at `node`. -/
def call3008 (slot : UInt8) (node : Addr) : TaskCall where
  message := msg3008 slot
  init := drvInit3008
  num_eq := rfl
  data n := (msg3008 slot).bytes.getD n 0
  inMemory _ _ := rfl
  parse := ⟨true, fun _ _ => 0, fun _ _ => 0, 0⟩
  keyStr _ _ := 0
  task := ⟨0, 0, 0, 0, 0⟩
  node := node
  mem _ := none
  padding := 0

/-- Three messages, for slots `0x1001`, `0x1002` and `0x1003`. -/
theorem doCommand0x3008_threeCalls :
    ∃ admins, processCalls [call3008 1 8192, call3008 2 8224, call3008 3 8256]
        ⟨createTaskAdmin 9216 9248 [], createTaskAdmin 9280 9312 []⟩ = some admins ∧
      llistContents admins.slot1.dataSysDesignateSlot = some [⟨0, 0, 0, 0x1002, 3⟩] ∧
      llistContents admins.slot2.dataSysDesignateSlot =
        some [⟨0, 0, 0, 0x1001, 3⟩, ⟨0, 0, 0, 0x1003, 3⟩] ∧
      admins.slot1.OthersEmpty ∧ admins.slot2.OthersEmpty :=
  doCommand0x3008_dispatch [call3008 1 8192, call3008 2 8224, call3008 3 8256]
    (by decide +kernel) 9216 9248 9280 9312 (by decide) [] []

end HpiDriver
