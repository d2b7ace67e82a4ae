import HpiDriver.ProtoAnalyzer.Analyzer
import HpiDriver.ProtoAnalyzer.DrvProtoFormat
import HpiDriver.TaskAdmin

/-!
# The commands

`business/business.c`: what the driver does with the messages written to its device. A `0x3008`
message becomes a task; a `0x3010` message is a header and a number of peripheral records, a
`0x301b` message a header and a number of sub-PDUs, which are copied into an analyzer and parsed
one after another.

A message is known by a pointer into memory: `data n` is the byte at `data + n`, whether or not it
still belongs to the message. The commands record where they read the message and where they write
the buffers it is copied into; `none` stands for the state behind an access outside a buffer or
through a `NULL` pointer. Where the loops are in the message does not depend on this state.
-/

namespace HpiDriver

/-- An access to the message or to a buffer that it is copied into. -/
inductive Access
  /-- Byte `n` of the message is read. -/
  | message (n : ℕ)
  /-- Byte `n` of the local buffer of `device_write` is written. -/
  | buffer (n : ℕ)
  /-- Byte `n` of the `protocol_data` of an analyzer is written. -/
  | protocolData (n : ℕ)
  deriving DecidableEq

/-- The accesses of `memcpy(pa->protocol_data + dst, data + src, n)`. -/
def copyAccesses (src dst n : ℕ) : List Access :=
  (List.range n).flatMap fun k => [.message (src + k), .protocolData (dst + k)]

/-- The `n` bytes at `data + os`. -/
def messageBytes (data : ℕ → UInt8) (os n : ℕ) : List UInt8 :=
  (List.range n).map fun k => data (os + k)

/-- The blocks that the allocator hands out for the fields of an analyzer and for the nodes of its
hash table. -/
structure AnalyzerBlocks where
  infos : List Addr
  nodes : List Addr

/-- `pa_create_protocol_analyzer` and `pa_init_protocol_analyzer` with `pfs_p`. -/
def newAnalyzer (num : UInt32) (pfs : ProtocolFormatSet) (b : AnalyzerBlocks) :
    Option ProtocolAnalyzer :=
  paInitProtocolAnalyzer num pfs b.infos b.nodes (paCreateProtocolAnalyzer pfs)

/-! ## Records and sub-PDUs -/

/-- The common middle of the loops of `do_command_0x3010` and `do_command_0x301b`: put a protocol
number in front of the bytes of the message, parse and reset. -/
def parseFrame (env : Env) (num₀ num₁ : UInt8) (bytes : List UInt8) (len : UInt16)
    (pa : ProtocolAnalyzer) : Option ProtocolAnalyzer := do
  let dp ← arrayStore pa.protocolData 0 num₀
  let dp ← arrayStore dp 1 num₁
  let dp ← memcpyTo dp 2 bytes
  let pa := { pa with protocolData := dp, protocolDataLen := len }
  let r ← paParseProtocolData env pa
  some (paResetVlenFlag r.2).2

/-- Where a loop over a message stands: the accesses so far, the offset `os` and the analyzers. -/
structure Framing (σ : Type) where
  accesses : List Access
  os : UInt16
  state : Option σ

/-- The first `n` iterations of a loop. -/
def Framing.run {σ : Type} (iteration : ℕ → Framing σ → Framing σ) (n : ℕ) (st : Framing σ) :
    Framing σ :=
  (List.range n).foldl (fun st i => iteration i st) st

/-- What `do_command_0x3010` does in front of its loop. -/
def start3010 (pfs : ProtocolFormatSet) (b : AnalyzerBlocks) : Framing ProtocolAnalyzer where
  accesses := [.message 5]
  os := 6
  state := newAnalyzer 0x3054 pfs b

/-- The body of the loop of `do_command_0x3010`. -/
def iteration3010 (env : ℕ → Env) (data : ℕ → UInt8) (i : ℕ) (st : Framing ProtocolAnalyzer) :
    Framing ProtocolAnalyzer :=
  let os := st.os.toNat
  let periDataLen := (data (os + 2)).toUInt16
  { accesses := st.accesses ++ .message (os + 2) :: .protocolData 0 :: .protocolData 1 ::
      copyAccesses os 2 (periDataLen.toNat + 3)
    os := st.os + (periDataLen + 3)
    state := do
      let pa ← st.state
      parseFrame (env i) 0x30 0x54 (messageBytes data os (periDataLen.toNat + 3))
        (periDataLen + 3 + 2) pa }

/-- `do_command_0x3010` -/
def doCommand0x3010 (env : ℕ → Env) (pfs : ProtocolFormatSet) (b : AnalyzerBlocks)
    (data : ℕ → UInt8) : Framing ProtocolAnalyzer :=
  let count := data 5
  Framing.run (iteration3010 env data) count.toNat (start3010 pfs b)

/-- The two analyzers of `do_command_0x301b`. -/
structure PduAnalyzers where
  pa50 : ProtocolAnalyzer
  pa52 : ProtocolAnalyzer

/-- What `do_command_0x301b` does in front of its loop. -/
def start301b (pfs : ProtocolFormatSet) (b50 b52 : AnalyzerBlocks) : Framing PduAnalyzers where
  accesses := [.message 4]
  os := 5
  state := do
    let pa50 ← newAnalyzer 0x3050 pfs b50
    let pa52 ← newAnalyzer 0x3052 pfs b52
    some ⟨pa50, pa52⟩

/-- The body of the loop of `do_command_0x301b`. -/
def iteration301b (env : ℕ → Env) (data : ℕ → UInt8) (i : ℕ) (st : Framing PduAnalyzers) :
    Framing PduAnalyzers :=
  let os := st.os.toNat
  let pduLen := (data os).toUInt16
  let embFlag := data (os + 1)
  let bytes := messageBytes data os pduLen.toNat
  { accesses := st.accesses ++ .message os :: .message (os + 1) :: .protocolData 0 ::
      .protocolData 1 :: copyAccesses os 2 pduLen.toNat
    os := st.os + pduLen
    state := do
      let pas ← st.state
      if embFlag = 0 then
        let pa ← parseFrame (env i) 0x30 0x50 bytes (pduLen + 2) pas.pa50
        some { pas with pa50 := pa }
      else
        let pa ← parseFrame (env i) 0x30 0x52 bytes (pduLen + 2) pas.pa52
        some { pas with pa52 := pa } }

/-- `do_command_0x301b` -/
def doCommand0x301b (env : ℕ → Env) (pfs : ProtocolFormatSet) (b50 b52 : AnalyzerBlocks)
    (data : ℕ → UInt8) : Framing PduAnalyzers :=
  let count := data 4
  Framing.run (iteration301b env data) count.toNat (start301b pfs b50 b52)

/-! ## Tasks -/

/-- `process_slot_info` -/
def processSlotInfo (uninit : ℕ → UInt8) (pa : ProtocolAnalyzer) (task : Task) : Option Task := do
  let infoList ← ← paFindKey SLOT_INFO uninit pa
  some { task with slotNum := (pa.info infoList).data.toUInt16 }

/-- `process_tact_info` -/
def processTactInfo (uninit : ℕ → UInt8) (pa : ProtocolAnalyzer) (task : Task) : Option Task := do
  let infoList ← ← paFindKey TACT_INFO uninit pa
  some { task with tactInfo := (pa.info infoList).data.toUInt16 }

/-- `process_slc_data` and `process_dc_data`, which look a field up and print it. -/
def processPrinted (key : List UInt8) (uninit : ℕ → UInt8) (pa : ProtocolAnalyzer) :
    Option Unit := do
  let _ ← ← paFindKey key uninit pa
  some ()

/-- `task_admin_slot1_gp` and `task_admin_slot2_gp` -/
structure TaskAdmins where
  slot1 : TaskAdmin
  slot2 : TaskAdmin

/-- What a call of `do_command_0x3008` finds: the blocks of its analyzer, what its callees find,
what is in the local `key_str` of its lookups and in its local `task`. -/
structure TaskEnv where
  blocks : AnalyzerBlocks
  parse : Env
  keyStr : List UInt8 → ℕ → UInt8
  task : Task
  add : AddEnv

/-- `do_command_0x3008` -/
def doCommand0x3008 (env : TaskEnv) (pfs : ProtocolFormatSet) (data : ℕ → UInt8) (len : UInt32)
    (admins : TaskAdmins) : Option TaskAdmins := do
  let pa ← newAnalyzer 0x3008 pfs env.blocks
  let dp ← memcpyTo pa.protocolData 0 (messageBytes data 0 len.toNat)
  let r ← paParseProtocolData env.parse
    { pa with protocolData := dp, protocolDataLen := len.toUInt16 }
  let task ← processSlotInfo (env.keyStr SLOT_INFO) r.2 env.task
  let task ← processTactInfo (env.keyStr TACT_INFO) r.2 task
  processPrinted SLC_DATA (env.keyStr SLC_DATA) r.2
  processPrinted DC_DATA (env.keyStr DC_DATA) r.2
  let task := { task with
    slotType :=
      if task.slotNum &&& 0x1000 ≠ 0 then SLOT_TYPE_SYS_DESIGNATE else SLOT_TYPE_USER_DESIGNATE
    type := TASK_TYPE_DATA }
  if task.slotNum &&& 1 ≠ 0 then
    let slot2 ← addTask env.add task TASK_FLAG_SND admins.slot2
    some { admins with slot2 := slot2 }
  else
    let slot1 ← addTask env.add task TASK_FLAG_SND admins.slot1
    some { admins with slot1 := slot1 }

/-- The accesses of `do_command_0x3008`. -/
def accesses3008 (len : UInt32) : List Access := copyAccesses 0 0 len.toNat

/-! ## Dispatch -/

/-- What a call of `process_protocol` finds. -/
structure ProcessEnv where
  pfs : ProtocolFormatSet
  task : TaskEnv
  frame : ℕ → Env
  blocks : AnalyzerBlocks
  blocks' : AnalyzerBlocks

/-- `process_protocol`, with its accesses. -/
def processProtocol (env : ProcessEnv) (command : UInt16) (data : ℕ → UInt8) (len : UInt32)
    (admins : TaskAdmins) : List Access × Option TaskAdmins :=
  if command = 0x3008 then (accesses3008 len, doCommand0x3008 env.task env.pfs data len admins)
  else if command = 0x3010 then
    let st := doCommand0x3010 env.frame env.pfs env.blocks data
    (st.accesses, st.state.map fun _ => admins)
  else if command = 0x301b then
    let st := doCommand0x301b env.frame env.pfs env.blocks env.blocks' data
    (st.accesses, st.state.map fun _ => admins)
  else ([], some admins)

end HpiDriver
