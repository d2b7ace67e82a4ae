import HpiDriver.Business.Peripherals
import HpiDriver.Business.SubPdus
import HpiDriver.Business.Tasks
import HpiDriver.PlatDriver
import HpiDriver.TaskAdmin.Board

/-!
# Sessions of the device

What becomes of the two task admins while messages are written to the device, one after another: a
`0x3008` message for either kind of slot, a `0x3010` message with its records, a `0x301b` message
with its sub-PDUs, or any other command. As long as the messages are well formed, every access that
they drive to the messages and to the buffers is in range. Every write returns, if the memory can be
read at the number of every slot that a user designates (`TaskWrite.run_eq_none`), and the admins
hold the tasks of the `0x3008` messages, each in the container of its slot and in no other
(`runSession_tasks`).
-/

namespace HpiDriver

open Simulation

/-! ## Writes -/

/-- A call of `device_write`. -/
structure Write where
  env : WriteEnv
  buf : ℕ → UInt8
  count : UInt32

namespace Write

variable (w : Write)

/-- What the write does to the admins. -/
def run (admins : TaskAdmins) : Option TaskAdmins := (deviceWrite w.env w.buf w.count admins).2

/-- Every access of the write is in range. -/
def Safe : Prop := ∀ admins, InRange w.count.toNat (deviceWrite w.env w.buf w.count admins).1

/-- The local buffer of `device_write`, with the memory behind it. -/
def data (n : ℕ) : UInt8 := if n < w.count.toNat then w.buf n else w.env.uninit n

end Write

/-- A message in the memory of the user, and what the write of it finds. -/
structure Delivery where
  env : WriteEnv
  buf : ℕ → UInt8
  message : List UInt8
  inMemory : InMemory buf message
  length_le : message.length ≤ MAX_BUF_SIZE

namespace Delivery

variable (d : Delivery)

/-- The write of the message. -/
def write : Write := ⟨d.env, d.buf, UInt32.ofNat d.message.length⟩

theorem toNat_count : d.write.count.toNat = d.message.length := by
  have hle := d.length_le
  simp only [MAX_BUF_SIZE] at hle
  change (UInt32.ofNat d.message.length).toNat = _
  rw [UInt32.toNat_ofNat']
  omega

/-- The message gets into the local buffer. -/
theorem inMemory_data : InMemory d.write.data d.message := by
  intro n hn
  have hlt : n < d.write.count.toNat := by rwa [d.toNat_count]
  rw [← d.inMemory n hn]
  exact if_pos hlt

/-- The command of the message. -/
def command : UInt16 := commandOf fun n => d.message.getD n 0

theorem commandOf_data (h2 : 2 ≤ d.message.length) : commandOf d.write.data = d.command := by
  rw [commandOf, d.inMemory_data 0 (by omega), d.inMemory_data 1 (by omega)]
  rfl

/-- A message is processed by its command. -/
theorem run_eq (h2 : 2 ≤ d.message.length) (admins : TaskAdmins) :
    d.write.run admins =
      (processProtocol d.env.process d.command d.write.data d.write.count admins).2 := by
  have hle : d.write.count.toNat ≤ MAX_BUF_SIZE := d.toNat_count.trans_le d.length_le
  rw [← d.commandOf_data h2]
  exact if_pos hle

/-- The bytes of the message, and zeros behind them. -/
def bytes (n : ℕ) : UInt8 := d.message.getD n 0

/-- A well-framed message drives no access out of range. -/
theorem safe (h : WellFramed d.bytes d.message.length) : d.write.Safe := by
  intro admins
  have hle := d.length_le
  simp only [MAX_BUF_SIZE] at hle
  have hfirst : InRange d.message.length ((List.range d.message.length).map .buffer ++
      [.message 0, .message 1]) := by
    simp only [inRange_append, inRange_buffer, inRange_cons, inRange_nil, and_true, Access.InRange]
    exact ⟨d.length_le, Nat.lt_of_lt_of_le Nat.zero_lt_two h.two_le, h.two_le⟩
  have hiff := processProtocol_inRange_iff d.env.process d.command
    (fun n hn => d.inMemory_data n (d.toNat_count ▸ hn)) (by rw [d.toNat_count]; omega) admins
  rw [d.toNat_count] at hiff
  have hrest := hiff.2 ⟨h.task, h.records, h.pdus⟩
  rw [← d.commandOf_data h.two_le] at hrest
  change InRange _ ((List.range d.write.count.toNat).map .buffer ++ _ ++
    (processProtocol d.env.process (commandOf d.write.data) d.write.data d.write.count admins).1)
  rw [d.toNat_count, inRange_append]
  exact ⟨hfirst, hrest⟩

end Delivery

/-- A `0x3008` message. -/
structure TaskWrite extends Delivery where
  call : TaskCall
  message_eq : message = call.message.bytes
  data_eq : call.data = toDelivery.write.data
  task_eq : env.process.task = call.env
  pfs_eq : env.process.pfs = call.init.pfs
  command_eq : toDelivery.command = 0x3008

/-- A `0x3010` message, a header with the number of the records in front of them. -/
structure RecordsWrite extends Delivery where
  init : Init specs3054
  num_eq : init.num = 0x3054
  pfs_eq : env.process.pfs = init.pfs
  blocks_eq : env.process.blocks = ⟨init.infos, init.nodes⟩
  hdr : List UInt8
  length_hdr : hdr.length = 6
  recs : List PeriRecord
  count_eq : (hdr.getD 5 0).toNat = recs.length
  message_eq : message = hdr ++ recs.flatMap PeriRecord.encode
  command_eq : toDelivery.command = 0x3010

/-- A `0x301b` message, a header with the number of the sub-PDUs in front of them. None of them
moves fields of the analyzer of a later one. -/
structure PdusWrite extends Delivery where
  i50 : Init specs3050
  i52 : Init specs3052
  num50_eq : i50.num = 0x3050
  num52_eq : i52.num = 0x3052
  pfs50_eq : env.process.pfs = i50.pfs
  pfs52_eq : env.process.pfs = i52.pfs
  blocks_eq : env.process.blocks = ⟨i50.infos, i50.nodes⟩
  blocks'_eq : env.process.blocks' = ⟨i52.infos, i52.nodes⟩
  hdr : List UInt8
  length_hdr : hdr.length = 5
  pdus : List SubPdu
  count_eq : (hdr.getD 4 0).toNat = pdus.length
  movesNothing : MovesNothing pdus pdus.length
  message_eq : message = hdr ++ pdus.flatMap SubPdu.bytes
  command_eq : toDelivery.command = 0x301b

/-- A message with another command. -/
structure OtherWrite extends Delivery where
  two_le : 2 ≤ message.length
  command_ne : toDelivery.command ∉ [0x3008, 0x3010, 0x301b]

/-! ## One write -/

/-- What a loop over frames keeps. -/
theorem Framing.run_state {σ : Type} {iteration : ℕ → Framing σ → Framing σ} {st : Framing σ}
    {P : ℕ → σ → Prop} {n : ℕ} (h0 : ∃ s, st.state = some s ∧ P 0 s)
    (hstep : ∀ k < n, ∀ s, (Framing.run iteration k st).state = some s → P k s →
      ∃ s', (iteration k (Framing.run iteration k st)).state = some s' ∧ P (k + 1) s') :
    ∃ s, (Framing.run iteration n st).state = some s ∧ P n s := by
  induction n with
  | zero => exact h0
  | succ n ih =>
    obtain ⟨s, hs, hP⟩ := ih fun k hk => hstep k (by omega)
    rw [Framing.run_succ]
    exact hstep n n.lt_succ_self s hs hP

namespace TaskWrite

variable (w : TaskWrite)

theorem two_le : 2 ≤ w.message.length := by
  obtain ⟨a, b, y, s, h⟩ := w.call.message.exists_content
  have hwire : wire w.call.message.content = (w.call.message.content.map Prod.snd).flatten := by
    rw [wire, List.flatMap_def]
  rw [w.message_eq, w.call.message.wire_eq, hwire, h]
  simp
  omega

/-- The task goes to the admin of its slot. -/
theorem run_eq (admins : TaskAdmins) : w.write.run admins = w.call.run admins := by
  rw [w.toDelivery.run_eq w.two_le, w.command_eq, processProtocol, if_pos rfl, w.task_eq, w.pfs_eq,
    TaskCall.run, w.data_eq, Delivery.write, w.message_eq]

theorem safe : w.write.Safe := by
  have hle := w.call.message.length_le
  rw [← w.message_eq] at hle
  have hne : ∀ c : UInt16, c ≠ 0x3008 → commandOf w.toDelivery.bytes ≠ c := fun c hc h =>
    hc (h.symm.trans w.command_eq)
  apply w.toDelivery.safe
  exact
    { two_le := w.two_le
      le_max := w.length_le
      task := fun _ => hle
      records := fun h => absurd h (hne _ (by decide))
      pdus := fun h => absurd h (hne _ (by decide)) }

end TaskWrite

namespace RecordsWrite

variable (w : RecordsWrite)

theorem six_le : 6 ≤ w.message.length := by
  rw [w.message_eq, List.length_append, w.length_hdr]
  omega

theorem inMemory_frames {data : ℕ → UInt8} (h : InMemory data w.message) :
    InMemory data (w.hdr ++ w.recs.flatMap PeriRecord.encode) := w.message_eq ▸ h

/-- The size that the loop reads off a record. -/
theorem size_eq {data : ℕ → UInt8} {r : PeriRecord} {pre post : List UInt8}
    (h : InMemory data (pre ++ r.encode ++ post)) :
    (data (pre.length + 2)).toNat + 3 = r.encode.length := by
  rw [h.getD (by rw [r.length_encode]; omega), r.length_encode]
  exact congrArg (· + 3) r.toNat_length

/-- The loop is at its record, with the analyzer at rest. -/
theorem rested_run {k : ℕ} (hk : k ≤ w.recs.length) :
    (Framing.run (iteration3010 w.env.process.frame w.write.data) k
      (start3010 w.env.process.pfs w.env.process.blocks)).os.toNat =
        (w.hdr ++ (w.recs.take k).flatMap PeriRecord.encode).length ∧
    ∃ pa, (Framing.run (iteration3010 w.env.process.frame w.write.data) k
      (start3010 w.env.process.pfs w.env.process.blocks)).state = some pa ∧ Rested w.init pa := by
  have hmem := w.inMemory_frames w.inMemory_data
  have hle := w.length_le
  rw [w.message_eq] at hle
  simp only [MAX_BUF_SIZE] at hle
  have hos : ∀ {k}, k ≤ w.recs.length →
      (Framing.run (iteration3010 w.env.process.frame w.write.data) k
        (start3010 w.env.process.pfs w.env.process.blocks)).os.toNat =
          (w.hdr ++ (w.recs.take k).flatMap PeriRecord.encode).length := fun hk =>
    Framing.run_os_frames hmem (fun os => (w.write.data (os + 2)).toNat + 3)
      (os_iteration3010 w.env.process.frame w.write.data)
      (show (start3010 w.env.process.pfs w.env.process.blocks).os.toNat = _ from w.length_hdr.symm)
      (fun r _ _ _ => size_eq) (by omega) hk
  refine ⟨hos hk, Framing.run_state (P := fun _ pa => Rested w.init pa) ?_ ?_⟩
  · refine ⟨w.init.analyzer, ?_, w.init.rested⟩
    rw [start3010, w.pfs_eq, w.blocks_eq, newAnalyzer, ← w.num_eq]
    exact w.init.paInitProtocolAnalyzer_eq
  · intro j hj pa hstate hpa
    obtain ⟨pa', hstate', hpa', -⟩ := iteration3010_record (hmem.frame (hj.trans_le hk))
      (hos (hj.le.trans hk)) hstate hpa j
    exact ⟨pa', hstate', hpa'⟩

/-- The loop comes to its end, and the admins are handed back as they were. -/
theorem run_eq (admins : TaskAdmins) : w.write.run admins = some admins := by
  have h6 := w.six_le
  have hcount : w.write.data 5 = w.hdr.getD 5 0 := by
    rw [w.inMemory_data 5 (by omega), w.message_eq, List.getD_append _ _ _ _ (by
      rw [w.length_hdr]; omega)]
  obtain ⟨-, pa, hstate, -⟩ := w.rested_run le_rfl
  rw [w.toDelivery.run_eq (by omega), w.command_eq, processProtocol, if_neg (by decide), if_pos rfl]
  simp only
  rw [doCommand0x3010, hcount, w.count_eq, hstate]
  rfl

/-- Every record lies in the message and fits into the analyzer. -/
theorem recordFits {k : ℕ} (hk : k < w.recs.length) :
    RecordFits w.bytes w.message.length (frameOffset (recordSize w.bytes) 6 k) := by
  have hmem : InMemory w.bytes (w.hdr ++ w.recs.flatMap PeriRecord.encode) :=
    w.inMemory_frames fun _ _ => rfl
  have hsize : ∀ j (hj : j < w.recs.length), recordSize w.bytes
      (w.hdr ++ (w.recs.take j).flatMap PeriRecord.encode).length = w.recs[j].encode.length :=
    fun j hj => size_eq (hmem.frame hj)
  have hlen := congrArg List.length (flatMap_split PeriRecord.encode hk)
  have hdc := w.recs[k].length_dcData
  rw [← w.length_hdr, frameOffset_eq hsize hk.le, RecordFits, hsize k hk, w.message_eq]
  simp only [List.length_append, PeriRecord.length_encode] at hlen ⊢
  omega

/-- No access is out of range. -/
theorem safe : w.write.Safe := by
  have hne : ∀ c : UInt16, c ≠ 0x3010 → commandOf w.bytes ≠ c := fun c hc h =>
    hc (h.symm.trans w.command_eq)
  have h6 := w.six_le
  have hcount : w.bytes 5 = w.hdr.getD 5 0 := by
    rw [Delivery.bytes, w.message_eq, List.getD_append _ _ _ _ (by rw [w.length_hdr]; omega)]
  apply w.toDelivery.safe
  exact
    { two_le := by omega
      le_max := w.length_le
      task := fun h => absurd h (hne _ (by decide))
      records := fun _ => ⟨h6, fun k hk => w.recordFits (by rwa [hcount, w.count_eq] at hk)⟩
      pdus := fun h => absurd h (hne _ (by decide)) }

end RecordsWrite

namespace PdusWrite

variable (w : PdusWrite)

theorem five_le : 5 ≤ w.message.length := by
  rw [w.message_eq, List.length_append, w.length_hdr]
  omega

theorem inMemory_frames {data : ℕ → UInt8} (h : InMemory data w.message) :
    InMemory data (w.hdr ++ w.pdus.flatMap SubPdu.bytes) := w.message_eq ▸ h

/-- The size that the loop reads off a sub-PDU. -/
theorem size_eq {data : ℕ → UInt8} {p : SubPdu} {pre post : List UInt8}
    (h : InMemory data (pre ++ p.bytes ++ post)) :
    (data pre.length).toNat = p.bytes.length := by
  have h2 := p.two_le_length
  have hget := h.getD (k := 0) (by omega)
  rw [Nat.add_zero] at hget
  rw [hget, p.toNat_getD_zero]

/-- An analyzer is at rest as long as no sub-PDU of its format has moved its fields. -/
structure RestedAt (k : ℕ) (pas : PduAnalyzers) : Prop where
  pa50 : (∀ p ∈ w.pdus.take k, p.embFlag = 0 → Unmoved p.content) → Rested w.i50 pas.pa50
  pa52 : (∀ p ∈ w.pdus.take k, p.embFlag ≠ 0 → Unmoved p.content) → Rested w.i52 pas.pa52

theorem movesNothing_take (k : ℕ) : MovesNothing w.pdus k := by
  have h := w.movesNothing
  rw [MovesNothing, List.take_length] at h
  exact h.sublist (List.take_sublist ..)

/-- The loop is at its sub-PDU. -/
theorem rested_run {k : ℕ} (hk : k ≤ w.pdus.length) :
    (Framing.run (iteration301b w.env.process.frame w.write.data) k
      (start301b w.env.process.pfs w.env.process.blocks w.env.process.blocks')).os.toNat =
        (w.hdr ++ (w.pdus.take k).flatMap SubPdu.bytes).length ∧
    ∃ pas, (Framing.run (iteration301b w.env.process.frame w.write.data) k
      (start301b w.env.process.pfs w.env.process.blocks w.env.process.blocks')).state =
        some pas ∧ w.RestedAt k pas := by
  have hmem := w.inMemory_frames w.inMemory_data
  have hle := w.length_le
  rw [w.message_eq] at hle
  simp only [MAX_BUF_SIZE] at hle
  have hos : ∀ {k}, k ≤ w.pdus.length →
      (Framing.run (iteration301b w.env.process.frame w.write.data) k
        (start301b w.env.process.pfs w.env.process.blocks w.env.process.blocks')).os.toNat =
          (w.hdr ++ (w.pdus.take k).flatMap SubPdu.bytes).length := fun hk =>
    Framing.run_os_frames hmem (fun os => (w.write.data os).toNat)
      (os_iteration301b w.env.process.frame w.write.data)
      (show (start301b w.env.process.pfs w.env.process.blocks
        w.env.process.blocks').os.toNat = _ from w.length_hdr.symm)
      (fun p _ _ _ => size_eq) (by omega) hk
  refine ⟨hos hk, Framing.run_state ?_ ?_⟩
  · have h50 : newAnalyzer 0x3050 w.env.process.pfs w.env.process.blocks =
        some w.i50.analyzer := by
      rw [w.pfs50_eq, w.blocks_eq, newAnalyzer, ← w.num50_eq]
      exact w.i50.paInitProtocolAnalyzer_eq
    have h52 : newAnalyzer 0x3052 w.env.process.pfs w.env.process.blocks' =
        some w.i52.analyzer := by
      rw [w.pfs52_eq, w.blocks'_eq, newAnalyzer, ← w.num52_eq]
      exact w.i52.paInitProtocolAnalyzer_eq
    refine ⟨⟨w.i50.analyzer, w.i52.analyzer⟩, ?_, fun _ => w.i50.rested, fun _ => w.i52.rested⟩
    rw [start301b, h50, h52]
    rfl
  · intro j hj pas hstate hpas
    have hjn : j < w.pdus.length := hj.trans_le hk
    have hsame := ((movesNothing_succ hjn).1 (w.movesNothing_take _)).2
    obtain ⟨pas', hstate', -, h50, h52⟩ := iteration301b_subPdu (hmem.frame hjn) (hos hjn.le) hstate
      (fun he => hpas.pa50 fun p hp hpe => hsame p hp (by simp [SubPdu.SameFormat, hpe, he]))
      (fun he => hpas.pa52 fun p hp hpe => hsame p hp (by simp [SubPdu.SameFormat, hpe, he])) j
    refine ⟨pas', hstate', fun h => ?_, fun h => ?_⟩
    all_goals rw [List.take_succ_eq_append_getElem hjn] at h
    · exact h50 (hpas.pa50 fun p hp => h p (List.mem_append_left _ hp))
        (h _ (List.mem_append_right _ (List.mem_singleton.2 rfl)))
    · exact h52 (hpas.pa52 fun p hp => h p (List.mem_append_left _ hp))
        (h _ (List.mem_append_right _ (List.mem_singleton.2 rfl)))

theorem data_four : w.bytes 4 = w.hdr.getD 4 0 := by
  rw [Delivery.bytes, w.message_eq, List.getD_append _ _ _ _ (by rw [w.length_hdr]; omega)]

/-- The loop comes to its end, and the admins are handed back as they were. -/
theorem run_eq (admins : TaskAdmins) : w.write.run admins = some admins := by
  have h5 := w.five_le
  have hcount : w.write.data 4 = w.hdr.getD 4 0 :=
    (w.inMemory_data 4 (by omega)).trans w.data_four
  obtain ⟨-, pas, hstate, -⟩ := w.rested_run le_rfl
  rw [w.toDelivery.run_eq (by omega), w.command_eq, processProtocol, if_neg (by decide),
    if_neg (by decide), if_pos rfl]
  simp only
  rw [doCommand0x301b, hcount, w.count_eq, hstate]
  rfl

/-- Every sub-PDU lies in the message and fits into its analyzer. -/
theorem pduFits {k : ℕ} (hk : k < w.pdus.length) :
    PduFits w.bytes w.message.length (frameOffset (pduSize w.bytes) 5 k) := by
  have hmem : InMemory w.bytes (w.hdr ++ w.pdus.flatMap SubPdu.bytes) :=
    w.inMemory_frames fun _ _ => rfl
  have hsize : ∀ j (hj : j < w.pdus.length), pduSize w.bytes
      (w.hdr ++ (w.pdus.take j).flatMap SubPdu.bytes).length = w.pdus[j].bytes.length :=
    fun j hj => size_eq (hmem.frame hj)
  have hlen := congrArg List.length (flatMap_split SubPdu.bytes hk)
  have h2 := w.pdus[k].two_le_length
  have hle := w.pdus[k].length_le
  rw [← w.length_hdr, frameOffset_eq hsize hk.le, PduFits, hsize k hk, w.message_eq]
  simp only [List.length_append] at hlen ⊢
  omega

/-- No access is out of range. -/
theorem safe : w.write.Safe := by
  have hne : ∀ c : UInt16, c ≠ 0x301b → commandOf w.bytes ≠ c := fun c hc h =>
    hc (h.symm.trans w.command_eq)
  have h5 := w.five_le
  apply w.toDelivery.safe
  exact
    { two_le := by omega
      le_max := w.length_le
      task := fun h => absurd h (hne _ (by decide))
      records := fun h => absurd h (hne _ (by decide))
      pdus := fun _ => ⟨h5, fun k hk => w.pduFits (by rwa [w.data_four, w.count_eq] at hk)⟩ }

end PdusWrite

namespace OtherWrite

variable (w : OtherWrite)

theorem command_ne' : w.toDelivery.command ≠ 0x3008 ∧ w.toDelivery.command ≠ 0x3010 ∧
    w.toDelivery.command ≠ 0x301b := by
  simpa [not_or] using w.command_ne

/-- Another command does nothing. -/
theorem run_eq (admins : TaskAdmins) : w.write.run admins = some admins := by
  obtain ⟨h₁, h₂, h₃⟩ := w.command_ne'
  rw [w.toDelivery.run_eq w.two_le, processProtocol, if_neg h₁, if_neg h₂, if_neg h₃]

theorem safe : w.write.Safe := by
  obtain ⟨h₁, h₂, h₃⟩ := w.command_ne'
  apply w.toDelivery.safe
  exact
    { two_le := w.two_le
      le_max := w.length_le
      task := fun h => absurd h h₁
      records := fun h => absurd h h₂
      pdus := fun h => absurd h h₃ }

end OtherWrite

/-! ## Tasks -/

namespace TaskCall

variable (t : TaskCall)

/-- The message is for a slot that the system designates. -/
def sys : Bool := t.message.slotInfo &&& 0x1000 ≠ 0

/-- When the user designates the slot, the memory can be read at the number of the slot, which is
taken for the address of a key. -/
def KeyReadable : Prop := t.sys = false → t.env.add.Readable t.message.slotInfo

/-- The key under which the task is kept, when the user designates its slot: what is in memory at
the number of the slot. -/
def key : List UInt8 := t.env.add.taskKey t.made.slotNum

theorem container_made :
    t.made.container = some (if t.sys then Container.dataSys else Container.dataUser) := by
  by_cases h : t.message.slotInfo &&& 0x1000 ≠ 0
  · have hsys : t.sys = true := decide_eq_true h
    simp only [Task.container, made, posted, if_pos h, hsys]
    rfl
  · have hsys : t.sys = false := decide_eq_false h
    simp only [Task.container, made, posted, if_neg h, hsys]
    rfl

variable {t}

/-- A node that is not in use will do, and a key that can be read. -/
theorem addOk {b : Board} (h : t.node ∉ b.nodes) (hread : t.KeyReadable) :
    b.AddOk t.env.add t.made TASK_FLAG_SND := by
  intro _
  refine ⟨fun n hn => ?_, fun _ => Option.some_ne_none _, fun hc => hread ?_⟩
  · obtain rfl := Option.some.inj hn
    exact h
  · rw [t.container_made] at hc
    cases hsys : t.sys with
    | false => rfl
    | true => simp [hsys] at hc

end TaskCall

/-- When the key cannot be read, the write does not return. -/
theorem TaskWrite.run_eq_none (w : TaskWrite) (h : ¬ w.call.KeyReadable) {admins : TaskAdmins}
    (h₁ : admins.slot1.pair.keyLen = 2) (h₂ : admins.slot2.pair.keyLen = 2) :
    w.write.run admins = none := by
  obtain ⟨hsys, hread⟩ := Classical.not_imp.1 h
  have hc : w.call.made.container = some .dataUser ∨ w.call.made.container = some .voiceUser := by
    simp [w.call.container_made, hsys]
  rw [w.run_eq, w.call.run_eq_made]
  split_ifs
  · rw [addTask_eq_none hc h₂ hread, Option.map_none]
  · rw [addTask_eq_none hc h₁ hread, Option.map_none]

/-! ## Sessions -/

/-- A well-formed write. -/
inductive DeviceCall
  | task (w : TaskWrite)
  | records (w : RecordsWrite)
  | pdus (w : PdusWrite)
  | other (w : OtherWrite)

namespace DeviceCall

/-- The message that is written. -/
def delivery : DeviceCall → Delivery
  | task w => w.toDelivery
  | records w => w.toDelivery
  | pdus w => w.toDelivery
  | other w => w.toDelivery

/-- The task that the write makes. -/
def posted : DeviceCall → Option TaskCall
  | task w => some w.call
  | _ => none

/-- What the write means for the boards of the two admins: the task of a `0x3008` message is added
to one of them, by the parity of its slot. -/
def apply (c : DeviceCall) (b : Board × Board) : Board × Board :=
  match c.posted with
  | none => b
  | some t =>
    if t.odd then (b.1, b.2.add t.env.add t.made TASK_FLAG_SND)
    else (b.1.add t.env.add t.made TASK_FLAG_SND, b.2)

/-- The node for the task is not in use at its admin, and its key can be read. -/
def Allowed (c : DeviceCall) (b : Board × Board) : Prop :=
  ∀ t ∈ c.posted, t.node ∉ (if t.odd then b.2 else b.1).nodes ∧ t.KeyReadable

/-- No write drives an access out of range. -/
theorem safe (c : DeviceCall) : c.delivery.write.Safe := by
  cases c with
  | task w => exact w.safe
  | records w => exact w.safe
  | pdus w => exact w.safe
  | other w => exact w.safe

end DeviceCall

/-- The writes to the device. -/
def deviceCalls : Refinement DeviceCall TaskAdmins (Board × Board) where
  step c := c.delivery.write.run
  next := DeviceCall.apply
  Ok := DeviceCall.Allowed

/-- The admins hold what is on their boards. -/
structure TaskAdmins.Shows (admins : TaskAdmins) (b : Board × Board) : Prop where
  slot1 : admins.slot1.Shows b.1
  slot2 : admins.slot2.Shows b.2

/-- **One write does to the admins what it does to their boards.** -/
theorem deviceCalls_simulates : deviceCalls.Simulates TaskAdmins.Shows := by
  intro c admins b h hok
  cases c with
  | task w =>
    obtain ⟨hnode, hread⟩ := hok w.call rfl
    change ∃ s', w.write.run admins = some s' ∧ s'.Shows (DeviceCall.apply (.task w) b)
    rw [w.run_eq, w.call.run_eq_made, DeviceCall.apply]
    simp only [DeviceCall.posted]
    split_ifs with hodd
    · rw [if_pos hodd] at hnode
      obtain ⟨slot2, hadd, hslot2⟩ := h.slot2.add (TaskCall.addOk hnode hread)
      exact ⟨{ admins with slot2 := slot2 }, by rw [hadd]; rfl, h.slot1, hslot2⟩
    · rw [if_neg hodd] at hnode
      obtain ⟨slot1, hadd, hslot1⟩ := h.slot1.add (TaskCall.addOk hnode hread)
      exact ⟨{ admins with slot1 := slot1 }, by rw [hadd]; rfl, hslot1, h.slot2⟩
  | records w => exact ⟨admins, w.run_eq admins, h⟩
  | pdus w => exact ⟨admins, w.run_eq admins, h⟩
  | other w => exact ⟨admins, w.run_eq admins, h⟩

/-! ## Whole sessions -/

/-- The board of an admin that these tasks have been sent to. -/
def taskBoard (dataHead voiceHead : Addr) (tasks : List TaskCall) : Board where
  dataHead := dataHead
  voiceHead := voiceHead
  dataSys := (tasks.filter TaskCall.sys).map fun t => (t.node, t.made)
  voiceSys := []
  dataUser := (tasks.filter fun t => !t.sys).reverse.map fun t =>
    Board.record t.env.add t.made t.node
  voiceUser := []
  fetched := []

section TaskBoard

variable {dataHead voiceHead : Addr}

/-- One task more. -/
theorem add_taskBoard (tasks : List TaskCall) (t : TaskCall) :
    (taskBoard dataHead voiceHead tasks).add t.env.add t.made TASK_FLAG_SND =
      taskBoard dataHead voiceHead (tasks ++ [t]) := by
  rw [Board.add, if_pos rfl, t.container_made]
  cases h : t.sys <;> simp [taskBoard, h, TaskCall.env]

/-- A board uses the nodes of its tasks. -/
theorem mem_nodes_taskBoard {tasks : List TaskCall} {a : Addr} :
    a ∈ (taskBoard dataHead voiceHead tasks).nodes ↔
      a ∈ dataHead :: voiceHead :: tasks.map TaskCall.node := by
  simp only [taskBoard, Board.nodes, Board.record, List.mem_cons, List.mem_append, List.map_map,
    List.mem_map, List.mem_reverse, List.mem_filter, Function.comp_apply, List.map_nil,
    List.not_mem_nil, or_false]
  refine or_congr_right (or_congr_right ⟨?_, ?_⟩)
  · rintro (⟨t, ⟨ht, -⟩, rfl⟩ | ⟨t, ⟨ht, -⟩, rfl⟩) <;> exact ⟨t, ht, rfl⟩
  · rintro ⟨t, ht, rfl⟩
    cases hsys : t.sys
    · exact .inr ⟨t, ⟨ht, by simp [hsys]⟩, rfl⟩
    · exact .inl ⟨t, ⟨ht, hsys⟩, rfl⟩

end TaskBoard

/-- The admin holds these tasks, those of system-designated slots in the list of the data tasks, in
order, those of user-designated slots in the map, where a search finds the last one with its key,
and nothing else. -/
structure TaskAdmin.Received (admin : TaskAdmin) (tasks : List TaskCall) : Prop where
  dataSys : llistContents admin.dataSysDesignateSlot =
    some ((tasks.filter TaskCall.sys).map TaskCall.made)
  voiceSys : llistContents admin.voiceSysDesignateSlot = some []
  dataUser : ∃ ps, hashMapForEach admin.dataUserDesignateSlot = some ps ∧
    (ps.map HashMapPos.hlistNodeP).Perm ((tasks.filter fun t => !t.sys).map fun t => some t.node)
  search : ∀ key : List UInt8, key.length = 2 →
    (hashMapSearch admin.dataUserDesignateSlot key).hlistNodeP =
      ((tasks.filter fun t => !t.sys).reverse.find? fun t => t.key = key).map TaskCall.node
  voiceUser : hashMapForEach admin.voiceUserDesignateSlot = some []

/-- An admin that shows their board has received the tasks. -/
theorem TaskAdmin.Shows.received {admin : TaskAdmin} {dataHead voiceHead : Addr}
    {tasks : List TaskCall} (h : admin.Shows (taskBoard dataHead voiceHead tasks)) :
    admin.Received tasks where
  dataSys := by
    rw [h.dataSys.contents, taskBoard, List.map_map]
    rfl
  voiceSys := h.voiceSys.contents
  dataUser := by
    refine ⟨_, h.dataUser.holds.forEach, ?_⟩
    apply h.dataUser.holds.perm_allPositions.trans
    rw [taskBoard, List.map_map]
    exact (List.reverse_perm _).map _
  search key hkey := by
    rw [h.dataUser.search hkey, taskBoard, List.find?_map, Option.map_map]
    rfl
  voiceUser := by
    have hperm := h.voiceUser.holds.perm_allPositions
    rw [h.voiceUser.holds.forEach]
    exact congrArg some (List.map_eq_nil_iff.1 hperm.eq_nil)

/-- The tasks of a session, in the order of their messages. -/
def postedTasks (calls : List DeviceCall) : List TaskCall := calls.filterMap DeviceCall.posted

/-- The boards of the two admins after a session. -/
def sessionBoards (head₁ voice₁ head₂ voice₂ : Addr) (calls : List DeviceCall) : Board × Board :=
  (taskBoard head₁ voice₁ ((postedTasks calls).filter fun t => !t.odd),
    taskBoard head₂ voice₂ ((postedTasks calls).filter TaskCall.odd))

section Session

variable {head₁ voice₁ head₂ voice₂ : Addr}

/-- One write more. -/
theorem apply_sessionBoards (calls : List DeviceCall) (c : DeviceCall) :
    c.apply (sessionBoards head₁ voice₁ head₂ voice₂ calls) =
      sessionBoards head₁ voice₁ head₂ voice₂ (calls ++ [c]) := by
  rw [DeviceCall.apply, sessionBoards, sessionBoards, postedTasks, postedTasks,
    List.filterMap_append, List.filter_append, List.filter_append]
  cases h : c.posted with
  | none => simp [h]
  | some t => cases hodd : t.odd <;> simp [h, hodd, add_taskBoard]

/-- A session that is given new nodes, and can read its keys, does to the boards what its tasks
tell. -/
theorem after_sessionBoards (calls : List DeviceCall)
    (hfresh : (head₁ :: voice₁ :: head₂ :: voice₂ ::
      (postedTasks calls).map TaskCall.node).Nodup)
    (hread : ∀ t ∈ postedTasks calls, t.KeyReadable) :
    deviceCalls.Admissible calls (.empty head₁ voice₁, .empty head₂ voice₂) ∧
      deviceCalls.after calls (.empty head₁ voice₁, .empty head₂ voice₂) =
        sessionBoards head₁ voice₁ head₂ voice₂ calls := by
  induction calls using List.reverseRecOn with
  | nil => exact ⟨trivial, rfl⟩
  | append_singleton calls c ih =>
    rw [postedTasks, List.filterMap_append, ← postedTasks, List.map_append, ← List.cons_append,
      ← List.cons_append, ← List.cons_append, ← List.cons_append] at hfresh
    rw [postedTasks, List.filterMap_append, ← postedTasks, List.forall_mem_append] at hread
    obtain ⟨hcalls, -, hdisj⟩ := List.nodup_append.1 hfresh
    obtain ⟨hok, hafter⟩ := ih hcalls hread.1
    have hc : c.Allowed (sessionBoards head₁ voice₁ head₂ voice₂ calls) := by
      intro t ht
      have hnew : t.node ∉ head₁ :: voice₁ :: head₂ :: voice₂ ::
          (postedTasks calls).map TaskCall.node := fun h =>
        hdisj t.node h t.node (by simp [Option.mem_def.1 ht]) rfl
      have hfilter : ∀ p : TaskCall → Bool,
          t.node ∉ ((postedTasks calls).filter p).map TaskCall.node := fun p h =>
        hnew (by simp [(List.filter_sublist.map _).subset h])
      simp only [List.mem_cons, not_or] at hnew
      refine ⟨?_, hread.2 t (by simp [Option.mem_def.1 ht])⟩
      simp only [sessionBoards]
      split_ifs
      · rw [mem_nodes_taskBoard]
        simp [hnew, hfilter]
      · rw [mem_nodes_taskBoard]
        simp [hnew, hfilter]
    rw [Refinement.admissible_append, Refinement.after_append, hafter]
    exact ⟨⟨hok, hc, trivial⟩, apply_sessionBoards calls c⟩

/-- **Sessions of the device.** Well-formed writes drive no access out of range, and after any
sequence of them that can read its keys, from two new admins, each admin holds the tasks of the
`0x3008` messages for its slot, and nothing else. -/
theorem runSession_tasks (calls : List DeviceCall)
    (hfresh : (head₁ :: voice₁ :: head₂ :: voice₂ ::
      (postedTasks calls).map TaskCall.node).Nodup)
    (hread : ∀ t ∈ postedTasks calls, t.KeyReadable) (uninit₁ uninit₂ : List UInt8) :
    (∀ c ∈ calls, c.delivery.write.Safe) ∧
    ∃ admins, deviceCalls.run calls ⟨createTaskAdmin head₁ voice₁ uninit₁,
        createTaskAdmin head₂ voice₂ uninit₂⟩ = some admins ∧
      admins.slot1.Received ((postedTasks calls).filter fun t => !t.odd) ∧
      admins.slot2.Received ((postedTasks calls).filter TaskCall.odd) := by
  refine ⟨fun c _ => c.safe, ?_⟩
  obtain ⟨hok, hafter⟩ := after_sessionBoards calls hfresh hread
  have hnew : TaskAdmins.Shows ⟨createTaskAdmin head₁ voice₁ uninit₁,
      createTaskAdmin head₂ voice₂ uninit₂⟩ (.empty head₁ voice₁, .empty head₂ voice₂) :=
    ⟨shows_createTaskAdmin head₁ voice₁ uninit₁, shows_createTaskAdmin head₂ voice₂ uninit₂⟩
  obtain ⟨admins, hrun, hshows⟩ := deviceCalls_simulates.run hnew hok
  rw [hafter] at hshows
  exact ⟨admins, hrun, hshows.slot1.received, hshows.slot2.received⟩

end Session

/-- What a write finds, with these blocks for the analyzers and zeros elsewhere. -/
def quietEnv (task : TaskEnv) (blocks blocks' : AnalyzerBlocks) : WriteEnv :=
  ⟨fun _ => 0, drvPfs, task, fun _ => ⟨true, fun _ _ => 0, fun _ _ => 0, 0⟩, blocks, blocks'⟩

/-- Behind a message is nothing but zeros. -/
theorem getD_of_length {bs : List UInt8} {len : ℕ} (h : bs.length = len) :
    (fun n => bs.getD n 0) = fun n => if n < len then bs.getD n 0 else 0 := by
  funext n
  split_ifs with hn
  · rfl
  · rw [List.getD_eq_default _ _ (by omega)]

theorem inMemory_getD (bs : List UInt8) : InMemory (fun n => bs.getD n 0) bs := fun _ _ => rfl

theorem le_MAX_BUF_SIZE_of_eq_sixteen {n : ℕ} (h : n = 16) : n ≤ MAX_BUF_SIZE :=
  h.trans_le (by decide)

theorem commandOf_msg3008 : (0x30 : UInt8).toUInt16 <<< 8 ||| (0x08 : UInt8).toUInt16 = 0x3008 := by
  decide

/-- The write of `msg3008`; the task goes to the node at `node`. -/
def write3008 (slot : UInt8) (node : Addr) : TaskWrite where
  env := quietEnv (call3008 slot node).env ⟨[], []⟩ ⟨[], []⟩
  buf n := (msg3008 slot).bytes.getD n 0
  message := (msg3008 slot).bytes
  inMemory := inMemory_getD _
  length_le := le_MAX_BUF_SIZE_of_eq_sixteen rfl
  call := call3008 slot node
  message_eq := rfl
  data_eq := getD_of_length rfl
  task_eq := rfl
  pfs_eq := rfl
  command_eq := commandOf_msg3008

/-- A message for slot 2, which the user designates. -/
def msgUser : TaskMessage where
  bytes := [0x30, 0x08, 0, 0, 0, 2, 0, 0, 3, 2, 10, 11, 0, 0, 1, 12]
  content := specs3008.zip [[0x30, 0x08], [0, 0], [0, 2], [0, 0], [3], [2], [10, 11], [0],
    [0], [1], [12]]
  rest := []
  map_fst_content := rfl
  consistent := ⟨rfl, rfl, rfl, rfl, rfl, rfl,
    ⟨by decide, _, List.mem_of_getElem? (i := 5) rfl, rfl, by decide, by decide⟩, rfl, rfl, rfl,
    ⟨by decide, _, List.mem_of_getElem? (i := 9) rfl, rfl, by decide, by decide⟩, trivial⟩
  wire_eq := rfl
  length_le := by simp [MAX_PROTO_DATA_LEN]

/-- Its arrival in a memory that is full of fives and can be read everywhere. -/
def callUser : TaskCall where
  message := msgUser
  init := .atBlocks mem_drvFormats_3008 1024 1536 (Nat.zero_lt_succ _)
    (Nat.le_of_ble_eq_true rfl) (Nat.le_of_ble_eq_true rfl)
  num_eq := rfl
  data n := msgUser.bytes.getD n 0
  inMemory := inMemory_getD _
  parse := ⟨true, fun _ _ => 0, fun _ _ => 0, 0⟩
  keyStr _ _ := 0
  task := ⟨0, 0, 0, 0, 0⟩
  node := 8224
  mem _ := some 5
  padding := 0

/-- The write of `msgUser`. -/
def writeUser : TaskWrite where
  env := quietEnv callUser.env ⟨[], []⟩ ⟨[], []⟩
  buf n := msgUser.bytes.getD n 0
  message := msgUser.bytes
  inMemory := inMemory_getD _
  length_le := le_MAX_BUF_SIZE_of_eq_sixteen rfl
  call := callUser
  message_eq := rfl
  data_eq := getD_of_length rfl
  task_eq := rfl
  pfs_eq := rfl
  command_eq := commandOf_msg3008

/-- An analyzer for the records of a session. -/
def sessionInit3054 : Init specs3054 :=
  .atBlocks mem_drvFormats_3054 2048 2304 (Nat.zero_lt_succ _)
    (Nat.le_of_ble_eq_true rfl) (Nat.le_of_ble_eq_true rfl)

/-- The write of `twoRecs`. -/
def write3010 : RecordsWrite where
  env := quietEnv callUser.env ⟨sessionInit3054.infos, sessionInit3054.nodes⟩ ⟨[], []⟩
  buf n := ([0x30, 0x10, 0, 0, 0, 2] ++ twoRecs.flatMap PeriRecord.encode).getD n 0
  message := [0x30, 0x10, 0, 0, 0, 2] ++ twoRecs.flatMap PeriRecord.encode
  inMemory := inMemory_getD _
  length_le := by decide
  init := sessionInit3054
  num_eq := rfl
  pfs_eq := rfl
  blocks_eq := rfl
  hdr := [0x30, 0x10, 0, 0, 0, 2]
  length_hdr := rfl
  recs := twoRecs
  count_eq := rfl
  message_eq := rfl
  command_eq := rfl

/-- Analyzers for the sub-PDUs of a session. -/
def sessionInit3050 : Init specs3050 :=
  .atBlocks mem_drvFormats_3050 2560 3072 (Nat.zero_lt_succ _)
    (Nat.le_of_ble_eq_true rfl) (Nat.le_of_ble_eq_true rfl)

def sessionInit3052 : Init specs3052 :=
  .atBlocks mem_drvFormats_3052 3584 5120 (Nat.zero_lt_succ _)
    (Nat.le_of_ble_eq_true rfl) (Nat.le_of_ble_eq_true rfl)

/-- The write of `fourPdus`. -/
def write301b : PdusWrite where
  env := quietEnv callUser.env ⟨sessionInit3050.infos, sessionInit3050.nodes⟩
    ⟨sessionInit3052.infos, sessionInit3052.nodes⟩
  buf n := ([0x30, 0x1b, 0, 0, 4] ++ fourPdus.flatMap SubPdu.bytes).getD n 0
  message := [0x30, 0x1b, 0, 0, 4] ++ fourPdus.flatMap SubPdu.bytes
  inMemory := inMemory_getD _
  length_le := by decide
  i50 := sessionInit3050
  i52 := sessionInit3052
  num50_eq := rfl
  num52_eq := rfl
  pfs50_eq := rfl
  pfs52_eq := rfl
  blocks_eq := rfl
  blocks'_eq := rfl
  hdr := [0x30, 0x1b, 0, 0, 4]
  length_hdr := rfl
  pdus := fourPdus
  count_eq := rfl
  movesNothing := movesNothing_fourPdus
  message_eq := rfl
  command_eq := rfl

/-- Tasks for both admins and both kinds of slots, with records and sub-PDUs between them. Every
analyzer has blocks of its own. -/
def fourWrites : List DeviceCall :=
  [.task (write3008 1 8192), .records write3010, .pdus write301b, .task writeUser]

theorem keyReadable_fourWrites : ∀ t ∈ postedTasks fourWrites, t.KeyReadable := by
  have hsys : (call3008 1 8192).KeyReadable := fun h => absurd h (by decide)
  have huser : callUser.KeyReadable := fun _ => ⟨rfl, rfl⟩
  exact List.forall_mem_cons.2 ⟨hsys, List.forall_mem_singleton.2 huser⟩

theorem runSession_tasks_fourWrites :
    (∀ c ∈ fourWrites, c.delivery.write.Safe) ∧
    ∃ admins, deviceCalls.run fourWrites
        ⟨createTaskAdmin 9216 9248 [], createTaskAdmin 9280 9312 []⟩ = some admins ∧
      admins.slot1.Received [callUser] ∧ admins.slot2.Received [call3008 1 8192] :=
  runSession_tasks fourWrites (by decide) keyReadable_fourWrites [] []

end HpiDriver
