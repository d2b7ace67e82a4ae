import Mathlib.Algebra.Order.BigOperators.Group.List
import Mathlib.Algebra.Order.Group.Nat
import HpiDriver.ProtoAnalyzer.Sheet
import HpiDriver.Session

/-!
# The test programs as senders

`test_pdt_proto_3010` and `test_pdt_hpi_driver_3010` put peripheral records into a message, one
after another, with one analyzer that they never reset. The first record gives the data field its
length, and the later ones go out with that length, whatever they say about their own
(`testPdtProto3010_eq`). When all of them have as many bytes of data as the first one, the driver
finds in the message what was put into it (`deviceWrite_testPdtProto3010`).
-/

namespace HpiDriver

open Blocks BigEndian

/-! ## The programs -/

/-- `__pdt_drv_proto_init_3054` -/
def pdtDrvProtoInit3054 (uninit : ℕ → UInt8) (noName1 stInfo dcInfo : UInt8)
    (dcData : List UInt8) (pa : ProtocolAnalyzer) : Option ProtocolAnalyzer := do
  let r ← paSetValue PROTO_NUM 0x3054 uninit pa
  let r ← paSetValue NO_NAME1 noName1.toUInt32 uninit r.2
  let r ← paSetValue ST_INFO stInfo.toUInt32 uninit r.2
  let r ← paSetVariableLengthValue DC_INFO dcInfo.toUInt32 uninit r.2
  let data ← memcpyFrom dcData 0 dcInfo.toNat
  let r ← paSetBuf DC_DATA data uninit r.2
  some r.2

/-- What `__pdt_drv_proto_init_3054` is called with, and what it and the generator behind it find
undetermined. -/
structure PeriCall where
  noName1 : UInt8
  stInfo : UInt8
  dcInfo : UInt8
  dcData : List UInt8
  uninit : ℕ → UInt8
  env : Env

/-- Where a test program stands: its analyzer, its `proto_buffer` and its offset `os`. -/
structure Sender where
  pa : ProtocolAnalyzer
  protoBuffer : List UInt8
  os : UInt16

/-- Copy the message of an analyzer, without its number, behind what is in `proto_buffer`. -/
def copyRecord (protoBuffer : List UInt8) (os : UInt16) (pa : ProtocolAnalyzer) : Option Sender :=
  -- `pa->protocol_data_len - 2` is an `int`, and as a size it is huge when it is negative
  if pa.protocolDataLen.toNat < 2 then none
  else do
    let bs ← memcpyFrom pa.protocolData 2 (pa.protocolDataLen.toNat - 2)
    let buf ← memcpyTo protoBuffer os.toNat bs
    some ⟨pa, buf, os + (pa.protocolDataLen - 2)⟩

/-- Put a record behind what is in `proto_buffer`. -/
def appendRecord (st : Sender) (c : PeriCall) : Option Sender := do
  let pa ← pdtDrvProtoInit3054 c.uninit c.noName1 c.stInfo c.dcInfo c.dcData st.pa
  let r ← paGenerateProtocolData c.env pa
  copyRecord st.protoBuffer st.os r.2

/-- `test_pdt_proto_3010`, which passes the message on to its parser, and
`test_pdt_hpi_driver_3010`, which writes it to the device. Both append three records and put their
number into the header. -/
def testPdtProto3010 (pfs : ProtocolFormatSet) (b : AnalyzerBlocks) (protoBuffer : List UInt8)
    (calls : List PeriCall) : Option (List UInt8) := do
  let buf ← arrayStore protoBuffer 0 0x30
  let buf ← arrayStore buf 1 0x10
  let pa ← newAnalyzer 0x3054 pfs b
  let st ← calls.foldlM appendRecord ⟨pa, buf, 6⟩
  let buf ← arrayStore st.protoBuffer 4 (UInt8.ofNat calls.length)
  let buf ← arrayStore buf 5 (UInt8.ofNat calls.length)
  memcpyFrom buf 0 st.os.toNat

/-! ## One record -/

namespace PeriCall

variable (c : PeriCall)

/-- The calls that set the values of the record. -/
def sets : List AnalyzerCall :=
  [.setValue PROTO_NUM 0x3054 c.uninit, .setValue NO_NAME1 c.noName1.toUInt32 c.uninit,
    .setValue ST_INFO c.stInfo.toUInt32 c.uninit,
    .setVariableLengthValue DC_INFO c.dcInfo.toUInt32 c.uninit,
    .setBuf DC_DATA (c.dcData.take c.dcInfo.toNat) c.uninit]

/-- The values of the record on a sheet. -/
def entries (entry : List UInt8 → FieldValue) : List UInt8 → FieldValue :=
  Function.update (Function.update (Function.update (Function.update (Function.update entry
    PROTO_NUM (.int 0x3054)) NO_NAME1 (.int c.noName1.toUInt32)) ST_INFO (.int c.stInfo.toUInt32))
    DC_INFO (.int c.dcInfo.toUInt32)) DC_DATA (.buf (c.dcData.take c.dcInfo.toNat))

/-- The record as it goes out when the data field has `n` bytes. -/
def sent (n : ℕ) : List UInt8 := c.noName1 :: c.stInfo :: c.dcInfo :: c.dcData.take n

theorem length_sent {n : ℕ} (h : n ≤ c.dcData.length) : (c.sent n).length = n + 3 := by
  rw [sent, List.length_cons, List.length_cons, List.length_cons, List.length_take_of_le h]

end PeriCall

/-- The places of the fields when the data field has `n` bytes. -/
def places3054 (n : ℕ) : List (FieldSpec × Extent) :=
  specs3054.zip [⟨0, 2⟩, ⟨2, 1⟩, ⟨3, 1⟩, ⟨4, 1⟩, ⟨5, n⟩]

/-- The sheet is a new one, or the data field has `n` bytes. -/
def Sheet.Ready (n : ℕ) (t : Sheet) : Prop :=
  t.armed = true ∧ t.places = places3054 0 ∨ t.armed = false ∧ t.places = places3054 n

section Record

variable {c : PeriCall} {n : ℕ} {t : Sheet}

theorem Sheet.Ready.names_eq (h : t.Ready n) :
    t.names = [PROTO_NUM, NO_NAME1, ST_INFO, DC_INFO, DC_DATA] := by
  rcases h with ⟨-, h⟩ | ⟨-, h⟩
  · rw [Sheet.names, h]
    rfl
  · rw [Sheet.names, h]
    rfl

/-- Setting the values of a record writes them down. -/
theorem PeriCall.sheetAfter_sets (h : t.Ready n) :
    sheetAfter c.sets t = some { t with entry := c.entries t.entry } := by
  have hshort : ∀ key ∈ t.names, key.length < 10 := by
    rw [h.names_eq]
    decide
  have hfind : ∀ key ∈ t.names, t.find key c.uninit = some key := fun key hkey =>
    Sheet.find_short (hshort key hkey) hkey c.uninit
  rw [h.names_eq] at hfind
  simp only [List.forall_mem_cons] at hfind
  simp only [sheetAfter, sets, List.foldlM_cons, List.foldlM_nil, AnalyzerCall.onSheet,
    Sheet.find_set, hfind, Option.map_some, Option.bind_eq_bind, Option.bind_some]
  rfl

theorem PeriCall.entries_eq (entry : List UInt8 → FieldValue) :
    c.entries entry PROTO_NUM = .int 0x3054 ∧ c.entries entry NO_NAME1 = .int c.noName1.toUInt32 ∧
      c.entries entry ST_INFO = .int c.stInfo.toUInt32 ∧
      c.entries entry DC_INFO = .int c.dcInfo.toUInt32 ∧
      c.entries entry DC_DATA = .buf (c.dcData.take c.dcInfo.toNat) := by
  have hne : PROTO_NUM ≠ NO_NAME1 ∧ PROTO_NUM ≠ ST_INFO ∧ PROTO_NUM ≠ DC_INFO ∧
      PROTO_NUM ≠ DC_DATA ∧ NO_NAME1 ≠ ST_INFO ∧ NO_NAME1 ≠ DC_INFO ∧ NO_NAME1 ≠ DC_DATA ∧
      ST_INFO ≠ DC_INFO ∧ ST_INFO ≠ DC_DATA ∧ DC_INFO ≠ DC_DATA := by decide
  simp [entries, hne]

theorem arrange_cons_of_none {entry : List UInt8 → FieldValue} {armed : Bool} {S : ℕ}
    {p : FieldSpec × Extent} {ps : List (FieldSpec × Extent)} (hp : p.1.index = none) :
    Sheet.arrange armed entry S (p :: ps) =
      (Sheet.arrange armed entry S ps).map ((p.1, ⟨p.2.pos + S, p.2.len⟩) :: ·) := by
  have hlen : Sheet.lenIn armed entry p = some p.2.len := by
    cases armed with
    | false => rfl
    | true => simp only [Sheet.lenIn, hp]
  have hmoved : Sheet.movedIn armed p.1 p.2.len = 0 := by
    rw [Sheet.movedIn, hp, Option.isSome_none, Bool.and_false, if_neg Bool.false_ne_true]
  rw [Sheet.arrange, hlen, Option.map_eq_bind]
  simp only [Option.bind_eq_bind, Option.bind_some, hmoved, Nat.add_zero]
  rfl

/-- The first message finds out the length of the data, the later ones keep it. -/
theorem PeriCall.arrange_entries (h : t.Ready n) (hfirst : t.armed = true → c.dcInfo.toNat = n) :
    Sheet.arrange t.armed (c.entries t.entry) 0 t.places = some (places3054 n) := by
  obtain ⟨-, -, -, hinfo, -⟩ := c.entries_eq t.entry
  have hdata : ∀ len, t.places = places3054 len →
      Sheet.lenIn t.armed (c.entries t.entry)
        (byteField (cname "dc_data") 5 0 (some (cname "dc_info")), ⟨5, len⟩) = some n →
      Sheet.arrange t.armed (c.entries t.entry) 0 t.places = some (places3054 n) := by
    intro len hplaces hlen
    rw [hplaces, places3054, specs3054]
    simp only [List.zip_cons_cons, List.zip_nil_left]
    rw [arrange_cons_of_none rfl, arrange_cons_of_none rfl, arrange_cons_of_none rfl,
      arrange_cons_of_none rfl, Sheet.arrange, hlen]
    rfl
  rcases h with ⟨harmed, h⟩ | ⟨harmed, h⟩
  · refine hdata 0 h ?_
    rw [harmed]
    change (c.entries t.entry DC_INFO).toLen = some n
    rw [hinfo, FieldValue.toLen, UInt8.toNat_toUInt32, hfirst harmed]
  · refine hdata n h ?_
    rw [harmed]
    rfl

theorem beBytes_one_toNat (b : UInt8) : beBytes 1 b.toUInt32.toNat = [b] := by
  rw [UInt8.toNat_toUInt32, beBytes, beBytes, List.nil_append, UInt8.ofNat_toNat]

/-- The blocks of a record. -/
theorem PeriCall.writes_entries (hn : 4 < n) (hle : n ≤ c.dcInfo.toNat)
    (hdata : c.dcInfo.toNat ≤ c.dcData.length) :
    Sheet.writes (c.entries t.entry) (places3054 n) = some [(0, [0x30, 0x54]), (2, [c.noName1]),
      (3, [c.stInfo]), (4, [c.dcInfo]), (5, c.dcData.take n)] := by
  obtain ⟨hnum, hname, hst, hinfo, hbuf⟩ := c.entries_eq t.entry
  have hnum' : (FieldValue.int 0x3054).written 2 = some [0x30, 0x54] := by decide
  have hone : ∀ b : UInt8, (FieldValue.int b.toUInt32).written 1 = some [b] := fun b => by
    rw [FieldValue.written, if_pos (by decide), beBytes_one_toNat]
  have hblock : (FieldValue.buf (c.dcData.take c.dcInfo.toNat)).written n =
      some (c.dcData.take n) := by
    rw [FieldValue.written, if_neg (by omega), if_pos ⟨hn, by rw [List.length_take]; omega⟩,
      List.take_take, min_eq_left hle]
  simp only [places3054, specs3054, List.zip_cons_cons, List.zip_nil_left, Sheet.writes]
  change ((c.entries t.entry PROTO_NUM).written 2).bind _ = _
  rw [hnum, hnum', Option.bind_some]
  change (((c.entries t.entry NO_NAME1).written 1).bind _).bind _ = _
  rw [hname, hone, Option.bind_some]
  change ((((c.entries t.entry ST_INFO).written 1).bind _).bind _).bind _ = _
  rw [hst, hone, Option.bind_some]
  change (((((c.entries t.entry DC_INFO).written 1).bind _).bind _).bind _).bind _ = _
  rw [hinfo, hone, Option.bind_some]
  change ((((((c.entries t.entry DC_DATA).written n).bind _).bind _).bind _).bind _).bind _ = _
  rw [hbuf, hblock]
  rfl

/-- **A record on the sheet**: its message goes to the start of the buffer. -/
theorem PeriCall.sheetAfter_record (h : t.Ready n) (hbuf : t.buffer.length = MAX_PROTO_DATA_LEN)
    (hn : 4 < n ∧ n ≤ 95) (hle : n ≤ c.dcInfo.toNat) (hdata : c.dcInfo.toNat ≤ c.dcData.length)
    (hfirst : t.armed = true → c.dcInfo.toNat = n) :
    sheetAfter (c.sets ++ [.generate c.env]) t = some
      { entry := c.entries t.entry
        places := places3054 n
        armed := false
        buffer := blit t.buffer 0 (0x30 :: 0x54 :: c.sent n)
        dataLen := n + 5 } := by
  have hin : Sheet.InBuffer (places3054 n) := by
    simp only [Sheet.InBuffer, places3054, specs3054, List.zip_cons_cons, List.zip_nil_left,
      List.forall_mem_cons, MAX_PROTO_DATA_LEN]
    refine ⟨by decide, by decide, by decide, by decide, by omega, by simp⟩
  have hblit : blitAll t.buffer [(0, [0x30, 0x54]), (2, [c.noName1]), (3, [c.stInfo]),
      (4, [c.dcInfo]), (5, c.dcData.take n)] = blit t.buffer 0 (0x30 :: 0x54 :: c.sent n) := by
    have htake : (c.dcData.take n).length = n := by
      rw [List.length_take]
      omega
    simp only [MAX_PROTO_DATA_LEN] at hbuf
    -- every block is written right behind the ones before it
    have h₁ : blit (blit t.buffer 0 [0x30, 0x54]) 2 [c.noName1] =
        blit t.buffer 0 [0x30, 0x54, c.noName1] := blit_blit (by simp [hbuf])
    have h₂ : blit (blit t.buffer 0 [0x30, 0x54, c.noName1]) 3 [c.stInfo] =
        blit t.buffer 0 [0x30, 0x54, c.noName1, c.stInfo] := blit_blit (by simp [hbuf])
    have h₃ : blit (blit t.buffer 0 [0x30, 0x54, c.noName1, c.stInfo]) 4 [c.dcInfo] =
        blit t.buffer 0 [0x30, 0x54, c.noName1, c.stInfo, c.dcInfo] := blit_blit (by simp [hbuf])
    have h₄ : blit (blit t.buffer 0 [0x30, 0x54, c.noName1, c.stInfo, c.dcInfo]) 5
        (c.dcData.take n) = blit t.buffer 0 (0x30 :: 0x54 :: c.sent n) :=
      blit_blit (by
        simp only [htake, hbuf, List.length_cons, List.length_nil]
        omega)
    simp only [blitAll, List.foldl_cons, List.foldl_nil, h₁, h₂, h₃, h₄]
  have hlast : Sheet.lastEnd (places3054 n) = n + 5 := by
    simp [Sheet.lastEnd, places3054, specs3054, Nat.add_comm]
  rw [sheetAfter, List.foldlM_append]
  rw [show c.sets.foldlM (fun t c => c.onSheet t) t = some { t with entry := c.entries t.entry }
    from PeriCall.sheetAfter_sets h]
  simp only [List.foldlM_cons, List.foldlM_nil, AnalyzerCall.onSheet, Sheet.generate,
    arrange_entries h hfirst, writes_entries hn.1 hle hdata, Option.bind_eq_bind, Option.bind_some,
    if_pos hin, hblit, hlast]
  rfl

end Record

/-! ## All records -/

/-- The sender has put `front` into its buffer. -/
structure Sending (i : Init specs3054) (n : ℕ) (armed : Bool) (front : List UInt8) (st : Sender) :
    Prop where
  shows : ∃ t : Sheet, ShowsSheet i st.pa t ∧ t.Ready n ∧ t.armed = armed
  length_protoBuffer : st.protoBuffer.length = 1024
  os : st.os.toNat = front.length
  take : st.protoBuffer.take front.length = front

section Loop

variable {i : Init specs3054} {n : ℕ} {armed : Bool} {front : List UInt8} {st : Sender}
  {c : PeriCall}

/-- The calls of `__pdt_drv_proto_init_3054` and the generator. -/
theorem appendRecord_eq (hdata : c.dcInfo.toNat ≤ c.dcData.length) :
    appendRecord st c = (afterCalls (c.sets ++ [.generate c.env]) st.pa).bind
      (copyRecord st.protoBuffer st.os) := by
  have hcopy : memcpyFrom c.dcData 0 c.dcInfo.toNat = some (c.dcData.take c.dcInfo.toNat) := by
    rw [memcpyFrom_eq (by rwa [Nat.zero_add]), take_eq_slice]
  simp only [appendRecord, pdtDrvProtoInit3054, afterCalls, PeriCall.sets, List.cons_append,
    List.nil_append, List.foldlM_cons, List.foldlM_nil, AnalyzerCall.run, hcopy,
    Option.bind_eq_bind, Option.bind_some, Option.bind_assoc, Option.map_eq_bind, Function.comp_def]
  rfl

/-- **One record more.** -/
theorem Sending.appendRecord (h : Sending i n armed front st) (hn : 4 < n ∧ n ≤ 95)
    (hle : n ≤ c.dcInfo.toNat) (hdata : c.dcInfo.toNat ≤ c.dcData.length)
    (hfirst : armed = true → c.dcInfo.toNat = n) (hroom : front.length + (n + 3) ≤ 1024) :
    ∃ st', appendRecord st c = some st' ∧ Sending i n false (front ++ c.sent n) st' := by
  obtain ⟨t, hshows, hready, rfl⟩ := h.shows
  obtain ⟨pa, hrun, hshows'⟩ := hshows.afterCalls (sheetFormat_drvFormats specs3054 (by simp))
    (PeriCall.sheetAfter_record hready hshows.length_buffer hn hle hdata hfirst)
  have hsent : (c.sent n).length = n + 3 := c.length_sent (hle.trans hdata)
  have hbuf := hshows.length_buffer
  simp only [MAX_PROTO_DATA_LEN] at hbuf
  have hlen : pa.protocolDataLen.toNat = n + 5 := hshows'.protocolDataLen
  have hbytes : slice pa.protocolData 2 (n + 3) = c.sent n := by
    have hblit : slice pa.protocolData 0 (0x30 :: 0x54 :: c.sent n).length =
        0x30 :: 0x54 :: c.sent n := by
      rw [hshows'.protocolData]
      exact slice_blit (by simp only [List.length_cons, hsent, hbuf]; omega)
    have hslice : slice (slice pa.protocolData 0 (0x30 :: 0x54 :: c.sent n).length) 2 (n + 3) =
        slice pa.protocolData (0 + 2) (n + 3) :=
      slice_slice _ (by simp only [List.length_cons, hsent]; omega)
    rw [hblit, Nat.zero_add] at hslice
    rw [← hslice, slice, List.drop_succ_cons, List.drop_succ_cons, List.drop_zero,
      List.take_of_length_le hsent.le]
  have hdrop : memcpyFrom pa.protocolData 2 (n + 3) = some (c.sent n) := by
    rw [memcpyFrom_eq, hbytes]
    rw [hshows'.protocolData, hshows'.length_buffer, MAX_PROTO_DATA_LEN]
    omega
  have hpos : front.length + (c.sent n).length ≤ st.protoBuffer.length := by
    rw [hsent, h.length_protoBuffer]
    exact hroom
  refine ⟨⟨pa, blit st.protoBuffer front.length (c.sent n), st.os + (pa.protocolDataLen - 2)⟩, ?_,
    ⟨_, hshows', .inr ⟨rfl, rfl⟩, rfl⟩, ?_, ?_, ?_⟩
  · rw [appendRecord_eq hdata, hrun, Option.bind_some, copyRecord, if_neg (by omega), hlen,
      show n + 5 - 2 = n + 3 from rfl, hdrop]
    simp only [Option.bind_eq_bind, Option.bind_some, h.os, memcpyTo_eq hpos]
  · rw [length_blit hpos, h.length_protoBuffer]
  · rw [List.length_append, hsent, UInt16.toNat_add, UInt16.toNat_sub, h.os, hlen]
    simp only [UInt16.toNat_ofNat]
    omega
  · rw [List.length_append, take_blit hpos, h.take]

/-- All the records, one behind the other. -/
theorem Sending.foldlM {calls : List PeriCall} (h : Sending i n armed front st)
    (hn : 4 < n ∧ n ≤ 95)
    (hcalls : ∀ c ∈ calls, n ≤ c.dcInfo.toNat ∧ c.dcInfo.toNat ≤ c.dcData.length)
    (hfirst : armed = true → ∀ c ∈ calls.head?, c.dcInfo.toNat = n)
    (hroom : front.length + calls.length * (n + 3) ≤ 1024) :
    ∃ armed' st', calls.foldlM HpiDriver.appendRecord st = some st' ∧
      Sending i n armed' (front ++ calls.flatMap (·.sent n)) st' := by
  induction calls generalizing armed front st with
  | nil => exact ⟨armed, st, rfl, by simpa using h⟩
  | cons c calls ih =>
    obtain ⟨⟨hle, hdata⟩, hcalls⟩ := List.forall_mem_cons.1 hcalls
    rw [List.length_cons, Nat.succ_mul] at hroom
    obtain ⟨st₁, hstep, h₁⟩ := h.appendRecord hn hle hdata (fun harmed => hfirst harmed c rfl)
      (by omega)
    have hsent : (c.sent n).length = n + 3 := c.length_sent (hle.trans hdata)
    obtain ⟨armed', st', hrun, h'⟩ := ih h₁ hcalls (fun hf => Bool.noConfusion hf)
      (by rw [List.length_append, hsent]; omega)
    refine ⟨armed', st', ?_, ?_⟩
    · rw [List.foldlM_cons, hstep]
      exact hrun
    · rwa [List.flatMap_cons, ← List.append_assoc]

/-- The header of the message. The programs do not set its third and fourth byte. -/
def header3010 (protoBuffer : List UInt8) (count : UInt8) : List UInt8 :=
  [0x30, 0x10, protoBuffer.getD 2 0, protoBuffer.getD 3 0, count, count]

theorem set_take_eq_header3010 {protoBuffer : List UInt8} (h : 6 ≤ protoBuffer.length)
    (count : UInt8) :
    ((((protoBuffer.set 0 0x30).set 1 0x10).take 6).set 4 count).set 5 count =
      header3010 protoBuffer count := by
  obtain _ | ⟨b₀, _ | ⟨b₁, _ | ⟨b₂, _ | ⟨b₃, _ | ⟨b₄, _ | ⟨b₅, rest⟩⟩⟩⟩⟩⟩ := protoBuffer
  all_goals first
    | rfl
    | simp at h

/-- **The message of the test programs.** Every record goes out with its own length byte and as
many bytes of its data as the first record has. -/
theorem testPdtProto3010_eq (i : Init specs3054) (hnum : i.num = 0x3054) {protoBuffer : List UInt8}
    (hbuf : protoBuffer.length = 1024) {calls : List PeriCall} (hn : 4 < n ∧ n ≤ 95)
    (hfirst : ∀ c ∈ calls.head?, c.dcInfo.toNat = n)
    (hcalls : ∀ c ∈ calls, n ≤ c.dcInfo.toNat ∧ c.dcInfo.toNat ≤ c.dcData.length)
    (hroom : 6 + calls.length * (n + 3) ≤ 1024) :
    testPdtProto3010 i.pfs ⟨i.infos, i.nodes⟩ protoBuffer calls =
      some (header3010 protoBuffer (UInt8.ofNat calls.length) ++
        calls.flatMap (·.sent n)) := by
  obtain ⟨buf, hset⟩ : ∃ buf, buf = (protoBuffer.set 0 0x30).set 1 0x10 := ⟨_, rfl⟩
  have hlen : buf.length = 1024 := by rw [hset, List.length_set, List.length_set, hbuf]
  have hfront : (buf.take 6).length = 6 := by rw [List.length_take, hlen]; rfl
  have hstart : Sending i n true (buf.take 6) ⟨i.analyzer, buf, 6⟩ :=
    { shows := ⟨_, i.showsSheet (sheetFormat_drvFormats specs3054 (by simp)), .inl ⟨rfl, rfl⟩, rfl⟩
      length_protoBuffer := hlen
      os := hfront.symm
      take := by rw [hfront] }
  obtain ⟨armed, st, hrun, h⟩ := hstart.foldlM hn hcalls (fun _ => hfirst) (by rwa [hfront])
  have hnew : newAnalyzer 0x3054 i.pfs ⟨i.infos, i.nodes⟩ = some i.analyzer := by
    rw [newAnalyzer, ← hnum]
    exact i.paInitProtocolAnalyzer_eq
  have hstore : ∀ {arr : List UInt8}, arr.length = 1024 → ∀ {k : ℕ}, k < 6 → ∀ b,
      arrayStore arr k b = some (arr.set k b) := fun harr k hk b => if_pos (by omega)
  have hlast : ∀ count, ((st.protoBuffer.set 4 count).set 5 count).length = 1024 := fun count => by
    rw [List.length_set, List.length_set, h.length_protoBuffer]
  have htake : ∀ count, ((st.protoBuffer.set 4 count).set 5 count).take st.os.toNat =
      header3010 protoBuffer count ++ calls.flatMap (·.sent n) := fun count => by
    rw [h.os, List.take_set, List.take_set, h.take, List.set_append_left _ _ (by omega),
      List.set_append_left _ _ (by rw [List.length_set]; omega), hset,
      set_take_eq_header3010 (by omega)]
  have hos : st.os.toNat ≤ 1024 := by
    have hle := congrArg List.length h.take
    rw [List.length_take, h.length_protoBuffer, ← h.os] at hle
    omega
  rw [testPdtProto3010, hstore hbuf (by decide)]
  simp only [Option.bind_eq_bind, Option.bind_some]
  rw [hstore (by rw [List.length_set, hbuf]) (by decide), ← hset, Option.bind_some, hnew,
    Option.bind_some, hrun, Option.bind_some, hstore h.length_protoBuffer (by decide),
    Option.bind_some, hstore (by rw [List.length_set, h.length_protoBuffer]) (by decide),
    Option.bind_some, memcpyFrom_eq (by rwa [hlast, Nat.zero_add]), ← take_eq_slice, htake]

/-- A message with longer records than the first one is not the records. -/
theorem flatMap_sent_eq_iff {calls : List PeriCall}
    (hcalls : ∀ c ∈ calls, n ≤ c.dcInfo.toNat ∧ c.dcInfo.toNat ≤ c.dcData.length) :
    calls.flatMap (·.sent n) = calls.flatMap (fun c => c.sent c.dcInfo.toNat) ↔
      ∀ c ∈ calls, c.dcInfo.toNat = n := by
  constructor
  · intro h
    by_contra hne
    push Not at hne
    obtain ⟨c, hc, hne⟩ := hne
    have hlt : (calls.map fun c => (c.sent n).length).sum <
        (calls.map fun c => (c.sent c.dcInfo.toNat).length).sum := by
      refine List.sum_lt_sum _ _ (fun c hc => ?_) ⟨c, hc, ?_⟩
      · obtain ⟨hle, hdata⟩ := hcalls c hc
        rw [c.length_sent (hle.trans hdata), c.length_sent hdata]
        omega
      · obtain ⟨hle, hdata⟩ := hcalls c hc
        rw [c.length_sent (hle.trans hdata), c.length_sent hdata]
        omega
    have hlen := congrArg List.length h
    rw [List.length_flatMap, List.length_flatMap] at hlen
    exact hlt.ne hlen
  · intro h
    refine List.flatMap_congr fun c hc => ?_
    rw [h c hc]

/-- **The message of the test programs.** Every record goes out with its own length byte and as
many bytes of its data as the first record has: the message is made of the records exactly if all
of them have the length of the first one. -/
theorem testPdtProto3010_message (i : Init specs3054) (hnum : i.num = 0x3054)
    {protoBuffer : List UInt8} (hbuf : protoBuffer.length = 1024) {calls : List PeriCall}
    (hn : 4 < n ∧ n ≤ 95) (hfirst : ∀ c ∈ calls.head?, c.dcInfo.toNat = n)
    (hcalls : ∀ c ∈ calls, n ≤ c.dcInfo.toNat ∧ c.dcInfo.toNat ≤ c.dcData.length)
    (hroom : 6 + calls.length * (n + 3) ≤ 1024) :
    ∃ records, testPdtProto3010 i.pfs ⟨i.infos, i.nodes⟩ protoBuffer calls =
        some (header3010 protoBuffer (UInt8.ofNat calls.length) ++ records) ∧
      records = calls.flatMap (·.sent n) ∧
      (records = calls.flatMap (fun c => c.sent c.dcInfo.toNat) ↔
        ∀ c ∈ calls, c.dcInfo.toNat = n) :=
  ⟨_, testPdtProto3010_eq i hnum hbuf hn hfirst hcalls hroom, rfl, flatMap_sent_eq_iff hcalls⟩

/-- A record with the first `dcInfo` bytes of the data that the programs send. -/
def testCall (dcInfo : UInt8) : PeriCall where
  noName1 := 0x11
  stInfo := 0x22
  dcInfo := dcInfo
  dcData := (List.range 24).map fun k => UInt8.ofNat (k + 1)
  uninit _ := 0
  env := ⟨true, fun _ _ => 0, fun _ _ => 0, 0⟩

/-- The last byte of the second record does not go out. -/
theorem testPdtProto3010_message_testCall : ∃ records,
    testPdtProto3010 drvInit3054.pfs ⟨drvInit3054.infos, drvInit3054.nodes⟩
        (List.replicate 1024 0) [testCall 5, testCall 6] =
      some ([0x30, 0x10, 0, 0, 2, 2] ++ records) ∧
    records = [0x11, 0x22, 5, 1, 2, 3, 4, 5, 0x11, 0x22, 6, 1, 2, 3, 4, 5] := by
  obtain ⟨records, hmessage, hrecords, -⟩ := testPdtProto3010_message (n := 5) drvInit3054 rfl
    List.length_replicate (by decide)
    (show ∀ c ∈ [testCall 5, testCall 6].head?, c.dcInfo.toNat = 5 by decide) (by decide)
    (by decide)
  exact ⟨records, hmessage, hrecords⟩

end Loop

/-! ## The driver behind the programs -/

/-- The record as the driver finds it. -/
def PeriCall.record (c : PeriCall) : PeriRecord where
  noName1 := c.noName1
  stInfo := c.stInfo
  dcData := c.dcData.take (min c.dcInfo.toNat 95)
  length_dcData := (List.length_take_le _ _).trans (min_le_right _ _)

theorem PeriCall.dcData_record {c : PeriCall} {n : ℕ} (hn : n ≤ 95) (hinfo : c.dcInfo.toNat = n) :
    c.record.dcData = c.dcData.take n := by
  change c.dcData.take (min c.dcInfo.toNat 95) = _
  rw [hinfo, min_eq_left hn]

theorem PeriCall.encode_record {c : PeriCall} {n : ℕ} (hn : n ≤ 95) (hinfo : c.dcInfo.toNat = n)
    (hdata : n ≤ c.dcData.length) : c.record.encode = c.sent n := by
  rw [PeriRecord.encode, dcData_record hn hinfo, sent, List.length_take_of_le hdata]
  nth_rewrite 1 [← hinfo]
  rw [UInt8.ofNat_toNat]
  rfl

theorem PeriCall.values_record {c : PeriCall} {n : ℕ} (hn : 4 < n ∧ n ≤ 95)
    (hinfo : c.dcInfo.toNat = n) (hdata : n ≤ c.dcData.length) :
    c.record.values = [.int 0x3054, .int c.noName1.toUInt32, .int c.stInfo.toUInt32,
      .int c.dcInfo.toUInt32, .buf (c.dcData.take n)] := by
  have htake := dcData_record hn.2 hinfo
  have hlen : (c.dcData.take n).length = n := List.length_take_of_le hdata
  have hdc : UInt32.ofNat n = c.dcInfo.toUInt32 := by
    rw [← hinfo, ← UInt32.toNat_inj, UInt8.toNat_toUInt32, UInt32.toNat_ofNat']
    omega
  rw [PeriRecord.values, htake, hlen, if_neg (by omega), hdc]
  rfl

/-- What the driver finds in a `0x3010` message. -/
theorem RecordsWrite.values_run (w : RecordsWrite) {k : ℕ} (hk : k < w.recs.length) : ∃ pa,
    (Framing.run (iteration3010 w.env.process.frame w.write.data) (k + 1)
      (start3010 w.env.process.pfs w.env.process.blocks)).state = some pa ∧
    (w.init.infos.map fun a => (pa.info a).value) = w.recs[k].values := by
  obtain ⟨hos, pa, hstate, hpa⟩ := w.rested_run hk.le
  obtain ⟨pa', hstate', -, hvalues, -⟩ :=
    iteration3010_record ((w.inMemory_frames w.inMemory_data).frame hk) hos hstate hpa k
  rw [Framing.run_succ]
  exact ⟨pa', hstate', hvalues⟩

/-- **The driver finds what the test programs put into the message**: when all records have as
many bytes of data as the first one, the write of the message drives no access out of range, leaves
the admins as they were, and the analyzer of the driver holds the values of one record after the
other. -/
theorem deviceWrite_testPdtProto3010 (i : Init specs3054) (hnum : i.num = 0x3054)
    {protoBuffer : List UInt8} (hbuf : protoBuffer.length = 1024) {calls : List PeriCall} {n : ℕ}
    (hn : 4 < n ∧ n ≤ 95) (hcalls : ∀ c ∈ calls, c.dcInfo.toNat = n ∧ n ≤ c.dcData.length)
    (hroom : 6 + calls.length * (n + 3) ≤ 1024) :
    ∃ message, testPdtProto3010 i.pfs ⟨i.infos, i.nodes⟩ protoBuffer calls = some message ∧
      message.length ≤ MAX_BUF_SIZE ∧
      ∀ (d : Delivery) (j : Init specs3054), d.message = message → j.num = 0x3054 →
        d.env.process.pfs = j.pfs → d.env.process.blocks = ⟨j.infos, j.nodes⟩ →
        d.write.Safe ∧ (∀ admins, d.write.run admins = some admins) ∧
        ∀ k (hk : k < calls.length), ∃ pa,
          (Framing.run (iteration3010 d.env.process.frame d.write.data) (k + 1)
            (start3010 d.env.process.pfs d.env.process.blocks)).state = some pa ∧
          (j.infos.map fun a => (pa.info a).value) =
            [.int 0x3054, .int calls[k].noName1.toUInt32, .int calls[k].stInfo.toUInt32,
              .int calls[k].dcInfo.toUInt32, .buf (calls[k].dcData.take n)] := by
  have hsent := testPdtProto3010_eq i hnum hbuf hn
    (fun c hc => (hcalls c (List.mem_of_mem_head? hc)).1)
    (fun c hc => ⟨(hcalls c hc).1.ge, by rw [(hcalls c hc).1]; exact (hcalls c hc).2⟩) hroom
  have hrecords : calls.flatMap (·.sent n) =
      (calls.map PeriCall.record).flatMap PeriRecord.encode := by
    rw [List.flatMap_map]
    exact List.flatMap_congr fun c hc =>
      (PeriCall.encode_record hn.2 (hcalls c hc).1 (hcalls c hc).2).symm
  have hlen : (calls.flatMap (·.sent n)).length ≤ calls.length * (n + 3) :=
    length_flatMap_le fun c hc => (c.length_sent (hcalls c hc).2).le
  have hmul : calls.length * 8 ≤ calls.length * (n + 3) := Nat.mul_le_mul_left _ (by omega)
  refine ⟨_, hsent, ?_, fun d j hmessage hj hpfs hblocks => ?_⟩
  · rw [List.length_append, MAX_BUF_SIZE]
    exact (Nat.add_le_add_left hlen 6).trans hroom
  let w : RecordsWrite :=
    { toDelivery := d
      init := j
      num_eq := hj
      pfs_eq := hpfs
      blocks_eq := hblocks
      hdr := header3010 protoBuffer (UInt8.ofNat calls.length)
      length_hdr := rfl
      recs := calls.map PeriCall.record
      count_eq := by
        change (UInt8.ofNat calls.length).toNat = _
        rw [UInt8.toNat_ofNat', List.length_map]
        omega
      message_eq := by rw [hmessage, hrecords]
      command_eq := by
        rw [Delivery.command, hmessage]
        exact show (0x30 : UInt8).toUInt16 <<< 8 ||| (0x10 : UInt8).toUInt16 = 0x3010 by decide }
  refine ⟨w.safe, w.run_eq, fun k hk => ?_⟩
  have hk' : k < w.recs.length := by rwa [List.length_map]
  obtain ⟨pa, hstate, hvalues⟩ := w.values_run hk'
  have hget : w.recs[k] = calls[k].record := List.getElem_map _
  obtain ⟨hinfo, hdata⟩ := hcalls calls[k] (List.getElem_mem hk)
  exact ⟨pa, hstate, by rw [hvalues, hget, PeriCall.values_record hn hinfo hdata]⟩

/-- The three records of the programs arrive: the second one is there after two iterations. -/
theorem deviceWrite_testPdtProto3010_testCall : ∃ message,
    testPdtProto3010 drvInit3054.pfs ⟨drvInit3054.infos, drvInit3054.nodes⟩
        (List.replicate 1024 0) [testCall 5, testCall 5, testCall 5] = some message ∧
      ∀ d : Delivery, d.message = message → d.env.process.pfs = drvInit3054.pfs →
        d.env.process.blocks = ⟨drvInit3054.infos, drvInit3054.nodes⟩ →
        d.write.Safe ∧ ∃ pa,
          (Framing.run (iteration3010 d.env.process.frame d.write.data) 2
            (start3010 d.env.process.pfs d.env.process.blocks)).state = some pa ∧
          (drvInit3054.infos.map fun a => (pa.info a).value) =
            [.int 0x3054, .int 0x11, .int 0x22, .int 5, .buf [1, 2, 3, 4, 5]] := by
  have hcalls : ∀ c ∈ [testCall 5, testCall 5, testCall 5],
      c.dcInfo.toNat = 5 ∧ 5 ≤ c.dcData.length := by decide
  obtain ⟨message, hmessage, -, hdriver⟩ := deviceWrite_testPdtProto3010 (n := 5) drvInit3054 rfl
    List.length_replicate (by decide) hcalls (by decide)
  refine ⟨message, hmessage, fun d hd hpfs hblocks => ?_⟩
  obtain ⟨hsafe, -, hvalues⟩ := hdriver d drvInit3054 hd rfl hpfs hblocks
  exact ⟨hsafe, hvalues 1 (by decide)⟩

end HpiDriver
