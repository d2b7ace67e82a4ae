import HpiDriver.Business.Framing

/-!
# The records of a `0x3010` message

`do_command_0x3010` goes through the peripheral records of a message with one analyzer. The only
variable-length field of a record is its last one, so the analyzer is at rest after every record,
whatever the lengths of the records before (`doCommand0x3010_records`).
-/

namespace HpiDriver

open BigEndian

/-- A peripheral record. -/
structure PeriRecord where
  noName1 : UInt8
  stInfo : UInt8
  dcData : List UInt8
  length_dcData : dcData.length ≤ 95

namespace PeriRecord

variable (r : PeriRecord)

/-- The record as it stands in a message. -/
def encode : List UInt8 := r.noName1 :: r.stInfo :: UInt8.ofNat r.dcData.length :: r.dcData

/-- The fields of the analyzer when it holds the record: the data are a number when there are at
most four bytes of them, else the contents of the buffer. -/
def values : List FieldValue :=
  [.int 0x3054, .int r.noName1.toUInt32, .int r.stInfo.toUInt32,
    .int (UInt32.ofNat r.dcData.length),
    if r.dcData.length ≤ 4 then .int (UInt32.ofNat (beValue r.dcData)) else .buf r.dcData]

/-- The fields of the record with their bytes. -/
def content : List Content :=
  specs3054.zip [[0x30, 0x54], [r.noName1], [r.stInfo], [UInt8.ofNat r.dcData.length], r.dcData]

theorem length_encode : r.encode.length = r.dcData.length + 3 := rfl

theorem toNat_length : (UInt8.ofNat r.dcData.length).toNat = r.dcData.length := by
  have := r.length_dcData
  rw [UInt8.toNat_ofNat']
  omega

theorem wire_content : wire r.content = 0x30 :: 0x54 :: r.encode := by
  simp [content, specs3054, wire, encode]

theorem consistent_content : Consistent [] r.content := by
  have hval : beValue [UInt8.ofNat r.dcData.length] = r.dcData.length := by
    rw [beValue_singleton, r.toNat_length]
  refine ⟨rfl, rfl, rfl, rfl, ⟨by decide, _, List.mem_cons_of_mem _ (List.mem_cons_of_mem _
    (List.mem_cons_of_mem _ List.mem_cons_self)), rfl, by simp, hval⟩, trivial⟩

theorem unmoved_content : Unmoved r.content := by
  simp [Unmoved, content, specs3054, byteField, FieldSpec.index, varLen]

theorem decode_content : (r.content.map fun c => decodeValue c.2) = r.values := by
  have hb : ∀ b : UInt8, decodeValue [b] = .int b.toUInt32 := by
    intro b
    simp [decodeValue, beValue_singleton]
  have hl : (UInt8.ofNat r.dcData.length).toUInt32 = UInt32.ofNat r.dcData.length :=
    UInt32.toNat_inj.1 (by
      have := r.length_dcData
      rw [UInt8.toNat_toUInt32, r.toNat_length, UInt32.toNat_ofNat']
      omega)
  simp only [content, specs3054, List.zip_cons_cons, List.zip_nil_right, List.map_cons,
    List.map_nil, hb, hl, values]
  rfl

end PeriRecord

/-! ## The loop -/

section Loop

variable {i : Init specs3054} {env : ℕ → Env} {data : ℕ → UInt8}

theorem contiguous_specs3054 : Contiguous 0 specs3054 := by decide +kernel

/-- An iteration at a record leaves the values of the record and its analyzer at rest. -/
theorem iteration3010_record {r : PeriRecord} {pre post : List UInt8}
    (hmem : InMemory data (pre ++ r.encode ++ post)) {st : Framing ProtocolAnalyzer}
    (hos : st.os.toNat = pre.length) {pa : ProtocolAnalyzer} (hst : st.state = some pa)
    (hpa : Rested i pa) (k : ℕ) :
    ∃ pa', (iteration3010 env data k st).state = some pa' ∧ Rested i pa' ∧
      (i.infos.map fun a => (pa'.info a).value) = r.values ∧
      (i.infos.map fun a => (pa'.info a).len.toNat) = [2, 1, 1, 1, r.dcData.length] := by
  have hl := r.length_dcData
  have hlen : data (st.os.toNat + 2) = UInt8.ofNat r.dcData.length := by
    rw [hos, hmem.getD (by rw [r.length_encode]; omega)]
    rfl
  have hbytes : messageBytes data st.os.toNat ((data (st.os.toNat + 2)).toUInt16.toNat + 3) =
      r.encode := by
    rw [hlen, UInt8.toNat_toUInt16, r.toNat_length, hos, ← r.length_encode]
    exact hmem.messageBytes_eq
  have hbf : ByteFormat specs3054 := byteFormat_drvFormats specs3054 (by simp)
  obtain ⟨pa', hparse, hval, hlens, hrest⟩ := hpa.parseFrame hbf.lenUnit hbf.nodup_name
    contiguous_specs3054 (env k) (show r.content.map Prod.fst = specs3054 from rfl)
    r.consistent_content (r.wire_content.symm.trans (List.append_nil _).symm)
    (by rw [r.length_encode]; exact Nat.add_le_add_right (Nat.add_le_add_right hl 3) 2)
    (show (data (st.os.toNat + 2)).toUInt16 + 3 + 2 ≠ 0 by
      rw [hlen]
      intro h
      have h' := congrArg UInt16.toNat h
      simp only [UInt16.toNat_add, UInt8.toNat_toUInt16, r.toNat_length] at h'
      simp at h'
      omega)
  refine ⟨pa', ?_, hrest r.unmoved_content, hval.trans r.decode_content, hlens⟩
  simp only [iteration3010, hst, Option.bind_eq_bind, Option.bind_some, hbytes]
  exact hparse

/-- **The framing of a `0x3010` message.** A header of six bytes, the last one the number of the
records, with the records behind it: `do_command_0x3010` makes as many iterations as there are
records, each leaves in its analyzer the values of its record, and the last offset is the length
of the message. -/
theorem doCommand0x3010_records (i : Init specs3054) (hnum : i.num = 0x3054) (env : ℕ → Env)
    (hdr : List UInt8) (hhdr : hdr.length = 6) (recs : List PeriRecord)
    (hcount : (hdr.getD 5 0).toNat = recs.length) (data : ℕ → UInt8)
    (hmem : InMemory data (hdr ++ recs.flatMap PeriRecord.encode)) :
    doCommand0x3010 env i.pfs ⟨i.infos, i.nodes⟩ data =
        Framing.run (iteration3010 env data) recs.length (start3010 i.pfs ⟨i.infos, i.nodes⟩) ∧
      (∀ k (hk : k < recs.length), ∃ pa,
        (Framing.run (iteration3010 env data) (k + 1)
          (start3010 i.pfs ⟨i.infos, i.nodes⟩)).state = some pa ∧
        (i.infos.map fun a => (pa.info a).value) = recs[k].values ∧
        (i.infos.map fun a => (pa.info a).len.toNat) = [2, 1, 1, 1, recs[k].dcData.length]) ∧
      (doCommand0x3010 env i.pfs ⟨i.infos, i.nodes⟩ data).os.toNat =
        (hdr ++ recs.flatMap PeriRecord.encode).length := by
  have hn : recs.length ≤ 255 := by
    have := (hdr.getD 5 0).toNat_lt
    omega
  have hlen : (hdr ++ recs.flatMap PeriRecord.encode).length ≤ 6 + recs.length * 98 := by
    rw [List.length_append, hhdr]
    refine Nat.add_le_add_left (length_flatMap_le fun r _ => ?_) 6
    have := r.length_dcData
    rw [r.length_encode]
    omega
  have hsize : ∀ r ∈ recs, ∀ pre post, InMemory data (pre ++ r.encode ++ post) →
      (data (pre.length + 2)).toNat + 3 = r.encode.length := by
    intro r _ pre post h
    rw [h.getD (by rw [r.length_encode]; omega), r.length_encode]
    exact congrArg (· + 3) r.toNat_length
  have hos : ∀ k ≤ recs.length, (Framing.run (iteration3010 env data) k
      (start3010 i.pfs ⟨i.infos, i.nodes⟩)).os.toNat =
        (hdr ++ (recs.take k).flatMap PeriRecord.encode).length := fun k hk =>
    Framing.run_os_frames hmem (fun os => (data (os + 2)).toNat + 3) (os_iteration3010 env data)
      (show (start3010 i.pfs ⟨i.infos, i.nodes⟩).os.toNat = _ from hhdr.symm) hsize (by omega) hk
  -- the analyzer is at rest in front of every record
  have hrested : ∀ k ≤ recs.length, ∃ pa, (Framing.run (iteration3010 env data) k
      (start3010 i.pfs ⟨i.infos, i.nodes⟩)).state = some pa ∧ Rested i pa := by
    intro k
    induction k with
    | zero =>
      intro _
      refine ⟨i.analyzer, ?_, i.rested⟩
      rw [Framing.run_zero, start3010, newAnalyzer, ← hnum]
      exact i.paInitProtocolAnalyzer_eq
    | succ k ih =>
      intro hk
      obtain ⟨pa, hst, hpa⟩ := ih (Nat.le_of_succ_le hk)
      obtain ⟨pa', hst', hpa', -⟩ :=
        iteration3010_record (hmem.frame hk) (hos k (Nat.le_of_succ_le hk)) hst hpa k
      rw [Framing.run_succ]
      exact ⟨pa', hst', hpa'⟩
  have hdo : doCommand0x3010 env i.pfs ⟨i.infos, i.nodes⟩ data =
      Framing.run (iteration3010 env data) recs.length (start3010 i.pfs ⟨i.infos, i.nodes⟩) := by
    rw [doCommand0x3010, hmem 5 (by rw [List.length_append]; omega),
      List.getD_append _ _ _ _ (by omega), hcount]
  refine ⟨hdo, fun k hk => ?_, ?_⟩
  · obtain ⟨pa, hst, hpa⟩ := hrested k hk.le
    obtain ⟨pa', hst', -, hvals⟩ := iteration3010_record (hmem.frame hk) (hos k hk.le) hst hpa k
    rw [Framing.run_succ]
    exact ⟨pa', hst', hvals⟩
  · rw [hdo, hos _ le_rfl, List.take_length]

/-- An analyzer for `0x3054` from the format set of the driver. -/
def drvInit3054 : Init specs3054 :=
  .driver specs3054 0x3054 (registered_drvPfs mem_drvFormats_3054)
    (inRange_drvPfs mem_drvFormats_3054) init3054.infos init3054.nodes
    init3054.length_infos init3054.length_nodes init3054.nodup_infos init3054.nodup_nodes
    init3054.infos_ne_zero

/-- A record with five bytes of data, then one with none. -/
def twoRecs : List PeriRecord := [⟨7, 1, [1, 2, 3, 4, 5], by decide⟩, ⟨8, 0, [], by decide⟩]

/-- The two records are both found. -/
theorem doCommand0x3010_twoRecs :
    (doCommand0x3010 (fun _ => ⟨true, fun _ _ => 0, fun _ _ => 0, 0⟩) drvPfs
      ⟨drvInit3054.infos, drvInit3054.nodes⟩ fun n =>
        ([0x30, 0x10, 0, 0, 0, 2] ++ twoRecs.flatMap PeriRecord.encode).getD n 0).os.toNat =
      ([0x30, 0x10, 0, 0, 0, 2] ++ twoRecs.flatMap PeriRecord.encode).length :=
  (doCommand0x3010_records drvInit3054 rfl (fun _ => ⟨true, fun _ _ => 0, fun _ _ => 0, 0⟩)
    [0x30, 0x10, 0, 0, 0, 2] rfl twoRecs rfl _ fun _ _ => rfl).2.2

end Loop

end HpiDriver
