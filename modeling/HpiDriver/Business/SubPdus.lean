import HpiDriver.Business.Framing

/-!
# The sub-PDUs of a `0x301b` message

`do_command_0x301b` goes through the sub-PDUs of a message with two analyzers, one for each format.
A sub-PDU whose `slc_data` or `lc_data` is not empty moves the fields behind it, and the reset at
the end of its iteration does not move them back: the next sub-PDU of the same format is read from
the wrong place. As long as this does not happen every sub-PDU is decoded as if it were alone
(`doCommand0x301b_subPdus`).
-/

namespace HpiDriver

/-! ## Sub-PDUs -/

/-- The format of the sub-PDUs with this `emb_flag`. -/
def pduSpecs (embFlag : UInt8) : List FieldSpec := if embFlag = 0 then specs3050 else specs3052

/-- The second byte of its protocol number. -/
def pduNum (embFlag : UInt8) : UInt8 := if embFlag = 0 then 0x50 else 0x52

/-- A well-formed sub-PDU: its first byte is its length, its second one the `emb_flag`, and the
fields of its format lie in it one after another, as long as the length fields say. -/
structure SubPdu where
  bytes : List UInt8
  embFlag : UInt8
  content : List Content
  rest : List UInt8
  map_fst_content : content.map Prod.fst = pduSpecs embFlag
  consistent : Consistent [] content
  wire_eq : 0x30 :: pduNum embFlag :: bytes = wire content ++ rest
  getD_zero : bytes.getD 0 0 = UInt8.ofNat bytes.length
  getD_one : bytes.getD 1 0 = embFlag
  length_le : bytes.length ≤ 98

/-- Two sub-PDUs are parsed with the same analyzer. -/
def SubPdu.SameFormat (p q : SubPdu) : Prop := p.embFlag = 0 ↔ q.embFlag = 0

/-- The fields of the analyzer hold what a fresh analyzer would hold after parsing the bytes. -/
def HoldsAlone {specs : List FieldSpec} (i : Init specs) (pa : ProtocolAnalyzer)
    (bytes : List UInt8) : Prop :=
  ∀ (j : Init specs) (env : Env), ∃ pb,
    (loadMessage bytes j.analyzer).bind (paParseProtocolData env) = some (0, pb) ∧
      (i.infos.map fun a => (pa.info a).value) = (j.infos.map fun a => (pb.info a).value) ∧
      (i.infos.map fun a => (pa.info a).len.toNat) = j.infos.map fun a => (pb.info a).len.toNat

/-- What each of the two analyzers holds for a sub-PDU. -/
def PduAnalyzers.HoldAlone (i50 : Init specs3050) (i52 : Init specs3052) (pas : PduAnalyzers)
    (p : SubPdu) : Prop :=
  if p.embFlag = 0 then HoldsAlone i50 pas.pa50 (0x30 :: 0x50 :: p.bytes)
  else HoldsAlone i52 pas.pa52 (0x30 :: 0x52 :: p.bytes)

theorem contiguous_specs3050 : Contiguous 0 specs3050 := by decide +kernel

theorem contiguous_specs3052 : Contiguous 0 specs3052 := by decide +kernel

/-- A frame parsed with an analyzer at rest is decoded as if it were alone. -/
theorem Rested.parseFrame_alone {specs : List FieldSpec} {i : Init specs} {pa : ProtocolAnalyzer}
    (h : Rested i pa) (hbf : ByteFormat specs) (hcont : Contiguous 0 specs) (env : Env)
    {content : List Content} (hmsg : content.map Prod.fst = specs)
    (hcons : Consistent [] content) {num₁ : UInt8} {bytes rest : List UInt8}
    (hwire : 0x30 :: num₁ :: bytes = wire content ++ rest) (hle : bytes.length ≤ 98)
    {len : UInt16} (hlen : len ≠ 0) :
    ∃ pa', HpiDriver.parseFrame env 0x30 num₁ bytes len pa = some pa' ∧
      HoldsAlone i pa' (0x30 :: num₁ :: bytes) ∧ (Unmoved content → Rested i pa') := by
  obtain ⟨pa', hparse, hval, hlens, hrest⟩ := h.parseFrame hbf.lenUnit hbf.nodup_name hcont env
    hmsg hcons hwire (Nat.add_le_add_right hle 2) hlen
  refine ⟨pa', hparse, fun j env' => ?_, hrest⟩
  obtain ⟨pb, hload, -, hval', hlens'⟩ := j.parse_loadMessage hbf.lenUnit hbf.nodup_name hcont env'
    hmsg hcons hwire (List.cons_ne_nil _ _) (Nat.add_le_add_right hle 2)
  exact ⟨pb, hload, hval.trans hval'.symm, hlens.trans hlens'.symm⟩

namespace SubPdu

variable (p : SubPdu)

theorem byteFormat_pduSpecs (embFlag : UInt8) : ByteFormat (pduSpecs embFlag) := by
  unfold pduSpecs
  split_ifs
  · exact byteFormat_drvFormats specs3050 (by simp)
  · exact byteFormat_drvFormats specs3052 (by simp)

theorem contiguous_pduSpecs (embFlag : UInt8) : Contiguous 0 (pduSpecs embFlag) := by
  unfold pduSpecs
  split_ifs
  · exact contiguous_specs3050
  · exact contiguous_specs3052

/-- The two bytes that the loop reads belong to the sub-PDU. -/
theorem two_le_length : 2 ≤ p.bytes.length := by
  -- the first three fields have a fixed length
  have hcontent : ∀ e, pduSpecs e = specs3050.take 3 ++ (pduSpecs e).drop 3 := by
    intro e
    unfold pduSpecs
    split_ifs <;> rfl
  have hfst := p.map_fst_content
  rw [hcontent] at hfst
  obtain ⟨l, l', hll, hl, -⟩ := List.map_eq_append_iff.1 hfst
  have hfix : ∀ c ∈ l, c.2.length = c.1.len.toNat := by
    intro c hc
    have hs : c.1 ∈ specs3050.take 3 := hl ▸ List.mem_map_of_mem hc
    have hidx : ∀ s ∈ specs3050.take 3, s.index = none := by decide
    exact p.consistent.length_eq c (hll ▸ List.mem_append_left _ hc) (hidx _ hs)
  have hsum : (l.flatMap Prod.snd).length = ((specs3050.take 3).map fun s => s.len.toNat).sum := by
    rw [List.length_flatMap, ← hl, List.map_map]
    exact congrArg List.sum (List.map_congr_left hfix)
  have hlen := congrArg List.length p.wire_eq
  rw [wire, hll, List.flatMap_append] at hlen
  simp only [List.length_append, List.length_cons, hsum] at hlen
  have : ((specs3050.take 3).map fun s => s.len.toNat).sum = 4 := by decide
  omega

theorem toNat_getD_zero : (p.bytes.getD 0 0).toNat = p.bytes.length := by
  have := p.length_le
  rw [p.getD_zero, UInt8.toNat_ofNat']
  omega

end SubPdu

/-! ## The loop -/

section Loop

variable {i50 : Init specs3050} {i52 : Init specs3052} {env : ℕ → Env} {data : ℕ → UInt8}

/-- An iteration at a sub-PDU whose analyzer is at rest decodes it as if it were alone. The other
analyzer is left as it is. -/
theorem iteration301b_subPdu {p : SubPdu} {pre post : List UInt8}
    (hmem : InMemory data (pre ++ p.bytes ++ post)) {st : Framing PduAnalyzers}
    (hos : st.os.toNat = pre.length) {pas : PduAnalyzers} (hst : st.state = some pas)
    (h50 : p.embFlag = 0 → Rested i50 pas.pa50) (h52 : p.embFlag ≠ 0 → Rested i52 pas.pa52)
    (k : ℕ) :
    ∃ pas', (iteration301b env data k st).state = some pas' ∧ pas'.HoldAlone i50 i52 p ∧
      (Rested i50 pas.pa50 → (p.embFlag = 0 → Unmoved p.content) → Rested i50 pas'.pa50) ∧
      (Rested i52 pas.pa52 → (p.embFlag ≠ 0 → Unmoved p.content) → Rested i52 pas'.pa52) := by
  have h2 := p.two_le_length
  have hlen : data st.os.toNat = p.bytes.getD 0 0 := by
    rw [hos, ← hmem.getD (k := 0) (by omega), Nat.add_zero]
  have hemb : data (st.os.toNat + 1) = p.embFlag := by
    rw [hos, hmem.getD (by omega), p.getD_one]
  have hbytes : messageBytes data st.os.toNat (data st.os.toNat).toUInt16.toNat = p.bytes := by
    rw [hlen, UInt8.toNat_toUInt16, p.toNat_getD_zero, hos]
    exact hmem.messageBytes_eq
  have hne : (data st.os.toNat).toUInt16 + 2 ≠ 0 := by
    intro h
    have h' := congrArg UInt16.toNat h
    have hle := p.length_le
    rw [hlen, UInt16.toNat_add, UInt8.toNat_toUInt16, p.toNat_getD_zero] at h'
    simp at h'
    omega
  have hbf := SubPdu.byteFormat_pduSpecs p.embFlag
  have hcont := SubPdu.contiguous_pduSpecs p.embFlag
  have hmsg := p.map_fst_content
  have hwire := p.wire_eq
  simp only [iteration301b, hst, hbytes, hemb, Option.bind_eq_bind, Option.bind_some]
  by_cases he : p.embFlag = 0
  · simp only [pduSpecs, pduNum, if_pos he] at hbf hcont hmsg hwire
    obtain ⟨pa', hparse, halone, hrest⟩ := (h50 he).parseFrame_alone hbf hcont (env k) hmsg
      p.consistent hwire p.length_le hne
    refine ⟨{ pas with pa50 := pa' }, ?_, ?_, fun _ hu => hrest (hu he), fun h _ => h⟩
    · rw [if_pos he, hparse]
      rfl
    · rw [PduAnalyzers.HoldAlone, if_pos he]
      exact halone
  · simp only [pduSpecs, pduNum, if_neg he] at hbf hcont hmsg hwire
    obtain ⟨pa', hparse, halone, hrest⟩ := (h52 he).parseFrame_alone hbf hcont (env k) hmsg
      p.consistent hwire p.length_le hne
    refine ⟨{ pas with pa52 := pa' }, ?_, ?_, fun h _ => h, fun _ hu => hrest (hu he)⟩
    · rw [if_neg he, hparse]
      rfl
    · rw [PduAnalyzers.HoldAlone, if_neg he]
      exact halone

/-- Of the first `n` sub-PDUs none that another one of its format follows has bytes in a
variable-length field but the last. -/
def MovesNothing (pdus : List SubPdu) (n : ℕ) : Prop :=
  (pdus.take n).Pairwise fun p q => p.SameFormat q → Unmoved p.content

theorem movesNothing_succ {pdus : List SubPdu} {k : ℕ} (hk : k < pdus.length) :
    MovesNothing pdus (k + 1) ↔ MovesNothing pdus k ∧
      ∀ p ∈ pdus.take k, p.SameFormat pdus[k] → Unmoved p.content := by
  rw [MovesNothing, List.take_succ_eq_append_getElem hk, List.pairwise_append]
  simp [MovesNothing]

/-- **When the sub-PDUs of a `0x301b` message are decoded independently.** A header of five bytes,
the last one the number of the sub-PDUs, with the sub-PDUs behind it: in every run of
`do_command_0x301b`, as long as no sub-PDU has moved fields of the analyzer of a later one, every
iteration leaves in the analyzer it has chosen what a fresh analyzer would hold after parsing its
sub-PDU alone. -/
theorem doCommand0x301b_subPdus (i50 : Init specs3050) (i52 : Init specs3052)
    (hnum50 : i50.num = 0x3050) (hnum52 : i52.num = 0x3052) (hpfs : i52.pfs = i50.pfs)
    (env : ℕ → Env) (hdr : List UInt8) (hhdr : hdr.length = 5) (pdus : List SubPdu)
    (hcount : (hdr.getD 4 0).toNat = pdus.length) (data : ℕ → UInt8)
    (hmem : InMemory data (hdr ++ pdus.flatMap SubPdu.bytes)) :
    doCommand0x301b env i50.pfs ⟨i50.infos, i50.nodes⟩ ⟨i52.infos, i52.nodes⟩ data =
        Framing.run (iteration301b env data) pdus.length
          (start301b i50.pfs ⟨i50.infos, i50.nodes⟩ ⟨i52.infos, i52.nodes⟩) ∧
      ∀ k (hk : k < pdus.length), MovesNothing pdus (k + 1) → ∃ pas,
        (Framing.run (iteration301b env data) (k + 1)
          (start301b i50.pfs ⟨i50.infos, i50.nodes⟩ ⟨i52.infos, i52.nodes⟩)).state = some pas ∧
        pas.HoldAlone i50 i52 pdus[k] := by
  have hn : pdus.length ≤ 255 := by
    have := (hdr.getD 4 0).toNat_lt
    omega
  set st := start301b i50.pfs ⟨i50.infos, i50.nodes⟩ ⟨i52.infos, i52.nodes⟩ with hstart
  have hlen : (hdr ++ pdus.flatMap SubPdu.bytes).length ≤ 5 + pdus.length * 98 := by
    rw [List.length_append, hhdr]
    exact Nat.add_le_add_left (length_flatMap_le fun p _ => p.length_le) 5
  have hsize : ∀ p ∈ pdus, ∀ pre post, InMemory data (pre ++ p.bytes ++ post) →
      (data pre.length).toNat = p.bytes.length := by
    intro p _ pre post h
    have h2 := p.two_le_length
    have hget := h.getD (k := 0) (by omega)
    rw [Nat.add_zero] at hget
    rw [hget, p.toNat_getD_zero]
  have hos : ∀ k ≤ pdus.length, (Framing.run (iteration301b env data) k st).os.toNat =
      (hdr ++ (pdus.take k).flatMap SubPdu.bytes).length := fun k hk =>
    Framing.run_os_frames hmem (fun os => (data os).toNat) (os_iteration301b env data)
      (show st.os.toNat = hdr.length from hhdr.symm) hsize (by omega) hk
  -- an analyzer is at rest as long as no sub-PDU of its format has moved its fields
  have hinv : ∀ k ≤ pdus.length, MovesNothing pdus k → ∃ pas,
      (Framing.run (iteration301b env data) k st).state = some pas ∧
        ((∀ p ∈ pdus.take k, p.embFlag = 0 → Unmoved p.content) → Rested i50 pas.pa50) ∧
        ((∀ p ∈ pdus.take k, p.embFlag ≠ 0 → Unmoved p.content) → Rested i52 pas.pa52) := by
    intro k
    induction k with
    | zero =>
      intro _ _
      have h50 : newAnalyzer 0x3050 i50.pfs ⟨i50.infos, i50.nodes⟩ = some i50.analyzer :=
        hnum50 ▸ i50.paInitProtocolAnalyzer_eq
      have h52 : newAnalyzer 0x3052 i50.pfs ⟨i52.infos, i52.nodes⟩ = some i52.analyzer :=
        hpfs ▸ hnum52 ▸ i52.paInitProtocolAnalyzer_eq
      refine ⟨⟨i50.analyzer, i52.analyzer⟩, ?_, fun _ => i50.rested, fun _ => i52.rested⟩
      rw [Framing.run_zero, hstart, start301b, h50, h52]
      rfl
    | succ k ih =>
      intro hk hmoves
      obtain ⟨hmoves, hsame⟩ := (movesNothing_succ hk).1 hmoves
      obtain ⟨pas, hst, h50, h52⟩ := ih (Nat.le_of_succ_le hk) hmoves
      obtain ⟨pas', hst', -, h50', h52'⟩ := iteration301b_subPdu (hmem.frame hk)
        (hos k (Nat.le_of_succ_le hk)) hst
        (fun he => h50 fun p hp hpe => hsame p hp (by simp [SubPdu.SameFormat, hpe, he]))
        (fun he => h52 fun p hp hpe => hsame p hp (by simp [SubPdu.SameFormat, hpe, he])) k
      rw [Framing.run_succ, List.take_succ_eq_append_getElem hk]
      refine ⟨pas', hst', fun h => ?_, fun h => ?_⟩
      · exact h50' (h50 fun p hp => h p (List.mem_append_left _ hp))
          (h _ (List.mem_append_right _ (List.mem_singleton.2 rfl)))
      · exact h52' (h52 fun p hp => h p (List.mem_append_left _ hp))
          (h _ (List.mem_append_right _ (List.mem_singleton.2 rfl)))
  refine ⟨?_, fun k hk hmoves => ?_⟩
  · rw [doCommand0x301b, hmem 4 (by rw [List.length_append]; omega),
      List.getD_append _ _ _ _ (by omega), hcount]
  · obtain ⟨hmoves, hsame⟩ := (movesNothing_succ hk).1 hmoves
    obtain ⟨pas, hst, h50, h52⟩ := hinv k hk.le hmoves
    obtain ⟨pas', hst', halone, -⟩ := iteration301b_subPdu (hmem.frame hk) (hos k hk.le) hst
      (fun he => h50 fun p hp hpe => hsame p hp (by simp [SubPdu.SameFormat, hpe, he]))
      (fun he => h52 fun p hp hpe => hsame p hp (by simp [SubPdu.SameFormat, hpe, he])) k
    rw [Framing.run_succ]
    exact ⟨pas', hst', halone⟩

/-- An analyzer for `0x3050` from the format set of the driver. -/
def drvInit3050 : Init specs3050 :=
  .driver specs3050 0x3050 (registered_drvPfs mem_drvFormats_3050)
    (inRange_drvPfs mem_drvFormats_3050)
    ((List.range 12).map fun k => UInt32.ofNat (64 * k + 64))
    ((List.range 12).map fun k => UInt32.ofNat (32 * k + 4096)) rfl rfl (by decide) (by decide)
    (by simp [List.range_succ])

/-- An analyzer for `0x3052` from the format set of the driver. -/
def drvInit3052 : Init specs3052 :=
  .driver specs3052 0x3052 (registered_drvPfs mem_drvFormats_3052)
    (inRange_drvPfs mem_drvFormats_3052)
    ((List.range 13).map fun k => UInt32.ofNat (64 * k + 64))
    ((List.range 13).map fun k => UInt32.ofNat (32 * k + 4096)) rfl rfl (by decide) (by decide)
    (by simp [List.range_succ])

/-- A sub-PDU with one byte of `slc_data`. -/
def pduSlc : SubPdu where
  bytes := [12, 0, 0x10, 0, 0, 0, 0, 1, 7, 1, 2, 0]
  embFlag := 0
  content := specs3050.zip
    [[0x30, 0x50], [12], [0], [0x10, 0], [0, 0], [0], [1], [7], [1], [2], [0], []]
  rest := []
  map_fst_content := rfl
  consistent := by
    refine ⟨rfl, rfl, rfl, rfl, rfl, rfl, rfl,
      ⟨by decide, (byteField (cname "slc_info") 9 1 none, [1]), List.mem_of_getLast? rfl, rfl,
        by decide, rfl⟩, rfl, rfl, rfl,
      ⟨by decide, (byteField (cname "dc_info") 12 1 none, [0]), List.mem_of_getLast? rfl, rfl,
        by decide, rfl⟩, trivial⟩
  wire_eq := rfl
  getD_zero := rfl
  getD_one := rfl
  length_le := by decide

/-- A sub-PDU of the same format with one byte of `dc_data` only. -/
def pduDc : SubPdu where
  bytes := [12, 0, 0x10, 0, 0, 0, 0, 0, 1, 2, 1, 9]
  embFlag := 0
  content := specs3050.zip
    [[0x30, 0x50], [12], [0], [0x10, 0], [0, 0], [0], [0], [], [1], [2], [1], [9]]
  rest := []
  map_fst_content := rfl
  consistent := by
    refine ⟨rfl, rfl, rfl, rfl, rfl, rfl, rfl,
      ⟨by decide, (byteField (cname "slc_info") 9 1 none, [0]), List.mem_of_getLast? rfl, rfl,
        by decide, rfl⟩, rfl, rfl, rfl,
      ⟨by decide, (byteField (cname "dc_info") 12 1 none, [1]), List.mem_of_getLast? rfl, rfl,
        by decide, rfl⟩, trivial⟩
  wire_eq := rfl
  getD_zero := rfl
  getD_one := rfl
  length_le := by decide

/-- A sub-PDU of the other format with two bytes of `dc_data` only. -/
def embDc : SubPdu where
  bytes := [13, 1, 0x10, 1, 0, 0, 3, 0, 4, 0, 2, 5, 6]
  embFlag := 1
  content := specs3052.zip
    [[0x30, 0x52], [13], [1], [0x10, 1], [0, 0], [3], [0], [], [4], [0], [], [2], [5, 6]]
  rest := []
  map_fst_content := rfl
  consistent := by
    refine ⟨rfl, rfl, rfl, rfl, rfl, rfl, rfl,
      ⟨by decide, (byteField (cname "slc_info") 9 1 none, [0]), List.mem_of_getLast? rfl, rfl,
        by decide, rfl⟩, rfl, rfl,
      ⟨by decide, (byteField (cname "lc_info") 11 1 none, [0]), List.mem_of_getLast? rfl, rfl,
        by decide, rfl⟩, rfl,
      ⟨by decide, (byteField (cname "dc_info") 12 1 none, [2]), List.mem_of_getLast? rfl, rfl,
        by decide, rfl⟩, trivial⟩
  wire_eq := rfl
  getD_zero := rfl
  getD_one := rfl
  length_le := by decide

/-- A sub-PDU of the other format with one byte of `slc_data`, one of `lc_data` and two of
`dc_data`. -/
def embSlc : SubPdu where
  bytes := [15, 1, 0x10, 2, 0, 0, 3, 1, 8, 4, 1, 9, 2, 5, 6]
  embFlag := 1
  content := specs3052.zip
    [[0x30, 0x52], [15], [1], [0x10, 2], [0, 0], [3], [1], [8], [4], [1], [9], [2], [5, 6]]
  rest := []
  map_fst_content := rfl
  consistent := by
    refine ⟨rfl, rfl, rfl, rfl, rfl, rfl, rfl,
      ⟨by decide, (byteField (cname "slc_info") 9 1 none, [1]), List.mem_of_getLast? rfl, rfl,
        by decide, rfl⟩, rfl, rfl,
      ⟨by decide, (byteField (cname "lc_info") 11 1 none, [1]), List.mem_of_getLast? rfl, rfl,
        by decide, rfl⟩, rfl,
      ⟨by decide, (byteField (cname "dc_info") 12 1 none, [2]), List.mem_of_getLast? rfl, rfl,
        by decide, rfl⟩, trivial⟩
  wire_eq := rfl
  getD_zero := rfl
  getD_one := rfl
  length_le := by decide

/-- Two sub-PDUs of each format, in turns; only the last one of each moves fields. -/
def fourPdus : List SubPdu := [pduDc, embDc, pduSlc, embSlc]

theorem movesNothing_fourPdus : MovesNothing fourPdus 4 := by
  have hpdu : Unmoved pduDc.content := by
    unfold Unmoved
    decide
  have hemb : Unmoved embDc.content := by
    unfold Unmoved
    decide
  simp [MovesNothing, fourPdus, SubPdu.SameFormat, pduDc, embDc, pduSlc, embSlc] at hpdu hemb ⊢
  exact ⟨hpdu, hemb⟩

/-- The last sub-PDU, behind another one of its format and two of the other one, is decoded as if it
were alone. -/
theorem doCommand0x301b_fourPdus : ∃ pas,
    (Framing.run (iteration301b (fun _ => ⟨true, fun _ _ => 0, fun _ _ => 0, 0⟩)
      fun n => ([0x30, 0x1b, 0, 0, 4] ++ fourPdus.flatMap SubPdu.bytes).getD n 0) 4
      (start301b drvPfs ⟨drvInit3050.infos, drvInit3050.nodes⟩
        ⟨drvInit3052.infos, drvInit3052.nodes⟩)).state = some pas ∧
      pas.HoldAlone drvInit3050 drvInit3052 embSlc :=
  (doCommand0x301b_subPdus drvInit3050 drvInit3052 rfl rfl rfl
    (fun _ => ⟨true, fun _ _ => 0, fun _ _ => 0, 0⟩) [0x30, 0x1b, 0, 0, 4] rfl fourPdus rfl
    _ fun _ _ => rfl).2 3 (by decide) movesNothing_fourPdus

/-- The second one is read from the wrong place. -/
theorem not_doCommand0x301b_alone : ¬ ∀ (i50 : Init specs3050) (i52 : Init specs3052),
    i50.num = 0x3050 → i52.num = 0x3052 → i52.pfs = i50.pfs → ∀ (env : ℕ → Env)
      (hdr : List UInt8), hdr.length = 5 → ∀ pdus : List SubPdu,
      (hdr.getD 4 0).toNat = pdus.length → ∀ data : ℕ → UInt8,
      InMemory data (hdr ++ pdus.flatMap SubPdu.bytes) → ∀ k (hk : k < pdus.length), ∃ pas,
        (Framing.run (iteration301b env data) (k + 1)
          (start301b i50.pfs ⟨i50.infos, i50.nodes⟩ ⟨i52.infos, i52.nodes⟩)).state = some pas ∧
        pas.HoldAlone i50 i52 pdus[k] := by
  intro h
  obtain ⟨pas, hst, halone⟩ := h drvInit3050 drvInit3052 rfl rfl rfl
    (fun _ => ⟨true, fun _ _ => 0, fun _ _ => 0, 0⟩) [0x30, 0x1b, 0, 0, 2] rfl [pduSlc, pduSlc] rfl
    (fun n => ([0x30, 0x1b, 0, 0, 2] ++ [pduSlc, pduSlc].flatMap SubPdu.bytes).getD n 0)
    (fun _ _ => rfl) 1 (by decide)
  obtain ⟨pb, hload, hval, -⟩ := halone drvInit3050 ⟨true, fun _ _ => 0, fun _ _ => 0, 0⟩
  have hne : (Framing.run (iteration301b (fun _ => ⟨true, fun _ _ => 0, fun _ _ => 0, 0⟩)
      fun n => ([0x30, 0x1b, 0, 0, 2] ++ [pduSlc, pduSlc].flatMap SubPdu.bytes).getD n 0) 2
      (start301b drvPfs ⟨drvInit3050.infos, drvInit3050.nodes⟩
        ⟨drvInit3052.infos, drvInit3052.nodes⟩)).state.map
          (fun pas => drvInit3050.infos.map fun a => (pas.pa50.info a).value) ≠
      ((loadMessage (0x30 :: 0x50 :: pduSlc.bytes) drvInit3050.analyzer).bind
        (paParseProtocolData ⟨true, fun _ _ => 0, fun _ _ => 0, 0⟩)).map
          (fun r => drvInit3050.infos.map fun a => (r.2.info a).value) := by
    decide +kernel
  rw [show (loadMessage (0x30 :: 0x50 :: pduSlc.bytes) drvInit3050.analyzer).bind _ = _ from hload]
    at hne
  exact hne ((congrArg (Option.map _) hst).trans (congrArg some hval))

end Loop

end HpiDriver
