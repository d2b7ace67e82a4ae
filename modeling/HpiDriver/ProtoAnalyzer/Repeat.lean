import HpiDriver.ProtoAnalyzer.Layers
import HpiDriver.ProtoAnalyzer.RoundTrip

/-!
# A second call

What a second `pa_parse_protocol_data` or `pa_generate_protocol_data` right after the first one
does: nothing. The first call clears the flags of all fields, so the second one moves none of them
and handles each where the first has left it. Reading a field again finds its own bytes in its
buffer (`paGetProtocolField_again`). Writing replaces some bits of the protocol buffer and ors into
others, in the same order as before, and laying the same layers over the buffer twice is laying
them over it once (`applyAll_applyAll`).
-/

namespace HpiDriver

open Blocks BitString

/-! ## Passes over fields -/

section Pass

variable {env : Env} {cur : Addr} {rest : List Addr} {pa pa' : ProtocolAnalyzer}

/-- A pass over a field whose flag is not set does nothing. -/
theorem paResolveLength_of_flag (h : (pa.info cur).vlenthFlag = false) :
    paResolveLength env cur rest pa = some pa := by
  rw [paResolveLength, if_neg (by rw [h]; decide)]

end Pass

/-! ## Parsing -/

/-- **Reading a field again changes nothing.** -/
theorem paGetProtocolField_again {env : Env} {f g : ProtoInfo} {dp : List UInt8}
    (h : paGetProtocolField env f dp = some g) :
    paGetProtocolField env g dp = some g ∧ g.vlenthFlag = f.vlenthFlag := by
  unfold paGetProtocolField at h
  split_ifs at h with hu hlen hu1
  · simp only [paGetProtocolByteData, Option.bind_eq_bind] at h
    obtain ⟨data, hdata, hg⟩ := Option.bind_eq_some_iff.1 h
    obtain rfl := Option.some.inj hg
    refine ⟨?_, rfl⟩
    rw [paGetProtocolField, if_pos hu, if_pos hlen]
    simp only [paGetProtocolByteData, Option.bind_eq_bind]
    rw [hdata, Option.bind_some]
  · -- the bytes of the field are in front in its buffer
    obtain ⟨bs, block, hbs, rfl, hblock⟩ := paGetProtocolBuf_inv h
    refine ⟨?_, rfl⟩
    rw [paGetProtocolField, if_pos hu, if_neg hlen, paGetProtocolBuf]
    simp only [hbs, Option.bind_eq_bind, Option.bind_some, hblock]
    exact if_pos UInt16.le_rfl
  · simp only [paGetProtocolBitData, Option.bind_eq_bind] at h
    obtain ⟨data, hdata, hg⟩ := Option.bind_eq_some_iff.1 h
    obtain rfl := Option.some.inj hg
    refine ⟨?_, rfl⟩
    rw [paGetProtocolField, if_neg hu, if_pos hu1]
    simp only [paGetProtocolBitData, Option.bind_eq_bind]
    rw [hdata, Option.bind_some]
  · obtain rfl := Option.some.inj h
    exact ⟨by rw [paGetProtocolField, if_neg hu, if_neg hu1], rfl⟩

/-- A run leaves its fields without a flag and as they are read from the buffer. -/
theorem paParseLoop_inv {env : Env} {hl : List Addr} (hnd : hl.Nodup) {pa pa' : ProtocolAnalyzer}
    (h : paParseLoop env hl pa = some pa') :
    ∃ info', pa' = { pa with info := info' } ∧ (∀ b ∉ hl, info' b = pa.info b) ∧
      ∀ a ∈ hl, (info' a).vlenthFlag = false ∧
        paGetProtocolField env (info' a) pa.protocolData = some (info' a) := by
  induction hl generalizing pa with
  | nil =>
    obtain rfl := Option.some.inj h
    exact ⟨pa.info, rfl, fun _ _ => rfl, by simp⟩
  | cons a rest ih =>
    obtain ⟨pa₁, hres, h⟩ := Option.bind_eq_some_iff.1 h
    obtain ⟨f, hf, h⟩ := Option.bind_eq_some_iff.1 h
    obtain ⟨d, rfl⟩ := paResolveLength_inv hnd hres
    obtain ⟨ha, hnd'⟩ := List.nodup_cons.1 hnd
    rw [ProtocolAnalyzer.info_pass_self] at hf
    rw [ProtocolAnalyzer.modify_pass] at h
    obtain ⟨hagain, hflag⟩ := paGetProtocolField_again hf
    obtain ⟨info', rfl, hout, hin⟩ := ih hnd' h
    refine ⟨info', rfl, fun b hb => ?_, List.forall_mem_cons.2 ⟨?_, hin⟩⟩
    · rw [hout b fun hr => hb (List.mem_cons_of_mem _ hr)]
      exact ProtocolAnalyzer.info_pass_of_notMem _ _ hb
    · rw [hout a ha, ProtocolAnalyzer.info_pass_self]
      exact ⟨hflag, hagain⟩

/-- A run over fields without a flag that are as they are read from the buffer. -/
theorem paParseLoop_of_read {env : Env} {hl : List Addr} {pa : ProtocolAnalyzer}
    (h : ∀ a ∈ hl, (pa.info a).vlenthFlag = false ∧
      paGetProtocolField env (pa.info a) pa.protocolData = some (pa.info a)) :
    paParseLoop env hl pa = some pa := by
  induction hl with
  | nil => rfl
  | cons a rest ih =>
    obtain ⟨⟨hflag, hread⟩, h⟩ := List.forall_mem_cons.1 h
    have hsame : (pa.modify a fun _ => pa.info a) = pa := by
      rw [ProtocolAnalyzer.modify, Function.update_eq_self]
    simp only [paParseLoop, paResolveLength_of_flag hflag, Option.bind_eq_bind, Option.bind_some,
      hread, hsame]
    exact ih h

/-- **Parsing is idempotent.** A call that stays within the buffer returns an analyzer that a
second call leaves exactly as it is: the fields with their values, buffers, lengths, places and
flags. -/
theorem paParseProtocolData_again {pa : ProtocolAnalyzer}
    (hnd : ∀ hl, pa.paListHeadP = some hl → hl.Nodup) {env : Env} {r : ℤ × ProtocolAnalyzer}
    (h : paParseProtocolData env pa = some r) (keyStr flagKeyStr : Addr → ℕ → UInt8)
    (dataLen : UInt16) :
    paParseProtocolData ⟨env.charSigned, keyStr, flagKeyStr, dataLen⟩ r.2 = some r := by
  unfold paParseProtocolData at h
  cases hhl : pa.paListHeadP with
  | none =>
    rw [hhl] at h
    obtain rfl := Option.some.inj h
    simp only [paParseProtocolData, hhl]
  | some hl =>
    rw [hhl] at h
    dsimp only at h
    split_ifs at h with hlen
    · obtain rfl := Option.some.inj h
      simp only [paParseProtocolData, hhl, hlen, if_true]
    · obtain ⟨pa', hloop, hr⟩ := Option.bind_eq_some_iff.1 h
      obtain rfl := Option.some.inj hr
      obtain ⟨info', rfl, -, hread⟩ := paParseLoop_inv (hnd hl hhl) hloop
      set pa' : ProtocolAnalyzer := { pa with info := info' } with hpa'
      have hhl' : pa'.paListHeadP = some hl := hhl
      have hlen' : pa'.protocolDataLen ≠ 0 := hlen
      have hread' : ∀ a ∈ hl, (pa'.info a).vlenthFlag = false ∧
          paGetProtocolField ⟨env.charSigned, keyStr, flagKeyStr, dataLen⟩ (pa'.info a)
            pa'.protocolData = some (pa'.info a) := hread
      simp only [paParseProtocolData, hhl', if_neg hlen', paParseLoop_of_read hread',
        Option.bind_eq_bind, Option.bind_some]

/-- A record whose data of five bytes are moved into a new buffer is parsed twice. -/
theorem paParseProtocolData_again_record : ∃ r,
    paParseProtocolData ⟨true, fun _ _ => 0, fun _ _ => 0, 0⟩
      (loaded3054 [0x30, 0x54, 7, 1, 5, 1, 2, 3, 4, 5] (List.replicate 90 0)) = some r ∧
    paParseProtocolData ⟨true, fun _ _ => 1, fun _ _ => 1, 1⟩ r.2 = some r := by
  have hsome : (paParseProtocolData ⟨true, fun _ _ => 0, fun _ _ => 0, 0⟩
      (loaded3054 [0x30, 0x54, 7, 1, 5, 1, 2, 3, 4, 5] (List.replicate 90 0))).isSome = true := by
    decide +kernel
  obtain ⟨r, hr⟩ := Option.isSome_iff_exists.1 hsome
  refine ⟨r, hr, paParseProtocolData_again (fun hl h => ?_) hr _ _ _⟩
  obtain rfl : init3054.infos = hl := Option.some.inj (init3054.paListHeadP_analyzer.symm.trans h)
  exact init3054.nodup_infos

/-! ## Writing fields -/

/-- A copied block is a layer that replaces what is below it. -/
theorem lays_memcpyTo (pos : ℕ) (bs : List UInt8) :
    Lays (fun dp => memcpyTo dp pos bs) [byteLayer pos bs] where
  spec {dp dp'} h := by
    refine ⟨length_memcpyTo h, funext fun k => ?_⟩
    change _ = (byteLayer pos bs).apply (bitAt dp) k
    rw [byteLayer_apply]
    unfold memcpyTo at h
    split_ifs at h with hb hle
    · rw [← Option.some.inj h, if_neg (by rw [hb, List.length_nil]; omega)]
    · rw [← Option.some.inj h, bitAt_blit hle]
  isSome_congr {dp dp'} hl := by
    simp only [memcpyTo, hl]
    split_ifs <;> rfl

theorem lays_arrayStore (pos : ℕ) (b : UInt8) :
    Lays (fun dp => arrayStore dp pos b) [byteLayer pos [b]] := by
  simp only [arrayStore_eq_memcpyTo]
  exact lays_memcpyTo pos [b]

/-- `set_bit_data` ors a number into the byte that does not depend on the byte. -/
theorem exists_setBitData_eq (data bitPos len : UInt8) :
    ∃ c, ∀ b, setBitData b data bitPos len = b ||| c :=
  ⟨_, fun b => by rw [setBitData, UInt32.toUInt8_or, UInt8.toUInt8_toUInt32]⟩

/-- Bits or-ed into a byte are a layer that replaces nothing. -/
theorem lays_setBitData (pos : ℕ) (data bitPos len : UInt8) :
    ∃ ls, Lays (fun dp => dp[pos]?.bind fun b =>
      arrayStore dp pos (setBitData b data bitPos len)) ls := by
  obtain ⟨c, hc⟩ := exists_setBitData_eq data bitPos len
  simp only [hc]
  refine ⟨[⟨8 * pos, 8, fun k => c.toNat.testBit (7 - k % 8), false⟩], ?_, ?_⟩
  · intro dp dp' h
    obtain ⟨b, hb, h⟩ := Option.bind_eq_some_iff.1 h
    have hpos := (List.getElem?_eq_some_iff.1 hb).1
    rw [arrayStore, if_pos hpos, Option.some.injEq] at h
    subst h
    refine ⟨List.length_set, funext fun k => ?_⟩
    simp only [applyAll, List.foldl_cons, List.foldl_nil, Layer.apply, Layer.hides, Layer.sets,
      Bool.and_false, Bool.not_false, Bool.and_true]
    rw [bitAt_set hpos]
    by_cases hk : k / 8 = pos
    · have hcov : (⟨8 * pos, 8, fun k => c.toNat.testBit (7 - k % 8), false⟩ : Layer).covers k =
          true := Layer.covers_eq_true.2 (by dsimp only; omega)
      rw [if_pos hk, hcov, Bool.true_and, UInt8.toNat_or, Nat.testBit_or, bitAt, hk,
        List.getD_eq_getElem?_getD, hb, Option.getD_some]
    · have hcov : (⟨8 * pos, 8, fun k => c.toNat.testBit (7 - k % 8), false⟩ : Layer).covers k =
          false := by
        rw [Bool.eq_false_iff, ne_eq, Layer.covers_eq_true]
        dsimp only
        omega
      rw [if_neg hk, hcov, Bool.false_and, Bool.or_false]
  · intro dp dp' hl
    simp only [arrayStore, hl]
    by_cases hpos : pos < dp.length
    · rw [List.getElem?_eq_getElem hpos, List.getElem?_eq_getElem (by omega)]
      simp [hpos]
    · rw [List.getElem?_eq_none (by omega), List.getElem?_eq_none (by omega)]
      rfl

/-- Writing a field lays layers over the buffer. -/
theorem exists_lays_field (env : Env) (f : ProtoInfo) (pos : UInt8) :
    ∃ ls, Lays (fun dp => paSetProtocolField env f pos dp) ls := by
  unfold paSetProtocolField
  split_ifs with hu hlen hu1
  · exact Lays.foldlM fun i _ => ⟨_, lays_arrayStore _ _⟩
  · unfold paSetProtocolBuf
    split_ifs with hb
    · exact ⟨_, Lays.id⟩
    · cases hblock : f.buf.dataP with
      | none => exact ⟨_, Lays.fail⟩
      | some block =>
        cases hbs : memcpyFrom block 0 f.len.toNat with
        | none =>
          simp only [Option.bind_eq_bind, Option.bind_some, hbs, Option.bind_none]
          exact ⟨_, Lays.fail⟩
        | some bs =>
          simp only [Option.bind_eq_bind, Option.bind_some, hbs]
          exact ⟨_, lays_memcpyTo _ _⟩
  · exact Lays.foldlM fun c _ => lays_setBitData _ _ _ _
  · exact ⟨_, Lays.id⟩

/-- Writing the same fields again changes nothing. -/
theorem writeFields_again {env : Env} {fs : List ProtoInfo} {dp dp' : List UInt8}
    (h : writeFields env fs dp = some dp') : writeFields env fs dp' = some dp' := by
  obtain ⟨ls, hls⟩ := Lays.foldlM (l := fs)
    (w := fun dp f => paSetProtocolField env f f.bytePos dp)
    fun f _ => exists_lays_field env f f.bytePos
  exact hls.again h

/-! ## Generating -/

section Generate

variable {env : Env} {hl : List Addr} {pa pa' : ProtocolAnalyzer}

/-- The pass over the length flags changes fields only. -/
theorem paSetVariableLengthFlag_inv (h : paSetVariableLengthFlag env hl pa = some pa') :
    ∃ info', pa' = { pa with info := info' } := by
  induction hl generalizing pa with
  | nil =>
    obtain rfl := Option.some.inj h
    exact ⟨pa.info, rfl⟩
  | cons a rest ih =>
    obtain ⟨pa₁, h₁, h⟩ := Option.bind_eq_some_iff.1 h
    obtain ⟨info', rfl⟩ := ih h
    have hpa₁ : ∃ info₁, pa₁ = { pa with info := info₁ } := by
      dsimp only at h₁
      split_ifs at h₁ with hflag
      · obtain ⟨r, -, h₁⟩ := Option.bind_eq_some_iff.1 h₁
        cases r with
        | none =>
          obtain rfl := Option.some.inj h₁
          exact ⟨pa.info, rfl⟩
        | some find =>
          obtain rfl := Option.some.inj h₁
          exact ⟨_, rfl⟩
      · obtain rfl := Option.some.inj h₁
        exact ⟨pa.info, rfl⟩
    obtain ⟨info₁, rfl⟩ := hpa₁
    exact ⟨info', rfl⟩

theorem paSetVariableLengthFlag_of_flags (h : ∀ a ∈ hl, (pa.info a).vlenthFlag = false) :
    paSetVariableLengthFlag env hl pa = some pa := by
  induction hl with
  | nil => rfl
  | cons a rest ih =>
    obtain ⟨ha, h⟩ := List.forall_mem_cons.1 h
    rw [paSetVariableLengthFlag, List.foldlM_cons, if_neg (by rw [ha]; decide)]
    exact ih h

/-- A run leaves its fields without a flag, and it has written them as they are then. -/
theorem paGenerateLoop_inv (hnd : hl.Nodup) {n n' : UInt16}
    (h : paGenerateLoop env hl pa n = some (pa', n')) :
    ∃ info' dp, pa' = { pa with protocolData := dp, info := info' } ∧
      (∀ b ∉ hl, info' b = pa.info b) ∧ (∀ a ∈ hl, (info' a).vlenthFlag = false) ∧
      writeFields env (hl.map info') pa.protocolData = some dp ∧
      n' = dataLenOf (hl.map info') n := by
  induction hl generalizing pa n with
  | nil =>
    obtain ⟨rfl, rfl⟩ := Prod.mk.inj (Option.some.inj h)
    exact ⟨pa.info, pa.protocolData, rfl, fun _ _ => rfl, by simp, rfl, rfl⟩
  | cons a rest ih =>
    obtain ⟨pa₁, hres, h⟩ := Option.bind_eq_some_iff.1 h
    obtain ⟨dp₁, hwrite, h⟩ := Option.bind_eq_some_iff.1 h
    obtain ⟨d, rfl⟩ := paResolveLength_inv hnd hres
    obtain ⟨ha, hnd'⟩ := List.nodup_cons.1 hnd
    obtain ⟨info', dp, rfl, hout, hflags, hrest, hn⟩ := ih hnd' h
    have hinfo : info' a = (pa.info a).resolve d :=
      (hout a ha).trans (ProtocolAnalyzer.info_pass_self _ _)
    rw [ProtocolAnalyzer.info_pass_self] at hwrite hn
    refine ⟨info', dp, rfl, fun b hb => ?_, List.forall_mem_cons.2 ⟨by rw [hinfo]; rfl, hflags⟩,
      ?_, ?_⟩
    · rw [hout b fun hr => hb (List.mem_cons_of_mem _ hr)]
      exact ProtocolAnalyzer.info_pass_of_notMem _ _ hb
    · rw [List.map_cons, hinfo, writeFields, List.foldlM_cons]
      refine Option.bind_eq_some_iff.2 ⟨dp₁, hwrite, hrest⟩
    · rw [hn, List.map_cons, hinfo, dataLenOf_cons]
      rfl

/-- A run over fields without a flag writes them where they are. -/
theorem paGenerateLoop_of_flags (h : ∀ a ∈ hl, (pa.info a).vlenthFlag = false) (n : UInt16) :
    paGenerateLoop env hl pa n = (writeFields env (hl.map pa.info) pa.protocolData).map fun dp =>
      ({ pa with protocolData := dp }, dataLenOf (hl.map pa.info) n) := by
  induction hl generalizing pa n with
  | nil => rfl
  | cons a rest ih =>
    obtain ⟨hflag, h⟩ := List.forall_mem_cons.1 h
    simp only [paGenerateLoop, paResolveLength_of_flag hflag, Option.bind_eq_bind,
      Option.bind_some, List.map_cons, writeFields, List.foldlM_cons, dataLenOf_cons]
    cases paSetProtocolField env (pa.info a) (pa.info a).bytePos pa.protocolData with
    | none => rfl
    | some dp => exact @ih { pa with protocolData := dp } h _

/-- **Generating is idempotent.** A call that stays within the buffers returns an analyzer that a
second call leaves exactly as it is: the bytes and the length of the message and the fields with
their places, lengths and flags. -/
theorem paGenerateProtocolData_again (hnd : hl.Nodup) (hhl : pa.paListHeadP = some hl)
    (hne : hl ≠ []) {r : ℤ × ProtocolAnalyzer} (h : paGenerateProtocolData env pa = some r)
    (keyStr flagKeyStr : Addr → ℕ → UInt8) (dataLen : UInt16) :
    paGenerateProtocolData ⟨env.charSigned, keyStr, flagKeyStr, dataLen⟩ r.2 = some r := by
  simp only [paGenerateProtocolData, hhl] at h
  obtain ⟨pa₁, hflag, h⟩ := Option.bind_eq_some_iff.1 h
  obtain ⟨⟨pa₂, n⟩, hloop, hr⟩ := Option.bind_eq_some_iff.1 h
  obtain rfl := Option.some.inj hr
  obtain ⟨info₁, rfl⟩ := paSetVariableLengthFlag_inv hflag
  obtain ⟨info', dp, rfl, -, hflags, hwrite, rfl⟩ := paGenerateLoop_inv hnd hloop
  dsimp only at hwrite ⊢
  -- the second call writes the same fields to the same places
  set pa' : ProtocolAnalyzer := { pa with
    protocolData := dp
    protocolDataLen := dataLenOf (hl.map info') env.dataLen
    info := info' } with hpa'
  have hhl' : pa'.paListHeadP = some hl := hhl
  have hflags' : ∀ a ∈ hl, (pa'.info a).vlenthFlag = false := hflags
  have hwrite' : writeFields ⟨env.charSigned, keyStr, flagKeyStr, dataLen⟩ (hl.map pa'.info)
      pa'.protocolData = some dp := writeFields_again hwrite
  have hlen : dataLenOf (hl.map pa'.info) dataLen = dataLenOf (hl.map info') env.dataLen := by
    cases hl with
    | nil => exact absurd rfl hne
    | cons a rest => rw [List.map_cons, dataLenOf_cons, dataLenOf_cons]
  simp only [paGenerateProtocolData, hhl', paSetVariableLengthFlag_of_flags hflags',
    Option.bind_eq_bind, Option.bind_some, paGenerateLoop_of_flags hflags', hwrite',
    Option.map_some, hlen]
  rw [← hhl']

end Generate

/-- A record with two bytes of data is generated twice. -/
theorem paGenerateProtocolData_again_record : ∃ r,
    paGenerateProtocolData ⟨true, fun _ _ => 0, fun _ _ => 0, 0⟩
      (init3054.analyzer.modify 256 (setValue 2)) = some r ∧
    paGenerateProtocolData ⟨true, fun _ _ => 1, fun _ _ => 1, 1⟩ r.2 = some r := by
  have hsome : (paGenerateProtocolData ⟨true, fun _ _ => 0, fun _ _ => 0, 0⟩
      (init3054.analyzer.modify 256 (setValue 2))).isSome = true := by decide +kernel
  obtain ⟨r, hr⟩ := Option.isSome_iff_exists.1 hsome
  have hhl : (init3054.analyzer.modify 256 (setValue 2)).paListHeadP = some init3054.infos :=
    init3054.paListHeadP_analyzer
  exact ⟨r, hr, paGenerateProtocolData_again init3054.nodup_infos hhl (List.cons_ne_nil _ _) hr
    _ _ _⟩

end HpiDriver
