import HpiDriver.Business
import HpiDriver.ProtoAnalyzer.Reparse

/-!
# Loops over the frames of a message

What the loops of `do_command_0x3010` and `do_command_0x301b` have in common: every iteration
starts where the frames before it end (`Framing.run_os`), and with analyzers at rest it leaves the
values of its frame behind (`Rested.parseFrame`).
-/

namespace HpiDriver

open Blocks

/-! ## Messages in memory -/

/-- The message is what the memory at `data` holds. -/
def InMemory (data : ℕ → UInt8) (msg : List UInt8) : Prop :=
  ∀ n < msg.length, data n = msg.getD n 0

section InMemory

variable {data : ℕ → UInt8} {pre bs post : List UInt8}

theorem InMemory.getD (h : InMemory data (pre ++ bs ++ post)) {k : ℕ} (hk : k < bs.length) :
    data (pre.length + k) = bs.getD k 0 := by
  rw [h _ (by simp only [List.length_append]; omega), List.append_assoc,
    List.getD_append_right _ _ _ _ (by omega), Nat.add_sub_cancel_left, List.getD_append _ _ _ _ hk]

/-- The bytes of a part of the message. -/
theorem InMemory.messageBytes_eq (h : InMemory data (pre ++ bs ++ post)) :
    messageBytes data pre.length bs.length = bs := by
  refine List.ext_getElem (by simp [messageBytes]) fun k hk hk' => ?_
  simp only [messageBytes, List.getElem_map, List.getElem_range]
  rw [h.getD hk', List.getD_eq_getElem _ _ hk']

end InMemory

/-! ## Offsets -/

section Offsets

variable {α : Type} {f : α → List UInt8} {l : List α}

/-- The encodings of a list, around one of them. -/
theorem flatMap_split (f : α → List UInt8) {k : ℕ} (hk : k < l.length) :
    l.flatMap f = (l.take k).flatMap f ++ f l[k] ++ (l.drop (k + 1)).flatMap f := by
  conv_lhs => rw [← List.take_append_drop k l, List.drop_eq_getElem_cons hk]
  rw [List.flatMap_append, List.flatMap_cons, List.append_assoc]

/-- A frame of a message, behind the header and the frames before it. -/
theorem InMemory.frame {data : ℕ → UInt8} {hdr : List UInt8}
    (h : InMemory data (hdr ++ l.flatMap f)) {k : ℕ} (hk : k < l.length) :
    InMemory data (hdr ++ (l.take k).flatMap f ++ f l[k] ++ (l.drop (k + 1)).flatMap f) := by
  rw [flatMap_split f hk] at h
  simpa only [List.append_assoc] using h

theorem length_flatMap_le {n : ℕ} (h : ∀ a ∈ l, (f a).length ≤ n) :
    (l.flatMap f).length ≤ l.length * n := by
  induction l with
  | nil => simp
  | cons a l ih =>
    obtain ⟨ha, h⟩ := List.forall_mem_cons.1 h
    rw [List.flatMap_cons, List.length_append, List.length_cons, Nat.add_mul, Nat.one_mul]
    have := ih h
    omega

/-- Where frame `n` starts, when the first one starts at `start` and the one at `os` has
`size os` bytes. -/
def frameOffset (size : ℕ → ℕ) (start : ℕ) : ℕ → ℕ
  | 0 => start
  | n + 1 => frameOffset size start n + size (frameOffset size start n)

theorem frameOffset_mono (size : ℕ → ℕ) (start : ℕ) {n m : ℕ} (h : n ≤ m) :
    frameOffset size start n ≤ frameOffset size start m := by
  induction h with
  | refl => exact le_rfl
  | step _ ih => exact ih.trans (Nat.le_add_right _ _)

/-- The frames of a message start behind the header and the frames before them. -/
theorem frameOffset_eq {size : ℕ → ℕ} {hdr : List UInt8}
    (hsize : ∀ k (hk : k < l.length),
      size (hdr ++ (l.take k).flatMap f).length = (f l[k]).length) {k : ℕ} (hk : k ≤ l.length) :
    frameOffset size hdr.length k = (hdr ++ (l.take k).flatMap f).length := by
  induction k with
  | zero => simp [frameOffset]
  | succ k ih =>
    have hk' : k < l.length := hk
    rw [frameOffset, ih hk'.le, hsize k hk', List.take_succ_eq_append_getElem hk',
      List.flatMap_append, ← List.append_assoc, @List.length_append _ _ (List.flatMap f [l[k]])]
    simp

end Offsets

section Run

variable {σ : Type} {iteration : ℕ → Framing σ → Framing σ} {size : ℕ → ℕ} {st : Framing σ}

@[simp] theorem Framing.run_zero (iteration : ℕ → Framing σ → Framing σ) (st : Framing σ) :
    Framing.run iteration 0 st = st := rfl

theorem Framing.run_succ (iteration : ℕ → Framing σ → Framing σ) (n : ℕ) (st : Framing σ) :
    Framing.run iteration (n + 1) st = iteration n (Framing.run iteration n st) := by
  rw [Framing.run, List.range_succ, List.foldl_append]
  rfl

/-- The offset of an iteration is the one of its frame, while the `uint16_t` holds it. -/
theorem Framing.run_os (hos : ∀ i st, (iteration i st).os = st.os + UInt16.ofNat (size st.os.toNat))
    {n : ℕ} (hn : frameOffset size st.os.toNat n < 2 ^ 16) :
    (Framing.run iteration n st).os.toNat = frameOffset size st.os.toNat n := by
  induction n with
  | zero => rfl
  | succ n ih =>
    have ih := ih ((frameOffset_mono size _ n.le_succ).trans_lt hn)
    rw [frameOffset] at hn ⊢
    rw [Framing.run_succ, hos, ih, UInt16.toNat_add, UInt16.toNat_ofNat', ih]
    omega

/-- **Every iteration starts behind the frames before it**, when the size that it reads off a frame
is the size of the frame. -/
theorem Framing.run_os_frames {α : Type} {f : α → List UInt8} {l : List α} {data : ℕ → UInt8}
    {hdr : List UInt8} (hmem : InMemory data (hdr ++ l.flatMap f)) (size : ℕ → ℕ)
    (hos : ∀ i st, (iteration i st).os = st.os + UInt16.ofNat (size st.os.toNat))
    (hst : st.os.toNat = hdr.length)
    (hsize : ∀ a ∈ l, ∀ pre post, InMemory data (pre ++ f a ++ post) →
      size pre.length = (f a).length)
    (hlen : (hdr ++ l.flatMap f).length < 2 ^ 16) {k : ℕ} (hk : k ≤ l.length) :
    (Framing.run iteration k st).os.toNat = (hdr ++ (l.take k).flatMap f).length := by
  have hoff : ∀ {k}, k ≤ l.length →
      frameOffset size st.os.toNat k = (hdr ++ (l.take k).flatMap f).length := by
    intro k hk
    rw [hst]
    exact frameOffset_eq (fun k hk => hsize _ (List.getElem_mem hk) _ _ (hmem.frame hk)) hk
  rw [← hoff hk]
  refine Framing.run_os hos ?_
  have hmono := frameOffset_mono size st.os.toNat hk
  rw [hoff le_rfl, List.take_length] at hmono
  exact hmono.trans_lt hlen

/-- The accesses of a run are those of its iterations. -/
theorem Framing.run_accesses {acc : ℕ → List Access}
    (hacc : ∀ i st, (iteration i st).accesses = st.accesses ++ acc st.os.toNat) (n : ℕ) :
    (Framing.run iteration n st).accesses = st.accesses ++
      (List.range n).flatMap fun k => acc (Framing.run iteration k st).os.toNat := by
  induction n with
  | zero => simp
  | succ n ih =>
    rw [Framing.run_succ, hacc, ih, List.range_succ, List.flatMap_append, List.append_assoc]
    simp

end Run

section Iterations

variable (env : ℕ → Env) (data : ℕ → UInt8)

theorem os_iteration3010 (k : ℕ) (st : Framing ProtocolAnalyzer) :
    (iteration3010 env data k st).os =
      st.os + UInt16.ofNat ((data (st.os.toNat + 2)).toNat + 3) := by
  refine congrArg (st.os + ·) (UInt16.toNat_inj.1 ?_)
  simp

theorem os_iteration301b (k : ℕ) (st : Framing PduAnalyzers) :
    (iteration301b env data k st).os = st.os + UInt16.ofNat (data st.os.toNat).toNat := by
  refine congrArg (st.os + ·) (UInt16.toNat_inj.1 ?_)
  simp

end Iterations

/-! ## Parsing a frame -/

theorem value_resetField (f : ProtoInfo) : (resetField f).value = f.value := by
  unfold resetField
  split_ifs <;> rfl

theorem len_resetField (f : ProtoInfo) : (resetField f).len = f.len := by
  unfold resetField
  split_ifs <;> rfl

/-- Two bytes and a block stored at the start of a buffer. -/
theorem storeFrame_eq {dp bytes : List UInt8} (h : bytes.length + 2 ≤ dp.length) (b₀ b₁ : UInt8) :
    ((arrayStore dp 0 b₀).bind fun dp => (arrayStore dp 1 b₁).bind fun dp =>
      memcpyTo dp 2 bytes) = some (b₀ :: b₁ :: bytes ++ dp.drop (bytes.length + 2)) := by
  obtain ⟨x, y, dp, rfl⟩ : ∃ x y dp', dp = x :: y :: dp' := by
    cases dp with
    | nil => simp at h
    | cons x dp =>
      cases dp with
      | nil => simp at h
      | cons y dp => exact ⟨x, y, dp, rfl⟩
  have hle : 2 + bytes.length ≤ (b₀ :: b₁ :: dp).length := by
    simp only [List.length_cons] at h ⊢
    omega
  simp only [arrayStore, List.length_cons, Nat.zero_lt_succ, if_true, Option.bind_some,
    List.set_cons_zero, Nat.one_lt_succ_succ, List.set_cons_succ]
  rw [memcpyTo_eq hle]
  simp [blit, Nat.add_comm]

variable {specs : List FieldSpec} {i : Init specs}

/-- **A frame parsed with an analyzer at rest leaves its values.** -/
theorem Rested.parseFrame {pa : ProtocolAnalyzer} (h : Rested i pa)
    (hu : ∀ s ∈ specs, s.lenUnit = 8) (hnames : (specs.map FieldSpec.name).Nodup)
    (hcont : Contiguous 0 specs) (env : Env) {msg : List Content}
    (hmsg : msg.map Prod.fst = specs) (hcons : Consistent [] msg) {num₀ num₁ : UInt8}
    {bytes rest : List UInt8} (hwire : num₀ :: num₁ :: bytes = wire msg ++ rest)
    (hbytes : bytes.length + 2 ≤ MAX_PROTO_DATA_LEN) {len : UInt16} (hlen : len ≠ 0) :
    ∃ pa', HpiDriver.parseFrame env num₀ num₁ bytes len pa = some pa' ∧
      (i.infos.map fun a => (pa'.info a).value) = (msg.map fun c => decodeValue c.2) ∧
      (i.infos.map fun a => (pa'.info a).len.toNat) = (msg.map fun c => c.2.length) ∧
      (Unmoved msg → Rested i pa') := by
  have hle : bytes.length + 2 ≤ pa.protocolData.length := by rwa [h.length_protocolData]
  have hstore := storeFrame_eq hle num₀ num₁
  generalize hdp : num₀ :: num₁ :: bytes ++ pa.protocolData.drop (bytes.length + 2) = dp at hstore
  have hdl : dp.length = MAX_PROTO_DATA_LEN := by
    rw [← hdp, List.length_append, List.length_cons, List.length_cons, List.length_drop,
      h.length_protocolData]
    omega
  have hdata : dp = wire msg ++ (rest ++ pa.protocolData.drop (bytes.length + 2)) := by
    rw [← hdp, hwire, List.append_assoc]
  obtain ⟨pa', hparse, hhl, -, hval, hlens, hrest⟩ :=
    (h.store hdl len).parse hu hnames hcont env hmsg hcons hdata hlen
  have hinfo : ∀ a ∈ i.infos, (paResetVlenFlag pa').2.info a = resetField (pa'.info a) :=
    fun a ha => by
      rw [paResetVlenFlag_eq i.nodup_infos hhl]
      exact if_pos ha
  refine ⟨(paResetVlenFlag pa').2, ?_, ?_, ?_, hrest⟩
  · have hsplit : HpiDriver.parseFrame env num₀ num₁ bytes len pa =
        ((arrayStore pa.protocolData 0 num₀).bind fun dp => (arrayStore dp 1 num₁).bind fun dp =>
          memcpyTo dp 2 bytes).bind fun dp => (paParseProtocolData env { pa with
            protocolData := dp, protocolDataLen := len }).bind fun r =>
              some (paResetVlenFlag r.2).2 := by
      simp only [HpiDriver.parseFrame, Option.bind_eq_bind, Option.bind_assoc]
    rw [hsplit, hstore, Option.bind_some, hparse]
    rfl
  · rw [← hval]
    exact List.map_congr_left fun a ha => by rw [hinfo a ha, value_resetField]
  · rw [← hlens]
    exact List.map_congr_left fun a ha => by rw [hinfo a ha, len_resetField]

end HpiDriver
