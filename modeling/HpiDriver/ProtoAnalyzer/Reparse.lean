import HpiDriver.ProtoAnalyzer.Message
import HpiDriver.ProtoAnalyzer.RoundTrip

/-!
# Parsing with a reset analyzer

An analyzer that is parsed with again and again, as the commands of several records do. It is at
rest when its fields are where the format has them and its variable-length fields are armed. A
fresh analyzer is at rest, and parsing a message and resetting leaves one at rest unless a
variable-length field of the message has moved the ones behind it (`Rested.parse`).

The messages come as strings of bytes: for a format without gaps the wire form of a message is the
bytes of its fields one after another (`shows_wire`).
-/

namespace HpiDriver

open Blocks

/-! ## Wire forms -/

/-- The fields of the format follow one another from `pos` on. -/
def Contiguous : ℕ → List FieldSpec → Prop
  | _, [] => True
  | pos, s :: specs => s.bytePos.toNat = pos ∧ (s.index.isSome → s.len = 0) ∧
      Contiguous (pos + s.len.toNat) specs

instance decidableContiguous : (pos : ℕ) → (specs : List FieldSpec) →
    Decidable (Contiguous pos specs)
  | _, [] => .isTrue trivial
  | pos, s :: specs =>
    have := decidableContiguous (pos + s.len.toNat) specs
    inferInstanceAs (Decidable (_ ∧ _ ∧ _))

/-- The bytes of the fields one after another. -/
def wire (msg : List Content) : List UInt8 := msg.flatMap Prod.snd

@[simp] theorem wire_cons (c : Content) (msg : List Content) :
    wire (c :: msg) = c.2 ++ wire msg := by
  simp [wire]

/-- Where the next field of a message is when `S` bytes have come in between. -/
theorem next_place {c : Content} (hvar : c.1.index.isSome → c.1.len = 0)
    (hlen : c.1.index = none → c.2.length = c.1.len.toNat) {pos S : ℕ} :
    pos + c.1.len.toNat + (S + varLen c) = pos + S + c.2.length := by
  unfold varLen
  cases hi : c.1.index with
  | none =>
    rw [hlen hi, if_neg (by simp)]
    omega
  | some n =>
    have h0 : c.1.len = 0 := hvar (by rw [hi]; rfl)
    rw [h0, if_pos (by rfl), UInt16.toNat_zero]
    omega

/-- A buffer with the wire form of a message shows it. -/
theorem shows_wire {msg : List Content} {pos S : ℕ} {pre post : List UInt8}
    (hc : Contiguous pos (msg.map Prod.fst))
    (hfix : ∀ c ∈ msg, c.1.index = none → c.2.length = c.1.len.toNat)
    (hpre : pre.length = pos + S) : Shows (pre ++ wire msg ++ post) (blocks S msg) := by
  induction msg generalizing pos S pre with
  | nil => simp [Shows, blocks]
  | cons c msg ih =>
    obtain ⟨hpos, hvar, hc⟩ := hc
    obtain ⟨hlen, hfix⟩ := List.forall_mem_cons.1 hfix
    have hsplit : pre ++ wire (c :: msg) ++ post = pre ++ c.2 ++ wire msg ++ post := by
      simp
    rw [hsplit]
    refine List.forall_mem_cons.2 ⟨⟨?_, ?_⟩, ih hc hfix ?_⟩
    · simp only [List.length_append]
      omega
    · dsimp only
      rw [hpos, List.append_assoc, List.append_assoc,
        slice_append_right (q := 0) (by omega), slice_append_left (by omega), slice_self rfl]
    · rw [List.length_append, hpre, next_place hvar hlen]

/-! ## Analyzers at rest -/

/-- The analyzer is in front of a run, its fields where the format has them. -/
structure Rested {specs : List FieldSpec} (i : Init specs) (pa : ProtocolAnalyzer) : Prop where
  paListHeadP : pa.paListHeadP = some i.infos
  hmap : pa.hmap = i.analyzer.hmap
  length_protocolData : pa.protocolData.length = MAX_PROTO_DATA_LEN
  armed : ∀ p ∈ i.fields, Armed p.2 0 (pa.info p.1)

/-- No variable-length field but the last field of the message has bytes. -/
def Unmoved (msg : List Content) : Prop := ∀ c ∈ msg.dropLast, varLen c = 0

theorem ParsedAt.parsed {info : Addr → ProtoInfo} {S : ℕ} {E : List (Addr × Content)}
    (h : ParsedAt info S E) (hE : ∀ e ∈ E.dropLast, varLen e.2 = 0) :
    ∀ e ∈ E, Parsed e.2.1 S e.2.2 (info e.1) := by
  induction E generalizing S with
  | nil => simp
  | cons e E ih =>
    refine List.forall_mem_cons.2 ⟨h.1, ?_⟩
    cases E with
    | nil => simp
    | cons e' E =>
      rw [List.dropLast_cons_of_ne_nil (List.cons_ne_nil _ _)] at hE
      obtain ⟨h0, hE⟩ := List.forall_mem_cons.1 hE
      have hrest := ih h.2 hE
      rwa [h0, Nat.add_zero] at hrest

/-- A parsed field is armed again by a reset. -/
theorem Parsed.reset {s : FieldSpec} {S : ℕ} {bs : List UInt8} {f : ProtoInfo}
    (h : Parsed s S bs f) (hfix : s.index = none → bs.length = s.len.toNat) :
    Armed s S (resetField f) := by
  have hlen : s.index = none → f.len = s.len := fun hi =>
    UInt16.toNat_inj.1 (h.len.trans (hfix hi))
  unfold resetField
  rcases Bool.eq_false_or_eq_true f.vlenthFlagBak with hb | hb
  · rw [if_pos hb]
    exact { toStatic := ⟨h.bytePos, h.bitPos, h.lenUnit, h.vlenthIndex, h.vlenthFlagBak⟩
            vlenthFlag := hb.symm.trans h.vlenthFlagBak
            len := hlen
            bufOk := h.bufOk }
  · rw [if_neg (by rw [hb]; decide)]
    exact { toStatic := h.toStatic
            vlenthFlag := h.vlenthFlag.trans (hb.symm.trans h.vlenthFlagBak)
            len := hlen
            bufOk := h.bufOk }

section Rested

variable {specs : List FieldSpec} {i : Init specs} {pa : ProtocolAnalyzer}

theorem Init.rested (i : Init specs) : Rested i i.analyzer where
  paListHeadP := i.paListHeadP_analyzer
  hmap := rfl
  length_protocolData := by rw [i.protocolData_analyzer, List.length_replicate]
  armed := i.armed

/-- Storing bytes in the buffer keeps an analyzer at rest. -/
theorem Rested.store (h : Rested i pa) {dp : List UInt8} (hdp : dp.length = MAX_PROTO_DATA_LEN)
    (len : UInt16) : Rested i { pa with protocolData := dp, protocolDataLen := len } where
  paListHeadP := h.paListHeadP
  hmap := h.hmap
  length_protocolData := hdp
  armed := h.armed

/-- **Parsing with an analyzer at rest gives every field the value of its bytes.** After a reset
the analyzer is at rest again when the message has moved nothing. -/
theorem Rested.parse (h : Rested i pa) (hu : ∀ s ∈ specs, s.lenUnit = 8)
    (hnames : (specs.map FieldSpec.name).Nodup) (hcont : Contiguous 0 specs) (env : Env)
    {msg : List Content} (hmsg : msg.map Prod.fst = specs) (hcons : Consistent [] msg)
    {rest : List UInt8} (hdata : pa.protocolData = wire msg ++ rest)
    (hne : pa.protocolDataLen ≠ 0) :
    ∃ pa', paParseProtocolData env pa = some (0, pa') ∧ pa'.paListHeadP = some i.infos ∧
      pa'.hmap = i.analyzer.hmap ∧
      (i.infos.map fun a => (pa'.info a).value) = (msg.map fun c => decodeValue c.2) ∧
      (i.infos.map fun a => (pa'.info a).len.toNat) = (msg.map fun c => c.2.length) ∧
      (Unmoved msg → Rested i (paResetVlenFlag pa').2) := by
  have hshows : Shows pa.protocolData (blocks 0 msg) := by
    have hs : Shows ([] ++ wire msg ++ rest) (blocks 0 msg) :=
      shows_wire (hmsg ▸ hcont) hcons.length_eq rfl
    rwa [List.nil_append, ← hdata] at hs
  have hdl := h.length_protocolData
  obtain ⟨info', hparse, hat, hval, hlen⟩ := paParse_message hu hnames env hmsg h.paListHeadP h.hmap
    (by rw [hdl]; decide) hne hcons hshows h.armed
  refine ⟨_, hparse, h.paListHeadP, h.hmap, hval, hlen, fun hunm => ?_⟩
  rw [paResetVlenFlag_eq i.nodup_infos
    (show ({ pa with info := info' } : ProtocolAnalyzer).paListHeadP = some i.infos from
      h.paListHeadP)]
  refine ⟨h.paListHeadP, h.hmap, hdl, fun p hp => ?_⟩
  have hsnd := i.map_snd_zip hmsg
  rw [i.fields_eq_map hmsg] at hp
  obtain ⟨e, he, rfl⟩ := List.mem_map.1 hp
  have hparsed := hat.parsed (fun e he => hunm e.2 (by
    rw [← hsnd, ← List.map_dropLast]
    exact List.mem_map_of_mem he)) e he
  have hmem : e.1 ∈ i.infos := (List.of_mem_zip he).1
  dsimp only
  rw [if_pos hmem]
  exact hparsed.reset (hcons.length_eq e.2 (List.of_mem_zip he).2)

/-- A fresh analyzer parses a message that is copied into its buffer. -/
theorem Init.parse_loadMessage (i : Init specs) (hu : ∀ s ∈ specs, s.lenUnit = 8)
    (hnames : (specs.map FieldSpec.name).Nodup) (hcont : Contiguous 0 specs) (env : Env)
    {msg : List Content} (hmsg : msg.map Prod.fst = specs) (hcons : Consistent [] msg)
    {bytes rest : List UInt8} (hwire : bytes = wire msg ++ rest) (hne : bytes ≠ [])
    (hle : bytes.length ≤ MAX_PROTO_DATA_LEN) :
    ∃ pa', (loadMessage bytes i.analyzer).bind (paParseProtocolData env) = some (0, pa') ∧
      pa'.hmap = i.analyzer.hmap ∧
      (i.infos.map fun a => (pa'.info a).value) = (msg.map fun c => decodeValue c.2) ∧
      (i.infos.map fun a => (pa'.info a).len.toNat) = msg.map fun c => c.2.length := by
  have hdl := i.rested.length_protocolData
  have hle' : 0 + bytes.length ≤ i.analyzer.protocolData.length := by rwa [Nat.zero_add, hdl]
  have hlen : UInt16.ofNat bytes.length ≠ 0 := by
    intro h
    have h' := congrArg UInt16.toNat h
    have h0 := List.length_pos_iff.2 hne
    rw [UInt16.toNat_ofNat'] at h'
    simp only [MAX_PROTO_DATA_LEN] at hle
    simp at h'
    omega
  have hdata : blit i.analyzer.protocolData 0 bytes =
      wire msg ++ (rest ++ i.analyzer.protocolData.drop bytes.length) := by
    simp [blit, hwire]
  obtain ⟨pa', hparse, -, hmap, hval, hlens, -⟩ := (i.rested.store ((length_blit hle').trans hdl)
    (UInt16.ofNat bytes.length)).parse hu hnames hcont env hmsg hcons hdata hlen
  rw [loadMessage_eq (by rwa [hdl]), Option.bind_some]
  exact ⟨pa', hparse, hmap, hval, hlens⟩

end Rested

end HpiDriver
