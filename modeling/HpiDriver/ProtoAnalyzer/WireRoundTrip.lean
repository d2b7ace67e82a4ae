import HpiDriver.ProtoAnalyzer.Reparse

/-!
# Encoding undoes decoding

For a format of byte fields without gaps a message is the bytes of its fields one after another.
One fresh analyzer parses it, the values of its fields are copied into another one, and generating
there makes the same bytes again (`paGenerate_paParse`): the places of the fields tile the message
(`blitAll_blocks`).
-/

namespace HpiDriver

open Blocks BigEndian

/-! ## Blocks without gaps -/

section Blocks

variable {msg : List Content} {pos S : ℕ}

/-- The blocks of a message of a format without gaps make up its wire form. -/
theorem blitAll_blocks {dp : List UInt8} (hc : Contiguous pos (msg.map Prod.fst))
    (hfix : ∀ c ∈ msg, c.1.index = none → c.2.length = c.1.len.toNat)
    (hle : pos + S + (wire msg).length ≤ dp.length) :
    blitAll dp (blocks S msg) = blit dp (pos + S) (wire msg) := by
  induction msg generalizing pos S dp with
  | nil => simp [blitAll, blocks, wire]
  | cons c msg ih =>
    obtain ⟨hpos, hvar, hc⟩ := hc
    obtain ⟨hlen, hfix⟩ := List.forall_mem_cons.1 hfix
    rw [wire_cons, List.length_append] at hle
    have hle' : pos + S + c.2.length ≤ dp.length := by omega
    have hstep : blitAll dp (blocks S (c :: msg)) =
        blitAll (blit dp (pos + S) c.2) (blocks (S + varLen c) msg) := by
      rw [← hpos]
      rfl
    rw [hstep, ih hc hfix (by rw [length_blit hle', next_place hvar hlen]; omega),
      next_place hvar hlen, wire_cons, blit_blit (by omega)]

/-- A message ends where its bytes do. -/
theorem messageEnd_eq (hne : msg ≠ []) (hc : Contiguous 0 (msg.map Prod.fst))
    (hfix : ∀ c ∈ msg, c.1.index = none → c.2.length = c.1.len.toNat) :
    messageEnd msg = (wire msg).length := by
  have key : ∀ {msg : List Content} {pos S : ℕ}, msg ≠ [] → Contiguous pos (msg.map Prod.fst) →
      (∀ c ∈ msg, c.1.index = none → c.2.length = c.1.len.toNat) →
      ∃ w, (blocks S msg).getLast? = some w ∧ w.1 + w.2.length = pos + S + (wire msg).length := by
    intro msg
    induction msg with
    | nil => exact fun h => absurd rfl h
    | cons c msg ih =>
      intro pos S _ hc hfix
      obtain ⟨hpos, hvar, hc⟩ := hc
      obtain ⟨hlen, hfix⟩ := List.forall_mem_cons.1 hfix
      cases msg with
      | nil => exact ⟨_, rfl, by simp [wire, blocks, hpos]⟩
      | cons e msg =>
        obtain ⟨w, hw, hwl⟩ := ih (List.cons_ne_nil _ _) hc hfix (S := S + varLen c)
        refine ⟨w, ?_, ?_⟩
        · rw [blocks, blocks, List.getLast?_cons_cons, ← blocks]
          exact hw
        · rw [hwl, next_place hvar hlen, wire_cons c, List.length_append]
          omega
  obtain ⟨w, hw, hwl⟩ := key hne hc hfix (S := 0)
  rw [messageEnd, hw]
  simpa using hwl

end Blocks

/-! ## Values and their bytes -/

theorem toNat_beValue {bs : List UInt8} (h : bs.length ≤ 4) :
    (UInt32.ofNat (beValue bs)).toNat = beValue bs := by
  have hlt := (beValue_lt bs).trans_le (Nat.pow_le_pow_right (by decide) h)
  rw [UInt32.toNat_ofNat']
  exact Nat.mod_eq_of_lt hlt

/-- The value of a field fits the number of its bytes. -/
theorem fits_decodeValue (bs : List UInt8) : (decodeValue bs).Fits bs.length := by
  unfold decodeValue
  split_ifs with h
  · refine ⟨h, ?_⟩
    rw [toNat_beValue h]
    exact beValue_lt bs
  · exact ⟨by omega, rfl⟩

/-- It stands for these bytes. -/
theorem bytes_decodeValue (bs : List UInt8) : (decodeValue bs).bytes bs.length = bs := by
  unfold decodeValue
  split_ifs with h
  · rw [FieldValue.bytes, toNat_beValue h, beBytes_beValue]
  · rfl

/-! ## The round trip -/

/-- **Encoding undoes decoding.** When the fields of a format without gaps make up a message of at
most 100 bytes, the values that one fresh analyzer parses from it and the length of the message are
what another one needs to generate exactly its bytes. -/
theorem paGenerate_paParse {specs : List FieldSpec} (hf : ByteFormat specs)
    (hcont : Contiguous 0 specs) {msg : List Content} (hmsg : msg.map Prod.fst = specs)
    (hcons : Consistent [] msg) (hpos : 1 ≤ (wire msg).length)
    (hmax : (wire msg).length ≤ MAX_PROTO_DATA_LEN) (i j : Init specs) (env env' : Env) :
    ∃ pa₀ pa₁ pa₂ pa₃, loadMessage (wire msg) i.analyzer = some pa₀ ∧
      paParseProtocolData env pa₀ = some (0, pa₁) ∧
      assign (j.infos.zip (i.infos.map fun a => (pa₁.info a).value)) j.analyzer = some pa₂ ∧
      paGenerateProtocolData env' pa₂ = some (0, pa₃) ∧
      pa₃.protocolDataLen.toNat = (wire msg).length ∧
      pa₃.protocolData.take pa₃.protocolDataLen.toNat = wire msg := by
  have hne : wire msg ≠ [] := List.ne_nil_of_length_pos hpos
  have hmsgne : msg ≠ [] := by
    rintro rfl
    exact hne rfl
  have hfix := hcons.length_eq
  have hload : loadMessage (wire msg) i.analyzer = _ :=
    loadMessage_eq (by rwa [i.rested.length_protocolData])
  obtain ⟨pa₁, hparse, -, hval, -⟩ := i.parse_loadMessage hf.lenUnit hf.nodup_name hcont env hmsg
    hcons (List.append_nil _).symm hne hmax
  rw [hload, Option.bind_some] at hparse
  have hvals : (msg.map fun c => (c.1, decodeValue c.2)).map Prod.fst = specs := by
    rw [List.map_map, ← hmsg]
    rfl
  have hsnd : (msg.map fun c => (c.1, decodeValue c.2)).map Prod.snd =
      i.infos.map fun a => (pa₁.info a).value := by
    rw [hval, List.map_map]
    rfl
  obtain ⟨info₂, hassign, hgiven⟩ := j.assign_eq hvals j.analyzer j.bufOk
  rw [hsnd] at hassign
  have hzip : j.infos.zip (msg.map fun c => (c.1, decodeValue c.2)) =
      (j.infos.zip msg).map fun e => (e.1, e.2.1, decodeValue e.2.2) := List.zip_map_right
  rw [hzip] at hgiven
  have harm : ∀ p ∈ j.fields, Armed p.2 0 (info₂ p.1) := by
    intro p hp
    have hp' := hp
    rw [j.fields_eq_map hmsg] at hp'
    obtain ⟨e, he, rfl⟩ := List.mem_map.1 hp'
    obtain ⟨hg, hok, -⟩ := hgiven _ (List.mem_map_of_mem he)
    exact (j.armed _ hp).of_value hg hok
  have hwire : ∀ e ∈ j.infos.zip msg, Wire (info₂ e.1) e.2.2 := by
    intro e he
    have hg := (fits_decodeValue e.2.2).wire (hgiven _ (List.mem_map_of_mem he)).2.2
    rwa [bytes_decodeValue] at hg
  -- the blocks that the second analyzer generates tile the message
  have hshows : Shows (wire msg) (blocks 0 msg) := by
    have hs : Shows ([] ++ wire msg ++ []) (blocks 0 msg) := shows_wire (hmsg ▸ hcont) hfix rfl
    rwa [List.nil_append, List.append_nil] at hs
  have hle : ∀ w ∈ blocks 0 msg, w.1 + w.2.length ≤ MAX_PROTO_DATA_LEN :=
    fun w hw => (hshows w hw).1.trans hmax
  obtain ⟨info₃, len, hgen, hlen⟩ := paGenerate_message (i := j) hf.lenUnit hf.bitPos
    hf.nodup_name env' hmsg hmsgne (show ({ j.analyzer with info := info₂ } :
      ProtocolAnalyzer).paListHeadP = some j.infos from j.paListHeadP_analyzer) rfl
    (by simp [MAX_PROTO_DATA_LEN]) hcons (by simpa using hle) harm hwire
  rw [messageEnd_eq hmsgne (hmsg ▸ hcont) hfix] at hlen
  dsimp only [Init.protocolData_analyzer] at hgen
  refine ⟨_, pa₁, _, _, hload, hparse, hassign, hgen, hlen, ?_⟩
  dsimp only
  rw [hlen, blitAll_blocks (hmsg ▸ hcont) hfix
    (by simpa using hmax)]
  simp [blit]

/-- A peripheral record with five bytes of data. -/
def record3054 : List Content :=
  specs3054.zip [[0x30, 0x54], [7], [1], [5], [1, 2, 3, 4, 5]]

/-- The record is decoded and encoded again. -/
theorem paGenerate_paParse_record3054 :
    ∃ pa₀ pa₁ pa₂ pa₃, loadMessage (wire record3054) init3054.analyzer = some pa₀ ∧
      paParseProtocolData ⟨true, fun _ _ => 0, fun _ _ => 0, 0⟩ pa₀ = some (0, pa₁) ∧
      assign (init3054.infos.zip (init3054.infos.map fun a => (pa₁.info a).value))
        init3054.analyzer = some pa₂ ∧
      paGenerateProtocolData ⟨true, fun _ _ => 0, fun _ _ => 0, 0⟩ pa₂ = some (0, pa₃) ∧
      pa₃.protocolDataLen.toNat = (wire record3054).length ∧
      pa₃.protocolData.take pa₃.protocolDataLen.toNat = wire record3054 :=
  paGenerate_paParse (byteFormat_drvFormats specs3054 (by simp)) (by decide +kernel)
    (show record3054.map Prod.fst = specs3054 from rfl)
    ⟨rfl, rfl, rfl, rfl, ⟨by decide, _, List.mem_of_getElem? (i := 3) rfl, rfl, by decide,
      by decide⟩, trivial⟩ (by decide) (by decide) init3054 init3054 _ _

end HpiDriver
