import HpiDriver.ProtoAnalyzer.Assign
import HpiDriver.ProtoAnalyzer.Message

/-!
# Decoding undoes encoding for byte fields

For a format of byte fields (`ByteFormat`) and values that fit its fields, the values determine
the content of a message (`contents`): a variable-length field is as long as the value of its
length field says. One fresh analyzer generates the message, another one parses it, and the second
ends up with the values and the lengths of the first (`paParse_paGenerate`).
-/

namespace HpiDriver

open Blocks BigEndian

/-! ## Formats and values -/

/-- A variable-length field behind the fields `pre` takes its length from a fixed-length field of
at most four bytes among them. -/
def HasLengthField (pre : List FieldSpec) (s : FieldSpec) : Prop :=
  ∀ n ∈ s.index, s.len = 0 ∧ n.chars.length < 10 ∧
    ∃ t ∈ pre, t.name = n ∧ t.index = none ∧ t.len ≤ 4

instance (pre : List FieldSpec) (s : FieldSpec) : Decidable (HasLengthField pre s) :=
  inferInstanceAs (Decidable (∀ n ∈ s.index, _))

/-- A format of byte fields in ascending order with distinct names, in which every variable-length
field has its length field in front of it. -/
structure ByteFormat (specs : List FieldSpec) : Prop where
  lenUnit : ∀ s ∈ specs, s.lenUnit = 8
  bitPos : ∀ s ∈ specs, s.bitPos = 0
  ascending : specs.Pairwise fun s t => s.bytePos.toNat + s.len.toNat ≤ t.bytePos.toNat
  names : (specs.map fun s => s.name.chars.take 10).Nodup
  vlen : ∀ k : Fin specs.length, HasLengthField (specs.take k) specs[k]

instance (specs : List FieldSpec) : Decidable (ByteFormat specs) :=
  decidable_of_iff ((∀ s ∈ specs, s.lenUnit = 8) ∧ (∀ s ∈ specs, s.bitPos = 0) ∧
      (specs.Pairwise fun s t => s.bytePos.toNat + s.len.toNat ≤ t.bytePos.toNat) ∧
      (specs.map fun s => s.name.chars.take 10).Nodup ∧
      ∀ k : Fin specs.length, HasLengthField (specs.take k) specs[k])
    ⟨fun ⟨h₁, h₂, h₃, h₄, h₅⟩ => ⟨h₁, h₂, h₃, h₄, h₅⟩,
      fun ⟨h₁, h₂, h₃, h₄, h₅⟩ => ⟨h₁, h₂, h₃, h₄, h₅⟩⟩

/-- The formats of the driver are formats of byte fields. -/
theorem byteFormat_drvFormats : ∀ specs ∈ [specs3008, specs3019, specs3050, specs3052, specs3054],
    ByteFormat specs := by
  decide +kernel

/-- The number given to the field with the name `n`. -/
def numberOf (vals : List (FieldSpec × FieldValue)) (n : CName) : ℕ :=
  match vals.find? fun v => v.1.name = n with
  | some (_, .int k) => k.toNat
  | _ => 0

/-- The length of a field: the one of the format or the value of the length field. -/
def effectiveLen (vals : List (FieldSpec × FieldValue)) (s : FieldSpec) : ℕ :=
  match s.index with
  | none => s.len.toNat
  | some n => numberOf vals n

/-- The content of the message with the values. -/
def contents (vals : List (FieldSpec × FieldValue)) : List Content :=
  vals.map fun v => (v.1, v.2.bytes (effectiveLen vals v.1))

/-- The length of the message with the values. -/
def messageLen (vals : List (FieldSpec × FieldValue)) : ℕ := messageEnd (contents vals)

theorem ByteFormat.nodup_name {specs : List FieldSpec} (hf : ByteFormat specs) :
    (specs.map FieldSpec.name).Nodup := by
  refine List.Nodup.of_map (fun n : CName => n.chars.take 10) ?_
  rw [List.map_map]
  exact hf.names

/-! ## The message of an assignment -/

section Contents

variable {specs : List FieldSpec} {vals : List (FieldSpec × FieldValue)}

theorem map_fst_contents (hvals : vals.map Prod.fst = specs) :
    (contents vals).map Prod.fst = specs := by
  rw [contents, List.map_map, ← hvals]
  rfl

/-- With distinct names, the number looked up is the one of the field with the name. -/
theorem numberOf_eq (hnd : (vals.map fun v => v.1.name).Nodup) {s : FieldSpec} {k : UInt32}
    (h : (s, .int k) ∈ vals) : numberOf vals s.name = k.toNat := by
  cases hf : vals.find? fun v => decide (v.1.name = s.name) with
  | none =>
    have := List.find?_eq_none.1 hf _ h
    simp at this
  | some w =>
    have hw : w.1.name = s.name := by simpa using List.find?_some hf
    have hws := List.inj_on_of_nodup_map hnd (List.mem_of_find?_eq_some hf) h hw
    rw [numberOf, hf, hws]

/-- Lengths found in front of each field make a consistent message. -/
theorem Consistent.of_sized {pre msg : List Content}
    (h : ∀ l c post, msg = l ++ c :: post → Sized (pre ++ l) c) : Consistent pre msg := by
  induction msg generalizing pre with
  | nil => trivial
  | cons c msg ih =>
    refine ⟨by simpa using h [] c msg rfl, ih fun l e post hmsg => ?_⟩
    simpa using h (c :: l) e post (by rw [hmsg]; rfl)

theorem consistent_contents (hf : ByteFormat specs) (hvals : vals.map Prod.fst = specs)
    (hfits : ∀ v ∈ vals, v.2.Fits (effectiveLen vals v.1)) : Consistent [] (contents vals) := by
  refine .of_sized fun l c post hmsg => ?_
  have hc : c ∈ contents vals := by simp [hmsg]
  obtain ⟨v, hv, rfl⟩ := List.mem_map.1 hc
  have hlen := (hfits v hv).length_bytes
  simp only [Sized, List.nil_append]
  cases hi : v.1.index with
  | none =>
    exact hlen.trans (by rw [effectiveLen, hi])
  | some n =>
    -- the length field of the format is among the fields in front
    have hspecs : specs = l.map Prod.fst ++ v.1 :: post.map Prod.fst := by
      rw [← map_fst_contents hvals, hmsg, List.map_append]
      rfl
    have hk : l.length < specs.length := by
      rw [hspecs]
      simp
    have hget : specs[l.length] = v.1 := by simp [hspecs]
    have htake : specs.take l.length = l.map Prod.fst := by
      rw [hspecs, List.take_left' (List.length_map _)]
    obtain ⟨-, hn, t, ht, htn, hti, ht4⟩ := hf.vlen ⟨l.length, hk⟩ n (by
      rw [Fin.getElem_fin, hget, hi]
      rfl)
    dsimp only at ht
    rw [htake] at ht
    obtain ⟨e, he, rfl⟩ := List.mem_map.1 ht
    have hec : e ∈ contents vals := hmsg ▸ List.mem_append_left _ he
    obtain ⟨w, hw, rfl⟩ := List.mem_map.1 hec
    -- it holds a number, which is the length
    have hwl : effectiveLen vals w.1 = w.1.len.toNat := by
      simp only [effectiveLen, show w.1.index = none from hti]
    have hw4 : effectiveLen vals w.1 ≤ 4 := by
      rw [hwl]
      exact UInt16.le_iff_toNat_le.1 ht4
    obtain ⟨k, hwk, hbe⟩ := (hfits w hw).eq_int hw4
    refine ⟨hn, _, he, htn, ?_, ?_⟩
    · rw [(hfits w hw).length_bytes]
      exact hw4
    · have hnd : (vals.map fun v => v.1.name).Nodup := by
        have := hf.nodup_name
        rw [← hvals, List.map_map] at this
        exact this
      have hnum := numberOf_eq hnd (s := w.1) (k := k) (hwk ▸ hw)
      have heff : effectiveLen vals v.1 = numberOf vals n := by rw [effectiveLen, hi]
      rw [hbe, hlen, heff, ← hnum, ← htn]

theorem contents_ascending (hf : ByteFormat specs) (hvals : vals.map Prod.fst = specs)
    (hfits : ∀ v ∈ vals, v.2.Fits (effectiveLen vals v.1)) :
    (blocks 0 (contents vals)).Pairwise fun w v => w.1 + w.2.length ≤ v.1 := by
  refine blocks_ascending ?_ (consistent_contents hf hvals hfits).length_eq
  have h := hf.ascending
  rw [← map_fst_contents hvals, List.pairwise_map] at h
  exact h

end Contents

/-! ## Buffers that show a message -/

section Buffers

variable {dp bs : List UInt8} {ws : List (ℕ × List UInt8)}

theorem Shows.take (h : Shows dp ws) {n : ℕ} (hn : ∀ w ∈ ws, w.1 + w.2.length ≤ n)
    (hle : n ≤ dp.length) : Shows (dp.take n) ws := by
  intro w hw
  have := hn w hw
  refine ⟨by rw [List.length_take]; omega, ?_⟩
  rw [take_eq_slice, slice_slice _ this, Nat.zero_add, (h w hw).2]

theorem Shows.blit (h : Shows bs ws) (hle : bs.length ≤ dp.length) :
    Shows (Blocks.blit dp 0 bs) ws := by
  intro w hw
  obtain ⟨hwl, hws⟩ := h w hw
  have hle' : 0 + bs.length ≤ dp.length := by omega
  refine ⟨by rw [length_blit hle']; omega, ?_⟩
  have hsl := congrArg (fun l => slice l w.1 w.2.length) (slice_blit hle')
  rw [slice_slice _ hwl, Nat.zero_add] at hsl
  exact hsl.trans hws

theorem shows_blitAll (hle : ∀ w ∈ ws, w.1 + w.2.length ≤ dp.length)
    (hasc : ws.Pairwise fun w v => w.1 + w.2.length ≤ v.1) : Shows (blitAll dp ws) ws :=
  fun w hw => ⟨by rw [length_blitAll hle]; exact hle w hw,
    slice_blitAll hle (hasc.imp fun h => .inl h) w hw⟩

end Buffers

/-! ## The round trip -/

/-- Giving the fields of a fresh analyzer their values makes them carry the message. -/
theorem assign_contents {specs : List FieldSpec} {vals : List (FieldSpec × FieldValue)}
    (hvals : vals.map Prod.fst = specs) (hfits : ∀ v ∈ vals, v.2.Fits (effectiveLen vals v.1))
    (i : Init specs) :
    ∃ info', assign (i.infos.zip (vals.map Prod.snd)) i.analyzer =
        some { i.analyzer with info := info' } ∧
      (∀ p ∈ i.fields, Armed p.2 0 (info' p.1)) ∧
      ∀ e ∈ i.infos.zip (contents vals), Wire (info' e.1) e.2.2 := by
  have hcontents : i.infos.zip (contents vals) = (i.infos.zip vals).map fun e =>
      (e.1, e.2.1, e.2.2.bytes (effectiveLen vals e.2.1)) := List.zip_map_right
  have hfields := i.fields_eq_map hvals
  obtain ⟨info', hassign, hgiven⟩ := i.assign_eq hvals i.analyzer i.bufOk
  refine ⟨info', hassign, fun p hp => ?_, fun c hc => ?_⟩
  · have hp' := hp
    rw [hfields] at hp'
    obtain ⟨e, he, rfl⟩ := List.mem_map.1 hp'
    obtain ⟨hg, hok, -⟩ := hgiven e he
    exact (i.armed _ hp).of_value hg hok
  · rw [hcontents] at hc
    obtain ⟨e, he, rfl⟩ := List.mem_map.1 hc
    exact (hfits _ (List.of_mem_zip he).2).wire (hgiven e he).2.2

/-- **Decoding undoes encoding.** The values that one fresh analyzer generates a message from, and
the lengths they give to the variable-length fields, are those that another fresh analyzer of the
same format parses from the bytes of the message. -/
theorem paParse_paGenerate {specs : List FieldSpec} (hf : ByteFormat specs)
    {vals : List (FieldSpec × FieldValue)} (hvals : vals.map Prod.fst = specs)
    (hfits : ∀ v ∈ vals, v.2.Fits (effectiveLen vals v.1)) (hpos : 1 ≤ messageLen vals)
    (hmax : messageLen vals ≤ MAX_PROTO_DATA_LEN) (i j : Init specs) (env env' : Env) :
    ∃ pa₀ pa₁ pa₂ pa₃, assign (i.infos.zip (vals.map Prod.snd)) i.analyzer = some pa₀ ∧
      paGenerateProtocolData env pa₀ = some (0, pa₁) ∧
      loadMessage (pa₁.protocolData.take pa₁.protocolDataLen.toNat) j.analyzer = some pa₂ ∧
      paParseProtocolData env' pa₂ = some (0, pa₃) ∧
      (j.infos.map fun a => (pa₃.info a).value) = vals.map Prod.snd ∧
      (j.infos.map fun a => (pa₃.info a).len.toNat) = vals.map fun v => effectiveLen vals v.1 := by
  have hspecs := map_fst_contents hvals
  have hcons := consistent_contents hf hvals hfits
  have hasc := contents_ascending hf hvals hfits
  have hend := le_messageEnd hasc
  have hne : contents vals ≠ [] := by
    intro h
    rw [messageLen, h] at hpos
    exact absurd hpos (by decide)
  have hle : ∀ w ∈ blocks 0 (contents vals), w.1 + w.2.length ≤ MAX_PROTO_DATA_LEN :=
    fun w hw => (hend w hw).trans hmax
  have hmax' : MAX_PROTO_DATA_LEN ≤ 255 := by decide
  obtain ⟨info₀, hassign, harm, hwire⟩ := assign_contents hvals hfits i
  obtain ⟨info₁, len, hgen, hlen⟩ := paGenerate_message (i := i) hf.lenUnit hf.bitPos
    hf.nodup_name env hspecs hne (show ({ i.analyzer with info := info₀ } :
      ProtocolAnalyzer).paListHeadP = some i.infos from i.paListHeadP_analyzer) rfl
    (by simpa using hmax') hcons (by simpa using hle) harm hwire
  dsimp only [Init.protocolData_analyzer] at hgen
  rw [← messageLen] at hlen
  -- the buffer shows the message, and so does the one of the second analyzer
  have hle' : ∀ w ∈ blocks 0 (contents vals), w.1 + w.2.length ≤
      (List.replicate MAX_PROTO_DATA_LEN (0 : UInt8)).length := by simpa using hle
  have hshows := shows_blitAll hle' hasc
  set dp := blitAll (List.replicate MAX_PROTO_DATA_LEN 0) (blocks 0 (contents vals)) with hdp
  have hdpl : dp.length = MAX_PROTO_DATA_LEN := by
    rw [hdp, length_blitAll hle', List.length_replicate]
  have htake : (dp.take len.toNat).length = messageLen vals := by
    rw [List.length_take, hlen, hdpl]
    omega
  have hload : (dp.take len.toNat).length ≤ j.analyzer.protocolData.length := by
    rw [htake, j.protocolData_analyzer, List.length_replicate]
    exact hmax
  have hshows' : Shows (blit j.analyzer.protocolData 0 (dp.take len.toNat))
      (blocks 0 (contents vals)) := by
    refine (hshows.take (fun w hw => ?_) (by omega)).blit hload
    rw [hlen]
    exact hend w hw
  set pa₂ : ProtocolAnalyzer := { j.analyzer with
    protocolData := blit j.analyzer.protocolData 0 (dp.take len.toNat)
    protocolDataLen := UInt16.ofNat (dp.take len.toNat).length } with hpa₂
  have hdl₂ : pa₂.protocolData.length ≤ 255 := by
    rw [hpa₂, length_blit (by rwa [Nat.zero_add]), j.protocolData_analyzer, List.length_replicate]
    exact hmax'
  have hne₂ : pa₂.protocolDataLen ≠ 0 := by
    intro h
    have h' := congrArg UInt16.toNat h
    rw [hpa₂, htake, UInt16.toNat_ofNat', Nat.mod_eq_of_lt (by omega)] at h'
    simp at h'
    omega
  obtain ⟨info₃, hparse, -, hval, hlen₃⟩ := paParse_message (i := j) hf.lenUnit hf.nodup_name env'
    hspecs (show pa₂.paListHeadP = some j.infos from j.paListHeadP_analyzer) rfl hdl₂ hne₂ hcons
    hshows' j.armed
  refine ⟨_, _, _, _, hassign, hgen, loadMessage_eq hload, hparse, hval.trans ?_, hlen₃.trans ?_⟩
  · rw [contents, List.map_map]
    exact List.map_congr_left fun v hv => (hfits v hv).decodeValue_bytes
  · rw [contents, List.map_map]
    exact List.map_congr_left fun v hv => (hfits v hv).length_bytes

/-- An analyzer for `0x3054`. -/
def init3054 : Init specs3054 :=
  .standalone specs3054 [64, 128, 192, 256, 320] [4096, 4128, 4160, 4192, 4224] rfl rfl
    (by decide) (by decide) (by simp)

/-- It with the message `bs` in its buffer, in front of `rest`. -/
def loaded3054 (bs rest : List UInt8) : ProtocolAnalyzer :=
  { init3054.analyzer with protocolData := bs ++ rest, protocolDataLen := UInt16.ofNat bs.length }

/-- The values of a peripheral record with six bytes of data. -/
def vals3054 : List (FieldSpec × FieldValue) :=
  specs3054.zip [.int 0x3054, .int 7, .int 1, .int 6, .buf [1, 2, 3, 4, 5, 6]]

/-- The record survives the round trip. -/
theorem paParse_paGenerate_vals3054 : ∃ pa₀ pa₁ pa₂ pa₃,
    assign (init3054.infos.zip (vals3054.map Prod.snd)) init3054.analyzer = some pa₀ ∧
      paGenerateProtocolData ⟨true, fun _ _ => 0, fun _ _ => 0, 0⟩ pa₀ = some (0, pa₁) ∧
      loadMessage (pa₁.protocolData.take pa₁.protocolDataLen.toNat) init3054.analyzer =
        some pa₂ ∧
      paParseProtocolData ⟨true, fun _ _ => 0, fun _ _ => 0, 0⟩ pa₂ = some (0, pa₃) ∧
      (init3054.infos.map fun a => (pa₃.info a).value) = vals3054.map Prod.snd ∧
      (init3054.infos.map fun a => (pa₃.info a).len.toNat) =
        vals3054.map fun v => effectiveLen vals3054 v.1 :=
  paParse_paGenerate (byteFormat_drvFormats specs3054 (by simp))
    (show vals3054.map Prod.fst = specs3054 from rfl) (by decide +kernel) (by decide +kernel)
    (by decide +kernel) init3054 init3054 _ _

end HpiDriver
