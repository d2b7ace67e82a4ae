import HpiDriver.ProtoAnalyzer.Histories
import HpiDriver.ProtoAnalyzer.RoundTrip

/-!
# The buffers of the fields

`pa_set_buf` and `pa_get_protocol_buf` share one block for each field. Both compare a length of
their own with the recorded one, of 16 bits, and copy into the block when it fits, else into a new
one. The recorded length may be less than the size of the block, never more, so no copy is longer
than the block it goes to (`copies_fit`).
-/

namespace HpiDriver

/-- A copy into the buffer of a field: the size that the block was allocated with and the number of
bytes that are copied. -/
structure BufCopy where
  size : ℕ
  copied : ℕ
  deriving DecidableEq

/-- The copy that `pa_set_buf` makes for the field it has found. -/
def setBufCopy (data : List UInt8) (f : ProtoInfo) : BufCopy :=
  match f.buf.dataP with
  | none => ⟨data.length, data.length⟩
  | some block =>
    if data.length ≤ f.buf.len.toNat then ⟨block.length, data.length⟩
    else ⟨data.length, data.length⟩

/-- The copies of a call of `pa_set_buf`. -/
def setBufCopies (key data : List UInt8) (uninit : ℕ → UInt8) (pa : ProtocolAnalyzer) :
    List BufCopy :=
  match paFindKey key uninit pa with
  | some (some a) => [setBufCopy data (pa.info a)]
  | _ => []

/-- The copy that `pa_get_protocol_buf` makes. -/
def getBufCopy (f : ProtoInfo) : BufCopy :=
  match f.buf.dataP with
  | none => ⟨f.len.toNat, f.len.toNat⟩
  | some block =>
    if f.len ≤ f.buf.len then ⟨block.length, f.len.toNat⟩ else ⟨f.len.toNat, f.len.toNat⟩

/-- The copies into buffers that reading a field makes. -/
def fieldCopies (f : ProtoInfo) : List BufCopy :=
  if f.lenUnit = 8 then if f.len ≤ 4 then [] else [getBufCopy f] else []

/-- The copies into buffers that the loop of `pa_parse_protocol_data` makes. -/
def parseLoopCopies (env : Env) : List Addr → ProtocolAnalyzer → List BufCopy
  | [], _ => []
  | pos :: rest, pa =>
    match paResolveLength env pos rest pa with
    | none => []
    | some pa =>
      fieldCopies (pa.info pos) ++
        match paGetProtocolField env (pa.info pos) pa.protocolData with
        | none => []
        | some f => parseLoopCopies env rest (pa.modify pos fun _ => f)

/-- The copies into buffers that a call of `pa_parse_protocol_data` makes. -/
def parseCopies (env : Env) (pa : ProtocolAnalyzer) : List BufCopy :=
  match pa.paListHeadP with
  | none => []
  | some hl => if pa.protocolDataLen = 0 then [] else parseLoopCopies env hl pa

/-- The copy stays within its block. -/
def BufCopy.Fits (c : BufCopy) : Prop := c.copied ≤ c.size

/-! ## One copy -/

section Copies

variable {f : ProtoInfo} {env : Env} {pa : ProtocolAnalyzer}

theorem ProtoInfo.BufOk.setBufCopy_fits (hok : f.BufOk) (data : List UInt8) :
    (setBufCopy data f).Fits := by
  unfold setBufCopy
  cases hb : f.buf.dataP with
  | none => exact le_refl data.length
  | some block =>
    dsimp only
    split_ifs with hfit
    · exact hfit.trans (hok block hb)
    · exact le_refl data.length

theorem ProtoInfo.BufOk.getBufCopy_fits (hok : f.BufOk) : (getBufCopy f).Fits := by
  unfold getBufCopy
  cases hb : f.buf.dataP with
  | none => exact le_refl f.len.toNat
  | some block =>
    dsimp only
    split_ifs with hfit
    · exact (UInt16.le_iff_toNat_le.1 hfit).trans (hok block hb)
    · exact le_refl f.len.toNat

theorem ProtoInfo.BufOk.fieldCopies_fit (hok : f.BufOk) : ∀ c ∈ fieldCopies f, c.Fits := by
  unfold fieldCopies
  split_ifs
  · simp
  · simpa using hok.getBufCopy_fits
  · simp

/-! ## One call -/

theorem parseLoopCopies_fit {hl : List Addr} (hok : ∀ a, (pa.info a).BufOk) :
    ∀ c ∈ parseLoopCopies env hl pa, c.Fits := by
  induction hl generalizing pa with
  | nil => simp [parseLoopCopies]
  | cons a rest ih =>
    intro c hc
    unfold parseLoopCopies at hc
    cases hres : paResolveLength env a rest pa with
    | none => simp [hres] at hc
    | some pa₁ =>
      have hok₁ : ∀ b, (pa₁.info b).BufOk := fun b => (keeps_paResolveLength hres).bufOk b (hok b)
      rw [hres] at hc
      rcases List.mem_append.1 hc with hc | hc
      · exact (hok₁ a).fieldCopies_fit c hc
      · cases hf : paGetProtocolField env (pa₁.info a) pa₁.protocolData with
        | none => simp [hf] at hc
        | some f =>
          rw [hf] at hc
          have hread : pa₁.Keeps (pa₁.modify a fun _ => f) :=
            .modify fun h => bufOk_paGetProtocolField h hf
          exact ih (fun b => hread.bufOk b (hok₁ b)) c hc

end Copies

/-- Blocks without a buffer are sound, and so are those that are filled with sound fields. -/
theorem bufOk_foldl_update {l : List (Addr × ProtoInfo)} (hl : ∀ p ∈ l, p.2.BufOk)
    {h : Addr → ProtoInfo} (hh : ∀ a, (h a).BufOk) (a : Addr) :
    (l.foldl (fun h p => Function.update h p.1 p.2) h a).BufOk := by
  induction l generalizing h with
  | nil => exact hh a
  | cons p l ih =>
    obtain ⟨hp, hl⟩ := List.forall_mem_cons.1 hl
    refine ih hl fun b => ?_
    dsimp only
    by_cases hb : b = p.1
    · rwa [hb, Function.update_self]
    · rw [Function.update_of_ne hb]
      exact hh b

theorem Init.bufOk_analyzer {specs : List FieldSpec} (i : Init specs) (a : Addr) :
    (i.analyzer.info a).BufOk := by
  refine bufOk_foldl_update (fun p hp => ?_) (fun _ _ hb => by cases hb) a
  obtain ⟨s, -, hs⟩ := List.mem_map.1 (List.of_mem_zip hp).2
  rw [← hs]
  rintro _ ⟨⟩

/-- **No copy leaves its buffer.** After every history of calls on a fresh analyzer, no field has a
recorded buffer length above the size of its block, the next `pa_set_buf` succeeds for every key
and source and stays within the block it copies to, and so does every copy into a buffer that the
next `pa_parse_protocol_data` makes. -/
theorem copies_fit {specs : List FieldSpec} (i : Init specs) {calls : List AnalyzerCall}
    {pa : ProtocolAnalyzer} (h : afterCalls calls i.analyzer = some pa) :
    (∀ a, (pa.info a).BufOk) ∧
      (∀ key data uninit, (∃ pa', paSetBuf key data uninit pa = some (0, pa')) ∧
        ∀ c ∈ setBufCopies key data uninit pa, c.Fits) ∧
      ∀ env, ∀ c ∈ parseCopies env pa, c.Fits := by
  have hkeeps := keeps_afterCalls h
  have hok : ∀ a, (pa.info a).BufOk := fun a => hkeeps.bufOk a (i.bufOk_analyzer a)
  refine ⟨hok, fun key data uninit => ?_, fun env c hc => ?_⟩
  · have hfind := i.paFindKey_eq hkeeps.hmap key uninit
    simp only [paSetBuf, setBufCopies, hfind, Option.bind_eq_bind, Option.bind_some]
    cases i.tableFind (keyBytes key uninit) with
    | none => exact ⟨⟨pa, rfl⟩, by simp⟩
    | some a =>
      obtain ⟨g, hg⟩ := exists_setBuf (hok a) data
      refine ⟨⟨pa.modify a fun _ => g, ?_⟩, ?_⟩
      · simp only [hg, Option.bind_some]
      · simpa using (hok a).setBufCopy_fits data
  · unfold parseCopies at hc
    split at hc
    · simp at hc
    · split_ifs at hc
      · simp at hc
      · exact parseLoopCopies_fit hok c hc

/-- The data of a record go into the block that was set to eight bytes before. -/
theorem copies_fit_record : ∃ pa,
    afterCalls [.setBuf DC_DATA [1, 2, 3, 4, 5, 6, 7, 8] fun _ => 0,
      .receive ([0x30, 0x54, 7, 1, 5, 1, 2, 3, 4, 5] ++ List.replicate 90 0) 10,
      .parse ⟨true, fun _ _ => 0, fun _ _ => 0, 0⟩, .reset] init3054.analyzer = some pa ∧
    (∀ a, (pa.info a).BufOk) ∧
      (∀ key data uninit, (∃ pa', paSetBuf key data uninit pa = some (0, pa')) ∧
        ∀ c ∈ setBufCopies key data uninit pa, c.Fits) ∧
      ∀ env, ∀ c ∈ parseCopies env pa, c.Fits := by
  have hsome : (afterCalls [.setBuf DC_DATA [1, 2, 3, 4, 5, 6, 7, 8] fun _ => 0,
      .receive ([0x30, 0x54, 7, 1, 5, 1, 2, 3, 4, 5] ++ List.replicate 90 0) 10,
      .parse ⟨true, fun _ _ => 0, fun _ _ => 0, 0⟩, .reset] init3054.analyzer).isSome = true := by
    decide +kernel
  obtain ⟨pa, hpa⟩ := Option.isSome_iff_exists.1 hsome
  exact ⟨pa, hpa, copies_fit init3054 hpa⟩

end HpiDriver
