import HpiDriver.ProtoAnalyzer.FindKey
import HpiDriver.ProtoAnalyzer.Loops

/-!
# Histories of an analyzer

The calls that the driver makes on an analyzer between its initialisation and its destruction, in
any order: values and buffers are set, messages are generated, received and parsed, the length
flags are reset. Whatever a call does, it keeps the list of the fields and the hash table, and it
leaves no field with a recorded buffer length that its block does not have (`Keeps`).
-/

namespace HpiDriver

/-- A call on an analyzer, with what it finds undetermined. `receive` is what the driver does
before it parses: it fills `protocol_data`, with the memory behind it, and `protocol_data_len`. -/
inductive AnalyzerCall
  | setValue (key : List UInt8) (value : UInt32) (uninit : ℕ → UInt8)
  | setVariableLengthValue (key : List UInt8) (value : UInt32) (uninit : ℕ → UInt8)
  | setBuf (key data : List UInt8) (uninit : ℕ → UInt8)
  | generate (env : Env)
  | receive (data : List UInt8) (len : UInt16)
  | parse (env : Env)
  | reset

/-- The analyzer after a call. -/
def AnalyzerCall.run : AnalyzerCall → ProtocolAnalyzer → Option ProtocolAnalyzer
  | .setValue key value uninit, pa => (paSetValue key value uninit pa).map Prod.snd
  | .setVariableLengthValue key value uninit, pa =>
    (paSetVariableLengthValue key value uninit pa).map Prod.snd
  | .setBuf key data uninit, pa => (paSetBuf key data uninit pa).map Prod.snd
  | .generate env, pa => (paGenerateProtocolData env pa).map Prod.snd
  | .receive data len, pa => some { pa with protocolData := data, protocolDataLen := len }
  | .parse env, pa => (paParseProtocolData env pa).map Prod.snd
  | .reset, pa => some (paResetVlenFlag pa).2

/-- The analyzer after a history of calls; `none` when one of them leaves its memory. -/
def afterCalls (calls : List AnalyzerCall) (pa : ProtocolAnalyzer) : Option ProtocolAnalyzer :=
  calls.foldlM (fun pa c => c.run pa) pa

/-- What every call keeps. -/
structure ProtocolAnalyzer.Keeps (pa pa' : ProtocolAnalyzer) : Prop where
  hmap : pa'.hmap = pa.hmap
  paListHeadP : pa'.paListHeadP = pa.paListHeadP
  bufOk : ∀ a, (pa.info a).BufOk → (pa'.info a).BufOk

namespace ProtocolAnalyzer.Keeps

variable {pa pa' pa'' : ProtocolAnalyzer}

theorem rfl : pa.Keeps pa := ⟨Eq.refl _, Eq.refl _, fun _ h => h⟩

theorem trans (h : pa.Keeps pa') (h' : pa'.Keeps pa'') : pa.Keeps pa'' where
  hmap := h'.hmap.trans h.hmap
  paListHeadP := h'.paListHeadP.trans h.paListHeadP
  bufOk a ha := h'.bufOk a (h.bufOk a ha)

theorem modify {a : Addr} {g : ProtoInfo → ProtoInfo}
    (hg : (pa.info a).BufOk → (g (pa.info a)).BufOk) : pa.Keeps (pa.modify a g) where
  hmap := Eq.refl _
  paListHeadP := Eq.refl _
  bufOk b hb := by
    by_cases hba : b = a
    · subst hba
      rw [info_modify_self]
      exact hg hb
    · rwa [info_modify_of_ne _ hba]

theorem foldl_modify {g : ProtoInfo → ProtoInfo} (hg : ∀ f, f.BufOk → (g f).BufOk)
    (hl : List Addr) : pa.Keeps (hl.foldl (fun pa pos => pa.modify pos g) pa) := by
  induction hl generalizing pa with
  | nil => exact rfl
  | cons a hl ih => exact (modify (hg _)).trans ih

end ProtocolAnalyzer.Keeps

open ProtocolAnalyzer (Keeps)

section Steps

variable {env : Env} {hl : List Addr} {pa pa' : ProtocolAnalyzer} {f g : ProtoInfo}
  {dp : List UInt8}

/-! ## The loops -/

theorem keeps_paResolveLength {cur : Addr} {rest : List Addr}
    (h : paResolveLength env cur rest pa = some pa') : pa.Keeps pa' := by
  unfold paResolveLength at h
  split_ifs at h
  · obtain ⟨r, hr, h⟩ := Option.bind_eq_some_iff.1 h
    obtain rfl := Option.some.inj h
    obtain ⟨o, -, hr⟩ := Option.bind_eq_some_iff.1 hr
    refine Keeps.trans ?_ (.modify id)
    cases o with
    | none =>
      obtain rfl := Option.some.inj hr
      exact .rfl
    | some find =>
      obtain rfl := Option.some.inj hr
      refine Keeps.trans (.modify ?_) (.foldl_modify ?_ rest)
      · exact fun hok => hok
      · exact fun _ hok => hok
  · obtain rfl := Option.some.inj h
    exact .rfl

theorem keeps_paSetVariableLengthFlag (h : paSetVariableLengthFlag env hl pa = some pa') :
    pa.Keeps pa' := by
  induction hl generalizing pa with
  | nil =>
    obtain rfl := Option.some.inj h
    exact .rfl
  | cons a hl ih =>
    obtain ⟨pa₁, h₁, h⟩ := Option.bind_eq_some_iff.1 h
    refine Keeps.trans ?_ (ih h)
    dsimp only at h₁
    split_ifs at h₁
    · obtain ⟨o, -, h₁⟩ := Option.bind_eq_some_iff.1 h₁
      cases o with
      | none =>
        obtain rfl := Option.some.inj h₁
        exact .rfl
      | some find =>
        obtain rfl := Option.some.inj h₁
        exact .modify id
    · obtain rfl := Option.some.inj h₁
      exact .rfl

theorem keeps_paGenerateLoop {n n' : UInt16} (h : paGenerateLoop env hl pa n = some (pa', n')) :
    pa.Keeps pa' := by
  induction hl generalizing pa n with
  | nil =>
    obtain ⟨rfl, -⟩ := Prod.mk.inj (Option.some.inj h)
    exact .rfl
  | cons a rest ih =>
    obtain ⟨pa₁, hres, h⟩ := Option.bind_eq_some_iff.1 h
    obtain ⟨dp₁, -, h⟩ := Option.bind_eq_some_iff.1 h
    have hdp : pa₁.Keeps { pa₁ with protocolData := dp₁ } := ⟨rfl, rfl, fun _ h => h⟩
    exact ((keeps_paResolveLength hres).trans hdp).trans (ih h)

/-- A field that is read keeps its buffer, or the recorded length is that of the new bytes, which
the block has room for. -/
theorem bufOk_paGetProtocolField (hok : f.BufOk) (h : paGetProtocolField env f dp = some g) :
    g.BufOk := by
  unfold paGetProtocolField at h
  split_ifs at h
  · simp only [paGetProtocolByteData, Option.bind_eq_bind] at h
    obtain ⟨data, -, hg⟩ := Option.bind_eq_some_iff.1 h
    obtain rfl := Option.some.inj hg
    exact hok
  · obtain ⟨bs, block, hbs, rfl, hblock⟩ := paGetProtocolBuf_inv h
    rintro _ ⟨⟩
    change f.len.toNat ≤ block.length
    rw [← length_memcpyFrom hbs]
    exact length_le_of_memcpyTo hblock
  · simp only [paGetProtocolBitData, Option.bind_eq_bind] at h
    obtain ⟨data, -, hg⟩ := Option.bind_eq_some_iff.1 h
    obtain rfl := Option.some.inj hg
    exact hok
  · obtain rfl := Option.some.inj h
    exact hok

theorem keeps_paParseLoop (h : paParseLoop env hl pa = some pa') : pa.Keeps pa' := by
  induction hl generalizing pa with
  | nil =>
    obtain rfl := Option.some.inj h
    exact .rfl
  | cons a rest ih =>
    obtain ⟨pa₁, hres, h⟩ := Option.bind_eq_some_iff.1 h
    obtain ⟨f, hf, h⟩ := Option.bind_eq_some_iff.1 h
    have hread : pa₁.Keeps (pa₁.modify a fun _ => f) :=
      .modify fun hok => bufOk_paGetProtocolField hok hf
    exact ((keeps_paResolveLength hres).trans hread).trans (ih h)

theorem bufOk_setBuf {data : List UInt8} (hok : f.BufOk) (h : setBuf data f = some g) :
    g.BufOk := by
  obtain ⟨len, block, rfl, -, hle⟩ := setBuf_inv h
  rintro _ ⟨⟩
  exact hle hok

/-! ## The calls -/

theorem keeps_paSetValue {key : List UInt8} {value : UInt32} {uninit : ℕ → UInt8}
    {r : ℤ × ProtocolAnalyzer} (h : paSetValue key value uninit pa = some r) : pa.Keeps r.2 := by
  obtain ⟨o, -, h⟩ := Option.bind_eq_some_iff.1 h
  obtain ⟨a, -, h⟩ := Option.bind_eq_some_iff.1 h
  obtain rfl := Option.some.inj h
  refine .modify ?_
  exact fun hok => hok

theorem keeps_paSetVariableLengthValue {key : List UInt8} {value : UInt32} {uninit : ℕ → UInt8}
    {r : ℤ × ProtocolAnalyzer} (h : paSetVariableLengthValue key value uninit pa = some r) :
    pa.Keeps r.2 := by
  obtain ⟨o, -, h⟩ := Option.bind_eq_some_iff.1 h
  cases o with
  | none =>
    obtain rfl := Option.some.inj h
    exact .rfl
  | some a =>
    obtain rfl := Option.some.inj h
    dsimp only
    refine .modify ?_
    exact fun hok => hok

theorem keeps_paSetBuf {key data : List UInt8} {uninit : ℕ → UInt8} {r : ℤ × ProtocolAnalyzer}
    (h : paSetBuf key data uninit pa = some r) : pa.Keeps r.2 := by
  obtain ⟨o, -, h⟩ := Option.bind_eq_some_iff.1 h
  cases o with
  | none =>
    obtain rfl := Option.some.inj h
    exact .rfl
  | some a =>
    obtain ⟨f, hf, h⟩ := Option.bind_eq_some_iff.1 h
    obtain rfl := Option.some.inj h
    dsimp only
    refine .modify ?_
    exact fun hok => bufOk_setBuf hok hf

theorem keeps_paGenerateProtocolData {r : ℤ × ProtocolAnalyzer}
    (h : paGenerateProtocolData env pa = some r) : pa.Keeps r.2 := by
  unfold paGenerateProtocolData at h
  split at h
  · obtain rfl := Option.some.inj h
    exact .rfl
  · obtain ⟨pa₁, hflag, h⟩ := Option.bind_eq_some_iff.1 h
    obtain ⟨⟨pa₂, n⟩, hloop, h⟩ := Option.bind_eq_some_iff.1 h
    obtain rfl := Option.some.inj h
    have hlen : pa₂.Keeps { pa₂ with protocolDataLen := n } := ⟨rfl, rfl, fun _ h => h⟩
    exact ((keeps_paSetVariableLengthFlag hflag).trans (keeps_paGenerateLoop hloop)).trans hlen

theorem keeps_paParseProtocolData {r : ℤ × ProtocolAnalyzer}
    (h : paParseProtocolData env pa = some r) : pa.Keeps r.2 := by
  unfold paParseProtocolData at h
  split at h
  · obtain rfl := Option.some.inj h
    exact .rfl
  · split_ifs at h
    · obtain rfl := Option.some.inj h
      exact .rfl
    · obtain ⟨pa₁, hloop, h⟩ := Option.bind_eq_some_iff.1 h
      obtain rfl := Option.some.inj h
      exact keeps_paParseLoop hloop

theorem keeps_paResetVlenFlag (pa : ProtocolAnalyzer) : pa.Keeps (paResetVlenFlag pa).2 := by
  unfold paResetVlenFlag
  split
  · exact .rfl
  · refine .foldl_modify ?_ _
    intro f hf
    split_ifs
    · exact hf
    · exact hf

/-- **What one call keeps.** -/
theorem AnalyzerCall.keeps_run {c : AnalyzerCall} (h : c.run pa = some pa') : pa.Keeps pa' := by
  cases c with
  | setValue key value uninit =>
    obtain ⟨r, hr, rfl⟩ := Option.map_eq_some_iff.1 h
    exact keeps_paSetValue hr
  | setVariableLengthValue key value uninit =>
    obtain ⟨r, hr, rfl⟩ := Option.map_eq_some_iff.1 h
    exact keeps_paSetVariableLengthValue hr
  | setBuf key data uninit =>
    obtain ⟨r, hr, rfl⟩ := Option.map_eq_some_iff.1 h
    exact keeps_paSetBuf hr
  | generate env =>
    obtain ⟨r, hr, rfl⟩ := Option.map_eq_some_iff.1 h
    exact keeps_paGenerateProtocolData hr
  | receive data len =>
    obtain rfl := Option.some.inj h
    exact ⟨rfl, rfl, fun _ h => h⟩
  | parse env =>
    obtain ⟨r, hr, rfl⟩ := Option.map_eq_some_iff.1 h
    exact keeps_paParseProtocolData hr
  | reset =>
    obtain rfl := Option.some.inj h
    exact keeps_paResetVlenFlag pa

/-- **What a history keeps.** -/
theorem keeps_afterCalls {calls : List AnalyzerCall} (h : afterCalls calls pa = some pa') :
    pa.Keeps pa' := by
  induction calls generalizing pa with
  | nil =>
    obtain rfl := Option.some.inj h
    exact .rfl
  | cons c calls ih =>
    obtain ⟨pa₁, h₁, h⟩ := Option.bind_eq_some_iff.1 h
    exact (AnalyzerCall.keeps_run h₁).trans (ih h)

end Steps

end HpiDriver
