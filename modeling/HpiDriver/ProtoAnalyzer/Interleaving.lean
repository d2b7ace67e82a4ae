import HpiDriver.Foundations.Simulation
import HpiDriver.ProtoAnalyzer.Histories
import HpiDriver.ProtoAnalyzer.Lifetime

/-!
# Analyzers in one memory

The fields of all analyzers are in one memory, and their calls come in any order, as those of the
two analyzers of `do_command_0x301b`. A call reads and writes no field but those of its analyzer
(`AnalyzerCall.run_over`): run in a memory that has something else in the other fields, it does the
same and leaves them as they are. So whatever the order, each analyzer goes through its own calls as
if it were alone (`runShared`).
-/

namespace HpiDriver

open Simulation

/-! ## Other fields -/

/-- The analyzer with its own fields at `hl`, and what `h` has elsewhere. -/
def ProtocolAnalyzer.over (hl : List Addr) (h : Addr → ProtoInfo) (pa : ProtocolAnalyzer) :
    ProtocolAnalyzer := { pa with info := fun a => if a ∈ hl then pa.info a else h a }

section Over

variable {hl : List Addr} {h : Addr → ProtoInfo} {pa pa' : ProtocolAnalyzer} {a : Addr} {env : Env}

theorem info_over_of_mem (ha : a ∈ hl) : (pa.over hl h).info a = pa.info a := if_pos ha

theorem info_over_of_notMem (ha : a ∉ hl) : (pa.over hl h).info a = h a := if_neg ha

theorem over_over : pa.over hl (pa.over hl h).info = pa.over hl h := by
  have hinfo : (pa.over hl (pa.over hl h).info).info = (pa.over hl h).info := by
    ext1 a
    by_cases ha : a ∈ hl
    · rw [info_over_of_mem ha, info_over_of_mem ha]
    · rw [info_over_of_notMem ha]
  exact congrArg (fun info => { pa with info := info }) hinfo

/-- The other fields may change. -/
theorem over_congr {h' : Addr → ProtoInfo} (hinfo : ∀ a ∈ hl, h' a = pa.info a) :
    { pa.over hl h with info := h' } = pa.over hl h' := by
  have heq : h' = (pa.over hl h').info := by
    ext1 a
    by_cases ha : a ∈ hl
    · rw [info_over_of_mem ha, hinfo a ha]
    · rw [info_over_of_notMem ha]
  exact congrArg (fun info => { pa with info := info }) heq

theorem over_modify (ha : a ∈ hl) (g : ProtoInfo → ProtoInfo) :
    (pa.over hl h).modify a g = (pa.modify a g).over hl h := by
  have hinfo : ((pa.over hl h).modify a g).info = ((pa.modify a g).over hl h).info := by
    ext1 b
    by_cases hb : b = a
    · subst hb
      rw [info_over_of_mem ha, ProtocolAnalyzer.info_modify_self,
        ProtocolAnalyzer.info_modify_self, info_over_of_mem ha]
    · rw [ProtocolAnalyzer.info_modify_of_ne _ hb]
      by_cases hmem : b ∈ hl
      · rw [info_over_of_mem hmem, info_over_of_mem hmem, ProtocolAnalyzer.info_modify_of_ne _ hb]
      · rw [info_over_of_notMem hmem, info_over_of_notMem hmem]
  exact congrArg (fun info => { pa with info := info }) hinfo

theorem over_foldl_modify {rest : List Addr} (hrest : ∀ a ∈ rest, a ∈ hl)
    (g : ProtoInfo → ProtoInfo) :
    rest.foldl (fun pa pos => pa.modify pos g) (pa.over hl h) =
      (rest.foldl (fun pa pos => pa.modify pos g) pa).over hl h := by
  induction rest generalizing pa with
  | nil => rfl
  | cons a rest ih =>
    obtain ⟨ha, hrest⟩ := List.forall_mem_cons.1 hrest
    rw [List.foldl_cons, List.foldl_cons, over_modify ha, ih hrest]

/-- A lookup looks at no field. -/
theorem paFindKey_over (key : List UInt8) (uninit : ℕ → UInt8) :
    paFindKey key uninit (pa.over hl h) = paFindKey key uninit pa := rfl

/-- The lookups in this hash table find fields at `hl` only. -/
def FindsIn (hl : List Addr) (hmap : Option HashMap) : Prop :=
  ∀ pa : ProtocolAnalyzer, pa.hmap = hmap → ∀ key uninit a,
    paFindKey key uninit pa = some (some a) → a ∈ hl

/-- What is done with the result of a lookup matters for fields at `hl` only. -/
theorem FindsIn.bind_congr {hmap : Option HashMap} (hfind : FindsIn hl hmap)
    (hm : pa.hmap = hmap) {β : Type} {key : List UInt8} {uninit : ℕ → UInt8}
    {f g : Option Addr → Option β} (hnone : f none = g none)
    (hsome : ∀ a ∈ hl, f (some a) = g (some a)) :
    (paFindKey key uninit pa).bind f = (paFindKey key uninit pa).bind g := by
  refine Option.bind_congr fun o hkey => ?_
  cases o with
  | none => exact hnone
  | some a => exact hsome a (hfind pa hm _ _ _ hkey)

/-- The hash table of an analyzer finds its fields. -/
theorem Init.findsIn {specs : List FieldSpec} (i : Init specs) :
    FindsIn i.infos i.analyzer.hmap := by
  intro pa hm key uninit a hkey
  rw [i.paFindKey_eq hm] at hkey
  exact i.mem_of_tableFind (Option.some.inj hkey)

variable {hmap : Option HashMap}

/-! ## The steps of the loops -/

theorem paResolveLength_over (hfind : FindsIn hl hmap) (hm : pa.hmap = hmap) {cur : Addr}
    {rest : List Addr} (hcur : cur ∈ hl) (hrest : ∀ a ∈ rest, a ∈ hl) :
    paResolveLength env cur rest (pa.over hl h) =
      (paResolveLength env cur rest pa).map (·.over hl h) := by
  unfold paResolveLength paRecomputeBytePos
  rw [info_over_of_mem hcur, paFindKey_over]
  split_ifs
  · simp only [Option.bind_eq_bind, Option.bind_assoc, Option.map_bind]
    refine hfind.bind_congr hm (congrArg some (over_modify hcur _)) fun find hmem => ?_
    simp only [Function.comp_apply, Option.bind_some, Option.map_some]
    rw [info_over_of_mem hmem, over_modify hcur, over_foldl_modify hrest, over_modify hcur]
  · rfl

theorem paSetVariableLengthFlag_over (hfind : FindsIn hl hmap) (hm : pa.hmap = hmap)
    {rest : List Addr} (hrest : ∀ a ∈ rest, a ∈ hl) :
    paSetVariableLengthFlag env rest (pa.over hl h) =
      (paSetVariableLengthFlag env rest pa).map (·.over hl h) := by
  unfold paSetVariableLengthFlag
  induction rest generalizing pa with
  | nil => rfl
  | cons a rest ih =>
    obtain ⟨ha, hrest⟩ := List.forall_mem_cons.1 hrest
    rw [List.foldlM_cons, List.foldlM_cons, info_over_of_mem ha, paFindKey_over]
    split_ifs
    · simp only [Option.bind_eq_bind, Option.bind_assoc, Option.map_bind]
      refine hfind.bind_congr hm (ih hm hrest) fun find hmem => ?_
      simp only [Function.comp_apply, Option.bind_some]
      rw [over_modify hmem]
      exact ih hm hrest
    · exact ih hm hrest

theorem paGenerateLoop_over (hfind : FindsIn hl hmap) (hm : pa.hmap = hmap) {rest : List Addr}
    (hrest : ∀ a ∈ rest, a ∈ hl) {n : UInt16} :
    paGenerateLoop env rest (pa.over hl h) n =
      (paGenerateLoop env rest pa n).map fun r => (r.1.over hl h, r.2) := by
  induction rest generalizing pa n with
  | nil => rfl
  | cons a rest ih =>
    obtain ⟨ha, hrest⟩ := List.forall_mem_cons.1 hrest
    rw [paGenerateLoop, paGenerateLoop, paResolveLength_over hfind hm ha hrest,
      info_over_of_mem ha]
    cases hres : paResolveLength env a rest pa with
    | none => rfl
    | some pa₁ =>
      have hm₁ : pa₁.hmap = hmap := (keeps_paResolveLength hres).hmap.trans hm
      simp only [Option.bind_eq_bind, Option.map_some, Option.bind_some]
      rw [info_over_of_mem ha]
      change Option.bind (paSetProtocolField env (pa₁.info a) _ pa₁.protocolData) _ = _
      cases paSetProtocolField env (pa₁.info a) (pa.info a).bytePos pa₁.protocolData with
      | none => rfl
      | some dp =>
        have hm₂ : ({ pa₁ with protocolData := dp } : ProtocolAnalyzer).hmap = hmap := hm₁
        exact ih hm₂ hrest

theorem paParseLoop_over (hfind : FindsIn hl hmap) (hm : pa.hmap = hmap) {rest : List Addr}
    (hrest : ∀ a ∈ rest, a ∈ hl) :
    paParseLoop env rest (pa.over hl h) = (paParseLoop env rest pa).map (·.over hl h) := by
  induction rest generalizing pa with
  | nil => rfl
  | cons a rest ih =>
    obtain ⟨ha, hrest⟩ := List.forall_mem_cons.1 hrest
    rw [paParseLoop, paParseLoop, paResolveLength_over hfind hm ha hrest]
    cases hres : paResolveLength env a rest pa with
    | none => rfl
    | some pa₁ =>
      have hm₁ : pa₁.hmap = hmap := (keeps_paResolveLength hres).hmap.trans hm
      simp only [Option.bind_eq_bind, Option.map_some, Option.bind_some]
      rw [info_over_of_mem ha]
      change Option.bind (paGetProtocolField env (pa₁.info a) pa₁.protocolData) _ = _
      cases paGetProtocolField env (pa₁.info a) pa₁.protocolData with
      | none => rfl
      | some f =>
        simp only [Option.bind_some]
        rw [over_modify ha]
        exact ih hm₁ hrest

/-! ## The calls -/

/-- **A call concerns the fields of its analyzer only.** -/
theorem AnalyzerCall.run_over (c : AnalyzerCall) (hfind : FindsIn hl pa.hmap)
    (hhl : pa.paListHeadP = some hl) :
    c.run (pa.over hl h) = (c.run pa).map (·.over hl h) := by
  have hself : ∀ a ∈ hl, a ∈ hl := fun _ ha => ha
  have hhl' : (pa.over hl h).paListHeadP = some hl := hhl
  cases c with
  | setValue key value uninit =>
    simp only [AnalyzerCall.run, paSetValue, paFindKey_over, Option.bind_eq_bind, Option.map_bind]
    exact hfind.bind_congr rfl rfl fun a ha => congrArg some (over_modify ha _)
  | setVariableLengthValue key value uninit =>
    simp only [AnalyzerCall.run, paSetVariableLengthValue, paFindKey_over, Option.bind_eq_bind,
      Option.map_bind]
    refine hfind.bind_congr rfl rfl fun a ha => ?_
    simp only [Function.comp_apply, Option.map_some]
    rw [over_modify ha]
  | setBuf key data uninit =>
    simp only [AnalyzerCall.run, paSetBuf, paFindKey_over, Option.bind_eq_bind, Option.map_bind]
    refine hfind.bind_congr rfl rfl fun a ha => ?_
    simp only [Function.comp_apply]
    rw [info_over_of_mem ha]
    cases HpiDriver.setBuf data (pa.info a) with
    | none => rfl
    | some f =>
      simp only [Option.bind_some, Option.map_some]
      rw [over_modify ha]
  | generate env =>
    simp only [AnalyzerCall.run, paGenerateProtocolData, hhl, hhl']
    rw [paSetVariableLengthFlag_over hfind rfl hself]
    cases hflag : paSetVariableLengthFlag env hl pa with
    | none => rfl
    | some pa₁ =>
      have hm₁ : pa₁.hmap = pa.hmap := (keeps_paSetVariableLengthFlag hflag).hmap
      simp only [Option.bind_eq_bind, Option.map_some, Option.bind_some]
      rw [paGenerateLoop_over hfind hm₁ hself]
      cases paGenerateLoop env hl pa₁ env.dataLen <;> rfl
  | receive data len => rfl
  | parse env =>
    simp only [AnalyzerCall.run, paParseProtocolData, hhl, hhl']
    change Option.map _ (if pa.protocolDataLen = 0 then _ else _) = _
    split_ifs
    · rfl
    · rw [paParseLoop_over hfind rfl hself]
      cases paParseLoop env hl pa <;> rfl
  | reset =>
    simp only [AnalyzerCall.run, paResetVlenFlag, hhl, hhl']
    exact congrArg some (over_foldl_modify hself _)

/-- A number is read from a field of its analyzer. -/
theorem paGetValue_over (hfind : FindsIn hl pa.hmap) (key : List UInt8) (uninit : ℕ → UInt8) :
    paGetValue key uninit (pa.over hl h) = paGetValue key uninit pa := by
  simp only [paGetValue, paFindKey_over, Option.bind_eq_bind]
  refine hfind.bind_congr rfl rfl fun a ha => ?_
  simp only
  rw [info_over_of_mem ha]

end Over

/-! ## Many analyzers -/

/-- Analyzers whose fields are in one memory. -/
structure Shared (κ : Type) where
  info : Addr → ProtoInfo
  analyzer : κ → ProtocolAnalyzer

/-- The analyzer `k` with the memory as it is. -/
def Shared.view {κ : Type} (s : Shared κ) (k : κ) : ProtocolAnalyzer :=
  { s.analyzer k with info := s.info }

section Shared

variable {κ : Type} [DecidableEq κ]

/-- A call to the analyzer `c.1`. -/
def Shared.run (c : κ × AnalyzerCall) (s : Shared κ) : Option (Shared κ) :=
  (c.2.run (s.view c.1)).map fun pa => ⟨pa.info, Function.update s.analyzer c.1 pa⟩

/-- The analyzer behind a call to it. -/
theorem Shared.view_update_self (s : Shared κ) (k : κ) (pa : ProtocolAnalyzer) :
    Shared.view ⟨pa.info, Function.update s.analyzer k pa⟩ k = pa := by
  have hpa : Function.update s.analyzer k pa k = pa := Function.update_self ..
  exact congrArg (fun pa' : ProtocolAnalyzer => { pa' with info := pa.info }) hpa

/-- An analyzer behind a call to another one. -/
theorem Shared.view_update_of_ne (s : Shared κ) {k k' : κ} (hne : k' ≠ k) (pa : ProtocolAnalyzer) :
    Shared.view ⟨pa.info, Function.update s.analyzer k pa⟩ k' =
      { s.view k' with info := pa.info } := by
  have hpa : Function.update s.analyzer k pa k' = s.analyzer k' := Function.update_of_ne hne ..
  exact congrArg (fun pa' : ProtocolAnalyzer => { pa' with info := pa.info }) hpa

/-- A call to the analyzer `c.1`, each with a memory of its own. -/
def runAlone (c : κ × AnalyzerCall) (f : κ → ProtocolAnalyzer) : Option (κ → ProtocolAnalyzer) :=
  (c.2.run (f c.1)).map (Function.update f c.1)

/-- The calls to the analyzer `k`. -/
def ownCalls (k : κ) (calls : List (κ × AnalyzerCall)) : List AnalyzerCall :=
  (calls.filter fun c => c.1 = k).map Prod.snd

/-- The memory has the fields of all analyzers. -/
structure Shared.Agrees (infos : κ → List Addr) (s : Shared κ) (f : κ → ProtocolAnalyzer) :
    Prop where
  view : ∀ k, s.view k = (f k).over (infos k) s.info
  findsIn : ∀ k, FindsIn (infos k) (f k).hmap
  paListHeadP : ∀ k, (f k).paListHeadP = some (infos k)

/-- One call concerns one analyzer. -/
theorem Shared.simulates {infos : κ → List Addr}
    (hdisj : Pairwise fun k k' => (infos k).Disjoint (infos k')) :
    (Refinement.ofPartial Shared.run runAlone).Simulates (Shared.Agrees infos) := by
  intro c s f h hok
  obtain ⟨f', hf'⟩ := Option.isSome_iff_exists.1 hok
  have hnext : (runAlone c f).getD f = f' := by rw [hf', Option.getD_some]
  change ∃ s', Shared.run c s = some s' ∧ Shared.Agrees infos s' ((runAlone c f).getD f)
  obtain ⟨k, c⟩ := c
  obtain ⟨pa, hpa, rfl⟩ := Option.map_eq_some_iff.1 hf'
  rw [hnext]
  have hkeeps := AnalyzerCall.keeps_run hpa
  have hrun : c.run (s.view k) = some (pa.over (infos k) s.info) := by
    rw [h.view k, c.run_over (h.findsIn k) (h.paListHeadP k), hpa, Option.map_some]
  refine ⟨_, congrArg (Option.map _) hrun, fun k' => ?_, fun k' => ?_, fun k' => ?_⟩
  · by_cases hk : k' = k
    · subst hk
      rw [Function.update_self]
      exact (s.view_update_self k' _).trans over_over.symm
    · -- the fields of another analyzer are not among those of `k`
      rw [Function.update_of_ne hk]
      refine (s.view_update_of_ne hk _).trans ?_
      rw [h.view k']
      refine over_congr fun a ha => ?_
      have hinfo : s.info a = (f k').info a :=
        (congrArg (fun pa' => pa'.info a) (h.view k')).trans (info_over_of_mem ha)
      rw [info_over_of_notMem fun hk' => hdisj hk ha hk', hinfo]
  · by_cases hk : k' = k
    · subst hk
      rw [Function.update_self, hkeeps.hmap]
      exact h.findsIn k'
    · rw [Function.update_of_ne hk]
      exact h.findsIn k'
  · by_cases hk : k' = k
    · subst hk
      rw [Function.update_self, hkeeps.paListHeadP]
      exact h.paListHeadP k'
    · rw [Function.update_of_ne hk]
      exact h.paListHeadP k'

/-- When every analyzer goes through its own calls, all of them do. -/
theorem foldlM_runAlone {calls : List (κ × AnalyzerCall)} {f pa : κ → ProtocolAnalyzer}
    (h : ∀ k, afterCalls (ownCalls k calls) (f k) = some (pa k)) :
    calls.foldlM (fun f c => runAlone c f) f = some pa := by
  induction calls generalizing f with
  | nil =>
    have hpa : f = pa := by
      ext1 k
      exact Option.some.inj (h k)
    exact congrArg some hpa
  | cons c calls ih =>
    obtain ⟨k, c⟩ := c
    have hk := h k
    rw [ownCalls, List.filter_cons_of_pos (by simp), List.map_cons] at hk
    obtain ⟨pa₁, h₁, hk⟩ := Option.bind_eq_some_iff.1 hk
    have hrun : runAlone (k, c) f = some (Function.update f k pa₁) :=
      congrArg (Option.map (Function.update f k)) h₁
    rw [List.foldlM_cons, hrun]
    refine ih fun k' => ?_
    by_cases hne : k' = k
    · subst hne
      rw [Function.update_self]
      exact hk
    · have hk' := h k'
      rw [ownCalls, List.filter_cons_of_neg (by simpa using Ne.symm hne)] at hk'
      rw [Function.update_of_ne hne]
      exact hk'

/-- Analyzers with fields of their own. -/
def OwnFields {κ : Type} {specs : κ → List FieldSpec} (i : (k : κ) → Init (specs k)) : Prop :=
  Pairwise fun k k' => (i k).infos.Disjoint (i k').infos

/-- **Any number of analyzers, in any order.** When the memory has the fields of new analyzers, and
each of them can go through its own calls alone, then all of them can, however the calls are
interleaved, and each ends up with the buffer, the length, the fields and the values that it has
alone. -/
theorem runShared {specs : κ → List FieldSpec} (i : (k : κ) → Init (specs k)) (hown : OwnFields i)
    (calls : List (κ × AnalyzerCall)) {s : Shared κ}
    (hs : ∀ k, s.view k = (i k).analyzer.over (i k).infos s.info) {pa : κ → ProtocolAnalyzer}
    (halone : ∀ k, afterCalls (ownCalls k calls) (i k).analyzer = some (pa k)) :
    ∃ s', calls.foldlM (fun s c => Shared.run c s) s = some s' ∧ ∀ k,
      (s'.view k).protocolData = (pa k).protocolData ∧
      (s'.view k).protocolDataLen = (pa k).protocolDataLen ∧
      (∀ a ∈ (i k).infos, (s'.view k).info a = (pa k).info a) ∧
      ∀ key uninit, paGetValue key uninit (s'.view k) = paGetValue key uninit (pa k) := by
  have hagrees : s.Agrees (fun k => (i k).infos) fun k => (i k).analyzer :=
    ⟨hs, fun k => (i k).findsIn, fun k => (i k).paListHeadP_analyzer⟩
  obtain ⟨hok, hafter⟩ : (Refinement.ofPartial Shared.run runAlone).Admissible calls
        (fun k => (i k).analyzer) ∧
      (Refinement.ofPartial Shared.run runAlone).after calls (fun k => (i k).analyzer) = pa :=
    Refinement.admissible_ofPartial (foldlM_runAlone halone)
  obtain ⟨s', hrun, h⟩ := (Shared.simulates hown).run hagrees hok
  rw [hafter] at h
  refine ⟨s', hrun, fun k => ?_⟩
  rw [h.view k]
  exact ⟨rfl, rfl, fun a ha => info_over_of_mem ha, fun key uninit =>
    paGetValue_over (h.findsIn k) key uninit⟩

end Shared

/-! ## Two analyzers -/

/-- Two initialisations for peripheral records, with different blocks. -/
def twoInits : Bool → Init specs3054
  | false => init3054
  | true => .standalone specs3054 [384, 448, 512, 576, 640] [4256, 4288, 4320, 4352, 4384] rfl rfl
      (by decide) (by decide) (by simp)

theorem ownFields_twoInits : OwnFields twoInits := by
  have hnd : ((twoInits false).infos ++ (twoInits true).infos).Nodup := by decide
  have hdisj : (twoInits false).infos.Disjoint (twoInits true).infos := fun a h₁ h₂ =>
    (List.nodup_append.1 hnd).2.2 a h₁ a h₂ rfl
  intro k k' hne
  cases k <;> cases k'
  · exact absurd rfl hne
  · exact hdisj
  · exact hdisj.symm
  · exact absurd rfl hne

/-- The memory with the fields of both. -/
def twoMemory : Shared Bool where
  info a := if a ∈ (twoInits false).infos then (twoInits false).analyzer.info a
    else (twoInits true).analyzer.info a
  analyzer k := (twoInits k).analyzer

theorem view_twoMemory (k : Bool) :
    twoMemory.view k = (twoInits k).analyzer.over (twoInits k).infos twoMemory.info := by
  have hinfo : twoMemory.info =
      ((twoInits k).analyzer.over (twoInits k).infos twoMemory.info).info := by
    ext1 a
    by_cases ha : a ∈ (twoInits k).infos
    · rw [info_over_of_mem ha]
      cases k with
      | false => exact if_pos ha
      | true =>
        have hne : (true : Bool) ≠ false := Bool.noConfusion
        exact if_neg (ownFields_twoInits hne ha)
    · rw [info_over_of_notMem ha]
  exact congrArg (fun info => { (twoInits k).analyzer with info := info }) hinfo

/-- Both analyzers are given the values of a record, in turns, and generate it. -/
def twoCalls : List (Bool × AnalyzerCall) :=
  [(false, .setValue PROTO_NUM 0x3054 fun _ => 0), (true, .setValue PROTO_NUM 0x3054 fun _ => 0),
    (true, .setValue NO_NAME1 8 fun _ => 0), (false, .setValue NO_NAME1 7 fun _ => 0),
    (false, .generate ⟨true, fun _ _ => 0, fun _ _ => 0, 0⟩),
    (true, .generate ⟨true, fun _ _ => 0, fun _ _ => 0, 0⟩)]

theorem isSome_twoCalls : ∀ k, (afterCalls (ownCalls k twoCalls) (twoInits k).analyzer).isSome := by
  intro k
  cases k <;> decide +kernel

/-- Each buffer has the record of its analyzer. -/
theorem runShared_twoCalls :
    ∃ s', twoCalls.foldlM (fun s c => Shared.run c s) twoMemory = some s' ∧
      (s'.view false).protocolData.take 3 = [0x30, 0x54, 7] ∧
      (s'.view true).protocolData.take 3 = [0x30, 0x54, 8] := by
  obtain ⟨s', hrun, hview⟩ := runShared twoInits ownFields_twoInits twoCalls view_twoMemory
    fun k => (Option.some_get (isSome_twoCalls k)).symm
  refine ⟨s', hrun, ?_, ?_⟩
  · rw [(hview false).1]
    decide +kernel
  · rw [(hview true).1]
    decide +kernel

end HpiDriver
