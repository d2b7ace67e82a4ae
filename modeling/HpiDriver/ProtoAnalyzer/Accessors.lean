import HpiDriver.ProtoAnalyzer.Histories
import HpiDriver.ProtoAnalyzer.RoundTrip

/-!
# Accessors and unknown fields

What `pa_set_value`, `pa_set_variable_length_value`, `pa_set_buf` and `pa_get_value` do with a key
that names no field. The second and the fourth report a failed lookup, `pa_set_buf` only logs it
and `pa_set_value` writes through the `NULL` pointer. A key of ten characters or more may find a
field that it does not name, and without a registered format there is no table to look into
(`failsCleanly_iff`).
-/

namespace HpiDriver

/-- An access to a field by its name. -/
inductive Accessor
  | setValue (value : UInt32)
  | setVariableLengthValue (value : UInt32)
  | setBuf (data : List UInt8)
  | getValue

/-- The result of an access and the analyzer after it. -/
def Accessor.run (key : List UInt8) (uninit : ℕ → UInt8) (pa : ProtocolAnalyzer) :
    Accessor → Option (ℤ × ProtocolAnalyzer)
  | .setValue value => paSetValue key value uninit pa
  | .setVariableLengthValue value => paSetVariableLengthValue key value uninit pa
  | .setBuf data => paSetBuf key data uninit pa
  | .getValue => (paGetValue key uninit pa).map fun value => (value, pa)

/-- The accessors that turn a failed lookup into an error. -/
def Accessor.Reports : Accessor → Prop
  | .setVariableLengthValue _ => True
  | .getValue => True
  | _ => False

/-- The access returns a negative number, touches no `NULL` pointer and changes no field. -/
def FailsCleanly (acc : Accessor) (key : List UInt8) (uninit : ℕ → UInt8)
    (pa : ProtocolAnalyzer) : Prop :=
  ∃ ret pa', acc.run key uninit pa = some (ret, pa') ∧ ret < 0 ∧ pa'.info = pa.info

/-- The key fits the local buffer of `pa_find_key`, or what the buffer holds initially is the start
of no name. -/
def LookupFails (specs : List FieldSpec) (key : List UInt8) (uninit : ℕ → UInt8) : Prop :=
  key.length < 10 ∨ ∀ s ∈ specs, s.name.array.take 10 ≠ (List.range 10).map uninit

/-- No format is registered under the number. -/
def Unregistered (pfs : ProtocolFormatSet) (protoNo : UInt32) : Prop :=
  protoNo < pfs.protoBaseAddr ∨
    ∀ l, pfs.listHeadP2[(protoNo - pfs.protoBaseAddr).toNat]? ≠ some (some l)

/-! ## One access -/

section Access

variable {acc : Accessor} {key : List UInt8} {uninit : ℕ → UInt8} {pa : ProtocolAnalyzer}

/-- The sign of the `int` that `pa_get_value` returns. -/
theorem wrapInt_data_neg_iff (x : UInt32) : wrapInt x.toNat < 0 ↔ 2 ^ 31 ≤ x.toNat := by
  have hx := x.toNat_lt
  rw [wrapInt, Int.bmod_eq_emod]
  split_ifs <;> omega

/-- An access without a table. -/
theorem not_failsCleanly_of_find_none (h : paFindKey key uninit pa = none) :
    ¬ FailsCleanly acc key uninit pa := by
  rintro ⟨ret, pa', hrun, -⟩
  have hnone : acc.run key uninit pa = none := by
    cases acc with
    | setValue value =>
      simp only [Accessor.run, paSetValue, h, Option.bind_eq_bind, Option.bind_none]
    | setVariableLengthValue value =>
      simp only [Accessor.run, paSetVariableLengthValue, h, Option.bind_eq_bind, Option.bind_none]
    | setBuf data => simp only [Accessor.run, paSetBuf, h, Option.bind_eq_bind, Option.bind_none]
    | getValue =>
      simp only [Accessor.run, paGetValue, h, Option.bind_eq_bind, Option.bind_none,
        Option.map_none]
  rw [hnone] at hrun
  cases hrun

/-- A lookup that finds nothing is reported by two of the accessors. -/
theorem failsCleanly_iff_of_notFound (h : paFindKey key uninit pa = some none) :
    FailsCleanly acc key uninit pa ↔ acc.Reports := by
  cases acc with
  | setValue value =>
    refine iff_of_false ?_ id
    rintro ⟨ret, pa', hrun, -⟩
    simp [Accessor.run, paSetValue, h] at hrun
  | setVariableLengthValue value =>
    refine iff_of_true ⟨-1, pa, ?_, by decide, rfl⟩ trivial
    simp [Accessor.run, paSetVariableLengthValue, h]
  | setBuf data =>
    refine iff_of_false ?_ id
    rintro ⟨ret, pa', hrun, hret, -⟩
    simp [Accessor.run, paSetBuf, h] at hrun
    omega
  | getValue =>
    refine iff_of_true ⟨-1, pa, ?_, by decide, rfl⟩ trivial
    simp [Accessor.run, paGetValue, h]

/-- A field that is found is taken for the one that was meant. -/
theorem failsCleanly_iff_of_found {a : Addr} (h : paFindKey key uninit pa = some (some a)) :
    FailsCleanly acc key uninit pa ↔ acc = .getValue ∧ 2 ^ 31 ≤ (pa.info a).data.toNat := by
  cases acc with
  | setValue value =>
    refine iff_of_false ?_ (fun hacc => by cases hacc.1)
    rintro ⟨ret, pa', hrun, hret, -⟩
    simp [Accessor.run, paSetValue, h] at hrun
    omega
  | setVariableLengthValue value =>
    refine iff_of_false ?_ (fun hacc => by cases hacc.1)
    rintro ⟨ret, pa', hrun, hret, -⟩
    simp [Accessor.run, paSetVariableLengthValue, h] at hrun
    omega
  | setBuf data =>
    refine iff_of_false ?_ (fun hacc => by cases hacc.1)
    rintro ⟨ret, pa', hrun, hret, -⟩
    simp only [Accessor.run, paSetBuf, h, Option.bind_eq_bind, Option.bind_some] at hrun
    obtain ⟨f, -, hrun⟩ := Option.bind_eq_some_iff.1 hrun
    obtain ⟨rfl, -⟩ := Prod.mk.inj (Option.some.inj hrun)
    exact absurd hret (by decide)
  | getValue =>
    simp only [FailsCleanly, Accessor.run, paGetValue, h, Option.bind_eq_bind, Option.bind_some,
      Option.map_some, true_and]
    rw [← wrapInt_data_neg_iff]
    constructor
    · rintro ⟨ret, pa', hrun, hret, -⟩
      obtain ⟨rfl, -⟩ := Prod.mk.inj (Option.some.inj hrun)
      exact hret
    · exact fun hneg => ⟨_, pa, rfl, hneg, rfl⟩

end Access

/-! ## Analyzers of registered formats -/

theorem Init.tableFind_eq_none_iff {specs : List FieldSpec} (i : Init specs) (k : List UInt8) :
    i.tableFind k = none ↔ ∀ s ∈ specs, s.name.array.take 10 ≠ k := by
  rw [Init.tableFind, Option.map_eq_none_iff, List.find?_eq_none]
  simp only [List.mem_reverse, decide_eq_true_eq]
  constructor
  · intro h s hs
    obtain ⟨p, hp, rfl⟩ := List.mem_map.1 (i.map_snd_fields ▸ hs)
    exact h p hp
  · exact fun h p hp => h p.2 (i.snd_mem hp)

/-- A key that names no field, looked up in the table of the format. -/
theorem Init.tableFind_keyBytes_eq_none_iff {specs : List FieldSpec} (i : Init specs)
    {key : List UInt8} (h0 : 0 ∉ key) (hkey : ∀ s ∈ specs, s.name.chars ≠ key)
    (uninit : ℕ → UInt8) :
    i.tableFind (keyBytes key uninit) = none ↔ LookupFails specs key uninit := by
  rw [i.tableFind_eq_none_iff, LookupFails]
  by_cases hk : key.length < 10
  · refine iff_of_true (fun s hs htake => ?_) (.inl hk)
    exact hkey s hs ((take_array_eq_keyBytes_iff s.name h0 hk uninit).1 htake)
  · rw [keyBytes, if_neg hk]
    exact ⟨.inr, fun h => h.resolve_left hk⟩

/-! ## Analyzers without a format -/

/-- Initialisation with a number that is not registered leaves no table. -/
theorem hmap_of_unregistered {pfs pfp : ProtocolFormatSet} {protoNo : UInt32}
    (hnum : Unregistered pfp protoNo) {infos nodes : List Addr} {pa : ProtocolAnalyzer}
    (h : paInitProtocolAnalyzer protoNo pfp infos nodes (paCreateProtocolAnalyzer pfs) = some pa) :
    pa.hmap = none := by
  obtain ⟨r, hr, h⟩ := Option.bind_eq_some_iff.1 h
  obtain rfl := Option.some.inj h
  -- no format is found, so nothing is copied and no table is built
  have hlist : r.2.pfListHeadP = none ∧ r.2.paListHeadP = none ∧ r.2.hmap = none := by
    unfold paFindProtocolFormat at hr
    split_ifs at hr with hcheck
    · obtain rfl := Option.some.inj hr
      exact ⟨rfl, rfl, rfl⟩
    · obtain ⟨hl, hget, hr⟩ := Option.bind_eq_some_iff.1 hr
      have hnone : hl = none := by
        rcases hnum with hlt | hnone
        · refine absurd ?_ hcheck
          rw [paCheckProtocolNum, if_pos (.inr hlt)]
          decide
        · cases hl with
          | none => rfl
          | some l => exact absurd hget (hnone l)
      subst hnone
      simp only [if_true] at hr
      obtain rfl := Option.some.inj hr
      exact ⟨rfl, rfl, rfl⟩
  obtain ⟨h₁, h₂, h₃⟩ := hlist
  have hcopy : paCopyProtocolFormat infos r.2 = (-1, r.2) := by
    rw [paCopyProtocolFormat, h₁]
  rw [hcopy, paCreateHashTable]
  simp only [h₂]
  exact h₃

/-! ## Any analyzer -/

/-- **When an access to an unknown field fails cleanly.** On an analyzer of a registered format,
after any history of calls, exactly `pa_set_variable_length_value` and `pa_get_value` do, and they
do when the lookup fails; a field that is found instead makes `pa_get_value` return a negative
number if its value is one. On an analyzer that was initialised with a number that is not
registered, none of the four does. -/
theorem failsCleanly_iff (acc : Accessor) (key : List UInt8) (uninit : ℕ → UInt8) :
    (∀ (specs : List FieldSpec) (i : Init specs) (calls : List AnalyzerCall)
      (pa : ProtocolAnalyzer), afterCalls calls i.analyzer = some pa → 0 ∉ key →
        (∀ s ∈ specs, s.name.chars ≠ key) →
          (FailsCleanly acc key uninit pa ↔
            acc.Reports ∧ LookupFails specs key uninit ∨
              acc = .getValue ∧ ∃ a, i.tableFind (keyBytes key uninit) = some a ∧
                2 ^ 31 ≤ (pa.info a).data.toNat)) ∧
    ∀ (pfs pfp : ProtocolFormatSet) (protoNo : UInt32), Unregistered pfp protoNo →
      ∀ (infos nodes : List Addr) (pa₀ : ProtocolAnalyzer),
        paInitProtocolAnalyzer protoNo pfp infos nodes (paCreateProtocolAnalyzer pfs) = some pa₀ →
      ∀ (calls : List AnalyzerCall) (pa : ProtocolAnalyzer), afterCalls calls pa₀ = some pa →
        ¬ FailsCleanly acc key uninit pa := by
  refine ⟨?_, ?_⟩
  · intro specs i calls pa hcalls h0 hkey
    have hfind := i.paFindKey_eq (keeps_afterCalls hcalls).hmap key uninit
    rw [← i.tableFind_keyBytes_eq_none_iff h0 hkey]
    cases ho : i.tableFind (keyBytes key uninit) with
    | none =>
      rw [ho] at hfind
      rw [failsCleanly_iff_of_notFound hfind]
      simp
    | some a =>
      rw [ho] at hfind
      rw [failsCleanly_iff_of_found hfind]
      simp
  · intro pfs pfp protoNo hnum infos nodes pa₀ hinit calls pa hcalls
    have hmap := (keeps_afterCalls hcalls).hmap.trans (hmap_of_unregistered hnum hinit)
    refine not_failsCleanly_of_find_none ?_
    rw [paFindKey, hmap]
    rfl

/-- Reading a name that `0x3054` does not have fails cleanly. -/
theorem failsCleanly_iff_noSuch :
    FailsCleanly .getValue (str "nosuch") (fun _ => 0) init3054.analyzer ↔
      Accessor.getValue.Reports ∧ LookupFails specs3054 (str "nosuch") (fun _ => 0) ∨
        Accessor.getValue = .getValue ∧
          ∃ a, init3054.tableFind (keyBytes (str "nosuch") fun _ => 0) = some a ∧
            2 ^ 31 ≤ (init3054.analyzer.info a).data.toNat :=
  (failsCleanly_iff .getValue (str "nosuch") fun _ => 0).1 specs3054 init3054 [] _ rfl (by decide)
    (by decide)

/-- Setting it goes through the `NULL` pointer. -/
theorem not_failsCleanly : ¬ ∀ (specs : List FieldSpec) (i : Init specs)
    (calls : List AnalyzerCall) (pa : ProtocolAnalyzer), afterCalls calls i.analyzer = some pa →
      ∀ key : List UInt8, 0 ∉ key → (∀ s ∈ specs, s.name.chars ≠ key) →
        ∀ (uninit : ℕ → UInt8) (acc : Accessor), FailsCleanly acc key uninit pa := by
  intro h
  obtain ⟨ret, pa', hrun, -⟩ := h specs3054 init3054 [] _ rfl (str "nosuch") (by decide) (by decide)
    (fun _ => 0) (.setValue 1)
  have hnone : (paSetValue (str "nosuch") 1 (fun _ => 0) init3054.analyzer).isNone = true := by
    decide +kernel
  exact Bool.noConfusion (hnone.symm.trans (congrArg Option.isNone hrun))

end HpiDriver
