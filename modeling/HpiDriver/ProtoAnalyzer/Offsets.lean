import HpiDriver.ProtoAnalyzer.ReadBounds

/-!
# Where the fields of a message are handled

The places at which the passes of `pa_parse_protocol_data` and `pa_generate_protocol_data` handle
the fields (`parsePlaces`, `generatePlaces`), for formats whose variable-length fields are measured
by one-byte fields in front of them. The lengths themselves are exact, but the offset of a field is
kept in eight bits, so a field is where the format and the lengths say exactly as long as that is
below 256 (`placesExact_iff`).
-/

namespace HpiDriver

open BigEndian Blocks

/-! ## The places of a run -/

/-- The place at which a pass handles its field. -/
structure Place where
  bytePos : UInt8
  len : UInt16
  deriving DecidableEq

/-- The places at which the loop of `pa_parse_protocol_data` reads the fields that it reaches. -/
def parseLoopPlaces (env : Env) : List Addr → ProtocolAnalyzer → List Place
  | [], _ => []
  | pos :: rest, pa =>
    match paResolveLength env pos rest pa with
    | none => []
    | some pa =>
      ⟨(pa.info pos).bytePos, (pa.info pos).len⟩ ::
        match paGetProtocolField env (pa.info pos) pa.protocolData with
        | none => []
        | some f => parseLoopPlaces env rest (pa.modify pos fun _ => f)

/-- The places at which a call of `pa_parse_protocol_data` reads the fields that it reaches. -/
def parsePlaces (env : Env) (pa : ProtocolAnalyzer) : List Place :=
  match pa.paListHeadP with
  | none => []
  | some hl => if pa.protocolDataLen = 0 then [] else parseLoopPlaces env hl pa

/-- The places at which the loop of `pa_generate_protocol_data` writes the fields that it
reaches. -/
def generateLoopPlaces (env : Env) : List Addr → ProtocolAnalyzer → List Place
  | [], _ => []
  | pos :: rest, pa =>
    let bytePos := (pa.info pos).bytePos
    match paResolveLength env pos rest pa with
    | none => []
    | some pa =>
      ⟨bytePos, (pa.info pos).len⟩ ::
        match paSetProtocolField env (pa.info pos) bytePos pa.protocolData with
        | none => []
        | some dp => generateLoopPlaces env rest { pa with protocolData := dp }

/-- The places at which a call of `pa_generate_protocol_data` writes the fields that it reaches. -/
def generatePlaces (env : Env) (pa : ProtocolAnalyzer) : List Place :=
  match pa.paListHeadP with
  | none => []
  | some hl =>
    match paSetVariableLengthFlag env hl pa with
    | none => []
    | some pa => generateLoopPlaces env hl pa

/-- Every field is at its nominal offset plus the lengths of the variable-length fields in front of
it, of which `S` bytes belong to fields before the list. -/
def ExactFrom (S : ℕ) (l : List (FieldSpec × Place)) : Prop :=
  ∀ pre p post, l = pre ++ p :: post → p.2.bytePos.toNat = p.1.bytePos.toNat +
    (S + (pre.map fun q => if q.1.index.isSome then q.2.len.toNat else 0).sum)

/-- The fields that are reached are where the format and the lengths say. -/
def PlacesExact (specs : List FieldSpec) (places : List Place) : Prop :=
  ExactFrom 0 (specs.zip places)

theorem exactFrom_nil (S : ℕ) : ExactFrom S [] := by
  intro pre p post h
  simp at h

theorem exactFrom_cons {S : ℕ} {p : FieldSpec × Place} {l : List (FieldSpec × Place)} :
    ExactFrom S (p :: l) ↔ p.2.bytePos.toNat = p.1.bytePos.toNat + S ∧
      ExactFrom (S + if p.1.index.isSome then p.2.len.toNat else 0) l := by
  constructor
  · refine fun h => ⟨by simpa using h [] p l rfl, fun pre q post hl => ?_⟩
    rw [h (p :: pre) q post (by rw [hl]; rfl), List.map_cons, List.sum_cons, Nat.add_assoc S]
  · rintro ⟨hp, h⟩ pre q post hl
    cases pre with
    | nil =>
      obtain ⟨rfl, rfl⟩ := List.cons.inj hl
      simpa using hp
    | cons r pre =>
      obtain ⟨rfl, rfl⟩ := List.cons.inj hl
      rw [h pre q post rfl, List.map_cons, List.sum_cons, Nat.add_assoc S]

/-! ## The formats -/

/-- A variable-length field between the fields `pre` and `rest` is measured by a one-byte field: the
last one of `pre` with the name of its index, which no field of `rest` has. -/
def Measured (pre rest : List FieldSpec) (s : FieldSpec) : Prop :=
  ∀ n ∈ s.index, n.chars.length < 10 ∧
    (∃ t ∈ pre.reverse.find? fun t => t.name = n, t.index = none ∧ t.len = 1) ∧
      ∀ t ∈ rest, t.name ≠ n

instance (pre rest : List FieldSpec) (s : FieldSpec) : Decidable (Measured pre rest s) :=
  inferInstanceAs (Decidable (∀ n ∈ s.index, _))

/-- A format of byte fields in which every variable-length field is measured by a one-byte field in
front of it. -/
structure LengthFormat (specs : List FieldSpec) : Prop where
  lenUnit : ∀ s ∈ specs, s.lenUnit = 8
  vlen : ∀ k : Fin specs.length, Measured (specs.take k) (specs.drop k) (specs.get k)

instance (specs : List FieldSpec) : Decidable (LengthFormat specs) :=
  decidable_of_iff ((∀ s ∈ specs, s.lenUnit = 8) ∧
      ∀ k : Fin specs.length, Measured (specs.take k) (specs.drop k) (specs.get k))
    ⟨fun ⟨h₁, h₂⟩ => ⟨h₁, h₂⟩, fun ⟨h₁, h₂⟩ => ⟨h₁, h₂⟩⟩

/-- A field with the number that it has when the ones behind it are handled. -/
abbrev Numbered := (Addr × FieldSpec) × ℕ

/-- The length of a field behind the fields `pre`. -/
def lengthIn (pre : List Numbered) (s : FieldSpec) : ℕ :=
  match s.index with
  | none => s.len.toNat
  | some n => ((pre.reverse.find? fun q => q.1.2.name = n).map Prod.snd).getD 0

/-- The offsets of the fields fit a byte, up to the first field that cannot be handled where it is:
`number p pos n` is the number of the field `p` once it is handled with `n` bytes at `pos`. -/
def OffsetsFit (number : Addr × FieldSpec → ℕ → ℕ → Option ℕ) :
    List Numbered → ℕ → List (Addr × FieldSpec) → Prop
  | _, _, [] => True
  | pre, S, p :: fields =>
    p.2.bytePos.toNat + S < 256 ∧
      ∀ m ∈ number p (p.2.bytePos.toNat + S) (lengthIn pre p.2),
        OffsetsFit number (pre ++ [(p, m)])
          (S + if p.2.index.isSome then lengthIn pre p.2 else 0) fields

instance (number : Addr × FieldSpec → ℕ → ℕ → Option ℕ) :
    ∀ (pre : List Numbered) (S : ℕ) (fields : List (Addr × FieldSpec)),
      Decidable (OffsetsFit number pre S fields)
  | _, _, [] => inferInstanceAs (Decidable True)
  | pre, S, p :: fields =>
    haveI : DecidablePred fun m => OffsetsFit number (pre ++ [(p, m)])
        (S + if p.2.index.isSome then lengthIn pre p.2 else 0) fields := fun _ =>
      instDecidableOffsetsFit number _ _ fields
    inferInstanceAs (Decidable (_ ∧ ∀ m ∈ number p _ _,
      OffsetsFit number (pre ++ [(p, m)])
        (S + if p.2.index.isSome then lengthIn pre p.2 else 0) fields))

/-- An initialised analyzer, whose fields may have been given values and whose buffer may have been
filled. -/
structure Loaded {specs : List FieldSpec} (i : Init specs) (pa : ProtocolAnalyzer) : Prop where
  paListHeadP : pa.paListHeadP = some i.infos
  hmap : pa.hmap = i.analyzer.hmap
  armed : ∀ p ∈ i.fields, Armed p.2 0 (pa.info p.1)

/-- The numbers that the length fields were given fit a byte. -/
def LengthsGiven {specs : List FieldSpec} (i : Init specs) (pa : ProtocolAnalyzer) : Prop :=
  ∀ p ∈ i.fields, ∀ s ∈ specs, s.index = some p.2.name → (pa.info p.1).data.toNat < 256

instance {specs : List FieldSpec} (i : Init specs) (pa : ProtocolAnalyzer) :
    Decidable (LengthsGiven i pa) :=
  inferInstanceAs (Decidable (∀ p ∈ i.fields, ∀ s ∈ specs, _))

/-- A fresh analyzer with a message in its buffer. -/
theorem Init.loaded {specs : List FieldSpec} (i : Init specs) (dp : List UInt8) (len : UInt16) :
    Loaded i { i.analyzer with protocolData := dp, protocolDataLen := len } :=
  ⟨i.paListHeadP_analyzer, rfl, i.armed⟩

/-- A fresh analyzer with a message in its buffer, its fields given the number `n`. -/
def Init.given {specs : List FieldSpec} (i : Init specs) (dp : List UInt8) (len : UInt16)
    (n : UInt32) : ProtocolAnalyzer :=
  { i.analyzer with
    protocolData := dp
    protocolDataLen := len
    info := fun a => { i.analyzer.info a with data := n } }

theorem Init.loaded_given {specs : List FieldSpec} (i : Init specs) (dp : List UInt8)
    (len : UInt16) (n : UInt32) : Loaded i (i.given dp len n) where
  paListHeadP := i.paListHeadP_analyzer
  hmap := rfl
  armed := fun p hp =>
    have h := i.armed p hp
    ⟨⟨h.bytePos, h.bitPos, h.lenUnit, h.vlenthIndex, h.vlenthFlagBak⟩, h.vlenthFlag, h.len, h.bufOk⟩

/-! ## The two loops as one -/

/-- The places at which a loop handles the fields that it reaches, when `handle` is what it does
with a field and the buffer. -/
def loopPlaces (env : Env)
    (handle : ProtoInfo → List UInt8 → Option (ProtoInfo × List UInt8)) :
    List Addr → ProtocolAnalyzer → List Place
  | [], _ => []
  | pos :: rest, pa =>
    match paResolveLength env pos rest pa with
    | none => []
    | some pa =>
      ⟨(pa.info pos).bytePos, (pa.info pos).len⟩ ::
        match handle (pa.info pos) pa.protocolData with
        | none => []
        | some r =>
          loopPlaces env handle rest { pa.modify pos fun _ => r.1 with protocolData := r.2 }

section Loops

variable {env : Env} {handle : ProtoInfo → List UInt8 → Option (ProtoInfo × List UInt8)}

theorem loopPlaces_cons {a : Addr} {rest : List Addr} {pa : ProtocolAnalyzer}
    {o : Addr → Option Addr} (hnd : (a :: rest).Nodup) (ho : Finds env.keyStr pa [a] o) :
    loopPlaces env handle (a :: rest) pa =
      ⟨(pa.info a).bytePos, ((pa.info a).resolve (pa.foundData o a)).len⟩ ::
        match handle ((pa.info a).resolve (pa.foundData o a)) pa.protocolData with
        | none => []
        | some r => loopPlaces env handle rest
            { pa.pass a rest r.1 ((pa.info a).shiftBy (pa.foundData o a)) with
              protocolData := r.2 } := by
  simp only [loopPlaces, paResolveLength_eq hnd ho, ProtocolAnalyzer.info_pass_self,
    ProtocolAnalyzer.protocolData_pass, ProtocolAnalyzer.modify_pass, ProtoInfo.bytePos_resolve]

/-- What parsing does with a field. -/
def parseField (env : Env) (f : ProtoInfo) (dp : List UInt8) : Option (ProtoInfo × List UInt8) :=
  (paGetProtocolField env f dp).map fun g => (g, dp)

/-- What generating does with a field. -/
def generateField (env : Env) (f : ProtoInfo) (dp : List UInt8) :
    Option (ProtoInfo × List UInt8) :=
  (paSetProtocolField env f f.bytePos dp).map fun dp => (f, dp)

theorem parseLoopPlaces_eq (hl : List Addr) (pa : ProtocolAnalyzer) :
    parseLoopPlaces env hl pa = loopPlaces env (parseField env) hl pa := by
  induction hl generalizing pa with
  | nil => rfl
  | cons a rest ih =>
    rw [parseLoopPlaces, loopPlaces]
    cases paResolveLength env a rest pa with
    | none => rfl
    | some pa =>
      dsimp only [parseField]
      cases paGetProtocolField env (pa.info a) pa.protocolData with
      | none => rfl
      | some f => exact congrArg _ (ih _)

theorem generateLoopPlaces_eq {hl : List Addr} (hnd : hl.Nodup) (pa : ProtocolAnalyzer) :
    generateLoopPlaces env hl pa = loopPlaces env (generateField env) hl pa := by
  induction hl generalizing pa with
  | nil => rfl
  | cons a rest ih =>
    rw [generateLoopPlaces, loopPlaces]
    cases hresolve : paResolveLength env a rest pa with
    | none => rfl
    | some pa' =>
      -- a pass does not move its own field
      have hpos : (pa'.info a).bytePos = (pa.info a).bytePos := by
        obtain ⟨d, rfl⟩ := paResolveLength_inv hnd hresolve
        rw [ProtocolAnalyzer.info_pass_self, ProtoInfo.bytePos_resolve]
      dsimp only [generateField]
      rw [hpos]
      cases paSetProtocolField env (pa'.info a) (pa.info a).bytePos pa'.protocolData with
      | none => rfl
      | some dp =>
        have hself : pa'.modify a (fun _ => pa'.info a) = pa' := by
          rw [ProtocolAnalyzer.modify, Function.update_eq_self]
        dsimp only [Option.map_some]
        rw [ih (List.nodup_cons.1 hnd).2, hself]

end Loops

/-! ## The lengths that are found -/

section Found

variable {specs : List FieldSpec} {i : Init specs} {pre : List Numbered} {a : Addr}
  {s : FieldSpec} {rest : List (Addr × FieldSpec)}

/-- The field that is reached is none of those in front and none of those behind. -/
theorem split_fields (hfields : pre.map Prod.fst ++ (a, s) :: rest = i.fields) :
    (a, s) ∈ i.fields ∧ (a :: rest.map Prod.fst).Nodup ∧
      ∀ q ∈ pre, q.1.1 ∉ a :: rest.map Prod.fst := by
  have hnd : ((pre.map Prod.fst ++ (a, s) :: rest).map Prod.fst).Nodup := by
    rw [hfields]
    exact i.nodup_fst_fields
  rw [List.map_append, List.map_cons] at hnd
  obtain ⟨-, hnd', hdisj⟩ := List.nodup_append.1 hnd
  refine ⟨?_, hnd', fun q hq h => ?_⟩
  · rw [← hfields]
    simp
  · exact hdisj q.1.1 (List.mem_map_of_mem (List.mem_map_of_mem hq)) _ h rfl

theorem LengthFormat.measured (hf : LengthFormat specs)
    (hfields : pre.map Prod.fst ++ (a, s) :: rest = i.fields) :
    Measured (pre.map fun q => q.1.2) (s :: rest.map Prod.snd) s := by
  have hspecs : specs = (pre.map fun q => q.1.2) ++ s :: rest.map Prod.snd := by
    conv_lhs => rw [← i.map_snd_fields, ← hfields, List.map_append, List.map_map]
    rfl
  have hlen : (pre.map fun q => q.1.2).length < specs.length := by
    rw [hspecs, List.length_append]
    simp
  have h : Measured (specs.take (pre.map fun q => q.1.2).length)
      (specs.drop (pre.map fun q => q.1.2).length) specs[(pre.map fun q => q.1.2).length] :=
    hf.vlen ⟨_, hlen⟩
  have htake : specs.take (pre.map fun q => q.1.2).length = pre.map fun q => q.1.2 := by
    conv_lhs => rw [hspecs]
    exact List.take_left
  have hdrop : specs.drop (pre.map fun q => q.1.2).length = s :: rest.map Prod.snd := by
    conv_lhs => rw [hspecs]
    exact List.drop_left
  have hget : specs[(pre.map fun q => q.1.2).length] = s := by
    have hs : specs[(pre.map fun q => q.1.2).length]? = some s := by
      conv_lhs => rw [hspecs]
      rw [List.getElem?_append_right le_rfl, Nat.sub_self]
      rfl
    exact (List.getElem?_eq_some_iff.1 hs).2
  rwa [htake, hdrop, hget] at h

/-- A lookup finds the field that measures the one it is for. -/
theorem exists_measuring (hm : Measured (pre.map fun q => q.1.2) (s :: rest.map Prod.snd) s)
    (hfields : pre.map Prod.fst ++ (a, s) :: rest = i.fields) {n : CName} (hn : s.index = some n)
    (uninit : ℕ → UInt8) : ∃ q ∈ pre, i.tableFind (keyBytes n.chars uninit) = some q.1.1 ∧
      lengthIn pre s = q.2 ∧ q.1.2.index = none ∧ q.1.2.len = 1 ∧ q.1.2.name = n := by
  obtain ⟨hshort, ⟨t, ht, hti, htl⟩, hrest⟩ := hm n hn
  rw [← List.map_reverse, List.find?_map] at ht
  obtain ⟨q, hq, rfl⟩ := Option.map_eq_some_iff.1 ht
  simp only [Function.comp_def] at hq
  have hname : q.1.2.name = n := by simpa using List.find?_some hq
  refine ⟨q, List.mem_reverse.1 (List.mem_of_find?_eq_some hq), ?_, ?_, hti, htl, hname⟩
  · have hchars : ∀ m : CName, m.array.take 10 = keyBytes n.chars uninit ↔ m = n := fun m =>
      (Init.take_array_eq_keyBytes_iff m n.no_nul hshort uninit).trans
        ⟨fun h => by cases m; cases n; simpa using h, fun h => congrArg CName.chars h⟩
    have hnone : ((a, s) :: rest).reverse.find? (fun p => decide (p.2.name = n)) = none := by
      refine List.find?_eq_none.2 fun p hp => ?_
      have hps : p.2 ∈ s :: rest.map Prod.snd :=
        List.mem_map_of_mem (f := Prod.snd) (List.mem_reverse.1 hp)
      simpa using hrest _ hps
    simp only [Init.tableFind, hchars]
    rw [← hfields, List.reverse_append, List.find?_append, hnone, Option.none_or,
      ← List.map_reverse, List.find?_map]
    simp only [Function.comp_def, hq, Option.map_some]
  · simp only [lengthIn, hn, hq, Option.map_some, Option.getD_some]

/-- A one-byte field in front has the number that was noted for it; the number is one byte if the
field measures another one. -/
def HasNumber (specs : List FieldSpec) (pa : ProtocolAnalyzer) (q : Numbered) : Prop :=
  q.1.2.index = none → q.1.2.len = 1 → (pa.info q.1.1).data.toNat = q.2 ∧
    ((∃ s ∈ specs, s.index = some q.1.2.name) → q.2 < 256)

/-- A pass over other fields leaves the number. -/
theorem HasNumber.pass {pa : ProtocolAnalyzer} {q : Numbered} (h : HasNumber specs pa q)
    {cur : Addr} {others : List Addr} (hq : q.1.1 ∉ cur :: others) (f : ProtoInfo) (S : UInt8)
    (dp : List UInt8) :
    HasNumber specs { pa.pass cur others f S with protocolData := dp } q := by
  have hsame : (pa.pass cur others f S).info q.1.1 = pa.info q.1.1 :=
    ProtocolAnalyzer.info_pass_of_notMem f S hq
  intro hqi hql
  rw [hsame]
  exact h hqi hql

/-- A pass finds the length that the fields in front give. -/
theorem resolve_lengthIn (hf : LengthFormat specs)
    (hfields : pre.map Prod.fst ++ (a, s) :: rest = i.fields) {pa : ProtocolAnalyzer} {S : ℕ}
    (harm : Armed s S (pa.info a)) (hpre : ∀ q ∈ pre, HasNumber specs pa q)
    (keyStr : Addr → ℕ → UInt8) {d : Option UInt32}
    (hd : d = pa.foundData
      (fun b => i.tableFind (keyBytes (cString (pa.info b).vlenthIndex) (keyStr b))) a) :
    ((pa.info a).resolve d).len.toNat = lengthIn pre s ∧
      (pa.info a).shiftBy d = UInt8.ofNat (if s.index.isSome then lengthIn pre s else 0) := by
  have hmem : s ∈ specs := i.snd_mem (split_fields hfields).1
  rw [ProtocolAnalyzer.foundData, harm.vlenthFlag] at hd
  subst hd
  cases hn : s.index with
  | none =>
    simp only [Option.isSome_none, Bool.false_eq_true, if_false, ProtoInfo.shiftBy_none]
    refine ⟨?_, rfl⟩
    rw [lengthIn, hn]
    exact congrArg UInt16.toNat (harm.len hn)
  | some n =>
    obtain ⟨q, hq, hfind, hlen, hqi, hql, hname⟩ :=
      exists_measuring (hf.measured hfields) hfields hn (keyStr a)
    obtain ⟨hdata, hlt⟩ := hpre q hq hqi hql
    have hle : q.2 ≤ 255 := Nat.le_of_lt_succ (hlt ⟨s, hmem, by rw [hn, hname]⟩)
    have hnat : (pa.info q.1.1).data = UInt32.ofNat q.2 := by rw [← hdata, UInt32.ofNat_toNat]
    have hu : (pa.info a).lenUnit = 8 := harm.lenUnit.trans (hf.lenUnit s hmem)
    rw [harm.vlenthIndex, s.vlenthIndex_info hn, hfind]
    simp only [Option.isSome_some, if_true, Option.map_some, hnat, hlen]
    exact ⟨toUInt16_ofNat_toNat hle, shiftBy_ofNat hu hle⟩

end Found

/-! ## A whole run -/

/-- What `handle` does with the fields of `pa₀`, at any place and as long as `D` holds of the
buffer: it fails or leaves the fields with the numbers that `number` says. -/
structure Handles {specs : List FieldSpec} (i : Init specs) (pa₀ : ProtocolAnalyzer)
    (handle : ProtoInfo → List UInt8 → Option (ProtoInfo × List UInt8))
    (number : Addr × FieldSpec → ℕ → ℕ → Option ℕ) (D : List UInt8 → Prop) : Prop where
  step : ∀ p ∈ i.fields, ∀ (g : ProtoInfo) (dp : List UInt8), g.lenUnit = 8 →
    g.bitPos = p.2.bitPos → g.BufOk → g.data = (pa₀.info p.1).data →
    g.buf = (pa₀.info p.1).buf → D dp →
      match number p g.bytePos.toNat g.len.toNat with
      | none => handle g dp = none
      | some m => ∃ r, handle g dp = some r ∧ D r.2 ∧ (g.len = 1 → r.1.data.toNat = m)
  lt : ∀ p ∈ i.fields, ∀ s ∈ specs, s.index = some p.2.name → ∀ pos, ∀ m ∈ number p pos 1, m < 256

section Run

variable {specs : List FieldSpec} {i : Init specs} {pa₀ : ProtocolAnalyzer}
  {handle : ProtoInfo → List UInt8 → Option (ProtoInfo × List UInt8)}
  {number : Addr × FieldSpec → ℕ → ℕ → Option ℕ} {D : List UInt8 → Prop} {env : Env}

/-- **The places of a run.** The fields `pre` have been handled and have moved the others by `S`. -/
theorem exactFrom_loopPlaces_iff (hf : LengthFormat specs) (hh : Handles i pa₀ handle number D)
    {pre : List Numbered} {fields : List (Addr × FieldSpec)}
    (hfields : pre.map Prod.fst ++ fields = i.fields) {pa : ProtocolAnalyzer} {S : ℕ}
    (hmap : pa.hmap = i.analyzer.hmap) (harm : ∀ p ∈ fields, Armed p.2 S (pa.info p.1))
    (hval : ∀ p ∈ fields, (pa.info p.1).data = (pa₀.info p.1).data ∧
      (pa.info p.1).buf = (pa₀.info p.1).buf)
    (hpre : ∀ q ∈ pre, HasNumber specs pa q) (hD : D pa.protocolData) :
    ExactFrom S ((fields.map Prod.snd).zip (loopPlaces env handle (fields.map Prod.fst) pa)) ↔
      OffsetsFit number pre S fields := by
  induction fields generalizing pre pa S with
  | nil => exact iff_of_true (exactFrom_nil S) trivial
  | cons p rest ih =>
    obtain ⟨a, s⟩ := p
    obtain ⟨hmem, hnd, hdisj⟩ := split_fields hfields
    have ha : a ∉ rest.map Prod.fst := (List.nodup_cons.1 hnd).1
    obtain ⟨harm_a, harm⟩ := List.forall_mem_cons.1 harm
    obtain ⟨hval_a, hval⟩ := List.forall_mem_cons.1 hval
    rw [List.map_cons, List.map_cons,
      loopPlaces_cons hnd (i.finds hmap env.keyStr [a]), List.zip_cons_cons, exactFrom_cons,
      OffsetsFit]
    obtain ⟨hlen, hshift⟩ := resolve_lengthIn hf hfields harm_a hpre env.keyStr rfl
    set d := pa.foundData (fun b =>
      i.tableFind (keyBytes (cString (pa.info b).vlenthIndex) (env.keyStr b))) a
    set g := (pa.info a).resolve d with hg
    set n := lengthIn pre s
    dsimp only at harm_a hval_a ⊢
    rw [hlen, hshift]
    by_cases hpos : s.bytePos.toNat + S < 256
    · have hbytes : (pa.info a).bytePos.toNat = s.bytePos.toNat + S := by
        rw [harm_a.bytePos]
        exact toNat_add_ofNat hpos
      rw [hbytes]
      refine and_congr (iff_of_true rfl hpos) ?_
      have hstep := hh.step (a, s) hmem g pa.protocolData
        (harm_a.lenUnit.trans (hf.lenUnit s (i.snd_mem hmem))) harm_a.bitPos harm_a.bufOk hval_a.1
        hval_a.2 hD
      rw [show g.bytePos.toNat = s.bytePos.toNat + S from hbytes, hlen] at hstep
      cases hnumber : number (a, s) (s.bytePos.toNat + S) n with
      | none =>
        -- the run ends here
        rw [hnumber] at hstep
        rw [hstep, List.zip_nil_right]
        exact iff_of_true (exactFrom_nil _) fun m hm => by cases hm
      | some m =>
        rw [hnumber] at hstep
        obtain ⟨r, hr, hDr, hdata⟩ := hstep
        rw [hr]
        simp only [Option.mem_some_iff, forall_eq']
        set n' := if s.index.isSome then n else 0 with hn'
        have hrest : ∀ q ∈ rest, (pa.pass a (rest.map Prod.fst) r.1 (UInt8.ofNat n')).info q.1 =
            (pa.info q.1).shift (UInt8.ofNat n') := fun q hq =>
          ProtocolAnalyzer.info_pass_rest _ _ ha (List.mem_map_of_mem hq)
        refine ih (by simpa using hfields) hmap (fun q hq => ?_) (fun q hq => ?_) (fun q hq => ?_)
          hDr
        · rw [hrest q hq]
          exact (harm q hq).shift n'
        · rw [hrest q hq]
          exact hval q hq
        · rcases List.mem_append.1 hq with hq | hq
          · exact (hpre q hq).pass (hdisj q hq) _ _ _
          · obtain rfl := List.mem_singleton.1 hq
            intro hqi hql
            have hone : n = 1 := by
              have : lengthIn pre s = s.len.toNat := by rw [lengthIn, show s.index = none from hqi]
              exact this.trans (congrArg UInt16.toNat hql)
            rw [hone] at hnumber
            refine ⟨?_, fun ⟨t, ht, hti⟩ => hh.lt _ hmem t ht hti _ m hnumber⟩
            rw [ProtocolAnalyzer.info_pass_self]
            exact hdata (UInt16.toNat_inj.1 (hlen.trans hone))
    · refine iff_of_false (fun h => hpos ?_) fun h => hpos h.1
      rw [← h.1]
      exact UInt8.toNat_lt _

end Run

/-! ## Parsing -/

/-- The number of a field that is parsed from `n` bytes at `pos`, if they belong to the buffer. -/
def parseNumber (dp : List UInt8) (_ : Addr × FieldSpec) (pos n : ℕ) : Option ℕ :=
  if n = 0 ∨ pos + n ≤ dp.length then some (beValue (slice dp pos n)) else none

section Handlers

variable {specs : List FieldSpec} (i : Init specs) (pa : ProtocolAnalyzer) (env : Env)

theorem handles_parseField :
    Handles i pa (parseField env) (parseNumber pa.protocolData) (· = pa.protocolData) where
  step := by
    rintro p - g dp hu - hok - - rfl
    have hsome : (paGetProtocolField env g pa.protocolData).isSome ↔
        g.len.toNat = 0 ∨ g.bytePos.toNat + g.len.toNat ≤ pa.protocolData.length := by
      rw [paGetProtocolField_isSome_iff env hok, forall_fieldReads_iff, ProtoInfo.Within,
        ProtoInfo.byteCount, ProtoInfo.firstByte, if_pos hu, if_pos hu]
      omega
    cases hget : paGetProtocolField env g pa.protocolData with
    | none =>
      rw [hget] at hsome
      rw [parseNumber, if_neg fun h => absurd (hsome.2 h) (by simp), parseField, hget]
      rfl
    | some f =>
      rw [hget] at hsome
      rw [parseNumber, if_pos (hsome.1 rfl), parseField, hget]
      refine ⟨_, rfl, rfl, fun hone => ?_⟩
      have hlen : g.len.toNat = 1 := congrArg UInt16.toNat hone
      have hle : g.bytePos.toNat + 1 ≤ pa.protocolData.length := by
        have := hsome.1 rfl
        omega
      have hlt : beValue (slice pa.protocolData g.bytePos.toNat 1) < 256 ^ 1 := by
        have h := beValue_lt (slice pa.protocolData g.bytePos.toNat 1)
        rwa [length_slice hle] at h
      change f.data.toNat = _
      rw [data_paGetProtocolField hok hget, fieldData, if_pos hu, hlen,
        if_pos (len_le_four_iff.2 (by omega)), UInt32.toNat_ofNat']
      omega
  lt := by
    intro p hp s hs hidx pos m hm
    rw [Option.mem_def, parseNumber] at hm
    by_cases hin : 1 = 0 ∨ pos + 1 ≤ pa.protocolData.length
    · rw [if_pos hin] at hm
      obtain rfl := Option.some.inj hm
      have h := beValue_lt (slice pa.protocolData pos 1)
      rwa [length_slice (hin.resolve_left (by decide))] at h
    · rw [if_neg hin] at hm
      cases hm

/-! ## Generating -/

/-- Writing `n` bytes of the field at `pos` stays within its block and the `size` bytes of the
buffer. -/
def ProtoInfo.Writes (f : ProtoInfo) (size pos n : ℕ) : Prop :=
  if n ≤ 4 then n = 0 ∨ pos + n ≤ size
  else f.bitPos ≠ 0 ∨ ∃ block ∈ f.buf.dataP, n ≤ block.length ∧ pos + n ≤ size

instance (f : ProtoInfo) (size pos n : ℕ) : Decidable (f.Writes size pos n) := by
  unfold ProtoInfo.Writes
  infer_instance

/-- The number of a field that was given one, if its `n` bytes can be written at `pos`. -/
def generateNumber (pa : ProtocolAnalyzer) (p : Addr × FieldSpec) (pos n : ℕ) : Option ℕ :=
  if (pa.info p.1).Writes pa.protocolData.length pos n then some (pa.info p.1).data.toNat else none

/-- Writing a byte field keeps the length of the buffer, and goes through exactly when it stays
within its memory. -/
theorem paSetProtocolField_writes {f : ProtoInfo} (hu : f.lenUnit = 8) (dp : List UInt8) :
    ((paSetProtocolField env f f.bytePos dp).isSome ↔
      f.Writes dp.length f.bytePos.toNat f.len.toNat) ∧
      ∀ dp', paSetProtocolField env f f.bytePos dp = some dp' → dp'.length = dp.length := by
  have hcopy : ∀ bs : List UInt8, (memcpyTo dp f.bytePos.toNat bs).isSome ↔
      bs.length = 0 ∨ f.bytePos.toNat + bs.length ≤ dp.length := by
    intro bs
    rw [memcpyTo, List.length_eq_zero_iff]
    split_ifs with hb hle
    · simp [hb]
    · simp [hle]
    · simp [hb, hle]
  rw [paSetProtocolField, if_pos hu, ProtoInfo.Writes]
  split_ifs with hlen hlen4 hlen4
  · rw [paSetProtocolByteData_eq _ _ hlen4, hcopy, length_beBytes]
    exact ⟨Iff.rfl, fun dp' h => length_memcpyTo h⟩
  · exact absurd (len_le_four_iff.1 hlen) hlen4
  · exact absurd (len_le_four_iff.2 hlen4) hlen
  · rw [paSetProtocolBuf]
    by_cases hb : f.bitPos = 0
    · rw [if_neg (not_not.2 hb), or_iff_right (not_not.2 hb)]
      cases hblock : f.buf.dataP with
      | none => simp
      | some block =>
        simp only [Option.bind_eq_bind, Option.bind_some, Option.mem_some_iff, exists_eq_left']
        rw [memcpyFrom, if_neg (by omega)]
        split_ifs with hle
        · rw [Option.bind_some, hcopy, length_slice hle]
          exact ⟨by omega, fun dp' h => length_memcpyTo h⟩
        · exact ⟨iff_of_false (by simp) fun h => hle (by omega), fun dp' h => by cases h⟩
    · rw [if_pos hb]
      exact ⟨iff_of_true rfl (.inl hb), fun dp' h => by rw [Option.some.inj h]⟩

theorem handles_generateField (hnum : LengthsGiven i pa)
    (hbit : ∀ p ∈ i.fields, (pa.info p.1).bitPos = p.2.bitPos) :
    Handles i pa (generateField env) (generateNumber pa)
      (·.length = pa.protocolData.length) where
  step := by
    rintro p hp g dp hu hb - hdata hbuf hdp
    obtain ⟨hsome, hlen⟩ := paSetProtocolField_writes env hu dp
    have hwrites : (pa.info p.1).Writes pa.protocolData.length g.bytePos.toNat g.len.toNat ↔
        g.Writes dp.length g.bytePos.toNat g.len.toNat := by
      rw [ProtoInfo.Writes, ProtoInfo.Writes, hbit p hp, hb, hbuf, hdp]
    rw [generateNumber, generateField]
    cases hset : paSetProtocolField env g g.bytePos dp with
    | none =>
      rw [hset] at hsome
      rw [if_neg fun h => absurd (hsome.2 (hwrites.1 h)) (by simp)]
      rfl
    | some dp' =>
      rw [hset] at hsome
      rw [if_pos (hwrites.2 (hsome.1 rfl))]
      exact ⟨_, rfl, (hlen dp' hset).trans hdp, fun _ => congrArg UInt32.toNat hdata⟩
  lt := by
    intro p hp s hs hidx pos m hm
    rw [Option.mem_def, generateNumber] at hm
    split_ifs at hm
    obtain rfl := Option.some.inj hm
    exact hnum p hp s hs hidx

end Handlers

/-- A field in front of a run stays one when its length flag is set. -/
theorem Armed.of_core {s : FieldSpec} {S : ℕ} {f g : ProtoInfo} (h : Armed s S f)
    (hg : g.core = f.core) : Armed s S g := by
  have hpi : ∀ {β : Type} (π : ProtoInfo → β), (∀ x, π x.core = π x) → π g = π f :=
    fun π hπ => by rw [← hπ g, hg, hπ f]
  exact
    { bytePos := (hpi ProtoInfo.bytePos fun _ => rfl).trans h.bytePos
      bitPos := (hpi ProtoInfo.bitPos fun _ => rfl).trans h.bitPos
      lenUnit := (hpi ProtoInfo.lenUnit fun _ => rfl).trans h.lenUnit
      vlenthIndex := (hpi ProtoInfo.vlenthIndex fun _ => rfl).trans h.vlenthIndex
      vlenthFlagBak := (hpi ProtoInfo.vlenthFlagBak fun _ => rfl).trans h.vlenthFlagBak
      vlenthFlag := (hpi ProtoInfo.vlenthFlag fun _ => rfl).trans h.vlenthFlag
      len := fun hs => (hpi ProtoInfo.len fun _ => rfl).trans (h.len hs)
      bufOk := by
        have hbuf : g.buf = f.buf := hpi ProtoInfo.buf fun _ => rfl
        intro block hb
        rw [hbuf] at hb ⊢
        exact h.bufOk block hb }

/-! ## Exact offsets -/

/-- The offsets of the fields that parsing reaches fit a byte. -/
def ParseOffsetsFit {specs : List FieldSpec} (i : Init specs) (pa : ProtocolAnalyzer) : Prop :=
  pa.protocolDataLen ≠ 0 → OffsetsFit (parseNumber pa.protocolData) [] 0 i.fields

/-- The offsets of the fields that generating reaches fit a byte. -/
def GenerateOffsetsFit {specs : List FieldSpec} (i : Init specs) (pa : ProtocolAnalyzer) : Prop :=
  OffsetsFit (generateNumber pa) [] 0 i.fields

instance {specs : List FieldSpec} (i : Init specs) (pa : ProtocolAnalyzer) :
    Decidable (ParseOffsetsFit i pa) :=
  inferInstanceAs (Decidable (_ → _))

instance {specs : List FieldSpec} (i : Init specs) (pa : ProtocolAnalyzer) :
    Decidable (GenerateOffsetsFit i pa) :=
  inferInstanceAs (Decidable (OffsetsFit _ _ _ _))

/-- **When the fields of a message are where the format and the lengths say.** For every format
with one-byte length fields, every content of the buffer and all values: in a call of either
function every field that is reached is at its nominal offset plus the lengths of the
variable-length fields in front of it, exactly when these sums are below 256. -/
theorem placesExact_iff {specs : List FieldSpec} (hf : LengthFormat specs) {i : Init specs}
    {pa : ProtocolAnalyzer} (h : Loaded i pa) (env : Env) :
    (PlacesExact specs (parsePlaces env pa) ↔ ParseOffsetsFit i pa) ∧
      (LengthsGiven i pa →
        (PlacesExact specs (generatePlaces env pa) ↔ GenerateOffsetsFit i pa)) := by
  have hfst : i.fields.map Prod.fst = i.infos := i.map_fst_fields
  have hsnd : i.fields.map Prod.snd = specs := i.map_snd_fields
  refine ⟨?_, fun hnum => ?_⟩
  · have hrun : ExactFrom 0 ((i.fields.map Prod.snd).zip
        (loopPlaces env (parseField env) (i.fields.map Prod.fst) pa)) ↔
          OffsetsFit (parseNumber pa.protocolData) [] 0 i.fields :=
      exactFrom_loopPlaces_iff hf (handles_parseField i pa env) rfl h.hmap h.armed
        (fun _ _ => ⟨rfl, rfl⟩) (fun _ hq => by cases hq) rfl
    rw [hfst, hsnd, ← parseLoopPlaces_eq] at hrun
    rw [PlacesExact, parsePlaces, h.paListHeadP, ParseOffsetsFit]
    dsimp only
    split_ifs with hlen
    · rw [List.zip_nil_right]
      exact iff_of_true (exactFrom_nil 0) fun hne => absurd hlen hne
    · exact hrun.trans ⟨fun hr _ => hr, fun hr => hr hlen⟩
  · obtain ⟨info', hflag, hcore⟩ :=
      paSetVariableLengthFlag_eq (i.finds h.hmap env.flagKeyStr i.infos)
    have hrun : ExactFrom 0 ((i.fields.map Prod.snd).zip
        (loopPlaces env (generateField env) (i.fields.map Prod.fst) { pa with info := info' })) ↔
          OffsetsFit (generateNumber pa) [] 0 i.fields :=
      exactFrom_loopPlaces_iff hf
        (handles_generateField i pa env hnum fun p hp => (h.armed p hp).bitPos) rfl h.hmap
        (fun p hp => (h.armed p hp).of_core (hcore p.1))
        (fun p _ => ⟨ProtoInfo.data_of_core (hcore p.1),
          show (info' p.1).core.buf = (pa.info p.1).core.buf from congrArg _ (hcore p.1)⟩)
        (fun _ hq => by cases hq) rfl
    rw [hfst, hsnd, ← generateLoopPlaces_eq i.nodup_infos] at hrun
    rw [PlacesExact, generatePlaces, h.paListHeadP]
    dsimp only
    rw [hflag]
    exact hrun

/-- A record with five bytes of data, received and to be sent. -/
theorem placesExact_record :
    PlacesExact specs3054 (parsePlaces ⟨true, fun _ _ => 0, fun _ _ => 0, 0⟩
        (init3054.given ([0x30, 0x54, 7, 1, 5, 1, 2, 3, 4, 5] ++ List.replicate 90 0) 10 5)) ∧
      PlacesExact specs3054 (generatePlaces ⟨true, fun _ _ => 0, fun _ _ => 0, 0⟩
        (init3054.given ([0x30, 0x54, 7, 1, 5, 1, 2, 3, 4, 5] ++ List.replicate 90 0) 10 5)) := by
  obtain ⟨hparse, hgenerate⟩ := placesExact_iff (by decide +kernel)
    (init3054.loaded_given ([0x30, 0x54, 7, 1, 5, 1, 2, 3, 4, 5] ++ List.replicate 90 0) 10 5)
    ⟨true, fun _ _ => 0, fun _ _ => 0, 0⟩
  exact ⟨hparse.2 (by decide +kernel), (hgenerate (by decide +kernel)).2 (by decide +kernel)⟩

/-- A format with a one-byte field at offset 200 behind a field of `n` bytes. -/
def specsFar : List FieldSpec :=
  [⟨cname "n", 0, 0, 1, 8, none⟩, ⟨cname "v", 1, 0, 0, 8, some (cname "n")⟩,
    ⟨cname "x", 200, 0, 1, 8, none⟩]

/-- An analyzer for the format. -/
def initFar : Init specsFar :=
  .standalone specsFar [64, 128, 192] [4096, 4128, 4160] rfl rfl (by decide) (by decide) (by simp)

/-- A message with 56 bytes in `v`. -/
def loadedFar : ProtocolAnalyzer :=
  { initFar.analyzer with protocolData := 56 :: List.replicate 99 7, protocolDataLen := 100 }

-- with 100 bytes in `v` the read of `v` passes the end of the array: the memory behind it decides
-- whether `x` is reached
example : ParseOffsetsFit initFar { initFar.analyzer with
    protocolData := 100 :: List.replicate 99 7
    protocolDataLen := 100 } := by
  decide +kernel

example : ¬ ParseOffsetsFit initFar { initFar.analyzer with
    protocolData := 100 :: List.replicate 399 7
    protocolDataLen := 100 } := by
  decide +kernel

/-- With 56 bytes in `v` the field `x` is read from byte 0, the length itself. -/
theorem not_placesExact : ¬ ∀ specs : List FieldSpec, LengthFormat specs →
    ∀ (i : Init specs) (pa : ProtocolAnalyzer), Loaded i pa → LengthsGiven i pa →
      pa.protocolData.length = MAX_PROTO_DATA_LEN → ∀ env : Env,
        PlacesExact specs (parsePlaces env pa) ∧ PlacesExact specs (generatePlaces env pa) := by
  intro h
  obtain ⟨hparse, -⟩ := h specsFar (by decide +kernel) initFar loadedFar
    (initFar.loaded _ _) (by decide +kernel) rfl
    ⟨true, fun _ _ => 0, fun _ _ => 0, 0⟩
  have hplaces : parsePlaces ⟨true, fun _ _ => 0, fun _ _ => 0, 0⟩ loadedFar =
      [⟨0, 1⟩, ⟨1, 56⟩, ⟨0, 1⟩] := by decide +kernel
  rw [hplaces] at hparse
  have hx := hparse [_, _] _ [] rfl
  exact absurd hx (by decide)

end HpiDriver
