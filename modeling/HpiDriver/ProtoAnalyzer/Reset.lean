import HpiDriver.ProtoAnalyzer.Layout
import HpiDriver.ProtoAnalyzer.RoundTrip

/-!
# When a reset analyzer encodes like a fresh one

`pa_reset_vlen_flag` arms the variable-length fields again and nothing else: the fields stay where
the last message has moved them, and the buffer keeps its bytes. So a second message is encoded
like the first one of a fresh analyzer only if the first message has moved nothing in front of its
last field, and has left no bit behind that shows through (`Settled`, `encodesLikeFresh_iff`). What
the lookups find is part of the condition: an index name of ten bytes or more is looked for with
bytes that were never set.
-/

namespace HpiDriver

open Blocks BitString

/-! ## Prepared fields after a run -/

section Prepared

variable {s : FieldSpec} {S : UInt8} {d : Option UInt32} {f g : ProtoInfo}

theorem Prepared.congr (h : Prepared s S d f) {d' : Option UInt32} (hd : d' = none → d = none) :
    Prepared s S d' f :=
  ⟨h.bytePos, h.bitPos, h.lenUnit, h.vlenthIndex, h.vlenthFlag, h.vlenthFlagBak,
    fun h' => h.len (hd h'), h.bufOk⟩

theorem Prepared.of_value (h : Prepared s S d f)
    (hg : g = { f with data := g.data, buf := g.buf }) (hok : g.BufOk) : Prepared s S d g := by
  rw [hg] at hok ⊢
  exact ⟨h.bytePos, h.bitPos, h.lenUnit, h.vlenthIndex, h.vlenthFlag, h.vlenthFlagBak, h.len, hok⟩

/-- After a run and a reset a field is prepared again, but moved. -/
theorem Prepared.reset (h : Prepared s 0 d f) (hg : g.core = (f.core.shift S).resolve d) :
    Prepared s S d (resetField g) := by
  have hpi : ∀ {β : Type} (π : ProtoInfo → β), (∀ x, π x.core = π x) →
      π g = π ((f.core.shift S).resolve d) := fun π hπ => by rw [← hπ g, hg]
  have hbak : g.vlenthFlagBak = s.index.isSome :=
    (hpi ProtoInfo.vlenthFlagBak fun _ => rfl).trans h.vlenthFlagBak
  have hflag : g.vlenthFlag = false := hpi ProtoInfo.vlenthFlag fun _ => rfl
  have hbuf : g.buf = f.buf := hpi ProtoInfo.buf fun _ => rfl
  have hreset : resetField g = { g with vlenthFlag := s.index.isSome } := by
    unfold resetField
    rcases Bool.eq_false_or_eq_true s.index.isSome with hs | hs
    · rw [if_pos (hbak.trans hs), hs]
    · rw [if_neg (by rw [hbak, hs]; decide), hs]
      exact congrArg (fun b => ({ g with vlenthFlag := b } : ProtoInfo)) hflag
  rw [hreset]
  exact
    { bytePos := (hpi ProtoInfo.bytePos fun _ => rfl).trans (by
        change f.bytePos + S = _
        rw [h.bytePos, UInt8.add_zero])
      bitPos := (hpi ProtoInfo.bitPos fun _ => rfl).trans h.bitPos
      lenUnit := (hpi ProtoInfo.lenUnit fun _ => rfl).trans h.lenUnit
      vlenthIndex := (hpi ProtoInfo.vlenthIndex fun _ => rfl).trans h.vlenthIndex
      vlenthFlag := rfl
      vlenthFlagBak := hbak
      len := by
        intro hd
        have hl : g.len = ((f.core.shift S).resolve d).len := hpi ProtoInfo.len fun _ => rfl
        subst hd
        exact hl.trans (h.len rfl)
      bufOk := by
        intro block hb
        rw [show ({ g with vlenthFlag := s.index.isSome } : ProtoInfo).buf = f.buf from hbuf]
          at hb ⊢
        exact h.bufOk block hb }

/-- A fresh field is prepared. -/
theorem Init.prepared {specs : List FieldSpec} (i : Init specs) {p : Addr × FieldSpec}
    (hp : p ∈ i.fields) (d : Option UInt32) : Prepared p.2 0 d (i.analyzer.info p.1) := by
  rw [i.info_analyzer (s := p.2) hp]
  have h := p.2.armed_info
  exact ⟨(UInt8.add_zero _).symm, rfl, rfl, rfl, rfl, rfl, fun _ => rfl, h.bufOk⟩

end Prepared

/-! ## Encoding -/

/-- Give the fields their values and generate the message. -/
def encode {specs : List FieldSpec} (i : Init specs) (env : Env)
    (vals : List (FieldSpec × FieldValue)) (pa : ProtocolAnalyzer) : Option ProtocolAnalyzer := do
  let pa ← assign (i.infos.zip (vals.map Prod.snd)) pa
  let r ← paGenerateProtocolData env pa
  some r.2

/-- Once the values are given, the length fields have their numbers. -/
def NumbersGiven {specs : List FieldSpec} (i : Init specs) (vals : List (FieldSpec × FieldValue))
    (keys : List Key) (pa : ProtocolAnalyzer) : Prop :=
  ∀ pa₀, assign (i.infos.zip (vals.map Prod.snd)) pa = some pa₀ → NumbersHeld i vals keys pa₀

section Encode

variable {specs : List FieldSpec} {vals : List (FieldSpec × FieldValue)} {i : Init specs}

/-- The values given to prepared fields. -/
theorem assign_prepared (hvals : vals.map Prod.fst = specs) (env : Env) {pa : ProtocolAnalyzer}
    {S : Addr → UInt8} (hprep : ∀ q ∈ i.slots env vals,
      Prepared q.1.2.1.1 (S q.1.1) (lengthData vals q.1.2.2) (pa.info q.1.1)) :
    ∃ info', assign (i.infos.zip (vals.map Prod.snd)) pa = some { pa with info := info' } ∧
      ∀ q ∈ i.slots env vals,
        Prepared q.1.2.1.1 (S q.1.1) (lengthData vals q.1.2.2) (info' q.1.1) ∧
          Given q.1.2.1.2 (info' q.1.1) := by
  have hok : ∀ a ∈ i.infos, (pa.info a).BufOk := by
    intro a ha
    rw [← i.map_addr_slots hvals env] at ha
    obtain ⟨q, hq, rfl⟩ := List.mem_map.1 ha
    exact (hprep q hq).bufOk
  obtain ⟨info', hassign, hgiven⟩ := i.assign_eq hvals pa hok
  refine ⟨info', hassign, fun q hq => ?_⟩
  obtain ⟨e, he, heq⟩ := i.eq_of_mem_slots hvals hq
  obtain ⟨hg, hok, hv⟩ := hgiven e he
  have hp := hprep q hq
  rw [← heq] at hp ⊢
  exact ⟨hp.of_value hg hok, hv⟩

theorem FieldValue.dataAfter_zero (v : FieldValue) : v.dataAfter 0 = v.number := by
  cases v <;> rfl

theorem Init.data_analyzer (hvals : vals.map Prod.fst = specs) {e : Addr × FieldSpec × FieldValue}
    (he : e ∈ i.infos.zip vals) : (i.analyzer.info e.1).data = 0 := by
  have hinfo : i.analyzer.info e.1 = e.2.1.info :=
    i.info_analyzer (i.fields_eq_map hvals ▸ List.mem_map_of_mem he)
  rw [hinfo]
  rfl

/-- On a fresh analyzer a field that was given a block of bytes has the number 0. -/
theorem numbersGiven_analyzer (hvals : vals.map Prod.fst = specs) (keys : List Key) :
    NumbersGiven i vals keys i.analyzer := by
  intro pa₀ h k hk e he hl
  rw [i.data_assign hvals h he, i.data_analyzer hvals he, FieldValue.dataAfter_zero]

/-- **Encoding in place.** From prepared fields that nothing has moved, encoding lays the slots of
the values over the buffer. -/
theorem encode_layout (hf : FieldFormat specs) (hvals : vals.map Prod.fst = specs) (env : Env)
    (hfits : ∀ p ∈ layout vals (i.keys env), p.Fits) {pa : ProtocolAnalyzer}
    (hnum : NumbersGiven i vals (i.keys env) pa) (hhl : pa.paListHeadP = some i.infos)
    (hmap : pa.hmap = i.analyzer.hmap) (hdl : pa.protocolData.length = MAX_PROTO_DATA_LEN)
    (hprep : ∀ q ∈ i.slots env vals,
      Prepared q.1.2.1.1 0 (lengthData vals q.1.2.2) (pa.info q.1.1)) :
    ∃ pa', encode i env vals pa = some pa' ∧ pa'.paListHeadP = some i.infos ∧
      pa'.hmap = i.analyzer.hmap ∧ pa'.protocolData.length = MAX_PROTO_DATA_LEN ∧
      bitAt pa'.protocolData =
        applyAll ((layout vals (i.keys env)).map Slot.layer) (bitAt pa.protocolData) ∧
      (specs ≠ [] → pa'.protocolDataLen.toNat = reportedLen (layout vals (i.keys env))) ∧
      (specs = [] → pa'.protocolDataLen = env.dataLen) ∧
      (∀ q ∈ i.slots env vals, Prepared q.1.2.1.1 (UInt8.ofNat q.2.moved)
        (lengthData vals q.1.2.2) (resetField (pa'.info q.1.1))) ∧
      ∀ e ∈ i.infos.zip vals, (pa'.info e.1).data = e.2.2.dataAfter (pa.info e.1).data := by
  obtain ⟨info₀, hassign, hprep₀⟩ := assign_prepared (S := fun _ => 0) hvals env hprep
  have hhl₀ : ({ pa with info := info₀ } : ProtocolAnalyzer).paListHeadP = some i.infos := hhl
  obtain ⟨info', dp, hgen, hlen, hbits, hat⟩ := generate_layout hf hvals env hfits
    (hnum _ hassign) hhl₀ hmap hdl hprep₀
  refine ⟨{ pa with
    protocolData := dp
    info := info'
    protocolDataLen := dataLenOf (i.infos.map info') env.dataLen }, ?_, hhl, hmap, hlen, hbits,
    fun hne => dataLenOf_layout hf hvals hfits
    (fun q hq => (hat q hq).1) hne _, fun he => ?_, fun q hq =>
      (hprep₀ q hq).1.reset (hat q hq).2, fun e he => ?_⟩
  · simp only [encode, hassign, Option.bind_eq_bind, Option.bind_some, hgen]
  · have hi : i.infos = [] := List.length_eq_zero_iff.1 (by rw [i.length_infos, he]; rfl)
    change dataLenOf (i.infos.map info') env.dataLen = _
    rw [hi]
    rfl
  · -- generating leaves the numbers
    obtain ⟨q, hq, heq⟩ := i.exists_slot_of_mem_zip hvals env he
    have hdata := congrArg ProtoInfo.data (hat q hq).2
    rw [heq] at hdata
    exact (show (info' e.1).data = (info₀ e.1).data from hdata).trans
      (i.data_assign hvals hassign he)

/-- How far the fields in front of the last one move it, as the loop counts it. -/
def movedBytes (vals : List (FieldSpec × FieldValue)) (keys : List Key) : UInt8 :=
  ((vals.zip keys).dropLast.map fun v =>
    ((lengthData vals v.2).map fun d => (d * v.1.1.lenUnit.toUInt32 / 8).toUInt8).getD 0).sum

/-- The fields are placed behind each other. -/
theorem getLast?_place {S : UInt8} {l : List (ProtoInfo × Option UInt32)}
    {p : ProtoInfo × Option UInt32} (h : l.getLast? = some p) :
    (place S l).getLast? =
      some ((p.1.shift (S + (l.dropLast.map fun p => p.1.shiftBy p.2).sum)).resolve p.2) := by
  induction l generalizing S with
  | nil => simp at h
  | cons q l ih =>
    obtain ⟨f, d⟩ := q
    cases l with
    | nil =>
      obtain rfl : (f, d) = p := by simpa using h
      simp [place]
    | cons r l =>
      rw [List.getLast?_cons_cons] at h
      have hne : place (S + f.shiftBy d) (r :: l) ≠ [] := List.cons_ne_nil _ _
      rw [place, List.getLast?_cons_of_ne_nil hne, ih h, List.dropLast_cons_of_ne_nil
        (List.cons_ne_nil r l), List.map_cons, List.sum_cons, UInt8.add_assoc]

/-- **The reported length.** Wherever the fields are, the length that encoding reports counts from
the place of the last one. -/
theorem protocolDataLen_encode (hvals : vals.map Prod.fst = specs) {env : Env}
    {pa pa' : ProtocolAnalyzer} (hnum : NumbersGiven i vals (i.keys env) pa)
    (hhl : pa.paListHeadP = some i.infos) (hmap : pa.hmap = i.analyzer.hmap) {S : Addr → UInt8}
    (hprep : ∀ q ∈ i.slots env vals,
      Prepared q.1.2.1.1 (S q.1.1) (lengthData vals q.1.2.2) (pa.info q.1.1))
    (henc : encode i env vals pa = some pa')
    {q : (Addr × (FieldSpec × FieldValue) × Key) × Slot}
    (hq : (i.slots env vals).getLast? = some q) :
    pa'.protocolDataLen =
      (q.1.2.1.1.bytePos + S q.1.1 + movedBytes vals (i.keys env)).toUInt16 +
        ((lengthData vals q.1.2.2).map UInt32.toUInt16).getD q.1.2.1.1.len := by
  obtain ⟨info₀, hassign, hprep₀⟩ := assign_prepared hvals env hprep
  have hhl₀ : ({ pa with info := info₀ } : ProtocolAnalyzer).paListHeadP = some i.infos := hhl
  obtain ⟨info', h₁, h₂⟩ := generate_place hvals env (hnum _ hassign) hhl₀ hmap
    (holding_of_slots hvals env hprep₀)
  have hlen : pa'.protocolDataLen = dataLenOf (i.infos.map info') env.dataLen := by
    simp only [encode, hassign, Option.bind_eq_bind, Option.bind_some, h₂] at henc
    cases hw : writeFields env (i.infos.map info') pa.protocolData with
    | none => simp [hw] at henc
    | some dp =>
      rw [hw] at henc
      rw [← Option.some.inj henc]
  -- the last field is placed behind the others
  have hl : (i.infos.zip (vals.zip (i.keys env))).map (fun e =>
      ((info₀ e.1).core, lengthData vals e.2.2)) =
        (i.slots env vals).map fun q => ((info₀ q.1.1).core, lengthData vals q.1.2.2) := by
    rw [← i.map_fst_slots hvals env, List.map_map]
    rfl
  have hlast : ((i.slots env vals).map fun q =>
      ((info₀ q.1.1).core, lengthData vals q.1.2.2)).getLast? =
        some ((info₀ q.1.1).core, lengthData vals q.1.2.2) := by
    rw [List.getLast?_map, hq]
    rfl
  have hsum : (((i.slots env vals).map fun q =>
      ((info₀ q.1.1).core, lengthData vals q.1.2.2)).dropLast.map fun p =>
        p.1.shiftBy p.2).sum = movedBytes vals (i.keys env) := by
    rw [movedBytes, ← i.map_val_slots hvals, ← List.map_dropLast, ← List.map_dropLast,
      List.map_map, List.map_map]
    refine congrArg List.sum (List.map_congr_left fun q hq => ?_)
    have hu := (hprep₀ q (List.dropLast_subset _ hq)).1.lenUnit
    simp only [Function.comp_apply, ProtoInfo.shiftBy, ProtoInfo.core, hu]
  have hqp := (hprep₀ q (List.mem_of_getLast? hq)).1
  change (i.infos.map fun a => (info' a).core) = place 0 ((i.infos.zip (vals.zip (i.keys env))).map
    fun e => ((info₀ e.1).core, lengthData vals e.2.2)) at h₁
  rw [hlen, ← dataLenOf_map_core, List.map_map]
  change dataLenOf (i.infos.map fun a => (info' a).core) env.dataLen = _
  rw [h₁, hl, dataLenOf, getLast?_place hlast, hsum]
  change ((info₀ q.1.1).bytePos + (0 + movedBytes vals (i.keys env))).toUInt16 +
    ((lengthData vals q.1.2.2).map UInt32.toUInt16).getD (info₀ q.1.1).len = _
  rw [hqp.bytePos, UInt8.zero_add]
  cases hd : lengthData vals q.1.2.2 with
  | none =>
    rw [hqp.len hd]
  | some n => rfl

end Encode

/-! ## Encoding twice -/

/-- Some field covers a bit of the byte. -/
def Covered (l : List Slot) (n : ℕ) : Prop := ∃ p ∈ l, ∃ k, k / 8 = n ∧ p.layer.covers k = true

/-- Encoding `vals₂` with an analyzer that has encoded `vals₁` and was reset reports the same
length, and produces the same bytes where fields are, as with a fresh analyzer. -/
def EncodesLikeFresh {specs : List FieldSpec} (i j : Init specs) (env₁ env₂ env₃ : Env)
    (vals₁ vals₂ : List (FieldSpec × FieldValue)) : Prop :=
  ∃ pa₁ pa₂ pb, encode i env₁ vals₁ i.analyzer = some pa₁ ∧
    encode i env₂ vals₂ (paResetVlenFlag pa₁).2 = some pa₂ ∧
    encode j env₃ vals₂ j.analyzer = some pb ∧ pa₂.protocolDataLen = pb.protocolDataLen ∧
    ∀ n < pb.protocolDataLen.toNat, Covered (layout vals₂ (j.keys env₃)) n →
      pa₂.protocolData.getD n 0 = pb.protocolData.getD n 0

/-- The lookups for a second message find what those of a fresh analyzer find: the same length for
every field, no length only where the first message has found none, and in a number that the second
message has given. -/
structure LookupsAgree (vals₁ vals₂ : List (FieldSpec × FieldValue))
    (keys₁ keys₂ keys₃ : List Key) : Prop where
  lengths : keys₂.map (lengthData vals₂) = keys₃.map (lengthData vals₂)
  found : ∀ k ∈ keys₁.zip keys₂, lengthData vals₂ k.2 = none → lengthData vals₁ k.1 = none
  numbers : ∀ k ∈ keys₂, ∀ v ∈ vals₁.zip vals₂, lengthField vals₂ k = some v.2 →
    v.2.2.dataAfter v.1.2.number = v.2.2.number

section Twice

variable {specs : List FieldSpec} {vals vals₁ vals₂ : List (FieldSpec × FieldValue)}
  {i j : Init specs} {env env₁ env₂ env₃ : Env}

/-- Lookups for index names shorter than ten bytes agree where they find numbers. -/
theorem LookupsAgree.of_short (hshort : ∀ s ∈ specs, ∀ n ∈ s.index, n.chars.length < 10)
    (hvals₁ : vals₁.map Prod.fst = specs) (hvals₂ : vals₂.map Prod.fst = specs)
    (hnum : NumbersFound vals₂ (j.keys env₃)) :
    LookupsAgree vals₁ vals₂ (i.keys env₁) (i.keys env₂) (j.keys env₃) := by
  have h₁ := Init.keys_eq_keys hshort i j env₁ env₃
  have h₂ := Init.keys_eq_keys hshort i j env₂ env₃
  rw [h₁, h₂]
  refine ⟨rfl, fun k hk => ?_, fun k hk v hv hl => ?_⟩
  · obtain ⟨n, hn⟩ := List.mem_iff_getElem?.1 hk
    obtain ⟨hk₁, hk₂⟩ := List.getElem?_zip_eq_some.1 hn
    rw [← Option.some.inj (hk₁.symm.trans hk₂)]
    exact (lengthData_eq_none (hvals₁.trans hvals₂.symm) _).2
  · rw [show v.2.2 = .int v.2.2.number from hnum k hk v.2 hl]
    rfl

/-- The slots depend on the lengths that are found, not on the keys. -/
theorem layoutFrom_congr {S : ℕ} {l l' : List ((FieldSpec × FieldValue) × Key)}
    (h : l.map (Prod.map id (lengthData vals)) = l'.map (Prod.map id (lengthData vals))) :
    layoutFrom vals S l = layoutFrom vals S l' := by
  induction l generalizing S l' with
  | nil =>
    obtain rfl : l' = [] := List.map_eq_nil_iff.1 h.symm
    rfl
  | cons v l ih =>
    cases l' with
    | nil => simp at h
    | cons v' l' =>
      obtain ⟨hv, hl⟩ := List.cons.inj h
      obtain ⟨hval, hdata⟩ := Prod.mk.inj hv
      simp only [id_eq] at hval
      rw [layoutFrom, layoutFrom, hval, hdata, ih hl]

theorem layout_congr {keys keys' : List Key}
    (h : keys.map (lengthData vals) = keys'.map (lengthData vals)) :
    layout vals keys = layout vals keys' :=
  layoutFrom_congr (by rw [← List.zip_map_right, ← List.zip_map_right, h])

theorem movedBytes_congr {keys keys' : List Key}
    (h : keys.map (lengthData vals) = keys'.map (lengthData vals)) :
    movedBytes vals keys = movedBytes vals keys' := by
  have hdata : ∀ keys : List Key, movedBytes vals keys =
      ((vals.zip (keys.map (lengthData vals))).dropLast.map fun v =>
        (v.2.map fun d => (d * v.1.1.lenUnit.toUInt32 / 8).toUInt8).getD 0).sum := by
    intro keys
    rw [movedBytes, List.zip_map_right, ← List.map_dropLast, List.map_map]
    rfl
  rw [hdata, hdata, h]

theorem Init.map_found_slots (hvals : vals.map Prod.fst = specs) :
    (i.slots env vals).map (fun q => (q.1.2.1, lengthData vals q.1.2.2)) =
      vals.zip ((i.keys env).map (lengthData vals)) := by
  rw [List.zip_map_right, ← i.map_val_slots hvals, List.map_map]
  rfl

/-- A field of the second message has had a value in the first one. -/
theorem Init.exists_first_value (hvals₁ : vals₁.map Prod.fst = specs)
    (hvals₂ : vals₂.map Prod.fst = specs) {e : Addr × FieldSpec × FieldValue}
    (he : e ∈ i.infos.zip vals₂) :
    ∃ v, (e.1, v) ∈ i.infos.zip vals₁ ∧ (v, e.2) ∈ vals₁.zip vals₂ := by
  obtain ⟨n, hn⟩ := List.mem_iff_getElem?.1 he
  obtain ⟨ha, hv₂⟩ := List.getElem?_zip_eq_some.1 hn
  have hlen : n < vals₁.length := by
    have hlt := (List.getElem?_eq_some_iff.1 hv₂).1
    have heq := congrArg List.length (hvals₁.trans hvals₂.symm)
    rw [List.length_map, List.length_map] at heq
    omega
  have hv₁ := List.getElem?_eq_getElem hlen
  refine ⟨vals₁[n], List.mem_iff_getElem?.2 ⟨n, ?_⟩, List.mem_iff_getElem?.2 ⟨n, ?_⟩⟩
  · exact List.getElem?_zip_eq_some.2 ⟨ha, hv₁⟩
  · exact List.getElem?_zip_eq_some.2 ⟨hv₁, hv₂⟩

/-- The analyzer `pa` has been fresh, and has encoded the values. -/
structure EncodedFresh (i : Init specs) (env : Env) (vals : List (FieldSpec × FieldValue))
    (pa : ProtocolAnalyzer) : Prop where
  encode_eq : encode i env vals i.analyzer = some pa
  paListHeadP : pa.paListHeadP = some i.infos
  hmap : pa.hmap = i.analyzer.hmap
  length_protocolData : pa.protocolData.length = MAX_PROTO_DATA_LEN
  bits : bitAt pa.protocolData = leaves ((layout vals (i.keys env)).map Slot.layer)
  dataLen : specs ≠ [] → pa.protocolDataLen.toNat = reportedLen (layout vals (i.keys env))
  dataLen_nil : specs = [] → pa.protocolDataLen = env.dataLen
  prepared : ∀ q ∈ i.slots env vals, Prepared q.1.2.1.1 (UInt8.ofNat q.2.moved)
    (lengthData vals q.1.2.2) (resetField (pa.info q.1.1))
  data : ∀ e ∈ i.infos.zip vals, (pa.info e.1).data = e.2.2.number

variable (i env) in
/-- Encoding with a fresh analyzer. -/
theorem encode_fresh (hf : FieldFormat specs) (hvals : vals.map Prod.fst = specs)
    (hfits : ∀ p ∈ layout vals (i.keys env), p.Fits) : ∃ pa, EncodedFresh i env vals pa := by
  obtain ⟨pa', h₁, h₂, h₃, h₄, h₅, h₆, h₇, h₈, h₉⟩ := encode_layout hf hvals env hfits
    (numbersGiven_analyzer hvals _) i.paListHeadP_analyzer rfl (by simp) fun q hq =>
      i.prepared (i.mem_fields_of_mem_slots hvals hq).1 _
  refine ⟨pa', h₁, h₂, h₃, h₄, ?_, h₆, h₇, h₈, fun e he => ?_⟩
  · have hzero : bitAt i.analyzer.protocolData = fun _ => false :=
      funext fun k => bitAt_replicate_zero _ k
    rw [h₅, hzero]
    exact funext fun k => applyAll_false _ k
  · rw [h₉ e he, i.data_analyzer hvals he, FieldValue.dataAfter_zero]

/-- The length is counted to the end of the layout when there is a field. -/
theorem EncodedFresh.dataLen_of_covered {pa : ProtocolAnalyzer} (h : EncodedFresh i env vals pa)
    (hvals : vals.map Prod.fst = specs) {n : ℕ} (hn : Covered (layout vals (i.keys env)) n) :
    pa.protocolDataLen.toNat = reportedLen (layout vals (i.keys env)) := by
  obtain ⟨p, hp, -⟩ := hn
  refine h.dataLen fun he => ?_
  have hl := (i.length_layout hvals env).trans (congrArg List.length he)
  rw [List.length_eq_zero_iff.1 hl] at hp
  simp at hp

namespace EncodedFresh

variable {pa pb : ProtocolAnalyzer} (h : EncodedFresh i env₁ vals₁ pa)
include h

/-! A reset resets the fields, and nothing else. -/

theorem paListHeadP_reset : (paResetVlenFlag pa).2.paListHeadP = some i.infos := by
  rw [paResetVlenFlag_eq i.nodup_infos h.paListHeadP]
  exact h.paListHeadP

theorem hmap_reset : (paResetVlenFlag pa).2.hmap = i.analyzer.hmap := by
  rw [paResetVlenFlag_eq i.nodup_infos h.paListHeadP]
  exact h.hmap

theorem protocolData_reset : (paResetVlenFlag pa).2.protocolData = pa.protocolData := by
  rw [paResetVlenFlag_eq i.nodup_infos h.paListHeadP]

theorem info_reset {p : Addr × FieldSpec} (hp : p ∈ i.fields) :
    (paResetVlenFlag pa).2.info p.1 = resetField (pa.info p.1) := by
  rw [paResetVlenFlag_eq i.nodup_infos h.paListHeadP]
  exact if_pos (i.fst_mem hp)

/-- A reset analyzer is prepared for the next message, its fields moved by the last one. -/
theorem prepared_reset (hvals₁ : vals₁.map Prod.fst = specs) (hvals₂ : vals₂.map Prod.fst = specs)
    (hfound : ∀ k ∈ (i.keys env₁).zip (i.keys env₂),
      lengthData vals₂ k.2 = none → lengthData vals₁ k.1 = none) :
    ∃ S : Addr → UInt8, (∀ q ∈ i.slots env₁ vals₁, S q.1.1 = UInt8.ofNat q.2.moved) ∧
      ∀ q ∈ i.slots env₂ vals₂, Prepared q.1.2.1.1 (S q.1.1) (lengthData vals₂ q.1.2.2)
        ((paResetVlenFlag pa).2.info q.1.1) := by
  have hS : ∀ q ∈ i.slots env₁ vals₁,
      (resetField (pa.info q.1.1)).bytePos - (i.analyzer.info q.1.1).bytePos =
        UInt8.ofNat q.2.moved := by
    intro q hq
    rw [(h.prepared q hq).bytePos, i.info_analyzer (i.mem_fields_of_mem_slots hvals₁ hq).1]
    change q.1.2.1.1.bytePos + UInt8.ofNat q.2.moved - q.1.2.1.1.bytePos = _
    rw [UInt8.add_comm, UInt8.add_sub_cancel]
  refine ⟨fun a => (resetField (pa.info a)).bytePos - (i.analyzer.info a).bytePos, hS,
    fun q hq => ?_⟩
  obtain ⟨hfield, hkey⟩ := i.mem_fields_of_mem_slots hvals₂ hq
  obtain ⟨q₁, hq₁, ha, hs, hk⟩ := i.exists_slot hvals₁ env₁ hfield
  have hzip : (fieldKey env₁ (q.1.1, q.1.2.1.1), fieldKey env₂ (q.1.1, q.1.2.1.1)) ∈
      (i.keys env₁).zip (i.keys env₂) := by
    rw [Init.keys, Init.keys, List.zip_map']
    exact List.mem_map_of_mem hfield
  have hp := h.prepared q₁ hq₁
  rw [← hS q₁ hq₁, ha, hs, hk] at hp
  rw [h.info_reset hfield, hkey]
  exact hp.congr (hfound _ hzip)

/-- A reset analyzer has the numbers of the next message where these replace the last ones. -/
theorem numbersGiven_reset (hvals₁ : vals₁.map Prod.fst = specs)
    (hvals₂ : vals₂.map Prod.fst = specs) {keys : List Key}
    (hnumbers : ∀ k ∈ keys, ∀ v ∈ vals₁.zip vals₂, lengthField vals₂ k = some v.2 →
      v.2.2.dataAfter v.1.2.number = v.2.2.number) :
    NumbersGiven i vals₂ keys (paResetVlenFlag pa).2 := by
  intro pa₀ hassign k hk e he hl
  obtain ⟨v, hv, hpair⟩ := i.exists_first_value hvals₁ hvals₂ he
  have hfield : (e.1, v.1) ∈ i.fields := i.fields_eq_map hvals₁ ▸ List.mem_map_of_mem hv
  have hreset : ∀ f : ProtoInfo, (resetField f).data = f.data := by
    intro f
    unfold resetField
    split_ifs <;> rfl
  rw [i.data_assign hvals₂ hassign he, h.info_reset hfield, hreset, h.data _ hv]
  exact hnumbers k hk _ hpair hl

/-- The first message has moved nothing when the second one has the right length. -/
theorem shift_eq_zero (hf : FieldFormat specs) (hvals₁ : vals₁.map Prod.fst = specs)
    (hvals₂ : vals₂.map Prod.fst = specs)
    (hlook : LookupsAgree vals₁ vals₂ (i.keys env₁) (i.keys env₂) (j.keys env₃))
    (hfits₁ : ∀ p ∈ layout vals₁ (i.keys env₁), p.Fits) {pa₂ : ProtocolAnalyzer}
    (henc : encode i env₂ vals₂ (paResetVlenFlag pa).2 = some pa₂)
    (hfresh : encode j env₃ vals₂ j.analyzer = some pb)
    (hlen : pa₂.protocolDataLen = pb.protocolDataLen) :
    ∀ p ∈ (layout vals₁ (i.keys env₁)).dropLast, p.shift = 0 := by
  obtain ⟨S, hS, hprep⟩ := h.prepared_reset hvals₁ hvals₂ hlook.found
  rcases hl : (i.slots env₁ vals₁).getLast? with _ | q₁
  · have hnil : layout vals₁ (i.keys env₁) = [] := by
      rw [← i.map_snd_slots hvals₁, List.getLast?_eq_none_iff.1 hl]
      rfl
    simp [hnil]
  · -- the last fields of the three runs
    have hq₁ := List.mem_of_getLast? hl
    obtain ⟨q₂, hl₂, ha⟩ : ∃ q₂, (i.slots env₂ vals₂).getLast? = some q₂ ∧ q₂.1.1 = q₁.1.1 := by
      have h : ((i.slots env₂ vals₂).map fun q => q.1.1).getLast? = some q₁.1.1 := by
        rw [i.map_addr_slots hvals₂, ← i.map_addr_slots hvals₁ env₁, List.getLast?_map, hl]
        rfl
      rwa [List.getLast?_map, Option.map_eq_some_iff] at h
    obtain ⟨q₃, hl₃, hv⟩ : ∃ q₃, (j.slots env₃ vals₂).getLast? = some q₃ ∧
        (q₃.1.2.1, lengthData vals₂ q₃.1.2.2) = (q₂.1.2.1, lengthData vals₂ q₂.1.2.2) := by
      have h : ((j.slots env₃ vals₂).map fun q =>
          (q.1.2.1, lengthData vals₂ q.1.2.2)).getLast? =
            some (q₂.1.2.1, lengthData vals₂ q₂.1.2.2) := by
        rw [j.map_found_slots hvals₂, ← hlook.lengths, ← i.map_found_slots hvals₂,
          List.getLast?_map, hl₂]
        rfl
      rwa [List.getLast?_map, Option.map_eq_some_iff] at h
    obtain ⟨hval, hdata⟩ := Prod.mk.inj hv
    have h₂ := protocolDataLen_encode hvals₂ (h.numbersGiven_reset hvals₁ hvals₂ hlook.numbers)
      h.paListHeadP_reset h.hmap_reset hprep henc hl₂
    have h₃ := protocolDataLen_encode (S := fun _ => 0) hvals₂ (numbersGiven_analyzer hvals₂ _)
      j.paListHeadP_analyzer rfl (fun q hq => j.prepared (j.mem_fields_of_mem_slots hvals₂ hq).1 _)
      hfresh hl₃
    rw [hlen, h₃, hval, hdata, movedBytes_congr hlook.lengths, UInt8.add_zero] at h₂
    -- the same length means that the last field has not been moved
    have hS0 : S q₂.1.1 = 0 := by
      have h16 := congrArg (fun x => x - (((lengthData vals₂ q₂.1.2.2).map UInt32.toUInt16).getD
        q₂.1.2.1.1.len)) h₂
      simp only [UInt16.add_sub_cancel] at h16
      have h8 := congrArg (fun x => x - movedBytes vals₂ (j.keys env₃)) (UInt8.toUInt16_inj.1 h16)
      simp only [UInt8.add_sub_cancel] at h8
      calc S q₂.1.1 = q₂.1.2.1.1.bytePos + S q₂.1.1 - q₂.1.2.1.1.bytePos := by
            rw [UInt8.add_comm, UInt8.add_sub_cancel]
        _ = 0 := by rw [← h8, UInt8.sub_self]
    have hql := i.mem_layout_of_mem_slots hvals₁ hq₁
    have hspec := i.spec_mem_of_mem_layout hvals₁ hql
    have hmoved : q₁.2.moved = 0 := by
      have hpos := ((hfits₁ _ hql).pos_le (hf _ hspec)).1
      have h0 := hS q₁ hq₁
      rw [← ha, hS0] at h0
      have h0' := congrArg UInt8.toNat h0
      rw [UInt8.toNat_ofNat'] at h0'
      simp only [Slot.pos, MAX_PROTO_DATA_LEN] at hpos
      simp at h0'
      omega
    have hlast : (layout vals₁ (i.keys env₁)).getLast? = some q₁.2 := by
      rw [← i.map_snd_slots hvals₁, List.getLast?_map, hl]
      rfl
    have hsum := moved_getLast hlast
    rw [hmoved] at hsum
    intro p hp
    exact List.sum_eq_zero_iff_forall_eq_nat.1 (by rw [layout]; omega) _ (List.mem_map_of_mem hp)

/-- When nothing has been moved, the second message is laid over the first one, and is as long as
that of a fresh analyzer. -/
theorem encode_reset (hf : FieldFormat specs) (hvals₁ : vals₁.map Prod.fst = specs)
    (hvals₂ : vals₂.map Prod.fst = specs)
    (hlook : LookupsAgree vals₁ vals₂ (i.keys env₁) (i.keys env₂) (j.keys env₃))
    (hfits₂ : ∀ p ∈ layout vals₂ (j.keys env₃), p.Fits)
    (hunmoved : ∀ p ∈ (layout vals₁ (i.keys env₁)).dropLast, p.shift = 0)
    (hb : EncodedFresh j env₃ vals₂ pb) :
    ∃ pa₂, encode i env₂ vals₂ (paResetVlenFlag pa).2 = some pa₂ ∧
      (pa₂.protocolDataLen = pb.protocolDataLen ↔ (specs = [] → env₂.dataLen = env₃.dataLen)) ∧
      bitAt pa₂.protocolData = applyAll ((layout vals₂ (j.keys env₃)).map Slot.layer)
        (leaves ((layout vals₁ (i.keys env₁)).map Slot.layer)) := by
  obtain ⟨S, hS, hprep⟩ := h.prepared_reset hvals₁ hvals₂ hlook.found
  have hprep₀ : ∀ q ∈ i.slots env₂ vals₂, Prepared q.1.2.1.1 0 (lengthData vals₂ q.1.2.2)
      ((paResetVlenFlag pa).2.info q.1.1) := by
    intro q hq
    obtain ⟨q₁, hq₁, ha, -⟩ :=
      i.exists_slot hvals₁ env₁ (i.mem_fields_of_mem_slots hvals₂ hq).1
    have h0 : S q.1.1 = 0 := by
      rw [← ha, hS q₁ hq₁, moved_eq hunmoved _ (i.mem_layout_of_mem_slots hvals₁ hq₁)]
      rfl
    have hq' := hprep q hq
    rwa [h0] at hq'
  have hlayout := layout_congr hlook.lengths
  obtain ⟨pa₂, henc, -, -, -, hbits, hlen, hlen', -⟩ := encode_layout hf hvals₂ env₂
    (by rwa [hlayout]) (h.numbersGiven_reset hvals₁ hvals₂ hlook.numbers) h.paListHeadP_reset
    h.hmap_reset (by rw [h.protocolData_reset, h.length_protocolData]) hprep₀
  rw [hlayout] at hbits hlen
  rw [h.protocolData_reset, h.bits] at hbits
  refine ⟨pa₂, henc, ?_, hbits⟩
  by_cases hne : specs = []
  · rw [hlen' hne, hb.dataLen_nil hne]
    exact ⟨fun h _ => h, fun h => h hne⟩
  · exact ⟨fun _ h => absurd h hne,
      fun _ => UInt16.toNat_inj.1 ((hlen hne).trans (hb.dataLen hne).symm)⟩

end EncodedFresh

/-- What the first message has left does not show through the second one: in the bytes that count,
a bit that it has left as one is replaced by a byte field, or is one in the second message too. -/
def LeavesNothing (l₁ l₂ : List Slot) : Prop :=
  ∀ n < reportedLen l₂, Covered l₂ n → ∀ k, k / 8 = n → leaves (l₁.map Slot.layer) k = true →
    hidden (l₂.map Slot.layer) k = true ∨ leaves (l₂.map Slot.layer) k = true

/-- Behind a message of byte fields that begin at whole bytes nothing shows. -/
theorem LeavesNothing.of_bytes {l₁ l₂ : List Slot}
    (h : ∀ p ∈ l₂, p.spec.lenUnit = 8 ∧ p.spec.bitPos = 0) : LeavesNothing l₁ l₂ := by
  rintro n - ⟨p, hp, k', hk', hcov⟩ k hk -
  obtain ⟨hu, hb⟩ := h p hp
  have hlayer : p.layer = byteLayer p.pos (p.value.bytes p.len) := by
    rw [Slot.layer, if_pos hu, if_pos (.inl hb)]
  obtain ⟨hge, hlt⟩ := Layer.covers_eq_true.1 hcov
  refine .inl (List.any_eq_true.2 ⟨p.layer, List.mem_map_of_mem hp, ?_⟩)
  have hcov' : p.layer.covers k = true := by
    rw [Layer.covers_eq_true]
    rw [hlayer] at hge hlt ⊢
    change 8 * p.pos ≤ k' at hge
    change k' < 8 * p.pos + 8 * (p.value.bytes p.len).length at hlt
    change 8 * p.pos ≤ k ∧ k < 8 * p.pos + 8 * (p.value.bytes p.len).length
    omega
  rw [Layer.hides, hcov', hlayer]
  rfl

/-- What it takes for a reset analyzer to encode `vals₂` like a fresh one: the lookups agree, no
field of the first message but the last has moved the ones behind it, and the first message leaves
no bit behind that shows through the second one. An empty format reports a length that was never
set. -/
structure Settled {specs : List FieldSpec} (i j : Init specs) (env₁ env₂ env₃ : Env)
    (vals₁ vals₂ : List (FieldSpec × FieldValue)) : Prop where
  lookups : LookupsAgree vals₁ vals₂ (i.keys env₁) (i.keys env₂) (j.keys env₃)
  unmoved : ∀ p ∈ (layout vals₁ (i.keys env₁)).dropLast, p.shift = 0
  leavesNothing : LeavesNothing (layout vals₁ (i.keys env₁)) (layout vals₂ (j.keys env₃))
  dataLen : specs = [] → env₂.dataLen = env₃.dataLen

/-- **When a reset analyzer encodes like a fresh one.** For any format of byte and bit fields and
any two assignments whose messages fit the buffer: when the analyzer is settled, and only then
among the runs whose lookups agree. -/
theorem encodesLikeFresh_iff (hf : FieldFormat specs) (hvals₁ : vals₁.map Prod.fst = specs)
    (hvals₂ : vals₂.map Prod.fst = specs) (hfits₁ : ∀ p ∈ layout vals₁ (i.keys env₁), p.Fits)
    (hfits₂ : ∀ p ∈ layout vals₂ (j.keys env₃), p.Fits) :
    (Settled i j env₁ env₂ env₃ vals₁ vals₂ → EncodesLikeFresh i j env₁ env₂ env₃ vals₁ vals₂) ∧
      (LookupsAgree vals₁ vals₂ (i.keys env₁) (i.keys env₂) (j.keys env₃) →
        EncodesLikeFresh i j env₁ env₂ env₃ vals₁ vals₂ →
          Settled i j env₁ env₂ env₃ vals₁ vals₂) := by
  obtain ⟨pa₁, h₁⟩ := encode_fresh i env₁ hf hvals₁ hfits₁
  obtain ⟨pb, hb⟩ := encode_fresh j env₃ hf hvals₂ hfits₂
  -- a byte of the second message, laid over the first one, is that of the fresh analyzer
  have hbyte : ∀ {pa₂ : ProtocolAnalyzer}, bitAt pa₂.protocolData =
      applyAll ((layout vals₂ (j.keys env₃)).map Slot.layer)
        (leaves ((layout vals₁ (i.keys env₁)).map Slot.layer)) →
      ∀ n, pa₂.protocolData.getD n 0 = pb.protocolData.getD n 0 ↔ ∀ k, k / 8 = n →
        leaves ((layout vals₁ (i.keys env₁)).map Slot.layer) k = true →
          hidden ((layout vals₂ (j.keys env₃)).map Slot.layer) k = true ∨
            leaves ((layout vals₂ (j.keys env₃)).map Slot.layer) k = true := by
    intro pa₂ hbits n
    rw [getD_eq_iff, hbits, hb.bits]
    exact forall₂_congr fun k _ => applyAll_eq_leaves_iff _ _ k
  constructor
  · rintro ⟨hlook, hunmoved, hleaves, hempty⟩
    obtain ⟨pa₂, h₂, hlen, hbits⟩ :=
      h₁.encode_reset hf hvals₁ hvals₂ hlook hfits₂ hunmoved hb
    exact ⟨pa₁, pa₂, pb, h₁.encode_eq, h₂, hb.encode_eq, hlen.2 hempty, fun n hn hc =>
      (hbyte hbits n).2 (hleaves n (by rwa [← hb.dataLen_of_covered hvals₂ hc]) hc)⟩
  · rintro hlook ⟨pa₁', pa₂, pb', he₁, he₂, he₃, hlen, hbytes⟩
    obtain rfl := Option.some.inj (h₁.encode_eq.symm.trans he₁)
    obtain rfl := Option.some.inj (hb.encode_eq.symm.trans he₃)
    have hunmoved := h₁.shift_eq_zero hf hvals₁ hvals₂ hlook hfits₁ he₂ he₃ hlen
    obtain ⟨pa₂', he₂', hlen', hbits⟩ :=
      h₁.encode_reset hf hvals₁ hvals₂ hlook hfits₂ hunmoved hb
    obtain rfl := Option.some.inj (he₂'.symm.trans he₂)
    refine ⟨hlook, hunmoved, fun n hn hc => (hbyte hbits n).1 (hbytes n ?_ hc), hlen'.1 hlen⟩
    rwa [hb.dataLen_of_covered hvals₂ hc]

end Twice

/-- The values of a record with one byte of data. -/
def vals3054Short : List (FieldSpec × FieldValue) :=
  specs3054.zip [.int 0x3054, .int 8, .int 0, .int 1, .int 9]

/-- A record with six bytes of data, then one with one byte. -/
theorem encodesLikeFresh_vals3054 :
    EncodesLikeFresh init3054 init3054 ⟨true, fun _ _ => 0, fun _ _ => 0, 0⟩
      ⟨true, fun _ _ => 1, fun _ _ => 1, 0⟩ ⟨true, fun _ _ => 2, fun _ _ => 2, 0⟩
      vals3054 vals3054Short := by
  have hvals₁ : vals3054.map Prod.fst = specs3054 := rfl
  have hvals₂ : vals3054Short.map Prod.fst = specs3054 := rfl
  refine (encodesLikeFresh_iff (by decide) hvals₁ hvals₂ (by decide +kernel)
    (by decide +kernel)).1 ⟨.of_short (by decide) hvals₁ hvals₂ (by decide +kernel),
      by decide +kernel, .of_bytes (by decide +kernel), fun _ => rfl⟩

/-- The values of a `0x3008` message with one byte of `slc_data`. -/
def vals3008 : List (FieldSpec × FieldValue) :=
  specs3008.zip [.int 0x3008, .int 0, .int 0x1000, .int 0, .int 0, .int 1, .int 7, .int 0, .int 0,
    .int 0, .int 0]

/-- The same message sent twice is one byte longer the second time. -/
theorem not_encodesLikeFresh : ¬ ∀ specs : List FieldSpec, FieldFormat specs →
    ∀ vals₁ vals₂ : List (FieldSpec × FieldValue), vals₁.map Prod.fst = specs →
      vals₂.map Prod.fst = specs → ∀ (i j : Init specs) (env₁ env₂ env₃ : Env),
      (∀ p ∈ layout vals₁ (i.keys env₁), p.Fits) → (∀ p ∈ layout vals₂ (j.keys env₃), p.Fits) →
      EncodesLikeFresh i j env₁ env₂ env₃ vals₁ vals₂ := by
  intro h
  obtain ⟨pa₁, pa₂, pb, h₁, h₂, h₃, hlen, -⟩ := h specs3008 (by decide) vals3008 vals3008 rfl rfl
    init3008 init3008 ⟨true, fun _ _ => 0, fun _ _ => 0, 0⟩ ⟨true, fun _ _ => 0, fun _ _ => 0, 0⟩
    ⟨true, fun _ _ => 0, fun _ _ => 0, 0⟩ (by decide +kernel) (by decide +kernel)
  have hfirst : ((encode init3008 ⟨true, fun _ _ => 0, fun _ _ => 0, 0⟩ vals3008
      init3008.analyzer).bind fun pa => (encode init3008 ⟨true, fun _ _ => 0, fun _ _ => 0, 0⟩
        vals3008 (paResetVlenFlag pa).2).map (·.protocolDataLen)) = some 15 := by decide +kernel
  have hfresh : (encode init3008 ⟨true, fun _ _ => 0, fun _ _ => 0, 0⟩ vals3008
      init3008.analyzer).map (·.protocolDataLen) = some 14 := by decide +kernel
  rw [h₁, Option.bind_some, h₂] at hfirst
  rw [h₃] at hfresh
  have h15 : pa₂.protocolDataLen = 15 := Option.some.inj hfirst
  have h14 : pb.protocolDataLen = 14 := Option.some.inj hfresh
  rw [h15, h14] at hlen
  exact absurd hlen (by decide)

end HpiDriver
