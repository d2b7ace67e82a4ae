import HpiDriver.ProtoAnalyzer.Analyzer
import Mathlib.Data.UInt

/-!
# The loops over the fields of an analyzer

What one pass of the loops of `pa_generate_protocol_data` and `pa_parse_protocol_data` does to the
layout, and what a whole run makes of it. A pass resolves the length of its field and moves the
fields behind it (`paResolveLength_eq`). Generating leaves the values alone, so the run is
determined by the initial fields: they are placed one behind the other (`place`) and then written
in order (`paGenerateLoop_eq`). Parsing changes the values that later lengths are taken from; a
family of fields that every pass produces from the ones before it is the result of the run
(`paParseLoop_eq`).
-/

namespace HpiDriver

/-! ## Fields under a changed layout -/

namespace ProtoInfo

/-- The field with the length that the value `d` of its length field gives it, if one is found. -/
def resolve (f : ProtoInfo) (d : Option UInt32) : ProtoInfo :=
  { f with len := (d.map UInt32.toUInt16).getD f.len, vlenthFlag := false }

/-- The field moved by `S` bytes. -/
def shift (f : ProtoInfo) (S : UInt8) : ProtoInfo := { f with bytePos := f.bytePos + S }

/-- How far the field moves the ones behind it. -/
def shiftBy (f : ProtoInfo) (d : Option UInt32) : UInt8 :=
  (d.map fun d => (d * f.lenUnit.toUInt32 / 8).toUInt8).getD 0

variable (f : ProtoInfo) (d : Option UInt32) (S T : UInt8)

@[simp] theorem shift_zero : f.shift 0 = f := by
  simp [shift]

@[simp] theorem shift_shift : (f.shift S).shift T = f.shift (S + T) := by
  simp [shift, UInt8.add_assoc]

@[simp] theorem shiftBy_shift : (f.shift S).shiftBy d = f.shiftBy d := rfl

@[simp] theorem shiftBy_none : f.shiftBy none = 0 := rfl

@[simp] theorem data_shift : (f.shift S).data = f.data := rfl

@[simp] theorem data_resolve : (f.resolve d).data = f.data := rfl

@[simp] theorem bytePos_resolve : (f.resolve d).bytePos = f.bytePos := rfl

@[simp] theorem vlenthFlag_shift : (f.shift S).vlenthFlag = f.vlenthFlag := rfl

@[simp] theorem vlenthIndex_shift : (f.shift S).vlenthIndex = f.vlenthIndex := rfl

theorem resolve_none (h : f.vlenthFlag = false) : f.resolve none = f := by
  cases f
  simpa [resolve] using h.symm

end ProtoInfo

theorem ProtocolAnalyzer.info_modify_self (pa : ProtocolAnalyzer) (a : Addr)
    (g : ProtoInfo → ProtoInfo) : (pa.modify a g).info a = g (pa.info a) :=
  Function.update_self _ _ _

theorem ProtocolAnalyzer.info_modify_of_ne (pa : ProtocolAnalyzer) {a b : Addr} (h : b ≠ a)
    (g : ProtoInfo → ProtoInfo) : (pa.modify a g).info b = pa.info b :=
  Function.update_of_ne h _ _

/-- The value that the length of the field at `a` is taken from, when the lookups return `o`. -/
def ProtocolAnalyzer.foundData (pa : ProtocolAnalyzer) (o : Addr → Option Addr) (a : Addr) :
    Option UInt32 :=
  if (pa.info a).vlenthFlag then (o a).map fun j => (pa.info j).data else none

/-- The lookups of the length fields of `hl` return `o`. -/
def Finds (keyStr : Addr → ℕ → UInt8) (pa : ProtocolAnalyzer) (hl : List Addr)
    (o : Addr → Option Addr) : Prop :=
  ∀ a ∈ hl, (pa.info a).vlenthFlag = true →
    paFindKey (cString (pa.info a).vlenthIndex) (keyStr a) pa = some (o a)

theorem paFindKey_congr {pa pa' : ProtocolAnalyzer} (h : pa'.hmap = pa.hmap) (key : List UInt8)
    (uninit : ℕ → UInt8) : paFindKey key uninit pa' = paFindKey key uninit pa := by
  simp only [paFindKey, h]

theorem Finds.congr {keyStr : Addr → ℕ → UInt8} {pa pa' : ProtocolAnalyzer} {hl : List Addr}
    {o : Addr → Option Addr} (h : Finds keyStr pa hl o) (hh : pa'.hmap = pa.hmap)
    (hf : ∀ a ∈ hl, (pa'.info a).vlenthFlag = true → (pa.info a).vlenthFlag = true)
    (hi : ∀ a ∈ hl, (pa'.info a).vlenthIndex = (pa.info a).vlenthIndex) :
    Finds keyStr pa' hl o := by
  intro a ha hflag
  rw [hi a ha, paFindKey_congr hh]
  exact h a ha (hf a ha hflag)

theorem Finds.head {keyStr : Addr → ℕ → UInt8} {pa : ProtocolAnalyzer} {a : Addr} {hl : List Addr}
    {o : Addr → Option Addr} (h : Finds keyStr pa (a :: hl) o) : Finds keyStr pa [a] o :=
  fun _ hb => h _ (List.mem_singleton.1 hb ▸ List.mem_cons_self)

/-! ## One pass -/

/-- Changing the fields of a list one after another changes each of them. -/
theorem foldl_modify_eq {hl : List Addr} (hnd : hl.Nodup) (g : ProtoInfo → ProtoInfo)
    (pa : ProtocolAnalyzer) :
    hl.foldl (fun pa pos => pa.modify pos g) pa =
      { pa with info := fun a => if a ∈ hl then g (pa.info a) else pa.info a } := by
  induction hl generalizing pa with
  | nil => simp
  | cons b rest ih =>
    obtain ⟨hb, hnd⟩ := List.nodup_cons.1 hnd
    rw [List.foldl_cons, ih hnd]
    simp only [ProtocolAnalyzer.modify]
    congr 1
    funext a
    by_cases hab : a = b
    · subst hab
      simp [hb]
    · simp [hab]

/-- The analyzer after a pass that makes the field at `cur` into `f` and moves the fields `rest`
behind it by `S`. -/
def ProtocolAnalyzer.pass (pa : ProtocolAnalyzer) (cur : Addr) (rest : List Addr) (f : ProtoInfo)
    (S : UInt8) : ProtocolAnalyzer :=
  { pa with
    info := fun a =>
      if a = cur then f else if a ∈ rest then (pa.info a).shift S else pa.info a }

section Pass

variable {env : Env} {cur : Addr} {rest : List Addr} {pa : ProtocolAnalyzer}
  {o : Addr → Option Addr} (f : ProtoInfo) (S : UInt8)

namespace ProtocolAnalyzer

@[simp] theorem info_pass_self : (pa.pass cur rest f S).info cur = f := if_pos rfl

@[simp] theorem protocolData_pass : (pa.pass cur rest f S).protocolData = pa.protocolData := rfl

@[simp] theorem hmap_pass : (pa.pass cur rest f S).hmap = pa.hmap := rfl

theorem info_pass_rest (hc : cur ∉ rest) {a : Addr} (ha : a ∈ rest) :
    (pa.pass cur rest f S).info a = (pa.info a).shift S :=
  (if_neg (fun e : a = cur => hc (e ▸ ha))).trans (if_pos ha)

theorem info_pass_of_notMem {a : Addr} (ha : a ∉ cur :: rest) :
    (pa.pass cur rest f S).info a = pa.info a := by
  obtain ⟨hac, har⟩ := not_or.1 (mt List.mem_cons.2 ha)
  exact (if_neg hac).trans (if_neg har)

/-- The values of the other fields stay. -/
theorem data_pass_of_ne {a : Addr} (ha : a ≠ cur) :
    ((pa.pass cur rest f S).info a).data = (pa.info a).data := by
  simp only [pass, if_neg ha]
  split_ifs <;> rfl

theorem modify_pass (g : ProtoInfo → ProtoInfo) :
    (pa.pass cur rest f S).modify cur g = pa.pass cur rest (g f) S := by
  simp only [modify, pass, if_true]
  congr 1
  funext a
  by_cases ha : a = cur
  · rw [ha, Function.update_self, if_pos rfl]
  · rw [Function.update_of_ne ha, if_neg ha, if_neg ha]

end ProtocolAnalyzer

/-- The lookups of the fields behind go as before the pass. -/
theorem Finds.pass {keyStr : Addr → ℕ → UInt8} (h : Finds keyStr pa (cur :: rest) o)
    (hc : cur ∉ rest) : Finds keyStr (pa.pass cur rest f S) rest o :=
  Finds.congr (fun a ha => h a (List.mem_cons_of_mem _ ha)) rfl
    (fun a ha => by rw [ProtocolAnalyzer.info_pass_rest f S hc ha]; exact id)
    fun a ha => by rw [ProtocolAnalyzer.info_pass_rest f S hc ha, ProtoInfo.vlenthIndex_shift]

variable {f S}

/-- A pass gives its field the length it finds and moves the fields behind it. -/
theorem paResolveLength_eq (hnd : (cur :: rest).Nodup) (ho : Finds env.keyStr pa [cur] o) :
    paResolveLength env cur rest pa = some
      (pa.pass cur rest ((pa.info cur).resolve (pa.foundData o cur))
        ((pa.info cur).shiftBy (pa.foundData o cur))) := by
  obtain ⟨hc, hnd⟩ := List.nodup_cons.1 hnd
  unfold paResolveLength
  by_cases hflag : (pa.info cur).vlenthFlag = true
  · have hfind := ho cur List.mem_cons_self hflag
    rw [if_pos hflag, ProtocolAnalyzer.foundData, if_pos hflag, paRecomputeBytePos, hfind]
    cases o cur with
    | none =>
      simp only [Option.bind_eq_bind, Option.bind_some, Option.map_none, ProtoInfo.shiftBy_none,
        ProtoInfo.shift_zero, ite_self, ProtocolAnalyzer.modify, ProtocolAnalyzer.pass]
      congr 2
      funext a
      by_cases ha : a = cur
      · subst ha
        simp [ProtoInfo.resolve]
      · simp [ha]
    | some j =>
      simp only [Option.bind_eq_bind, Option.bind_some, Option.map_some]
      rw [foldl_modify_eq hnd]
      simp only [ProtocolAnalyzer.modify, ProtocolAnalyzer.pass]
      congr 2
      funext a
      by_cases ha : a = cur
      · subst ha
        simp [hc, ProtoInfo.resolve]
      · simp [ha, ProtoInfo.shift, ProtoInfo.shiftBy]
  · have hflag' : (pa.info cur).vlenthFlag = false := by simpa using hflag
    rw [if_neg hflag, ProtocolAnalyzer.foundData, if_neg hflag]
    simp only [ProtoInfo.shiftBy_none, ProtoInfo.shift_zero, ite_self, ProtocolAnalyzer.pass,
      ProtoInfo.resolve_none _ hflag']
    congr 1
    cases pa
    congr 1
    funext a
    by_cases ha : a = cur
    · rw [if_pos ha, ha]
    · rw [if_neg ha]

/-- What a pass can do, whatever its lookup returns. -/
theorem paResolveLength_inv (hnd : (cur :: rest).Nodup) {pa' : ProtocolAnalyzer}
    (h : paResolveLength env cur rest pa = some pa') :
    ∃ d, pa' = pa.pass cur rest ((pa.info cur).resolve d) ((pa.info cur).shiftBy d) := by
  obtain ⟨r, hr⟩ : ∃ r, (pa.info cur).vlenthFlag = true →
      paFindKey (cString (pa.info cur).vlenthIndex) (env.keyStr cur) pa = some r := by
    by_cases hflag : (pa.info cur).vlenthFlag = true
    · cases hfind : paFindKey (cString (pa.info cur).vlenthIndex) (env.keyStr cur) pa with
      | none =>
        rw [paResolveLength, if_pos hflag, paRecomputeBytePos, hfind] at h
        cases h
      | some r => exact ⟨r, fun _ => rfl⟩
    · exact ⟨none, fun hf => absurd hf hflag⟩
  have ho : Finds env.keyStr pa [cur] fun _ => r := by
    intro a ha hf
    obtain rfl := List.mem_singleton.1 ha
    exact hr hf
  rw [paResolveLength_eq hnd ho] at h
  exact ⟨_, (Option.some.inj h).symm⟩

/-- A pass of the loop of `pa_generate_protocol_data` writes its field with the length found. -/
theorem paGenerateLoop_cons (hnd : (cur :: rest).Nodup) (ho : Finds env.keyStr pa [cur] o)
    (dataLen : UInt16) :
    paGenerateLoop env (cur :: rest) pa dataLen =
      (paSetProtocolField env ((pa.info cur).resolve (pa.foundData o cur)) (pa.info cur).bytePos
        pa.protocolData).bind fun dp => paGenerateLoop env rest
          { pa.pass cur rest ((pa.info cur).resolve (pa.foundData o cur))
              ((pa.info cur).shiftBy (pa.foundData o cur)) with protocolData := dp }
          ((pa.info cur).bytePos.toUInt16 + ((pa.info cur).resolve (pa.foundData o cur)).len) := by
  simp only [paGenerateLoop, paResolveLength_eq hnd ho, Option.bind_eq_bind, Option.bind_some,
    ProtocolAnalyzer.info_pass_self, ProtocolAnalyzer.protocolData_pass]

/-- A pass of the loop of `pa_parse_protocol_data` reads its field with the length found. -/
theorem paParseLoop_cons (hnd : (cur :: rest).Nodup) (ho : Finds env.keyStr pa [cur] o) :
    paParseLoop env (cur :: rest) pa =
      (paGetProtocolField env ((pa.info cur).resolve (pa.foundData o cur)) pa.protocolData).bind
        fun g => paParseLoop env rest
          (pa.pass cur rest g ((pa.info cur).shiftBy (pa.foundData o cur))) := by
  simp only [paParseLoop, paResolveLength_eq hnd ho, Option.bind_eq_bind, Option.bind_some,
    ProtocolAnalyzer.info_pass_self, ProtocolAnalyzer.protocolData_pass,
    ProtocolAnalyzer.modify_pass]

end Pass

/-! ## Generating -/

/-- The fields placed one behind the other, from the shift `S` on. -/
def place : UInt8 → List (ProtoInfo × Option UInt32) → List ProtoInfo
  | _, [] => []
  | S, (f, d) :: l => (f.shift S).resolve d :: place (S + f.shiftBy d) l

/-- The fields written in order. -/
def writeFields (env : Env) (fs : List ProtoInfo) (dp : List UInt8) : Option (List UInt8) :=
  fs.foldlM (fun dp f => paSetProtocolField env f f.bytePos dp) dp

/-- The reported length: where the last field ends, in units of this field. -/
def dataLenOf (fs : List ProtoInfo) (dataLen : UInt16) : UInt16 :=
  match fs.getLast? with
  | none => dataLen
  | some f => f.bytePos.toUInt16 + f.len

theorem dataLenOf_cons (f : ProtoInfo) (fs : List ProtoInfo) (dataLen : UInt16) :
    dataLenOf (f :: fs) dataLen = dataLenOf fs (f.bytePos.toUInt16 + f.len) := by
  cases fs with
  | nil => rfl
  | cons g fs =>
    have hlast : (g :: fs).getLast? = some _ :=
      List.getLast?_eq_some_getLast (List.cons_ne_nil g fs)
    simp only [dataLenOf, List.getLast?_cons_cons, hlast]

theorem forall₂_getLast? {α β : Type*} {R : α → β → Prop} {l : List α} {l' : List β}
    (h : List.Forall₂ R l l') {y : β} (hy : l'.getLast? = some y) :
    ∃ x, l.getLast? = some x ∧ R x y := by
  induction h with
  | nil => simp at hy
  | @cons x y' l l' hx h ih =>
    cases h with
    | nil =>
      obtain rfl : y' = y := by simpa using hy
      exact ⟨x, rfl, hx⟩
    | cons hg h' =>
      rw [List.getLast?_cons_cons] at hy ⊢
      exact ih hy

theorem place_shift (S T : UInt8) (l : List (ProtoInfo × Option UInt32)) :
    place T (l.map fun p => (p.1.shift S, p.2)) = place (S + T) l := by
  induction l generalizing T with
  | nil => rfl
  | cons p l ih =>
    obtain ⟨f, d⟩ := p
    simp only [List.map_cons, place, ProtoInfo.shift_shift, ProtoInfo.shiftBy_shift, ih,
      UInt8.add_assoc]

/-- **Generating places the fields and writes them in order.** -/
theorem paGenerateLoop_eq {env : Env} {hl : List Addr} (hnd : hl.Nodup) {pa : ProtocolAnalyzer}
    {o : Addr → Option Addr} (ho : Finds env.keyStr pa hl o) (dataLen : UInt16) :
    ∃ info', hl.map info' = place 0 (hl.map fun a => (pa.info a, pa.foundData o a)) ∧
      (∀ a ∉ hl, info' a = pa.info a) ∧
      paGenerateLoop env hl pa dataLen =
        (writeFields env (hl.map info') pa.protocolData).map fun dp =>
          ({ pa with protocolData := dp, info := info' }, dataLenOf (hl.map info') dataLen) := by
  induction hl generalizing pa dataLen with
  | nil => exact ⟨pa.info, rfl, fun _ _ => rfl, by simp [paGenerateLoop, writeFields, dataLenOf]⟩
  | cons a rest ih =>
    obtain ⟨ha, hnd'⟩ := List.nodup_cons.1 hnd
    rw [paGenerateLoop_cons hnd ho.head]
    set g := (pa.info a).resolve (pa.foundData o a) with hg
    set S := (pa.info a).shiftBy (pa.foundData o a)
    set pa₁ := pa.pass a rest g S
    have hinfo_a : pa₁.info a = g := ProtocolAnalyzer.info_pass_self g S
    have hinfo : ∀ b ∈ rest, pa₁.info b = (pa.info b).shift S := fun b hb =>
      ProtocolAnalyzer.info_pass_rest g S ha hb
    have hdata : ∀ b, (pa₁.info b).data = (pa.info b).data := by
      intro b
      by_cases hb : b = a
      · rw [hb, hinfo_a, hg, ProtoInfo.data_resolve]
      · exact ProtocolAnalyzer.data_pass_of_ne g S hb
    -- the values are those of before, so the rest finds what it would have found
    have hfound : ∀ b ∈ rest, pa₁.foundData o b = pa.foundData o b := by
      intro b hb
      simp only [ProtocolAnalyzer.foundData, hinfo b hb, ProtoInfo.vlenthFlag_shift, hdata]
    have hplace : place 0 (rest.map fun b => (pa₁.info b, pa₁.foundData o b)) =
        place S (rest.map fun b => (pa.info b, pa.foundData o b)) := by
      rw [show S = S + 0 by simp, ← place_shift, List.map_map]
      congr 1
      refine List.map_congr_left fun b hb => ?_
      simp [hinfo b hb, hfound b hb]
    have hfinds : ∀ dp, Finds env.keyStr { pa₁ with protocolData := dp } rest o := fun dp =>
      (ho.pass g S ha).congr rfl (fun _ _ => id) fun _ _ => rfl
    have hfind_a : ∀ info' : Addr → ProtoInfo, (∀ b ∉ rest, info' b = pa₁.info b) →
        info' a = g := fun info' h => (h a ha).trans hinfo_a
    -- what the later passes do does not depend on the bytes written by this one
    obtain ⟨info', h₁, h₂, -⟩ := ih hnd' (hfinds pa.protocolData) 0
    refine ⟨info', ?_, fun b hb => ?_, ?_⟩
    · simp only [List.map_cons, place, hfind_a info' h₂, ProtoInfo.shift_zero, UInt8.zero_add]
      exact congrArg _ (h₁.trans hplace)
    · rw [h₂ b fun hr => hb (List.mem_cons_of_mem _ hr)]
      exact ProtocolAnalyzer.info_pass_of_notMem g S hb
    · simp only [List.map_cons, writeFields, List.foldlM_cons, hfind_a info' h₂, dataLenOf_cons,
        Option.bind_eq_bind]
      rw [show g.bytePos = (pa.info a).bytePos from rfl]
      cases paSetProtocolField env g (pa.info a).bytePos pa.protocolData with
      | none => rfl
      | some dp =>
        obtain ⟨info'', h₃, h₄, h₅⟩ := ih hnd' (hfinds dp) ((pa.info a).bytePos.toUInt16 + g.len)
        obtain rfl : info'' = info' := by
          funext b
          by_cases hb : b ∈ rest
          · exact List.map_inj_left.1 (h₃.trans h₁.symm) b hb
          · exact (h₄ b hb).trans (h₂ b hb).symm
        exact h₅

/-! ### The length flags -/

/-- The field without the flag that `pa_set_variable_length_flag` sets and nothing reads but a
warning. -/
def ProtoInfo.core (f : ProtoInfo) : ProtoInfo := { f with vlenthValueFlag := false }

section Core

variable {f g : ProtoInfo} (h : f.core = g.core)
include h

theorem ProtoInfo.vlenthFlag_of_core : f.vlenthFlag = g.vlenthFlag :=
  show f.core.vlenthFlag = g.core.vlenthFlag from congrArg _ h

theorem ProtoInfo.vlenthIndex_of_core : f.vlenthIndex = g.vlenthIndex :=
  show f.core.vlenthIndex = g.core.vlenthIndex from congrArg _ h

theorem ProtoInfo.data_of_core : f.data = g.data :=
  show f.core.data = g.core.data from congrArg _ h

end Core

theorem writeFields_map_core (env : Env) (fs : List ProtoInfo) (dp : List UInt8) :
    writeFields env (fs.map ProtoInfo.core) dp = writeFields env fs dp := by
  simp only [writeFields, List.foldlM_map]
  rfl

theorem dataLenOf_map_core (fs : List ProtoInfo) (dataLen : UInt16) :
    dataLenOf (fs.map ProtoInfo.core) dataLen = dataLenOf fs dataLen := by
  rw [dataLenOf, dataLenOf, List.getLast?_map]
  cases fs.getLast? <;> rfl

theorem map_core_place (S : UInt8) (l : List (ProtoInfo × Option UInt32)) :
    (place S l).map ProtoInfo.core = place S (l.map fun p => (p.1.core, p.2)) := by
  induction l generalizing S with
  | nil => rfl
  | cons p l ih => exact congrArg _ (ih _)

/-- The pass over the length flags changes nothing else. -/
theorem paSetVariableLengthFlag_eq {env : Env} {hl : List Addr} {pa : ProtocolAnalyzer}
    {o : Addr → Option Addr} (ho : Finds env.flagKeyStr pa hl o) :
    ∃ info', paSetVariableLengthFlag env hl pa = some { pa with info := info' } ∧
      ∀ a, (info' a).core = (pa.info a).core := by
  induction hl generalizing pa with
  | nil => exact ⟨pa.info, rfl, fun _ => rfl⟩
  | cons a rest ih =>
    have hrest : Finds env.flagKeyStr pa rest o := fun b hb => ho b (List.mem_cons_of_mem _ hb)
    have hskip := ih hrest
    simp only [paSetVariableLengthFlag, List.foldlM_cons] at hskip ⊢
    by_cases hflag : (pa.info a).vlenthFlag = true
    · rw [if_pos hflag, ho a List.mem_cons_self hflag]
      cases o a with
      | none => exact hskip
      | some j =>
        set pa₁ := pa.modify j fun f => { f with vlenthValueFlag := true } with hpa₁
        have hcore : ∀ b, (pa₁.info b).core = (pa.info b).core := by
          intro b
          by_cases hb : b = j
          · subst hb
            simp [hpa₁, ProtocolAnalyzer.modify, ProtoInfo.core]
          · simp [hpa₁, ProtocolAnalyzer.modify, hb]
        have hfinds : Finds env.flagKeyStr pa₁ rest o := hrest.congr rfl
          (fun b _ => (ProtoInfo.vlenthFlag_of_core (hcore b)).symm ▸ id)
          fun b _ => ProtoInfo.vlenthIndex_of_core (hcore b)
        obtain ⟨info', h₁, h₂⟩ := ih hfinds
        exact ⟨info', h₁, fun b => (h₂ b).trans (hcore b)⟩
    · rw [if_neg hflag]
      exact hskip

/-- **What a call of `pa_generate_protocol_data` writes and what it leaves behind.** -/
theorem paGenerateProtocolData_eq {env : Env} {hl : List Addr} (hnd : hl.Nodup)
    {pa : ProtocolAnalyzer} (hhl : pa.paListHeadP = some hl) {o o' : Addr → Option Addr}
    (ho : Finds env.keyStr pa hl o) (ho' : Finds env.flagKeyStr pa hl o') :
    ∃ info', (hl.map fun a => (info' a).core) =
        place 0 (hl.map fun a => ((pa.info a).core, pa.foundData o a)) ∧
      (∀ a ∉ hl, (info' a).core = (pa.info a).core) ∧
      paGenerateProtocolData env pa =
        (writeFields env (hl.map info') pa.protocolData).map fun dp =>
          (0, { pa with
            protocolData := dp
            info := info'
            protocolDataLen := dataLenOf (hl.map info') env.dataLen }) := by
  obtain ⟨info₁, hflag, hcore⟩ := paSetVariableLengthFlag_eq ho'
  set pa₁ : ProtocolAnalyzer := { pa with info := info₁ } with hpa₁
  have hflags : ∀ a, (info₁ a).vlenthFlag = (pa.info a).vlenthFlag := fun a =>
    ProtoInfo.vlenthFlag_of_core (hcore a)
  have hfinds : Finds env.keyStr pa₁ hl o := ho.congr rfl (fun a _ => (hflags a).symm ▸ id)
    fun a _ => ProtoInfo.vlenthIndex_of_core (hcore a)
  have hfound : ∀ a, pa₁.foundData o a = pa.foundData o a := by
    intro a
    have hdata : ∀ j, (info₁ j).data = (pa.info j).data := fun j =>
      ProtoInfo.data_of_core (hcore j)
    simp only [ProtocolAnalyzer.foundData, hpa₁, hflags, hdata]
  obtain ⟨info', h₁, h₂, h₃⟩ := paGenerateLoop_eq hnd hfinds env.dataLen
  refine ⟨info', ?_, fun a ha => (congrArg _ (h₂ a ha)).trans (hcore a), ?_⟩
  · have := congrArg (List.map ProtoInfo.core) h₁
    rw [map_core_place, List.map_map, List.map_map] at this
    refine this.trans (congrArg (place 0) (List.map_congr_left fun a _ => ?_))
    exact Prod.ext (hcore a) (hfound a)
  · simp only [paGenerateProtocolData, hhl, hflag, Option.bind_eq_bind, Option.bind_some, h₃]
    cases writeFields env (hl.map info') pa₁.protocolData <;> simp [hpa₁, hhl]

/-! ## Parsing -/

/-- **Fields that each pass produces from the ones before it are the result of parsing.** `d a` is
the value that the length of the field at `a` is taken from, `F a` is what the field becomes. -/
theorem paParseLoop_eq {env : Env} {hl : List Addr} (hnd : hl.Nodup) {pa : ProtocolAnalyzer}
    {o : Addr → Option Addr} (ho : Finds env.keyStr pa hl o) {d : Addr → Option UInt32}
    {F : Addr → ProtoInfo}
    (hd : ∀ pre a post, hl = pre ++ a :: post → d a =
      if (pa.info a).vlenthFlag then
        (o a).map fun j => if j ∈ pre then (F j).data else (pa.info j).data
      else none)
    (hF : ∀ pre a post, hl = pre ++ a :: post →
      paGetProtocolField env
        (((pa.info a).shift (pre.map fun b => (pa.info b).shiftBy (d b)).sum).resolve (d a))
        pa.protocolData = some (F a)) :
    paParseLoop env hl pa =
      some { pa with info := fun a => if a ∈ hl then F a else pa.info a } := by
  induction hl generalizing pa with
  | nil => simp [paParseLoop]
  | cons a rest ih =>
    obtain ⟨ha, hnd'⟩ := List.nodup_cons.1 hnd
    have hda : pa.foundData o a = d a := (hd [] a rest rfl).symm ▸ by
      simp [ProtocolAnalyzer.foundData]
    have hFa := hF [] a rest rfl
    simp only [List.map_nil, List.sum_nil, ProtoInfo.shift_zero] at hFa
    set S := (pa.info a).shiftBy (d a)
    set pa₁ := pa.pass a rest (F a) S
    have hinfo : ∀ b ∈ rest, pa₁.info b = (pa.info b).shift S := fun b hb =>
      ProtocolAnalyzer.info_pass_rest (F a) S ha hb
    have hstep : paParseLoop env (a :: rest) pa = paParseLoop env rest pa₁ := by
      rw [paParseLoop_cons hnd ho.head, hda, hFa, Option.bind_some]
    have hsplit : ∀ pre b post, rest = pre ++ b :: post → b ∈ rest ∧ ∀ c ∈ pre, c ∈ rest := by
      rintro pre b post rfl
      exact ⟨by simp, fun c hc => by simp [hc]⟩
    have hshift : ∀ b ∈ rest, (pa₁.info b).shiftBy (d b) = (pa.info b).shiftBy (d b) :=
      fun b hb => by rw [hinfo b hb, ProtoInfo.shiftBy_shift]
    rw [hstep, ih hnd' (ho.pass (F a) S ha)]
    · simp only [ProtocolAnalyzer.pass]
      congr 2
      funext b
      by_cases hb : b = a
      · subst hb
        simp [ha]
      · by_cases hbr : b ∈ rest <;> simp [hb, hbr]
    · -- the values of this pass and of the passes before it are the ones that count
      intro pre b post hpre
      obtain ⟨hb, -⟩ := hsplit pre b post hpre
      rw [hd (a :: pre) b post (by rw [hpre]; rfl), hinfo b hb, ProtoInfo.vlenthFlag_shift]
      congr 2
      funext j
      by_cases hja : j = a
      · subst hja
        by_cases hj : j ∈ pre <;> simp [hj]
      · simp [hja, ProtocolAnalyzer.data_pass_of_ne (F a) S hja]
    · intro pre b post hpre
      obtain ⟨hb, hpre'⟩ := hsplit pre b post hpre
      have hmap : (pre.map fun c => (pa₁.info c).shiftBy (d c)) =
          pre.map fun c => (pa.info c).shiftBy (d c) :=
        List.map_congr_left fun c hc => hshift c (hpre' c hc)
      have := hF (a :: pre) b post (by rw [hpre]; rfl)
      rw [List.map_cons, List.sum_cons] at this
      rw [hinfo b hb, ProtoInfo.shift_shift, hmap]
      exact this

/-! ## Resetting -/

/-- What `pa_reset_vlen_flag` does to a field. -/
def resetField (f : ProtoInfo) : ProtoInfo :=
  if f.vlenthFlagBak then { f with vlenthFlag := true } else f

theorem paResetVlenFlag_eq {hl : List Addr} (hnd : hl.Nodup) {pa : ProtocolAnalyzer}
    (h : pa.paListHeadP = some hl) : (paResetVlenFlag pa).2 = { pa with
      info := fun a => if a ∈ hl then resetField (pa.info a) else pa.info a } := by
  have hfold : (paResetVlenFlag pa).2 = hl.foldl (fun pa pos => pa.modify pos resetField) pa := by
    unfold paResetVlenFlag
    rw [h]
    rfl
  exact hfold.trans (foldl_modify_eq hnd resetField pa)

end HpiDriver
