import HpiDriver.ProtoAnalyzer.Analyzer

/-!
# The table of formats

Histories of `pfs_add_proto_link_list` and `pa_find_protocol_format` on a new table. The table has
`max` entries, the first function accepts every index up to 200, and the second one every number up
to and including `base + max`, a sum that may wrap. The calls stay in the table, reject what is
outside and find what was added exactly in the histories where these three bounds agree
(`registryOk_iff`).
-/

namespace HpiDriver

/-- A call on the table; a lookup is made with `pfs` of an analyzer and a protocol number. -/
inductive RegistryCall
  | add (llistNum : UInt32) (newProtoLlist : Option (List ProtoInfo))
  | find (protocolNum : UInt32)

/-- The lists added last, by their indices. -/
abbrev Added := ℕ → Option (List ProtoInfo)

/-- The protocol number belongs to an entry of the table. -/
def ProtocolFormatSet.InRange (pfs : ProtocolFormatSet) (protocolNum : UInt32) : Prop :=
  pfs.protoBaseAddr.toNat ≤ protocolNum.toNat ∧
    protocolNum.toNat < pfs.protoBaseAddr.toNat + pfs.protoMaxNum.toNat

/-- The calls of a history keep to the table: one that is not rejected has an index below `max`,
one whose index is not is rejected and changes nothing, and a lookup in range yields the list that
was added last. -/
def RegistryOk (pa : ProtocolAnalyzer) : List RegistryCall → Added → ProtocolFormatSet → Prop
  | [], _, _ => True
  | .add llistNum newProtoLlist :: calls, added, pfs =>
    ∃ ret pfs', pfsAddProtoLinkList llistNum newProtoLlist pfs = some (ret, pfs') ∧
      (ret = 0 → llistNum < pfs.protoMaxNum) ∧
      (pfs.protoMaxNum ≤ llistNum → ret = -1 ∧ pfs' = pfs) ∧
      RegistryOk pa calls
        (if ret = 0 then Function.update added llistNum.toNat newProtoLlist else added) pfs'
  | .find protocolNum :: calls, added, pfs =>
    ∃ ret pa', paFindProtocolFormat { pa with pfs := pfs, protocolNum := protocolNum } =
        some (ret, pa') ∧
      (ret = 0 → pfs.InRange protocolNum) ∧
      (¬ pfs.InRange protocolNum →
        ret = -1 ∧ pa' = { pa with pfs := pfs, protocolNum := protocolNum }) ∧
      (pfs.InRange protocolNum → ∀ l,
        added (protocolNum.toNat - pfs.protoBaseAddr.toNat) = some l →
          ret = 0 ∧ pa'.pfListHeadP = some l) ∧
      RegistryOk pa calls added pa'.pfs

/-- No list is added at an index from `max` to 200; when the table ends below `2 ^ 32`, the number
right behind it is not looked up, and else no number that a list was added for. -/
def BoundsAgree (base max : UInt32) : List RegistryCall → Added → Prop
  | [], _ => True
  | .add llistNum newProtoLlist :: calls, added =>
    (newProtoLlist ≠ none → llistNum ≤ 200 → llistNum < max) ∧
      BoundsAgree base max calls
        (if newProtoLlist ≠ none ∧ llistNum ≤ 200 then
          Function.update added llistNum.toNat newProtoLlist
        else added)
  | .find protocolNum :: calls, added =>
    (if base.toNat + max.toNat < 2 ^ 32 then protocolNum.toNat ≠ base.toNat + max.toNat
      else base ≤ protocolNum → added (protocolNum.toNat - base.toNat) = none) ∧
      BoundsAgree base max calls added

/-! ## One call -/

/-- The table for `base` and `max` with the lists `added` in it. -/
structure ProtocolFormatSet.Registers (base max : UInt32) (added : Added)
    (pfs : ProtocolFormatSet) : Prop where
  base_eq : pfs.protoBaseAddr = base
  max_eq : pfs.protoMaxNum = max
  length_eq : pfs.listHeadP2.length = max.toNat
  entry : ∀ k < max.toNat, pfs.listHeadP2[k]? = some (added k)

section Call

variable {base max : UInt32} {added : Added} {pfs : ProtocolFormatSet}

theorem registers_init (base max : UInt32) :
    (initProtoFormatSet base max).Registers base max fun _ => none where
  base_eq := rfl
  max_eq := rfl
  length_eq := List.length_replicate
  entry k hk := by
    rw [initProtoFormatSet, List.getElem?_replicate, if_pos hk]

/-- A list put into the table. -/
theorem ProtocolFormatSet.Registers.add (h : pfs.Registers base max added) {llistNum : UInt32}
    (hle : llistNum ≤ 200) (hlt : llistNum < max) (l : List ProtoInfo) :
    ∃ pfs', pfsAddProtoLinkList llistNum (some l) pfs = some (0, pfs') ∧
      pfs'.Registers base max (Function.update added llistNum.toNat (some l)) := by
  have hindex : llistNum.toNat < pfs.listHeadP2.length := by
    rw [h.length_eq]
    exact hlt
  refine ⟨{ pfs with
    listHeadP2 := pfs.listHeadP2.set llistNum.toNat (some l)
    protoTotalNum := pfs.protoTotalNum + 1 }, ?_, h.base_eq, h.max_eq, ?_, fun k hk => ?_⟩
  · rw [pfsAddProtoLinkList, if_neg (UInt32.not_lt.2 hle), if_neg (by simp), if_pos hindex]
  · rw [List.length_set, h.length_eq]
  · dsimp only
    by_cases hk' : k = llistNum.toNat
    · rw [hk', List.getElem?_set_self hindex, Function.update_self]
    · rw [List.getElem?_set_ne (Ne.symm hk'), h.entry k hk, Function.update_of_ne hk']

/-- The numbers that `pa_check_protocol_num` rejects. -/
theorem paCheckProtocolNum_lt_iff (pa : ProtocolAnalyzer) :
    paCheckProtocolNum pa < 0 ↔ pa.pfs.protoBaseAddr + pa.pfs.protoMaxNum < pa.protocolNum ∨
      pa.protocolNum < pa.pfs.protoBaseAddr := by
  unfold paCheckProtocolNum
  split_ifs with h
  · exact iff_of_true (by decide) h
  · exact iff_of_false (by decide) h

/-- A lookup that is rejected. -/
theorem paFindProtocolFormat_of_lt {pa : ProtocolAnalyzer} (h : paCheckProtocolNum pa < 0) :
    paFindProtocolFormat pa = some (-1, pa) := by
  have hret : paCheckProtocolNum pa = -1 := by
    unfold paCheckProtocolNum at h ⊢
    split_ifs at h ⊢
    · rfl
    · exact absurd h (by decide)
  rw [paFindProtocolFormat, if_pos h, hret]

/-- A lookup in the table. -/
theorem paFindProtocolFormat_of_entry {pa : ProtocolAnalyzer} (h : ¬ paCheckProtocolNum pa < 0)
    {hl : Option (List ProtoInfo)}
    (hentry : pa.pfs.listHeadP2[(pa.protocolNum - pa.pfs.protoBaseAddr).toNat]? = some hl) :
    ∃ ret, paFindProtocolFormat pa = some (ret, { pa with pfListHeadP := hl }) ∧
      (ret = 0 ↔ hl ≠ none) := by
  rw [paFindProtocolFormat, if_neg h, hentry]
  cases hl with
  | none => exact ⟨-1, rfl, by decide⟩
  | some l => exact ⟨0, rfl, by simp⟩

end Call

/-! ## Histories -/

theorem registryOk_add_iff {base max : UInt32} {added : Added} {pfs : ProtocolFormatSet}
    (h : pfs.Registers base max added) {pa : ProtocolAnalyzer} {calls : List RegistryCall}
    (ih : ∀ {added pfs}, pfs.Registers base max added →
      (RegistryOk pa calls added pfs ↔ BoundsAgree base max calls added))
    (llistNum : UInt32) (newProtoLlist : Option (List ProtoInfo)) :
    RegistryOk pa (.add llistNum newProtoLlist :: calls) added pfs ↔
      BoundsAgree base max (.add llistNum newProtoLlist :: calls) added := by
  have hreject : ∀ r : ℤ × ProtocolFormatSet,
      pfsAddProtoLinkList llistNum newProtoLlist pfs = some r → r = (-1, pfs) →
      ¬ (newProtoLlist ≠ none ∧ llistNum ≤ 200) →
      (RegistryOk pa (.add llistNum newProtoLlist :: calls) added pfs ↔
        BoundsAgree base max (.add llistNum newProtoLlist :: calls) added) := by
    rintro r hr rfl hnot
    simp only [RegistryOk, BoundsAgree, hr, Option.some.injEq, Prod.mk.injEq]
    rw [if_neg hnot]
    constructor
    · rintro ⟨ret, pfs', ⟨rfl, rfl⟩, -, -, hok⟩
      exact ⟨fun h₁ h₂ => absurd ⟨h₁, h₂⟩ hnot, (ih h).1 hok⟩
    · rintro ⟨-, hagree⟩
      exact ⟨-1, pfs, ⟨rfl, rfl⟩, fun h0 => absurd h0 (by decide), fun _ => ⟨rfl, rfl⟩,
        (ih h).2 hagree⟩
  by_cases hle : llistNum ≤ 200
  · cases newProtoLlist with
    | none =>
      refine hreject (-1, pfs) ?_ rfl (by simp)
      rw [pfsAddProtoLinkList, if_neg (UInt32.not_lt.2 hle), if_pos rfl]
    | some l =>
      by_cases hlt : llistNum < max
      · -- the list is put into the table
        obtain ⟨pfs', hadd, h'⟩ := h.add hle hlt l
        simp only [RegistryOk, BoundsAgree, hadd, Option.some.injEq, Prod.mk.injEq]
        rw [if_pos ⟨by simp, hle⟩]
        constructor
        · rintro ⟨ret, pfs'', ⟨rfl, rfl⟩, -, -, hok⟩
          exact ⟨fun _ _ => hlt, (ih h').1 hok⟩
        · rintro ⟨-, hagree⟩
          refine ⟨0, pfs', ⟨rfl, rfl⟩, fun _ => by rwa [h.max_eq], fun hge => ?_, (ih h').2 hagree⟩
          rw [h.max_eq] at hge
          exact absurd hlt (UInt32.not_lt.2 hge)
      · -- the write is outside the table
        refine iff_of_false ?_ fun hagree => hlt (hagree.1 (by simp) hle)
        rintro ⟨ret, pfs', hadd, -⟩
        have hindex : ¬ llistNum.toNat < pfs.listHeadP2.length := by
          rw [h.length_eq]
          exact hlt
        rw [pfsAddProtoLinkList, if_neg (UInt32.not_lt.2 hle), if_neg (by simp),
          if_neg hindex] at hadd
        cases hadd
  · refine hreject (-1, pfs) ?_ rfl fun hboth => hle hboth.2
    rw [pfsAddProtoLinkList, if_pos (UInt32.not_le.1 hle)]

theorem registryOk_find_iff {base max : UInt32} {added : Added} {pfs : ProtocolFormatSet}
    (h : pfs.Registers base max added) {pa : ProtocolAnalyzer} {calls : List RegistryCall}
    (ih : ∀ {added pfs}, pfs.Registers base max added →
      (RegistryOk pa calls added pfs ↔ BoundsAgree base max calls added))
    (protocolNum : UInt32) :
    RegistryOk pa (.find protocolNum :: calls) added pfs ↔
      BoundsAgree base max (.find protocolNum :: calls) added := by
  have hbase := h.base_eq
  have hmax := h.max_eq
  have hb := base.toNat_lt
  have hm := max.toNat_lt
  have hn := protocolNum.toNat_lt
  have hsum : (base + max).toNat = (base.toNat + max.toNat) % 2 ^ 32 := UInt32.toNat_add base max
  have hcheck := paCheckProtocolNum_lt_iff { pa with pfs := pfs, protocolNum := protocolNum }
  have hrange : pfs.InRange protocolNum ↔
      base.toNat ≤ protocolNum.toNat ∧ protocolNum.toNat < base.toNat + max.toNat := by
    rw [ProtocolFormatSet.InRange, hbase, hmax]
  simp only [hbase, hmax, UInt32.lt_iff_toNat_lt, hsum] at hcheck
  simp only [RegistryOk, BoundsAgree, hrange, hbase, UInt32.le_iff_toNat_le]
  by_cases hrej : paCheckProtocolNum { pa with pfs := pfs, protocolNum := protocolNum } < 0
  · -- the number is rejected
    have hout := hcheck.1 hrej
    simp only [paFindProtocolFormat_of_lt hrej, Option.some.injEq, Prod.mk.injEq]
    constructor
    · rintro ⟨ret, pa', ⟨rfl, rfl⟩, -, -, hfound, hok⟩
      refine ⟨?_, (ih h).1 hok⟩
      split_ifs with hwrap
      · omega
      · intro hle
        by_contra hne
        obtain ⟨l, hl⟩ := Option.ne_none_iff_exists'.1 hne
        exact absurd (hfound ⟨hle, by omega⟩ l hl).1 (by decide)
    · rintro ⟨hagree, hok⟩
      refine ⟨-1, _, ⟨rfl, rfl⟩, fun h0 => absurd h0 (by decide), fun _ => ⟨rfl, rfl⟩,
        fun hin l hl => ?_, (ih h).2 hok⟩
      rw [if_neg (by omega)] at hagree
      rw [hagree hin.1] at hl
      cases hl
  · have hin := mt hcheck.2 hrej
    have hindex : (protocolNum - base).toNat = protocolNum.toNat - base.toNat :=
      UInt32.toNat_sub_of_le _ _ (UInt32.le_iff_toNat_le.2 (by omega))
    by_cases hk : protocolNum.toNat - base.toNat < max.toNat
    · -- the entry of the number
      have hget : pfs.listHeadP2[(protocolNum - pfs.protoBaseAddr).toNat]? =
          some (added (protocolNum.toNat - base.toNat)) := by
        rw [hbase, hindex]
        exact h.entry _ hk
      obtain ⟨ret, hfind, hret⟩ := paFindProtocolFormat_of_entry hrej hget
      simp only [hfind, Option.some.injEq, Prod.mk.injEq]
      constructor
      · rintro ⟨ret', pa', ⟨rfl, rfl⟩, -, -, -, hok⟩
        exact ⟨by rw [if_pos (by omega)]; omega, (ih h).1 hok⟩
      · rintro ⟨-, hok⟩
        refine ⟨ret, _, ⟨rfl, rfl⟩, fun _ => by omega, fun hout => absurd (by omega) hout,
          fun _ l hl => ⟨hret.2 (by simp [hl]), hl⟩, (ih h).2 hok⟩
    · -- the entry behind the table
      have hget : pfs.listHeadP2[(protocolNum - pfs.protoBaseAddr).toNat]? = none := by
        rw [hbase, hindex, List.getElem?_eq_none_iff, h.length_eq]
        omega
      refine iff_of_false ?_ ?_
      · rintro ⟨ret, pa', hfind, -⟩
        rw [paFindProtocolFormat, if_neg hrej, hget] at hfind
        cases hfind
      · rintro ⟨hagree, -⟩
        rw [if_pos (by omega)] at hagree
        omega

/-- **When the bounds of the table agree.** For every base address and size, the calls of a history
on a new table keep to it exactly when no list is added at an index from `max` to 200, the number
`base + max` is not looked up, and, in case this sum wraps, no number is that a list was added
for. -/
theorem registryOk_iff (base max : UInt32) (pa : ProtocolAnalyzer) (calls : List RegistryCall) :
    RegistryOk pa calls (fun _ => none) (initProtoFormatSet base max) ↔
      BoundsAgree base max calls fun _ => none := by
  have key : ∀ {added pfs}, ProtocolFormatSet.Registers base max added pfs →
      (RegistryOk pa calls added pfs ↔ BoundsAgree base max calls added) := by
    induction calls with
    | nil => simp [RegistryOk, BoundsAgree]
    | cons c calls ih =>
      intro added pfs h
      cases c with
      | add llistNum newProtoLlist => exact registryOk_add_iff h ih llistNum newProtoLlist
      | find protocolNum => exact registryOk_find_iff h ih protocolNum
  exact key (registers_init base max)

/-- The number behind the table of the driver is not rejected but looked up outside it. -/
theorem not_registryOk : ¬ ∀ (base max : UInt32), 0 < max → ∀ (pa : ProtocolAnalyzer)
    (calls : List RegistryCall),
      RegistryOk pa calls (fun _ => none) (initProtoFormatSet base max) := by
  intro h
  obtain ⟨ret, pa', hfind, -⟩ := h 0x3000 100 (by decide)
    (paCreateProtocolAnalyzer (initProtoFormatSet 0x3000 100)) [.find 0x3064]
  have hnone : (paFindProtocolFormat { paCreateProtocolAnalyzer (initProtoFormatSet 0x3000 100) with
      protocolNum := 0x3064 }).isNone = true := by decide +kernel
  exact Bool.noConfusion (hnone.symm.trans (congrArg Option.isNone hfind))

end HpiDriver
