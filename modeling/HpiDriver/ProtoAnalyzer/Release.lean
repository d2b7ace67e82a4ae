import HpiDriver.ProtoAnalyzer.DrvProtoFormat
import HpiDriver.ProtoAnalyzer.Registry

/-!
# Releasing the table of formats

`pfs_destroy_protocol_format_set` runs over the table with a counter of eight bits, releases the
list of every entry and then the table. The counter passes every entry of a table of fewer than 256
(`destroyLoop_eq`), and starts over before it reaches the end of a larger one, so that the loop
never ends (`destroyLoop_eq_none`). Every entry owns its list.
-/

namespace HpiDriver

/-! ## The functions -/

/-- A block that is handed to `allocator_mem_free`: the buffer of a field, a field, or the head of
a list. -/
inductive FreedBlock
  | buf (dataP : Option (List UInt8))
  | field (info : ProtoInfo)
  | head
  deriving DecidableEq

/-- `pfs_del_list`: what it frees. -/
def pfsDelList (info : ProtoInfo) : List FreedBlock :=
  if info.buf.len > 0 then [.buf info.buf.dataP, .field info] else [.field info]

/-- `pfs_del_list_for_each` -/
def pfsDelListForEach (hlHead : List ProtoInfo) : List FreedBlock :=
  hlHead.flatMap pfsDelList ++ [.head]

/-- What the loop of `pfs_destroy_protocol_format_set` has done: the entries it has visited, the
lists it has released, each with its entry, and the table it leaves. -/
structure Destroyed where
  visited : List ℕ
  released : List (ℕ × List FreedBlock)
  hlHeadP2 : List (Option (List ProtoInfo))
  deriving DecidableEq

/-- The loop of `pfs_destroy_protocol_format_set`; `none` when the fuel runs out. -/
def destroyLoop (protocolNum : UInt32) : ℕ → UInt8 → List (Option (List ProtoInfo)) →
    Option Destroyed
  | 0, _, _ => none
  | fuel + 1, i, hlHeadP2 =>
    if i.toUInt32 < protocolNum then do
      match ← hlHeadP2[i.toNat]? with
      | none => do
        let d ← destroyLoop protocolNum fuel (i + 1) hlHeadP2
        some { d with visited := i.toNat :: d.visited }
      | some hl => do
        let d ← destroyLoop protocolNum fuel (i + 1) (hlHeadP2.set i.toNat none)
        some { d with
          visited := i.toNat :: d.visited
          released := (i.toNat, pfsDelListForEach hl) :: d.released }
    else some ⟨[], [], hlHeadP2⟩

/-- `pfs_destroy_protocol_format_set`, up to the release of the table and the set themselves. -/
def pfsDestroyProtocolFormatSet (fuel : ℕ) (pfp : ProtocolFormatSet) : Option Destroyed :=
  destroyLoop pfp.protoMaxNum fuel 0 pfp.listHeadP2

/-- The calls of `pfs_add_proto_link_list` that register lists, whatever they return. -/
def addLists (lists : List (UInt32 × Option (List ProtoInfo))) (pfs : ProtocolFormatSet) :
    Option ProtocolFormatSet :=
  lists.foldlM (fun pfs l => (pfsAddProtoLinkList l.1 l.2 pfs).map Prod.snd) pfs

/-- The lists in the entries `ks` of a table, with what releasing them frees. -/
def registered (hlHeadP2 : List (Option (List ProtoInfo))) (ks : List ℕ) :
    List (ℕ × List FreedBlock) :=
  ks.filterMap fun k => hlHeadP2[k]?.join.map fun hl => (k, pfsDelListForEach hl)

/-- Destroying the set ends after a visit to every entry below `proto_max_num`, in order, with
every registered list released once and no entry left. -/
def DestroysOnce (pfp : ProtocolFormatSet) : Prop :=
  ∃ fuel d, pfsDestroyProtocolFormatSet fuel pfp = some d ∧
    d.visited = List.range pfp.protoMaxNum.toNat ∧
    d.released = registered pfp.listHeadP2 (List.range pfp.protoMaxNum.toNat) ∧
    d.hlHeadP2 = List.replicate pfp.protoMaxNum.toNat none

/-! ## Tables that the counter passes -/

theorem lt_protocolNum_iff (i : UInt8) (protocolNum : UInt32) :
    i.toUInt32 < protocolNum ↔ i.toNat < protocolNum.toNat := by
  rw [UInt32.lt_iff_toNat_lt, UInt8.toNat_toUInt32]

theorem registered_cons (hlHeadP2 : List (Option (List ProtoInfo))) (k : ℕ) (ks : List ℕ) :
    registered hlHeadP2 (k :: ks) =
      (hlHeadP2[k]?.join.map fun hl => (k, pfsDelListForEach hl)).toList ++
        registered hlHeadP2 ks := by
  rw [registered, List.filterMap_cons]
  cases hlHeadP2[k]?.join <;> rfl

/-- Clearing an entry does not change the lists of the others. -/
theorem registered_set {hlHeadP2 : List (Option (List ProtoInfo))} {k : ℕ} {ks : List ℕ}
    (hk : k ∉ ks) : registered (hlHeadP2.set k none) ks = registered hlHeadP2 ks := by
  refine List.filterMap_congr fun j hj => ?_
  have hne : k ≠ j := fun h => hk (h ▸ hj)
  rw [List.getElem?_set_ne hne]

/-- The loop from entry `i` on, when the counter can count to the end. -/
theorem destroyLoop_eq {protocolNum : UInt32} (hlt : protocolNum.toNat < 256) (n : ℕ) {i : UInt8}
    (hi : i.toNat + n = protocolNum.toNat) {hlHeadP2 : List (Option (List ProtoInfo))}
    (hlen : hlHeadP2.length = protocolNum.toNat) :
    destroyLoop protocolNum (n + 1) i hlHeadP2 = some ⟨List.range' i.toNat n,
      registered hlHeadP2 (List.range' i.toNat n),
      hlHeadP2.take i.toNat ++ List.replicate n none⟩ := by
  induction n generalizing i hlHeadP2 with
  | zero =>
    have hend : ¬ i.toUInt32 < protocolNum := by
      rw [lt_protocolNum_iff]
      omega
    have hall : hlHeadP2.take i.toNat = hlHeadP2 := List.take_of_length_le (by omega)
    rw [destroyLoop, if_neg hend, hall]
    simp [registered]
  | succ n ih =>
    have hin : i.toUInt32 < protocolNum := by
      rw [lt_protocolNum_iff]
      omega
    have hnext : (i + 1).toNat = i.toNat + 1 := by
      rw [UInt8.toNat_add]
      exact Nat.mod_eq_of_lt (show i.toNat + 1 < 256 by omega)
    have hbound : i.toNat < hlHeadP2.length := by omega
    have hnot : i.toNat ∉ List.range' (i.toNat + 1) n := by
      rw [List.mem_range'_1]
      omega
    rw [destroyLoop, if_pos hin, List.range'_succ, registered_cons, List.getElem?_eq_getElem hbound]
    cases hslot : hlHeadP2[i.toNat] with
    | none =>
      have hrest := @ih (i + 1) (by omega) hlHeadP2 hlen
      rw [hnext, List.take_succ_eq_append_getElem hbound, hslot, List.append_assoc] at hrest
      simp only [Option.bind_eq_bind, Option.bind_some, hrest]
      rfl
    | some hl =>
      have hrest := @ih (i + 1) (by omega) (hlHeadP2.set i.toNat none)
        (by rw [List.length_set, hlen])
      have htake : (hlHeadP2.set i.toNat none).take (i.toNat + 1) =
          hlHeadP2.take i.toNat ++ [none] := by
        rw [List.take_succ_eq_append_getElem (by rw [List.length_set]; exact hbound),
          List.getElem_set_self, List.take_set_of_le le_rfl]
      rw [hnext, htake, registered_set hnot, List.append_assoc] at hrest
      simp only [Option.bind_eq_bind, Option.bind_some, hrest]
      rfl

/-! ## Tables that it does not pass -/

/-- The counter is always below the size, so the loop never ends. -/
theorem destroyLoop_eq_none {protocolNum : UInt32} (hge : 256 ≤ protocolNum.toNat) (fuel : ℕ)
    (i : UInt8) (hlHeadP2 : List (Option (List ProtoInfo))) :
    destroyLoop protocolNum fuel i hlHeadP2 = none := by
  induction fuel generalizing i hlHeadP2 with
  | zero => rfl
  | succ fuel ih =>
    have hin : i.toUInt32 < protocolNum := by
      have := i.toNat_lt
      rw [lt_protocolNum_iff]
      omega
    rw [destroyLoop, if_pos hin]
    cases hlHeadP2[i.toNat]? with
    | none => rfl
    | some slot =>
      cases slot with
      | none =>
        simp only [Option.bind_eq_bind, Option.bind_some, ih]
        rfl
      | some hl =>
        simp only [Option.bind_eq_bind, Option.bind_some, ih]
        rfl

theorem not_destroysOnce_of_le {pfp : ProtocolFormatSet} (hge : 256 ≤ pfp.protoMaxNum.toNat) :
    ¬ DestroysOnce pfp := by
  rintro ⟨fuel, d, hd, -⟩
  rw [pfsDestroyProtocolFormatSet, destroyLoop_eq_none hge] at hd
  cases hd

/-! ## Any table -/

/-- A call leaves the size of the table as it is. -/
theorem length_pfsAddProtoLinkList {llistNum : UInt32} {l : Option (List ProtoInfo)}
    {pfs : ProtocolFormatSet} {r : ℤ × ProtocolFormatSet}
    (h : pfsAddProtoLinkList llistNum l pfs = some r) :
    r.2.protoMaxNum = pfs.protoMaxNum ∧ r.2.listHeadP2.length = pfs.listHeadP2.length := by
  unfold pfsAddProtoLinkList at h
  split_ifs at h
  · obtain rfl := Option.some.inj h
    exact ⟨rfl, rfl⟩
  · obtain rfl := Option.some.inj h
    exact ⟨rfl, rfl⟩
  · obtain rfl := Option.some.inj h
    exact ⟨rfl, List.length_set⟩

theorem length_addLists {lists : List (UInt32 × Option (List ProtoInfo))}
    {pfs pfs' : ProtocolFormatSet} (h : addLists lists pfs = some pfs') :
    pfs'.protoMaxNum = pfs.protoMaxNum ∧ pfs'.listHeadP2.length = pfs.listHeadP2.length := by
  induction lists generalizing pfs with
  | nil =>
    obtain rfl := Option.some.inj h
    exact ⟨rfl, rfl⟩
  | cons l lists ih =>
    rw [addLists, List.foldlM_cons] at h
    obtain ⟨pfs₁, h₁, h⟩ := Option.bind_eq_some_iff.1 h
    obtain ⟨r, hr, rfl⟩ := Option.map_eq_some_iff.1 h₁
    obtain ⟨hmax, hlen⟩ := length_pfsAddProtoLinkList hr
    obtain ⟨hmax', hlen'⟩ := ih h
    exact ⟨hmax'.trans hmax, hlen'.trans hlen⟩

/-- **When destroying a format set ends.** For every size of the table and every history of
registered lists, the loop visits every entry once, releases every registered list once and ends
exactly when the table has fewer than 256 entries. -/
theorem destroysOnce_iff (base max : UInt32) {lists : List (UInt32 × Option (List ProtoInfo))}
    {pfs : ProtocolFormatSet} (h : addLists lists (initProtoFormatSet base max) = some pfs) :
    DestroysOnce pfs ↔ max.toNat < 256 := by
  obtain ⟨hmax, hlen⟩ := length_addLists h
  have hmax : pfs.protoMaxNum = max := hmax
  constructor
  · intro hd
    by_contra hge
    exact not_destroysOnce_of_le (by rw [hmax]; omega) hd
  · intro hlt
    have hlen : pfs.listHeadP2.length = pfs.protoMaxNum.toNat := by
      rw [hlen, hmax]
      exact List.length_replicate
    have hloop := destroyLoop_eq (hmax ▸ hlt) pfs.protoMaxNum.toNat
      (show (0 : UInt8).toNat + _ = _ from Nat.zero_add _) hlen
    refine ⟨_, _, hloop, ?_, ?_, ?_⟩
    · exact List.range_eq_range'.symm
    · rw [List.range_eq_range']
      rfl
    · rfl

/-- The calls that register the formats of the driver. -/
def drvLists : List (UInt32 × Option (List ProtoInfo)) :=
  drvFormats.map fun f => (f.1 - 0x3000, some (f.2.map FieldSpec.info))

theorem addLists_drvLists : addLists drvLists (initProtoFormatSet 0x3000 100) = some drvPfs := by
  rw [drvPfs, drvFormatSet_eq, Option.getD_some]
  rfl

/-- The table of the driver, with its five formats. -/
theorem destroysOnce_drvPfs : DestroysOnce drvPfs :=
  (destroysOnce_iff 0x3000 100 addLists_drvLists).2 (by decide)

/-- The loop over a table of 256 entries never ends. -/
theorem not_destroysOnce : ¬ ∀ (base max : UInt32)
    (lists : List (UInt32 × Option (List ProtoInfo))) (pfs : ProtocolFormatSet),
    addLists lists (initProtoFormatSet base max) = some pfs → DestroysOnce pfs := by
  intro h
  exact not_destroysOnce_of_le (show 256 ≤ (initProtoFormatSet 0x3000 256).protoMaxNum.toNat from
    le_refl 256) (h 0x3000 256 [] _ rfl)

end HpiDriver
