import HpiDriver.DataStructure.HashListInv
import HpiDriver.ProtoAnalyzer.ByteField
import HpiDriver.ProtoAnalyzer.DrvProtoFormat

/-!
# Looking up a field by its name

`pa_find_key` finds a field through a hash table whose keys are the first ten bytes of the names.
For a fresh analyzer the table is described by its fields alone: a lookup returns the last field
whose name starts with the ten bytes looked for (`paFindKey_eq`). A key shorter than ten bytes is
padded with zeros and the lookup is a search by name (`paFindKey_short`); for a longer key the
bytes looked for are whatever the local buffer holds, and the result has nothing to do with the
key (`paFindKey_eq_scan_iff`).
-/

namespace HpiDriver

/-! ## Fresh analyzers -/

/-- An initialisation of an analyzer for a format: a format set in which the format is registered
under `num`, and the blocks that the allocator hands out for the fields and for the nodes of the
hash table. -/
structure Init (specs : List FieldSpec) where
  pfs : ProtocolFormatSet
  num : UInt32
  infos : List Addr
  nodes : List Addr
  found : paFindProtocolFormat { paCreateProtocolAnalyzer pfs with protocolNum := num } =
    some (0, { paCreateProtocolAnalyzer pfs with
      protocolNum := num
      pfListHeadP := some (specs.map FieldSpec.info) })
  length_infos : infos.length = specs.length
  length_nodes : nodes.length = specs.length
  nodup_infos : infos.Nodup
  nodup_nodes : nodes.Nodup
  infos_ne_zero : ∀ a ∈ infos, a ≠ 0

namespace Init

variable {specs : List FieldSpec} (i : Init specs)

/-- The fields with their addresses. -/
def fields : List (Addr × FieldSpec) := i.infos.zip specs

/-- The analyzer after `pa_copy_protocol_format`. -/
def copied : ProtocolAnalyzer :=
  (paCopyProtocolFormat i.infos { paCreateProtocolAnalyzer i.pfs with
    protocolNum := i.num
    pfListHeadP := some (specs.map FieldSpec.info) }).2

/-- The fresh analyzer. -/
def analyzer : ProtocolAnalyzer := (paCreateHashTable i.nodes i.copied).2

/-- The fresh analyzer is what creation and initialisation make. -/
theorem paInitProtocolAnalyzer_eq :
    paInitProtocolAnalyzer i.num i.pfs i.infos i.nodes (paCreateProtocolAnalyzer i.pfs) =
      some i.analyzer := by
  have h := i.found
  simp only [paInitProtocolAnalyzer]
  change (do
    let r ← paFindProtocolFormat { paCreateProtocolAnalyzer i.pfs with protocolNum := i.num }
    some (paCreateHashTable i.nodes (paCopyProtocolFormat i.infos r.2).2).2) = _
  rw [h]
  rfl

@[simp] theorem map_fst_fields : i.fields.map Prod.fst = i.infos :=
  List.map_fst_zip (by rw [i.length_infos])

@[simp] theorem map_snd_fields : i.fields.map Prod.snd = specs :=
  List.map_snd_zip (by rw [i.length_infos])

theorem nodup_fst_fields : (i.fields.map Prod.fst).Nodup := by
  rw [map_fst_fields]
  exact i.nodup_infos

theorem fst_mem {p : Addr × FieldSpec} (h : p ∈ i.fields) : p.1 ∈ i.infos := by
  rw [← i.map_fst_fields]
  exact List.mem_map_of_mem h

theorem snd_mem {p : Addr × FieldSpec} (h : p ∈ i.fields) : p.2 ∈ specs := by
  rw [← i.map_snd_fields]
  exact List.mem_map_of_mem h

section Contents

variable {β : Type*} {l : List (FieldSpec × β)} (hl : l.map Prod.fst = specs)
include hl

theorem map_fst_zip : (i.infos.zip l).map Prod.fst = i.infos :=
  List.map_fst_zip (by rw [i.length_infos, ← hl, List.length_map])

theorem map_snd_zip : (i.infos.zip l).map Prod.snd = l :=
  List.map_snd_zip (by rw [i.length_infos, ← hl, List.length_map])

/-- The fields, from a list that has something for each of them. -/
theorem fields_eq_map : i.fields = (i.infos.zip l).map fun e => (e.1, e.2.1) :=
  (congrArg i.infos.zip hl).symm.trans List.zip_map_right

end Contents

/-- An address belongs to one field. -/
theorem snd_eq {a : Addr} {s s' : FieldSpec} (h : (a, s) ∈ i.fields) (h' : (a, s') ∈ i.fields) :
    s = s' := by
  simpa using List.inj_on_of_nodup_map i.nodup_fst_fields h h' rfl

@[simp] theorem protocolData_analyzer :
    i.analyzer.protocolData = List.replicate MAX_PROTO_DATA_LEN 0 := rfl

@[simp] theorem paListHeadP_analyzer : i.analyzer.paListHeadP = some i.infos := by
  change some (i.infos.take (specs.map FieldSpec.info).length) = _
  rw [List.length_map, List.take_of_length_le i.length_infos.le]

theorem foldl_update_eq {l : List (Addr × ProtoInfo)} (hl : (l.map Prod.fst).Nodup)
    (h : Addr → ProtoInfo) {p : Addr × ProtoInfo} (hp : p ∈ l) :
    l.foldl (fun h p => Function.update h p.1 p.2) h p.1 = p.2 := by
  have key : ∀ (l : List (Addr × ProtoInfo)) (h : Addr → ProtoInfo) (a : Addr),
      a ∉ l.map Prod.fst → l.foldl (fun h p => Function.update h p.1 p.2) h a = h a := by
    intro l
    induction l with
    | nil => exact fun _ _ _ => rfl
    | cons q l ih =>
      intro h a ha
      simp only [List.map_cons, List.mem_cons, not_or] at ha
      rw [List.foldl_cons, ih _ _ ha.2, Function.update_of_ne ha.1]
  induction l generalizing h with
  | nil => simp at hp
  | cons q l ih =>
    obtain ⟨hq, hl⟩ := List.nodup_cons.1 hl
    rw [List.foldl_cons]
    rcases List.mem_cons.1 hp with rfl | hp
    · rw [key l _ _ hq, Function.update_self]
    · exact ih hl _ hp

/-- The blocks hold the fields of the format. -/
theorem info_analyzer {a : Addr} {s : FieldSpec} (h : (a, s) ∈ i.fields) :
    i.analyzer.info a = s.info := by
  have hz : i.infos.zip (specs.map FieldSpec.info) =
      i.fields.map fun p => (p.1, p.2.info) := by
    rw [List.zip_map_right]
    rfl
  have hnd : ((i.infos.zip (specs.map FieldSpec.info)).map Prod.fst).Nodup := by
    rw [hz, List.map_map]
    exact i.nodup_fst_fields
  have hm : (a, s.info) ∈ i.infos.zip (specs.map FieldSpec.info) := by
    rw [hz]
    exact List.mem_map.2 ⟨_, h, rfl⟩
  exact foldl_update_eq hnd (fun _ => ProtoInfo.zero) hm

end Init

/-- An initialisation from a set with nothing but the one format. -/
def Init.standalone (specs : List FieldSpec) (infos nodes : List Addr)
    (length_infos : infos.length = specs.length) (length_nodes : nodes.length = specs.length)
    (nodup_infos : infos.Nodup) (nodup_nodes : nodes.Nodup)
    (infos_ne_zero : ∀ a ∈ infos, a ≠ 0) : Init specs where
  pfs := ⟨[some (specs.map FieldSpec.info)], 1, 1, 0⟩
  num := 0
  infos := infos
  nodes := nodes
  found := by simp [paFindProtocolFormat, paCheckProtocolNum, paCreateProtocolAnalyzer]
  length_infos := length_infos
  length_nodes := length_nodes
  nodup_infos := nodup_infos
  nodup_nodes := nodup_nodes
  infos_ne_zero := infos_ne_zero

/-- An initialisation from the format set of the driver. -/
def Init.driver (specs : List FieldSpec) (num : UInt32)
    (registered : drvPfs.listHeadP2[(num - drvPfs.protoBaseAddr).toNat]? =
      some (some (specs.map FieldSpec.info)))
    (inRange : drvPfs.protoBaseAddr ≤ num ∧ num ≤ drvPfs.protoBaseAddr + drvPfs.protoMaxNum)
    (infos nodes : List Addr) (length_infos : infos.length = specs.length)
    (length_nodes : nodes.length = specs.length) (nodup_infos : infos.Nodup)
    (nodup_nodes : nodes.Nodup) (infos_ne_zero : ∀ a ∈ infos, a ≠ 0) : Init specs where
  pfs := drvPfs
  num := num
  infos := infos
  nodes := nodes
  found := by
    have hcheck : paCheckProtocolNum { paCreateProtocolAnalyzer drvPfs with protocolNum := num } =
        0 := if_neg (by
      rintro (h | h)
      · exact absurd inRange.2 (UInt32.not_le.2 h)
      · exact absurd inRange.1 (UInt32.not_le.2 h))
    simp only [paFindProtocolFormat, hcheck]
    rw [if_neg (by decide)]
    change (drvPfs.listHeadP2[(num - drvPfs.protoBaseAddr).toNat]?).bind _ = _
    rw [registered]
    rfl
  length_infos := length_infos
  length_nodes := length_nodes
  nodup_infos := nodup_infos
  nodup_nodes := nodup_nodes
  infos_ne_zero := infos_ne_zero

/-- The addresses of `n` blocks of 32 bytes. -/
def blocksFrom (a n : ℕ) : List Addr := (List.range n).map fun k => UInt32.ofNat (a + 32 * k)

@[simp] theorem length_blocksFrom (a n : ℕ) : (blocksFrom a n).length = n := by
  simp [blocksFrom]

theorem toNat_block {a n k : ℕ} (h : a + 32 * n ≤ 2 ^ 32) (hk : k < n) :
    (UInt32.ofNat (a + 32 * k)).toNat = a + 32 * k :=
  UInt32.toNat_ofNat_of_lt' (show a + 32 * k < 2 ^ 32 by omega)

/-- Blocks within the memory are different blocks. -/
theorem nodup_blocksFrom {a n : ℕ} (h : a + 32 * n ≤ 2 ^ 32) : (blocksFrom a n).Nodup := by
  refine List.Nodup.map_on (fun k hk l hl heq => ?_) List.nodup_range
  have hnat := congrArg UInt32.toNat heq
  rw [toNat_block h (List.mem_range.1 hk), toNat_block h (List.mem_range.1 hl)] at hnat
  omega

/-- Blocks behind the first byte of the memory are not at `NULL`. -/
theorem blocksFrom_ne_zero {a n : ℕ} (h : a + 32 * n ≤ 2 ^ 32) (ha : 0 < a) :
    ∀ b ∈ blocksFrom a n, b ≠ 0 := by
  intro b hb hzero
  obtain ⟨k, hk, rfl⟩ := List.mem_map.1 hb
  have hnat := congrArg UInt32.toNat hzero
  rw [toNat_block h (List.mem_range.1 hk), UInt32.toNat_zero] at hnat
  omega

/-- An analyzer from the format set of the driver, its fields from the address `a` on and their
nodes from `b` on. -/
def Init.atBlocks {specs : List FieldSpec} {num : UInt32} (h : (num, specs) ∈ drvFormats)
    (a b : ℕ) (hpos : 0 < a) (ha : a + 32 * specs.length ≤ 2 ^ 32)
    (hb : b + 32 * specs.length ≤ 2 ^ 32) : Init specs :=
  .driver specs num (registered_drvPfs h) (inRange_drvPfs h) (blocksFrom a specs.length)
    (blocksFrom b specs.length) (length_blocksFrom _ _) (length_blocksFrom _ _)
    (nodup_blocksFrom ha) (nodup_blocksFrom hb) (blocksFrom_ne_zero ha hpos)

/-! ## The hash table of a fresh analyzer -/

/-- The record of a field in the hash table. -/
def record (p : Addr × FieldSpec) : List UInt8 := p.2.name.array.take 10 ++ addrBuffer p.1

theorem length_take_array (n : CName) : (n.array.take 10).length = 10 := by
  rw [List.length_take, n.length_array]
  rfl

theorem length_record (p : Addr × FieldSpec) : (record p).length = 14 := by
  rw [record, List.length_append, length_take_array]
  rfl

theorem take_record (p : Addr × FieldSpec) : (record p).take 10 = p.2.name.array.take 10 := by
  rw [record, List.take_left' (length_take_array _)]

theorem drop_record (p : Addr × FieldSpec) : (record p).drop 10 = addrBuffer p.1 := by
  rw [record, List.drop_left' (length_take_array _)]

/-- The ten bytes that `pa_find_key` looks for. -/
def keyBytes (key : List UInt8) (uninit : ℕ → UInt8) : List UInt8 :=
  if key.length < 10 then key ++ List.replicate (10 - key.length) 0
  else (List.range 10).map uninit

theorem length_keyBytes (key : List UInt8) (uninit : ℕ → UInt8) :
    (keyBytes key uninit).length = 10 := by
  unfold keyBytes
  split_ifs
  · simp only [List.length_append, List.length_replicate]
    omega
  · simp

namespace Init

variable {specs : List FieldSpec} (i : Init specs)

/-- The fields with the nodes of their records. -/
def entries : List ((Addr × FieldSpec) × Addr) := i.fields.zip i.nodes

theorem length_fields : i.fields.length = specs.length := by
  rw [fields, List.length_zip, i.length_infos, Nat.min_self]

@[simp] theorem map_fst_entries : i.entries.map Prod.fst = i.fields :=
  List.map_fst_zip (by rw [i.length_fields, i.length_nodes])

@[simp] theorem map_snd_entries : i.entries.map Prod.snd = i.nodes :=
  List.map_snd_zip (by rw [i.length_fields, i.length_nodes])

/-- The records of the table, in the order of their insertion. -/
def records : List Record := i.entries.map fun e => (e.2, record e.1)

theorem records_eq : i.records = (i.infos.zip i.nodes).map fun p => (p.2,
    (makePair (createPair 10 4 []) (i.copied.info p.1).name (addrBuffer p.1)).data) := by
  have hp : i.infos.zip i.nodes = i.entries.map fun e => (e.1.1, e.2) := by
    conv_lhs => rw [← i.map_fst_fields, List.zip_map_left]
    rfl
  rw [records, hp, List.map_map]
  refine List.map_congr_left fun e he => ?_
  have hm : e.1 ∈ i.fields := by
    rw [← i.map_fst_entries]
    exact List.mem_map_of_mem he
  have hi : i.copied.info e.1.1 = e.1.2.info := i.info_analyzer hm
  simp only [Function.comp_apply, hi]
  rfl

/-- The hash table of a fresh analyzer holds the records of its fields. -/
theorem exists_hmap : ∃ h, i.analyzer.hmap = some h ∧ Holds h i.records.reverse ∧
    h.config = ⟨10, 14, 10, defaultHashFunc, defaultKeyCmpFunc⟩ := by
  have hmap : i.analyzer.hmap =
      some (i.records.foldl (fun m r => (hashMapInsert m (some r.1) r.2).2)
        (hashMapInit 10 14 10 defaultHashFunc defaultKeyCmpFunc)) := by
    rw [i.records_eq, List.foldl_map]
    change some ((i.infos.take (specs.map FieldSpec.info).length).zip i.nodes |>.foldl _ _) = _
    rw [List.length_map, List.take_of_length_le i.length_infos.le]
  refine ⟨_, hmap, ?_, config_foldl_insert _ _⟩
  have hnd : (i.records.map Prod.fst).Nodup := by
    have hn : i.records.map Prod.fst = i.nodes := by
      rw [← i.map_snd_entries, records, List.map_map]
      rfl
    rw [hn]
    exact i.nodup_nodes
  have hinit : Holds (hashMapInit 10 14 10 defaultHashFunc defaultKeyCmpFunc) [] :=
    .init (by decide) _ _
  have hholds := hinit.foldl_insert rfl hnd (fun r _ => by simp [hashMapInit]) fun r hr => by
    obtain ⟨e, -, rfl⟩ := List.mem_map.1 hr
    exact length_record e.1
  simpa using hholds

/-- The last field whose name starts with the ten bytes `k`. -/
def tableFind (k : List UInt8) : Option Addr :=
  (i.fields.reverse.find? fun p => p.2.name.array.take 10 = k).map Prod.fst

/-- **A lookup returns the last field whose name starts with the bytes looked for**, in every
analyzer that still has the table it was initialised with. -/
theorem paFindKey_eq {pa : ProtocolAnalyzer} (hp : pa.hmap = i.analyzer.hmap) (key : List UInt8)
    (uninit : ℕ → UInt8) :
    paFindKey key uninit pa = some (i.tableFind (keyBytes key uninit)) := by
  obtain ⟨h, hh, hholds, hconfig⟩ := i.exists_hmap
  simp only [HashMap.config, MapConfig.mk.injEq] at hconfig
  obtain ⟨hk, hd, -, hf, hc⟩ := hconfig
  have hlen : h.keySize ≤ (keyBytes key uninit).length := by rw [length_keyBytes, hk]
  have hs := hholds.search_default hf hc (by omega) hlen
  rw [hk, List.take_of_length_le (length_keyBytes _ _).le] at hs
  -- the records and the fields in terms of the entries
  have hz : i.records.reverse = i.entries.reverse.map fun e => (e.2, record e.1) := by
    rw [records, List.map_reverse]
  have hz' : i.fields.reverse = i.entries.reverse.map Prod.fst := by
    rw [← i.map_fst_entries, List.map_reverse]
  simp only [paFindKey, hp, hh, Option.bind_eq_bind, Option.bind_some, hk]
  rw [← keyBytes, tableFind, hz', List.find?_map]
  rw [hz, List.find?_map] at hs
  simp only [Function.comp_def, take_record] at hs ⊢
  cases he : i.entries.reverse.find? fun e => decide (e.1.2.name.array.take 10 =
      keyBytes key uninit) with
  | none =>
    rw [he] at hs
    simp [hs]
  | some e =>
    rw [he] at hs
    have hmem : e ∈ i.entries := List.mem_reverse.1 (List.mem_of_find?_eq_some he)
    have hnode : (h.node e.2) = ⟨10, 14, record e.1⟩ := by
      have := hholds.node (e.2, record e.1)
        (List.mem_reverse.2 (List.mem_map.2 ⟨e, hmem, rfl⟩))
      rw [this, hk, hd]
      rfl
    have hne : e.1.1 ≠ 0 := by
      refine i.infos_ne_zero _ (i.fst_mem (p := e.1) ?_)
      rw [← i.map_fst_entries]
      exact List.mem_map_of_mem hmem
    have hget : hashMapPosGetPointer h (hashMapSearch h (keyBytes key uninit)) =
        some (addrBuffer e.1.1) := by
      simp only [hashMapPosGetPointer, hs, Option.map_some, hnode]
      exact congrArg some (drop_record e.1)
    simp only [hs, Option.map_some, hget, Option.bind_some, addrOfBuffer_addrBuffer hne]

/-! ## Short keys -/

/-- The first ten bytes of a name are those of a short key when it is the name. -/
theorem take_array_eq_keyBytes_iff (n : CName) {key : List UInt8} (h0 : 0 ∉ key)
    (hk : key.length < 10) (uninit : ℕ → UInt8) :
    n.array.take 10 = keyBytes key uninit ↔ n.chars = key := by
  rw [keyBytes, if_pos hk]
  constructor
  · intro h
    have htake : cString (n.array.take 10) = n.chars.take 10 := by
      rw [CName.array, List.take_append, List.take_replicate]
      exact takeWhile_append_replicate (fun hm => n.no_nul (List.mem_of_mem_take hm)) _
    have hchars : n.chars.take 10 = key := by
      rw [← htake, h]
      exact takeWhile_append_replicate h0 _
    have hlen := congrArg List.length hchars
    rw [List.length_take] at hlen
    rwa [List.take_of_length_le (by omega)] at hchars
  · rintro rfl
    rw [CName.array, List.take_append, List.take_of_length_le hk.le, List.take_replicate]
    congr 2
    simp only [MAX_NAME_LEN]
    omega

/-- The last of the fields with the name `key`. -/
def nameFind (key : List UInt8) : Option Addr :=
  (i.fields.reverse.find? fun p => p.2.name.chars = key).map Prod.fst

/-- The lookup of a short key is a search by name. -/
theorem paFindKey_short {pa : ProtocolAnalyzer} (hp : pa.hmap = i.analyzer.hmap)
    {key : List UInt8} (h0 : 0 ∉ key) (hk : key.length < 10) (uninit : ℕ → UInt8) :
    paFindKey key uninit pa = some (i.nameFind key) := by
  rw [i.paFindKey_eq hp, tableFind, nameFind]
  simp only [take_array_eq_keyBytes_iff _ h0 hk]

/-- With distinct names the search finds the one field with the name. -/
theorem nameFind_eq_some (hnd : (specs.map FieldSpec.name).Nodup) {a : Addr} {s : FieldSpec}
    (h : (a, s) ∈ i.fields) : i.nameFind s.name.chars = some a := by
  have hmap : i.fields.map (fun p => p.2.name) = specs.map FieldSpec.name := by
    conv_rhs => rw [← i.map_snd_fields, List.map_map]
    rfl
  cases hf : i.fields.reverse.find? fun p => decide (p.2.name.chars = s.name.chars) with
  | none =>
    have := List.find?_eq_none.1 hf (a, s) (List.mem_reverse.2 h)
    simp at this
  | some q =>
    have hq : q ∈ i.fields := List.mem_reverse.1 (List.mem_of_find?_eq_some hf)
    have hname : q.2.name.chars = s.name.chars := by simpa using List.find?_some hf
    have hname' : q.2.name = s.name := by
      cases hs : s.name
      cases hq : q.2.name
      simpa [hs, hq] using hname
    have hqs : q = (a, s) := List.inj_on_of_nodup_map (hmap ▸ hnd) hq h hname'
    rw [nameFind, hf, hqs]
    rfl

/-- The scan of the list is a search by name from the other end. -/
theorem paFindKeyScan_eq (key : List UInt8) : paFindKeyScan key i.analyzer =
    some ((i.fields.find? fun p => p.2.name.chars = key).map Prod.fst) := by
  have hl : i.infos = i.fields.map Prod.fst := i.map_fst_fields.symm
  simp only [paFindKeyScan, paListHeadP_analyzer, Option.bind_eq_bind, Option.bind_some]
  rw [hl, List.find?_map]
  refine congrArg (fun o : Option (Addr × FieldSpec) => some (o.map Prod.fst)) ?_
  rw [← List.head?_filter, ← List.head?_filter]
  refine congrArg List.head? (List.filter_congr fun p hp => ?_)
  rw [Function.comp_apply, i.info_analyzer hp]
  simp [FieldSpec.info]

end Init

/-! ## The lookup against the scan -/

/-- Ten bytes that no name starts with. -/
def noName : ℕ → UInt8 := fun k => if k = 0 then 0 else 1

theorem take_array_ne_noName (n : CName) : n.array.take 10 ≠ (List.range 10).map noName := by
  intro h
  have h₀ : (n.array.take 10)[0]? = some 0 := by rw [h]; rfl
  have h₁ : (n.array.take 10)[1]? = some 1 := by rw [h]; rfl
  rw [List.getElem?_take_of_lt (by decide), CName.array] at h₀ h₁
  cases hc : n.chars with
  | nil => simp [hc, MAX_NAME_LEN] at h₁
  | cons c cs =>
    have : c = 0 := by simpa [hc] using h₀
    exact n.no_nul (by simp [hc, this])

/-- **The lookup agrees with the scan exactly for keys shorter than ten bytes.** On a fresh
analyzer for a format with distinct names, `pa_find_key` returns what the scan by name returns,
whatever its local buffer holds initially, if and only if the key is shorter than ten bytes or the
format is empty. -/
theorem paFindKey_eq_scan_iff {specs : List FieldSpec} (hnd : (specs.map FieldSpec.name).Nodup)
    (i : Init specs) (key : CName) :
    (∀ uninit, paFindKey key.chars uninit i.analyzer = paFindKeyScan key.chars i.analyzer) ↔
      key.chars.length < 10 ∨ specs = [] := by
  constructor
  · intro h
    by_contra hcon
    rw [not_or] at hcon
    obtain ⟨s, hs⟩ := List.exists_mem_of_ne_nil _ hcon.2
    -- one initial content makes the lookup find the field of `s`, another makes it find nothing
    have hkey : ∀ uninit, keyBytes key.chars uninit = (List.range 10).map uninit := fun _ =>
      if_neg hcon.1
    have heq := (h fun k => s.name.array.getD k 0).trans (h noName).symm
    rw [i.paFindKey_eq rfl, i.paFindKey_eq rfl, hkey, hkey, Option.some.injEq] at heq
    have hrange : (List.range 10).map (fun k => s.name.array.getD k 0) = s.name.array.take 10 := by
      refine List.ext_getElem (by simp [MAX_NAME_LEN]) fun k hk _ => ?_
      have hk' : k < s.name.array.length := by
        rw [CName.length_array, MAX_NAME_LEN]
        simp at hk
        omega
      simp [List.getElem?_eq_getElem hk']
    have hnone : i.tableFind ((List.range 10).map noName) = none := by
      rw [Init.tableFind, Option.map_eq_none_iff, List.find?_eq_none]
      intro p _
      simpa using take_array_ne_noName p.2.name
    rw [hnone, hrange, Init.tableFind, Option.map_eq_none_iff, List.find?_eq_none] at heq
    obtain ⟨p, hp, hps⟩ := List.mem_map.1 (i.map_snd_fields ▸ hs)
    have := heq p (List.mem_reverse.2 hp)
    simp [hps] at this
  · rintro (hk | rfl) uninit
    · rw [i.paFindKey_short rfl key.no_nul hk, i.paFindKeyScan_eq, Option.some.injEq]
      cases hf : i.fields.find? fun p => decide (p.2.name.chars = key.chars) with
      | none =>
        rw [Init.nameFind, Option.map_none, Option.map_eq_none_iff, List.find?_eq_none]
        intro p hp
        exact List.find?_eq_none.1 hf p (List.mem_reverse.1 hp)
      | some p =>
        have hname : p.2.name.chars = key.chars := by simpa using List.find?_some hf
        rw [← hname]
        exact i.nameFind_eq_some hnd (List.mem_of_find?_eq_some hf)
    · have hf : i.fields = [] := List.zip_nil_right
      rw [i.paFindKey_eq rfl, i.paFindKeyScan_eq, Init.tableFind, hf]
      rfl

/-- An analyzer for `0x3008`. -/
def init3008 : Init specs3008 :=
  .standalone specs3008 ((List.range 11).map fun k => UInt32.ofNat (64 * k + 64))
    ((List.range 11).map fun k => UInt32.ofNat (32 * k + 4096)) rfl rfl (by decide) (by decide)
    (by simp [List.range_succ])

/-- `SLC_INFO` is found by both, here with a buffer full of ones. -/
theorem paFindKey_eq_scan_iff_slcInfo :
    paFindKey SLC_INFO (fun _ => 0xff) init3008.analyzer =
      paFindKeyScan SLC_INFO init3008.analyzer :=
  (paFindKey_eq_scan_iff (by decide) init3008 (cname "slc_info")).2 (.inl (by decide)) _

/-- `SYNC_INDEX`, a name of ten bytes, is not found when the buffer is zero initially. -/
theorem paFindKey_ne_scan : ¬ ∀ (specs : List FieldSpec), (specs.map FieldSpec.name).Nodup →
    ∀ (i : Init specs) (key : CName) (uninit : ℕ → UInt8),
      paFindKey key.chars uninit i.analyzer = paFindKeyScan key.chars i.analyzer := by
  intro h
  have hkey := h specs3008 (by decide) init3008 (cname "sync_index") fun _ => 0
  rw [init3008.paFindKey_eq rfl, init3008.paFindKeyScan_eq] at hkey
  exact absurd hkey (by decide +kernel)

end HpiDriver
