import HpiDriver.DataStructure.LinkList
import HpiDriver.Foundations.Simulation
import HpiDriver.ProtoAnalyzer.FindKey
import HpiDriver.ProtoAnalyzer.Release

/-!
# Field lists in memory

The formats and the analyzers keep their fields in the rings of `linux/list.h`, all of them in one
memory. `pfs_set_proto_info` puts a field at the end of a list, `pa_copy_protocol_format` copies a
list node by node, and `pfs_del_list_for_each` releases one. What they do is told by a shelf, which
has a list of fields for every head; no list disturbs another one (`runFieldLists`). The functions
on Lean lists are what happens on the shelf (`FieldListCall.apply_set`, `FieldListCall.apply_copy`),
and a release in memory frees what `pfsDelListForEach` tells.

The address of a field stands for that of its `list_head` as well.
-/

namespace HpiDriver

open Ring Simulation

/-! ## Kernel lists -/

/-- `list_add_tail` -/
def listAddTail (new head : Addr) (L : Links Addr) : Links Addr := L.between new (L.prev head) head

/-- `list_for_each_safe` from `pos` on, with the node `n` behind it: `body` runs with every node,
and may change the memory that the links are in. It stops with `none` when it has not come to the
head within `fuel` steps. -/
def listForEachSafe {σ : Type} (links : σ → Links Addr) (body : Addr → σ → Option σ)
    (head : Addr) : ℕ → Addr → Addr → σ → Option σ
  | 0, pos, _, s => if pos = head then some s else none
  | fuel + 1, pos, n, s =>
    if pos = head then some s
    else do
      let s ← body pos s
      listForEachSafe links body head fuel n ((links s).next n) s

/-- **The rule of the loop.** An invariant that has the nodes still to come, and is kept by the body
when it leaves the node behind the current one where it was. -/
theorem listForEachSafe_rule {σ : Type} {links : σ → Links Addr} {body : Addr → σ → Option σ}
    {head : Addr} {I : List Addr → σ → Prop}
    (hnext : ∀ p rest s, I (p :: rest) s → p ≠ head ∧ (links s).next p = rest.headD head)
    (hbody : ∀ p rest s, I (p :: rest) s → ∃ s', body p s = some s' ∧ I rest s')
    {rest : List Addr} {s : σ} (h : I rest s) {fuel : ℕ} (hfuel : rest.length ≤ fuel) :
    ∃ s', listForEachSafe links body head fuel (rest.headD head)
      ((links s).next (rest.headD head)) s = some s' ∧ I [] s' := by
  induction rest generalizing s fuel with
  | nil =>
    refine ⟨s, ?_, h⟩
    cases fuel <;> exact if_pos rfl
  | cons p rest ih =>
    obtain ⟨fuel, rfl⟩ := Nat.exists_eq_add_of_lt hfuel
    obtain ⟨hp, hn⟩ := hnext p rest s h
    obtain ⟨s₁, hs₁, h₁⟩ := hbody p rest s h
    obtain ⟨s', hs', h'⟩ := ih h₁ (Nat.le_add_right rest.length fuel)
    refine ⟨s', ?_, h'⟩
    rw [listForEachSafe, List.headD_cons, if_neg hp, hs₁, hn]
    exact hs'

/-! ## The functions -/

/-- The memory of the field lists: the links of the heads and the nodes, the fields, and the
`list_count` of the heads. -/
structure FieldMemory where
  links : Links Addr
  info : Addr → ProtoInfo
  listCount : Addr → UInt8

/-- `pfs_init_head_list` -/
def pfsInitHeadList (hlHead : Addr) (m : FieldMemory) : FieldMemory :=
  { m with
    links := initListHead hlHead m.links
    listCount := Function.update m.listCount hlHead 0 }

/-- `pfs_add_list` -/
def pfsAddList (newHead hlHead : Addr) (m : FieldMemory) : FieldMemory :=
  { m with
    links := listAddTail newHead hlHead m.links
    listCount := Function.update m.listCount hlHead (m.listCount hlHead + 1) }

/-- The attributes of a field that `pfs_set_proto_info` is given. -/
structure FieldAttrs where
  name : Option (List UInt8)
  bytePos : Option (List UInt8)
  bitPos : Option (List UInt8)
  len : Option (List UInt8)
  lenUnit : Option (List UInt8)
  vlenthIndex : Option (List UInt8)

/-- The field that `pfs_set_proto_info` makes of its attributes. -/
def FieldAttrs.info (attrs : FieldAttrs) : Option ProtoInfo := do
  let info ← setProtoInfoAttribs (str "name") attrs.name ProtoInfo.zero
  let info ← setProtoInfoAttribs (str "byte_pos") attrs.bytePos info
  let info ← setProtoInfoAttribs (str "bit_pos") attrs.bitPos info
  let info ← setProtoInfoAttribs (str "len") attrs.len info
  let info ← setProtoInfoAttribs (str "len_unit") attrs.lenUnit info
  setProtoInfoAttribs (str "vlenth_index") attrs.vlenthIndex info

/-- `pfs_set_proto_info`; the allocator hands out `a`. -/
def pfsSetProtoInfoAt (a : Addr) (attrs : FieldAttrs) (hlHead : Addr) (m : FieldMemory) :
    Option FieldMemory := do
  let info ← attrs.info
  some (pfsAddList a hlHead { m with info := Function.update m.info a info })

/-- The body of the loop of `pa_copy_protocol_format`; the allocator has `infos` left. -/
def copyField (copy pos : Addr) : List Addr × FieldMemory → Option (List Addr × FieldMemory)
  | ([], _) => none
  | (a :: infos, m) =>
    some (infos, pfsAddList a copy { m with info := Function.update m.info a (m.info pos) })

/-- `pa_copy_protocol_format` with the list at `hlHead`; the allocator hands out `copy` for the head
and `infos` for the nodes. -/
def paCopyProtocolFormatAt (copy : Addr) (infos : List Addr) (hlHead : Addr) (fuel : ℕ)
    (m : FieldMemory) : Option FieldMemory :=
  let m := pfsInitHeadList copy m
  let pos := m.links.next hlHead
  (listForEachSafe (fun s => s.2.links) (copyField copy) hlHead fuel pos (m.links.next pos)
    (infos, m)).map Prod.snd

/-- `pfs_del_list`: what it frees, and the memory it leaves. -/
def pfsDelListAt (delHead hlHead : Addr) (m : FieldMemory) : List FreedBlock × FieldMemory :=
  (pfsDelList (m.info delHead),
    { m with
      links := listDel delHead m.links
      listCount := Function.update m.listCount hlHead (m.listCount hlHead - 1) })

/-- The body of the loop of `pfs_del_list_for_each`, next to what has been freed. -/
def delField (hlHead pos : Addr) (s : List FreedBlock × FieldMemory) :
    Option (List FreedBlock × FieldMemory) :=
  some (s.1 ++ (pfsDelListAt pos hlHead s.2).1, (pfsDelListAt pos hlHead s.2).2)

/-- `pfs_del_list_for_each` -/
def pfsDelListForEachAt (hlHead : Addr) (fuel : ℕ) (m : FieldMemory) :
    Option (List FreedBlock × FieldMemory) :=
  let pos := m.links.next hlHead
  (listForEachSafe (fun s => s.2.links) (delField hlHead) hlHead fuel pos (m.links.next pos)
    ([], m)).map fun s => (s.1 ++ [.head], s.2)

/-- The body of a loop that notes down what it sees. -/
def noteField (m : FieldMemory) (pos : Addr) (s : List (Addr × ProtoInfo)) :
    Option (List (Addr × ProtoInfo)) := some (s ++ [(pos, m.info pos)])

/-- What the loops that change no link see of a list, as in `pa_create_hash_table`: its fields, in
order, with their addresses. -/
def listFields (hlHead : Addr) (fuel : ℕ) (m : FieldMemory) : Option (List (Addr × ProtoInfo)) :=
  let pos := m.links.next hlHead
  listForEachSafe (fun _ => m.links) (noteField m) hlHead fuel pos (m.links.next pos) []

/-! ## The shelf -/

/-- The lists by their heads, and for every head the fields with their addresses. -/
structure Shelf where
  heads : List Addr
  fields : Addr → List (Addr × ProtoInfo)

namespace Shelf

/-- Nothing on the shelf. -/
def empty : Shelf := ⟨[], fun _ => []⟩

/-- The head of a list and its nodes. -/
def nodes (t : Shelf) (hlHead : Addr) : List Addr := hlHead :: (t.fields hlHead).map Prod.fst

/-- The addresses that are in use. -/
def used (t : Shelf) : List Addr := t.heads.flatMap t.nodes

/-- Put a list on the shelf, in place of the one with its head. -/
def put (hlHead : Addr) (l : List (Addr × ProtoInfo)) (t : Shelf) : Shelf :=
  ⟨t.heads.insert hlHead, Function.update t.fields hlHead l⟩

/-- Take a list off the shelf. -/
def drop (hlHead : Addr) (t : Shelf) : Shelf :=
  ⟨t.heads.filter (· ≠ hlHead), Function.update t.fields hlHead []⟩

/-- Change the field at `a`. -/
def change (a : Addr) (g : ProtoInfo → ProtoInfo) (t : Shelf) : Shelf :=
  { t with fields := fun h => (t.fields h).map fun p => if p.1 = a then (a, g p.2) else p }

variable {t : Shelf} {hlHead h a : Addr} {l l' : List (Addr × ProtoInfo)}

@[simp] theorem mem_heads_put : h ∈ (t.put hlHead l).heads ↔ h = hlHead ∨ h ∈ t.heads :=
  List.mem_insert_iff

theorem mem_heads_of_mem_put (hh : h ∈ (t.put hlHead l).heads) (hne : h ≠ hlHead) : h ∈ t.heads :=
  (mem_heads_put.1 hh).resolve_left hne

@[simp] theorem mem_heads_drop : h ∈ (t.drop hlHead).heads ↔ h ∈ t.heads ∧ h ≠ hlHead := by
  simp [drop]

@[simp] theorem fields_put_self : (t.put hlHead l).fields hlHead = l := Function.update_self ..

theorem fields_put_of_ne (hne : h ≠ hlHead) : (t.put hlHead l).fields h = t.fields h :=
  Function.update_of_ne hne ..

theorem nodes_put_of_ne (hne : h ≠ hlHead) : (t.put hlHead l).nodes h = t.nodes h := by
  rw [nodes, nodes, fields_put_of_ne hne]

theorem put_put : (t.put hlHead l).put hlHead l' = t.put hlHead l' := by
  simp [put]

theorem fields_drop_of_ne (hne : h ≠ hlHead) : (t.drop hlHead).fields h = t.fields h :=
  Function.update_of_ne hne ..

theorem nodes_drop_of_ne (hne : h ≠ hlHead) : (t.drop hlHead).nodes h = t.nodes h := by
  rw [nodes, nodes, fields_drop_of_ne hne]

theorem drop_put : (t.put hlHead l).drop hlHead = t.drop hlHead := by
  by_cases h : hlHead ∈ t.heads <;> simp [drop, put, List.insert, h]

theorem mem_used : a ∈ t.used ↔ ∃ h ∈ t.heads, a ∈ t.nodes h := List.mem_flatMap

theorem mem_used_of_mem (hh : h ∈ t.heads) (ha : a ∈ t.nodes h) : a ∈ t.used :=
  mem_used.2 ⟨h, hh, ha⟩

/-- The addresses that are in use when a list is put on the shelf. -/
theorem mem_used_put (ha : a ∈ (t.put hlHead l).used) :
    a ∈ hlHead :: l.map Prod.fst ∨ a ∈ t.used := by
  obtain ⟨h, hh, ha⟩ := mem_used.1 ha
  by_cases hne : h = hlHead
  · subst hne
    rw [nodes, fields_put_self] at ha
    exact .inl ha
  · rw [nodes_put_of_ne hne] at ha
    exact .inr (mem_used_of_mem (mem_heads_of_mem_put hh hne) ha)

@[simp] theorem map_fst_change (g : ProtoInfo → ProtoInfo) :
    ((t.change a g).fields h).map Prod.fst = (t.fields h).map Prod.fst := by
  rw [change, List.map_map]
  refine List.map_congr_left fun p _ => ?_
  simp only [Function.comp_apply]
  split_ifs with hp
  · exact hp.symm
  · rfl

end Shelf

namespace FieldMemory

/-- Nothing has changed at `x`. -/
structure SameAt (m m' : FieldMemory) (x : Addr) : Prop where
  next : m'.links.next x = m.links.next x
  prev : m'.links.prev x = m.links.prev x
  info : m'.info x = m.info x
  listCount : m'.listCount x = m.listCount x

/-- The memory has the lists of the shelf, apart from each other. -/
structure Shows (m : FieldMemory) (t : Shelf) : Prop where
  spells : ∀ h ∈ t.heads, Spells m.links h ((t.fields h).map Prod.fst)
  info : ∀ h ∈ t.heads, ∀ p ∈ t.fields h, m.info p.1 = p.2
  listCount : ∀ h ∈ t.heads, m.listCount h = UInt8.ofNat (t.fields h).length
  apart : ∀ h ∈ t.heads, ∀ h' ∈ t.heads, h ≠ h' → (t.nodes h).Disjoint (t.nodes h')

namespace Shows

variable {m m' : FieldMemory} {t : Shelf} {hlHead a copy : Addr} {l : List (Addr × ProtoInfo)}

theorem of_empty (m : FieldMemory) : m.Shows .empty :=
  ⟨nofun, nofun, nofun, nofun⟩

/-- **One list changes.** It may take what no other list uses, and has to leave the others alone. -/
theorem put (h : m.Shows t) (hspells : Spells m'.links hlHead (l.map Prod.fst))
    (hinfo : ∀ p ∈ l, m'.info p.1 = p.2)
    (hcount : m'.listCount hlHead = UInt8.ofNat l.length)
    (hframe : ∀ h' ∈ t.heads, h' ≠ hlHead → ∀ x ∈ t.nodes h',
      m.SameAt m' x ∧ x ∉ hlHead :: l.map Prod.fst) :
    m'.Shows (t.put hlHead l) where
  spells h' hh' := by
    by_cases hne : h' = hlHead
    · subst hne
      rwa [Shelf.fields_put_self]
    have hh' := Shelf.mem_heads_of_mem_put hh' hne
    rw [Shelf.fields_put_of_ne hne]
    exact (h.spells h' hh').congr (fun x hx => (hframe h' hh' hne x hx).1.next)
      fun x hx => (hframe h' hh' hne x hx).1.prev
  info h' hh' p hp := by
    by_cases hne : h' = hlHead
    · subst hne
      rw [Shelf.fields_put_self] at hp
      exact hinfo p hp
    have hh' := Shelf.mem_heads_of_mem_put hh' hne
    rw [Shelf.fields_put_of_ne hne] at hp
    have hx : p.1 ∈ t.nodes h' := List.mem_cons_of_mem _ (List.mem_map_of_mem hp)
    rw [(hframe h' hh' hne _ hx).1.info]
    exact h.info h' hh' p hp
  listCount h' hh' := by
    by_cases hne : h' = hlHead
    · subst hne
      rwa [Shelf.fields_put_self]
    have hh' := Shelf.mem_heads_of_mem_put hh' hne
    rw [Shelf.fields_put_of_ne hne, (hframe h' hh' hne h' List.mem_cons_self).1.listCount]
    exact h.listCount h' hh'
  apart h₁ hh₁ h₂ hh₂ hne := by
    have hnew : ∀ h' ∈ (t.put hlHead l).heads, h' ≠ hlHead →
        ((t.put hlHead l).nodes h').Disjoint ((t.put hlHead l).nodes hlHead) := by
      intro h' hh' hne' x hx hx'
      rw [Shelf.nodes_put_of_ne hne'] at hx
      rw [Shelf.nodes, Shelf.fields_put_self] at hx'
      exact (hframe h' (Shelf.mem_heads_of_mem_put hh' hne') hne' x hx).2 hx'
    by_cases h₁' : h₁ = hlHead
    · subst h₁'
      exact (hnew h₂ hh₂ hne.symm).symm
    by_cases h₂' : h₂ = hlHead
    · subst h₂'
      exact hnew h₁ hh₁ hne
    rw [Shelf.nodes_put_of_ne h₁', Shelf.nodes_put_of_ne h₂']
    exact h.apart h₁ (Shelf.mem_heads_of_mem_put hh₁ h₁') h₂
      (Shelf.mem_heads_of_mem_put hh₂ h₂') hne

/-- A list is given up. -/
theorem drop (h : m.Shows t) (hlHead : Addr) : m.Shows (t.drop hlHead) where
  spells h' hh' := by
    obtain ⟨hh', hne⟩ := Shelf.mem_heads_drop.1 hh'
    rw [Shelf.fields_drop_of_ne hne]
    exact h.spells h' hh'
  info h' hh' p hp := by
    obtain ⟨hh', hne⟩ := Shelf.mem_heads_drop.1 hh'
    rw [Shelf.fields_drop_of_ne hne] at hp
    exact h.info h' hh' p hp
  listCount h' hh' := by
    obtain ⟨hh', hne⟩ := Shelf.mem_heads_drop.1 hh'
    rw [Shelf.fields_drop_of_ne hne]
    exact h.listCount h' hh'
  apart h₁ hh₁ h₂ hh₂ hne := by
    obtain ⟨hh₁, hne₁⟩ := Shelf.mem_heads_drop.1 hh₁
    obtain ⟨hh₂, hne₂⟩ := Shelf.mem_heads_drop.1 hh₂
    rw [Shelf.nodes_drop_of_ne hne₁, Shelf.nodes_drop_of_ne hne₂]
    exact h.apart h₁ hh₁ h₂ hh₂ hne

/-- A field changes. -/
theorem change (h : m.Shows t) (a : Addr) (g : ProtoInfo → ProtoInfo) :
    FieldMemory.Shows { m with info := Function.update m.info a (g (m.info a)) }
      (t.change a g) where
  spells h' hh' := by
    rw [Shelf.map_fst_change]
    exact h.spells h' hh'
  info h' hh' p hp := by
    obtain ⟨q, hq, rfl⟩ := List.mem_map.1 hp
    have hinfo := h.info h' hh' q hq
    split_ifs with hqa
    · rw [← hinfo, hqa]
      exact Function.update_self ..
    · exact (Function.update_of_ne hqa ..).trans hinfo
  listCount h' hh' := by
    rw [h.listCount h' hh', Shelf.change, List.length_map]
  apart h₁ hh₁ h₂ hh₂ hne := by
    rw [Shelf.nodes, Shelf.nodes, Shelf.map_fst_change, Shelf.map_fst_change]
    exact h.apart h₁ hh₁ h₂ hh₂ hne

/-- A new list is empty. -/
theorem initHeadList (h : m.Shows t) (hnew : hlHead ∉ t.used) :
    (pfsInitHeadList hlHead m).Shows (t.put hlHead []) := by
  refine h.put ?_ nofun (Function.update_self ..) fun h' hh' _ x hx => ?_
  · exact .empty (by simp [pfsInitHeadList, initListHead, Links.setNext, Links.setPrev])
      (by simp [pfsInitHeadList, initListHead, Links.setNext, Links.setPrev])
  · have hne : x ≠ hlHead := fun e => hnew (e ▸ Shelf.mem_used_of_mem hh' hx)
    refine ⟨⟨?_, ?_, rfl, Function.update_of_ne hne ..⟩, by simpa using hne⟩
    · simp [pfsInitHeadList, initListHead, Links.setNext, Links.setPrev, hne]
    · simp [pfsInitHeadList, initListHead, Links.setNext, Links.setPrev, hne]

/-- A new field goes to the end of its list. -/
theorem addList (h : m.Shows t) (hhl : hlHead ∈ t.heads) (ha : a ∉ t.used) (f : ProtoInfo) :
    (pfsAddList a hlHead { m with info := Function.update m.info a f }).Shows
      (t.put hlHead (t.fields hlHead ++ [(a, f)])) := by
  have hne : ∀ {h' x}, h' ∈ t.heads → x ∈ t.nodes h' → x ≠ a := fun hh' hx e =>
    ha (e ▸ Shelf.mem_used_of_mem hh' hx)
  have hspells := h.spells hlHead hhl
  have hprev : m.links.prev hlHead ∈ t.nodes hlHead := hspells.prev_head_mem
  refine h.put ?_ (fun p hp => ?_) ?_ fun h' hh' hne' x hx => ?_
  · rw [List.map_append]
    exact hspells.insert_tail fun hmem => hne hhl hmem rfl
  · rcases List.mem_append.1 hp with hp | hp
    · have hp1 : p.1 ∈ t.nodes hlHead := List.mem_cons_of_mem _ (List.mem_map_of_mem hp)
      exact (Function.update_of_ne (hne hhl hp1) ..).trans (h.info hlHead hhl p hp)
    · obtain rfl := List.mem_singleton.1 hp
      exact Function.update_self ..
  · rw [List.length_append, List.length_singleton, UInt8.ofNat_add, ← h.listCount hlHead hhl]
    exact Function.update_self ..
  · -- a node of another list is neither the new field nor a node of this list
    have hxa : x ≠ a := hne hh' hx
    have hxl : x ∉ t.nodes hlHead := h.apart h' hh' hlHead hhl hne' hx
    have hxh : x ≠ hlHead := fun e => hxl (e ▸ List.mem_cons_self)
    have hxp : x ≠ m.links.prev hlHead := fun e => hxl (e ▸ hprev)
    refine ⟨⟨?_, ?_, Function.update_of_ne hxa .., Function.update_of_ne hxh ..⟩, ?_⟩
    · exact (Links.between_next ..).trans ((if_neg hxp).trans (if_neg hxa))
    · exact (Links.between_prev ..).trans ((if_neg hxa).trans (if_neg hxh))
    · rw [List.map_append, ← List.cons_append, List.mem_append, not_or]
      exact ⟨hxl, by simpa using hxa⟩

/-- The first field of a list is taken out. -/
theorem delList (h : m.Shows t) (hhl : hlHead ∈ t.heads) {p : Addr × ProtoInfo}
    (hfields : t.fields hlHead = p :: l) :
    (pfsDelListAt p.1 hlHead m).1 = pfsDelList p.2 ∧
      (pfsDelListAt p.1 hlHead m).2.Shows (t.put hlHead l) := by
  have hinfo := h.info hlHead hhl
  have hcount := h.listCount hlHead hhl
  have hspells := h.spells hlHead hhl
  have hnext : m.links.next p.1 ∈ t.nodes hlHead := hspells.next_mem_cons (by simp [hfields])
  rw [hfields] at hinfo hcount hspells
  rw [List.map_cons, ← List.nil_append (p.1 :: _)] at hspells
  have hnodup := hspells.nodup
  simp only [List.nil_append, List.nodup_cons, List.mem_cons, not_or] at hnodup
  obtain ⟨⟨hhp, hhl'⟩, hpl, -⟩ := hnodup
  have hprev : m.links.prev p.1 = hlHead := hspells.prev_mem
  refine ⟨congrArg pfsDelList (hinfo p List.mem_cons_self),
    h.put ?_ (fun q hq => hinfo q (List.mem_cons_of_mem _ hq)) ?_ fun h' hh' hne' x hx => ?_⟩
  · -- the poison is in the node that is taken out
    have hne : ∀ x ∈ hlHead :: l.map Prod.fst, x ≠ p.1 := by
      rintro x hx rfl
      rcases List.mem_cons.1 hx with e | hx
      · exact hhp e.symm
      · exact hpl hx
    exact hspells.remove.congr (fun x hx => Function.update_of_ne (hne x hx) ..)
      fun x hx => Function.update_of_ne (hne x hx) ..
  · change Function.update m.listCount hlHead (m.listCount hlHead - 1) hlHead = _
    rw [Function.update_self, hcount, List.length_cons, UInt8.ofNat_add]
    exact add_sub_cancel_right (UInt8.ofNat l.length) 1
  · have hxl : x ∉ t.nodes hlHead := h.apart h' hh' hlHead hhl hne' hx
    have hxh : x ≠ hlHead := fun e => hxl (e ▸ List.mem_cons_self)
    have hxp : x ≠ p.1 := fun e => hxl (by simp [e, Shelf.nodes, hfields])
    have hxn : x ≠ m.links.next p.1 := fun e => hxl (e ▸ hnext)
    refine ⟨⟨?_, ?_, rfl, Function.update_of_ne hxh ..⟩, fun hmem => hxl ?_⟩
    · refine (Function.update_of_ne hxp ..).trans ((Links.join_next ..).trans (if_neg ?_))
      rwa [hprev]
    · exact (Function.update_of_ne hxp ..).trans ((Links.join_prev ..).trans (if_neg hxn))
    · rw [Shelf.nodes, hfields]
      rcases List.mem_cons.1 hmem with rfl | hmem
      · exact List.mem_cons_self
      · exact List.mem_cons_of_mem _ (List.mem_cons_of_mem _ hmem)

end Shows

end FieldMemory

/-! ## The loops -/

section Loops

variable {m m' : FieldMemory} {t : Shelf} {hlHead copy : Addr} {infos : List Addr} {fuel : ℕ}
  {l pre post : List (Addr × ProtoInfo)} {p : Addr × ProtoInfo}

open FieldMemory

/-- Behind a node of a list is the next one. -/
theorem FieldMemory.Shows.next_mem (h : m.Shows t) (hhl : hlHead ∈ t.heads)
    (hfields : t.fields hlHead = pre ++ p :: post) :
    p.1 ≠ hlHead ∧ m.links.next p.1 = (post.map Prod.fst).headD hlHead := by
  have hspells := h.spells hlHead hhl
  rw [hfields, List.map_append, List.map_cons] at hspells
  refine ⟨?_, hspells.next_mem⟩
  rintro rfl
  exact (List.nodup_cons.1 hspells.nodup).1 (by simp)

/-- The fields `pre` have been noted down. -/
def Noting (t : Shelf) (hlHead : Addr) (rest : List Addr) (pre : List (Addr × ProtoInfo)) : Prop :=
  ∃ post, t.fields hlHead = pre ++ post ∧ post.map Prod.fst = rest

theorem FieldMemory.Shows.noteField_noting (h : m.Shows t) (hhl : hlHead ∈ t.heads) {a : Addr}
    {rest : List Addr} (hI : Noting t hlHead (a :: rest) pre) :
    ∃ s', noteField m a pre = some s' ∧ Noting t hlHead rest s' := by
  obtain ⟨post, hfields, hrest⟩ := hI
  obtain ⟨p, post, rfl, rfl, rfl⟩ := List.map_eq_cons_iff.1 hrest
  refine ⟨_, rfl, post, ?_, rfl⟩
  rw [h.info hlHead hhl p (by simp [hfields]), hfields, List.append_assoc]
  rfl

/-- **What a loop that changes no link sees is the list.** -/
theorem FieldMemory.Shows.listFields_eq (h : m.Shows t) (hhl : hlHead ∈ t.heads)
    (hfuel : (t.fields hlHead).length ≤ fuel) :
    listFields hlHead fuel m = some (t.fields hlHead) := by
  have hnext : ∀ p rest pre, Noting t hlHead (p :: rest) pre →
      p ≠ hlHead ∧ m.links.next p = rest.headD hlHead := by
    rintro a rest pre ⟨post, hfields, hrest⟩
    obtain ⟨p, post, rfl, rfl, rfl⟩ := List.map_eq_cons_iff.1 hrest
    exact h.next_mem hhl hfields
  have hstart : Noting t hlHead ((t.fields hlHead).map Prod.fst) [] := ⟨_, rfl, rfl⟩
  have hlen : ((t.fields hlHead).map Prod.fst).length ≤ fuel := by rwa [List.length_map]
  obtain ⟨s, hs, post, hfields, hrest⟩ :=
    listForEachSafe_rule hnext (fun _ _ _ => h.noteField_noting hhl) hstart hlen
  rw [List.map_eq_nil_iff.1 hrest, List.append_nil] at hfields
  rw [listFields, (h.spells hlHead hhl).next_head, hs, hfields]

/-- The first fields have been freed, and the others are left. -/
def Releasing (t : Shelf) (hlHead : Addr) (rest : List Addr)
    (s : List FreedBlock × FieldMemory) : Prop :=
  ∃ pre post, t.fields hlHead = pre ++ post ∧ post.map Prod.fst = rest ∧
    s.1 = (pre.map Prod.snd).flatMap pfsDelList ∧ s.2.Shows (t.put hlHead post)

theorem Releasing.delField {a : Addr} {rest : List Addr} {s : List FreedBlock × FieldMemory}
    (h : Releasing t hlHead (a :: rest) s) :
    ∃ s', delField hlHead a s = some s' ∧ Releasing t hlHead rest s' := by
  obtain ⟨pre, post, hfields, hrest, hfreed, hs⟩ := h
  obtain ⟨p, post, rfl, rfl, rfl⟩ := List.map_eq_cons_iff.1 hrest
  obtain ⟨hblocks, hshows⟩ := hs.delList (by simp) (Shelf.fields_put_self (t := t))
  rw [Shelf.put_put] at hshows
  refine ⟨_, rfl, pre ++ [p], post, by simp [hfields], rfl, ?_, hshows⟩
  rw [hfreed, hblocks, List.map_append, List.flatMap_append]
  exact congrArg _ (List.flatMap_singleton ..).symm

/-- **A list is released**, with what its fields have. -/
theorem FieldMemory.Shows.destroy (h : m.Shows t) (hhl : hlHead ∈ t.heads)
    (hfuel : (t.fields hlHead).length ≤ fuel) :
    ∃ m', pfsDelListForEachAt hlHead fuel m =
        some (pfsDelListForEach ((t.fields hlHead).map Prod.snd), m') ∧
      m'.Shows (t.drop hlHead) := by
  have hnext : ∀ p rest (s : List FreedBlock × FieldMemory), Releasing t hlHead (p :: rest) s →
      p ≠ hlHead ∧ s.2.links.next p = rest.headD hlHead := by
    rintro a rest s ⟨pre, post, hfields, hrest, -, hs⟩
    obtain ⟨p, post, rfl, rfl, rfl⟩ := List.map_eq_cons_iff.1 hrest
    exact hs.next_mem (by simp) ((Shelf.fields_put_self).trans (List.nil_append _).symm)
  have hsame : m.Shows (t.put hlHead (t.fields hlHead)) :=
    h.put (h.spells hlHead hhl) (h.info hlHead hhl) (h.listCount hlHead hhl)
      fun h' hh' hne x hx => ⟨⟨rfl, rfl, rfl, rfl⟩, h.apart h' hh' hlHead hhl hne hx⟩
  have hstart : Releasing t hlHead ((t.fields hlHead).map Prod.fst) ([], m) :=
    ⟨[], _, rfl, rfl, rfl, hsame⟩
  have hlen : ((t.fields hlHead).map Prod.fst).length ≤ fuel := by rwa [List.length_map]
  obtain ⟨⟨freed, m'⟩, hs, pre, post, hfields, hrest, hfreed, hm'⟩ :=
    listForEachSafe_rule hnext (fun _ _ _ => Releasing.delField) hstart hlen
  rw [List.map_eq_nil_iff.1 hrest, List.append_nil] at hfields
  refine ⟨m', ?_, ?_⟩
  · rw [pfsDelListForEachAt, (h.spells hlHead hhl).next_head]
    refine (congrArg (Option.map _) hs).trans ?_
    rw [Option.map_some, hfreed, hfields]
    rfl
  · have hdrop := hm'.drop hlHead
    rwa [Shelf.drop_put] at hdrop

/-- The first fields have been copied to the list at `copy`, and the allocator has enough blocks
left for the others. -/
def Copying (t : Shelf) (hlHead copy : Addr) (infos rest : List Addr)
    (s : List Addr × FieldMemory) : Prop :=
  ∃ pre post c, t.fields hlHead = pre ++ post ∧ post.map Prod.fst = rest ∧
    c ++ s.1.zip (post.map Prod.snd) = infos.zip ((t.fields hlHead).map Prod.snd) ∧
    s.2.Shows (t.put copy c) ∧ post.length ≤ s.1.length ∧ s.1.Nodup ∧
    ∀ a ∈ s.1, a ∉ (t.put copy c).used

theorem Copying.copyField {a : Addr} {rest : List Addr} {s : List Addr × FieldMemory}
    (hhl : hlHead ∈ t.heads) (hne : hlHead ≠ copy)
    (h : Copying t hlHead copy infos (a :: rest) s) :
    ∃ s', copyField copy a s = some s' ∧ Copying t hlHead copy infos rest s' := by
  obtain ⟨pre, post, c, hfields, hrest, hc, hs, hlen, hnd, hnew⟩ := h
  obtain ⟨p, post, rfl, rfl, rfl⟩ := List.map_eq_cons_iff.1 hrest
  obtain ⟨_ | ⟨b, left⟩, m⟩ := s
  · exact absurd hlen (by simp)
  obtain ⟨hb, hleft⟩ := List.nodup_cons.1 hnd
  have hinfo : m.info p.1 = p.2 := hs.info hlHead (by simp [hhl]) p
    (by rw [Shelf.fields_put_of_ne hne, hfields]; simp)
  have hhead : copy ∈ (t.put copy c).heads := Shelf.mem_heads_put.2 (.inl rfl)
  have hadd := hs.addList hhead (hnew b List.mem_cons_self) (m.info p.1)
  rw [Shelf.put_put, Shelf.fields_put_self, hinfo] at hadd
  refine ⟨_, rfl, pre ++ [p], post, c ++ [(b, p.2)], by simp [hfields], rfl, ?_, ?_, ?_, hleft,
    fun x hx hused => ?_⟩
  · rw [← hc, List.append_assoc]
    rfl
  · rw [hinfo]
    exact hadd
  · exact Nat.le_of_succ_le_succ hlen
  · -- a block that is left is neither the one just taken nor in use before
    have hold : x ∉ (t.put copy c).used := hnew x (List.mem_cons_of_mem _ hx)
    rw [← Shelf.put_put (l := c)] at hused
    rcases Shelf.mem_used_put hused with hx' | hx'
    · rw [List.map_append, ← List.cons_append, List.mem_append] at hx'
      rcases hx' with hx' | hx'
      · refine hold (Shelf.mem_used_of_mem hhead ?_)
        rwa [Shelf.nodes, Shelf.fields_put_self]
      · have hxb : x = b := List.mem_singleton.1 hx'
        exact hb (hxb ▸ hx)
    · exact hold hx'

/-- **A list is copied**, and stays as it is. -/
theorem FieldMemory.Shows.copyList (h : m.Shows t) (hhl : hlHead ∈ t.heads)
    (hnd : (copy :: infos).Nodup) (hnew : ∀ a ∈ copy :: infos, a ∉ t.used)
    (hlen : (t.fields hlHead).length ≤ infos.length) (hfuel : (t.fields hlHead).length ≤ fuel) :
    ∃ m', paCopyProtocolFormatAt copy infos hlHead fuel m = some m' ∧
      m'.Shows (t.put copy (infos.zip ((t.fields hlHead).map Prod.snd))) := by
  have hcopy : copy ∉ t.used := hnew copy List.mem_cons_self
  have hne : hlHead ≠ copy := fun e =>
    hcopy (e ▸ Shelf.mem_used_of_mem hhl List.mem_cons_self)
  have hnext : ∀ p rest (s : List Addr × FieldMemory),
      Copying t hlHead copy infos (p :: rest) s →
      p ≠ hlHead ∧ s.2.links.next p = rest.headD hlHead := by
    rintro a rest s ⟨pre, post, c, hfields, hrest, -, hs, -⟩
    obtain ⟨p, post, rfl, rfl, rfl⟩ := List.map_eq_cons_iff.1 hrest
    exact hs.next_mem (by simp [hhl]) ((Shelf.fields_put_of_ne hne).trans hfields)
  have hempty := h.initHeadList hcopy
  have hstart : Copying t hlHead copy infos ((t.fields hlHead).map Prod.fst)
      (infos, pfsInitHeadList copy m) := by
    refine ⟨[], _, [], rfl, rfl, rfl, hempty, hlen, (List.nodup_cons.1 hnd).2, fun x hx hused => ?_⟩
    rcases Shelf.mem_used_put hused with hx' | hx'
    · exact (List.nodup_cons.1 hnd).1 (List.mem_singleton.1 hx' ▸ hx)
    · exact hnew x (List.mem_cons_of_mem _ hx) hx'
  have hfuel' : ((t.fields hlHead).map Prod.fst).length ≤ fuel := by rwa [List.length_map]
  obtain ⟨⟨left, m'⟩, hs, pre, post, c, hfields, hrest, hc, hm', -⟩ :=
    listForEachSafe_rule hnext (fun _ _ _ => Copying.copyField hhl hne) hstart hfuel'
  rw [List.map_eq_nil_iff.1 hrest, List.map_nil, List.zip_nil_right, List.append_nil] at hc
  refine ⟨m', ?_, hc ▸ hm'⟩
  have hhead := (hempty.spells hlHead (by simp [hhl])).next_head
  rw [Shelf.fields_put_of_ne hne] at hhead
  rw [paCopyProtocolFormatAt, hhead]
  exact congrArg (Option.map Prod.snd) hs

end Loops

/-! ## The functions on lists -/

/-- `pfsSetProtoInfo` does to the list of fields what `pfs_set_proto_info` does in memory. -/
theorem pfsSetProtoInfo_eq (attrs : FieldAttrs) (hlHead : List ProtoInfo) :
    pfsSetProtoInfo attrs.name attrs.bytePos attrs.bitPos attrs.len attrs.lenUnit
      attrs.vlenthIndex hlHead = attrs.info.map fun f => hlHead ++ [f] := by
  rw [pfsSetProtoInfo, FieldAttrs.info]
  simp only [Option.bind_eq_bind, Option.map_eq_bind, Option.bind_assoc, Function.comp_def]

/-- `paCopyProtocolFormat` makes the list that `pa_copy_protocol_format` makes in memory. -/
theorem paCopyProtocolFormat_zip {pa : ProtocolAnalyzer} {hl : List ProtoInfo}
    (hpf : pa.pfListHeadP = some hl) {infos : List Addr} (hnd : infos.Nodup)
    (hlen : hl.length ≤ infos.length) :
    (paCopyProtocolFormat infos pa).2.paListHeadP = some ((infos.zip hl).map Prod.fst) ∧
      ∀ p ∈ infos.zip hl, (paCopyProtocolFormat infos pa).2.info p.1 = p.2 := by
  have hfst : (infos.zip hl).map Prod.fst = infos.take hl.length := by
    rw [List.zip_eq_zip_take_min, min_eq_right hlen, List.take_length, List.map_fst_zip]
    rw [List.length_take, min_eq_left hlen]
  rw [paCopyProtocolFormat, hpf]
  refine ⟨congrArg some hfst.symm, fun p hp => ?_⟩
  refine Init.foldl_update_eq ?_ _ hp
  rw [hfst]
  exact hnd.sublist (List.take_sublist _ _)

/-! ## Runs -/

/-- A call that concerns the field lists. -/
inductive FieldListCall
  /-- `pfs_create_head_list` and `pfs_init_head_list` -/
  | create (hlHead : Addr)
  /-- `pfs_set_proto_info` -/
  | set (a : Addr) (attrs : FieldAttrs) (hlHead : Addr)
  /-- `pa_copy_protocol_format` -/
  | copy (newHead : Addr) (infos : List Addr) (hlHead : Addr) (fuel : ℕ)
  /-- Whatever an analyzer does to the field at `a`. -/
  | change (a : Addr) (g : ProtoInfo → ProtoInfo)
  /-- `pfs_del_list_for_each` -/
  | destroy (hlHead : Addr) (fuel : ℕ)

namespace FieldListCall

/-- What the call does in memory. -/
def run : FieldListCall → FieldMemory → Option FieldMemory
  | .create hlHead, m => some (pfsInitHeadList hlHead m)
  | .set a attrs hlHead, m => pfsSetProtoInfoAt a attrs hlHead m
  | .copy newHead infos hlHead fuel, m => paCopyProtocolFormatAt newHead infos hlHead fuel m
  | .change a g, m => some { m with info := Function.update m.info a (g (m.info a)) }
  | .destroy hlHead fuel, m => (pfsDelListForEachAt hlHead fuel m).map Prod.snd

/-- What the call does to the shelf. -/
def apply : FieldListCall → Shelf → Shelf
  | .create hlHead, t => t.put hlHead []
  | .set a attrs hlHead, t =>
    match attrs.info with
    | some f => t.put hlHead (t.fields hlHead ++ [(a, f)])
    | none => t
  | .copy newHead infos hlHead _, t =>
    t.put newHead (infos.zip ((t.fields hlHead).map Prod.snd))
  | .change a g, t => t.change a g
  | .destroy hlHead _, t => t.drop hlHead

/-- The allocator hands out what is not in use, and enough of it, the lists are on the shelf, and
the loops are given the steps they need. -/
def Allowed : FieldListCall → Shelf → Prop
  | .create hlHead, t => hlHead ∉ t.used
  | .set a attrs hlHead, t => hlHead ∈ t.heads ∧ a ∉ t.used ∧ attrs.info.isSome
  | .copy newHead infos hlHead fuel, t =>
    hlHead ∈ t.heads ∧ (newHead :: infos).Nodup ∧ (∀ a ∈ newHead :: infos, a ∉ t.used) ∧
      (t.fields hlHead).length ≤ infos.length ∧ (t.fields hlHead).length ≤ fuel
  | .change _ _, _ => True
  | .destroy hlHead fuel, t => hlHead ∈ t.heads ∧ (t.fields hlHead).length ≤ fuel

instance : (c : FieldListCall) → (t : Shelf) → Decidable (c.Allowed t)
  | .create hlHead, t => inferInstanceAs (Decidable (hlHead ∉ t.used))
  | .set a attrs hlHead, t =>
    inferInstanceAs (Decidable (hlHead ∈ t.heads ∧ a ∉ t.used ∧ attrs.info.isSome))
  | .copy newHead infos hlHead fuel, t =>
    have := List.decidableBAll (fun a => a ∉ t.used) (newHead :: infos)
    inferInstanceAs (Decidable (hlHead ∈ t.heads ∧ (newHead :: infos).Nodup ∧
      (∀ a ∈ newHead :: infos, a ∉ t.used) ∧ (t.fields hlHead).length ≤ infos.length ∧
      (t.fields hlHead).length ≤ fuel))
  | .change _ _, _ => .isTrue trivial
  | .destroy hlHead fuel, t =>
    inferInstanceAs (Decidable (hlHead ∈ t.heads ∧ (t.fields hlHead).length ≤ fuel))

/-- On the shelf, `pfs_set_proto_info` is `pfsSetProtoInfo`. -/
theorem apply_set {a hlHead : Addr} {attrs : FieldAttrs} {t : Shelf}
    (hok : Allowed (.set a attrs hlHead) t) :
    pfsSetProtoInfo attrs.name attrs.bytePos attrs.bitPos attrs.len attrs.lenUnit
      attrs.vlenthIndex ((t.fields hlHead).map Prod.snd) =
        some (((apply (.set a attrs hlHead) t).fields hlHead).map Prod.snd) := by
  obtain ⟨-, -, hinfo⟩ := hok
  obtain ⟨f, hf⟩ := Option.isSome_iff_exists.1 hinfo
  rw [pfsSetProtoInfo_eq, apply, hf]
  simp

/-- On the shelf, `pa_copy_protocol_format` is `paCopyProtocolFormat`. -/
theorem apply_copy {newHead hlHead : Addr} {infos : List Addr} {fuel : ℕ} {t : Shelf}
    (hok : Allowed (.copy newHead infos hlHead fuel) t) {pa : ProtocolAnalyzer}
    (hpf : pa.pfListHeadP = some ((t.fields hlHead).map Prod.snd)) :
    (paCopyProtocolFormat infos pa).2.paListHeadP =
        some (((apply (.copy newHead infos hlHead fuel) t).fields newHead).map Prod.fst) ∧
      ∀ p ∈ (apply (.copy newHead infos hlHead fuel) t).fields newHead,
        (paCopyProtocolFormat infos pa).2.info p.1 = p.2 := by
  obtain ⟨-, hnd, -, hlen, -⟩ := hok
  rw [apply, Shelf.fields_put_self]
  exact paCopyProtocolFormat_zip hpf (List.nodup_cons.1 hnd).2 (by rwa [List.length_map])

end FieldListCall

/-- The calls that concern the field lists. -/
def fieldListCalls : Refinement FieldListCall FieldMemory Shelf where
  step := FieldListCall.run
  next := FieldListCall.apply
  Ok := FieldListCall.Allowed

instance (c : FieldListCall) (t : Shelf) : Decidable (fieldListCalls.Ok c t) :=
  inferInstanceAs (Decidable (c.Allowed t))

/-- **One call does to the memory what it does to the shelf.** -/
theorem fieldListCalls_simulates : fieldListCalls.Simulates FieldMemory.Shows := by
  intro c m t h hok
  cases c with
  | create hlHead => exact ⟨_, rfl, h.initHeadList hok⟩
  | set a attrs hlHead =>
    obtain ⟨hhl, ha, hinfo⟩ := hok
    obtain ⟨f, hf⟩ := Option.isSome_iff_exists.1 hinfo
    refine ⟨pfsAddList a hlHead { m with info := Function.update m.info a f }, ?_, ?_⟩
    · change pfsSetProtoInfoAt a attrs hlHead m = _
      rw [pfsSetProtoInfoAt, hf]
      rfl
    · change FieldMemory.Shows _ (FieldListCall.apply (.set a attrs hlHead) t)
      rw [FieldListCall.apply, hf]
      exact h.addList hhl ha f
  | copy newHead infos hlHead fuel =>
    obtain ⟨hhl, hnd, hnew, hlen, hfuel⟩ := hok
    exact h.copyList hhl hnd hnew hlen hfuel
  | change a g => exact ⟨_, rfl, h.change a g⟩
  | destroy hlHead fuel =>
    obtain ⟨hhl, hfuel⟩ := hok
    obtain ⟨m', hdel, hm'⟩ := h.destroy hhl hfuel
    exact ⟨m', congrArg (Option.map Prod.snd) hdel, hm'⟩

/-- The list at `hlHead` is `l`: the loops see it, the head counts it (with eight bits), and a
release frees what its fields have. -/
structure FieldMemory.Serves (m : FieldMemory) (hlHead : Addr) (l : List (Addr × ProtoInfo)) :
    Prop where
  listFields : ∀ fuel, l.length ≤ fuel → listFields hlHead fuel m = some l
  listCount : (m.listCount hlHead).toNat = l.length % 2 ^ 8
  release : ∀ fuel, l.length ≤ fuel →
    ∃ m', pfsDelListForEachAt hlHead fuel m = some (pfsDelListForEach (l.map Prod.snd), m')

/-- **Field lists do not disturb each other.** Any calls that are given blocks not in use succeed,
and leave in memory just the lists that they leave on the shelf. -/
theorem runFieldLists (calls : List FieldListCall) (hok : fieldListCalls.Admissible calls .empty)
    (m : FieldMemory) :
    ∃ m', fieldListCalls.run calls m = some m' ∧
      ∀ hlHead ∈ (fieldListCalls.after calls .empty).heads,
        m'.Serves hlHead ((fieldListCalls.after calls .empty).fields hlHead) := by
  obtain ⟨m', hrun, h⟩ := fieldListCalls_simulates.run (FieldMemory.Shows.of_empty m) hok
  refine ⟨m', hrun, fun hlHead hhl => ?_⟩
  exact
    { listFields := fun fuel hfuel => h.listFields_eq hhl hfuel
      listCount := by rw [h.listCount hlHead hhl, UInt8.toNat_ofNat']
      release := fun fuel hfuel => by
        obtain ⟨m₁, hdel, -⟩ := h.destroy hhl hfuel
        exact ⟨m₁, hdel⟩ }

/-- A field of `n` bytes with this name. -/
def shortField (name n : String) : FieldAttrs :=
  ⟨some (str name), some (str "0"), some (str "0"), some (str n), some (str "8"), none⟩

/-- A format of two fields is copied, the copy is changed, and the format is released. -/
def twoFields : List FieldListCall :=
  [.create 64, .set 128 (shortField "lab" "2") 64, .set 192 (shortField "len" "1") 64,
    .copy 256 [320, 384, 448] 64 2, .change 384 (setValue 7), .destroy 64 2]

/-- A memory of zeros. -/
def zeroMemory : FieldMemory := ⟨⟨fun _ => 0, fun _ => 0⟩, fun _ => ProtoInfo.zero, fun _ => 0⟩

/-- What is left is the copy. -/
theorem runFieldLists_twoFields : ∃ m', fieldListCalls.run twoFields zeroMemory = some m' ∧
    (listFields 256 2 m').map (List.map fun p => (p.1, p.2.len, p.2.data)) =
      some [(320, 2, 0), (384, 1, 7)] := by
  obtain ⟨m', hrun, hserves⟩ := runFieldLists twoFields (by decide +kernel) zeroMemory
  refine ⟨m', hrun, ?_⟩
  rw [(hserves 256 (by decide +kernel)).listFields 2 (by decide +kernel)]
  decide +kernel

end HpiDriver
