import HpiDriver.DataStructure.HashListDestroy
import HpiDriver.DataStructure.LinkListDestroy
import HpiDriver.TaskAdmin.Board

/-!
# The life of a task admin

The blocks of a task admin from `create_task_admin` to `destroy_task_admin`. Whatever is added and
fetched in between, the destruction returns the nodes of all four containers, once
(`destroyTaskAdmin_books`). What it forgets are the structures of the containers themselves, the
pair, and the nodes that `get_task` has taken out of their list.
-/

namespace HpiDriver

open Simulation Ledger

/-- A block of a task admin: a structure, the array of the buckets of a map, or a node, be it the
head of a list. -/
inductive AdminBlock
  | allocator
  | admin
  | container (c : Container)
  | buckets (c : Container)
  | pair
  | node (a : Addr)
  deriving DecidableEq

/-- What `create_task_admin` allocates, in order. -/
def createBlocks (dataHead voiceHead : Addr) : List AdminBlock :=
  [.allocator, .admin, .container .dataSys, .node dataHead, .container .voiceSys, .node voiceHead,
    .container .dataUser, .buckets .dataUser, .container .voiceUser, .buckets .voiceUser, .pair]

/-- What a call asks for: `add_task` one node when it has a container for its task, `get_task`
nothing. It does not free the node that it detaches either. -/
def AdminCall.events : AdminCall → Board → List (Event AdminBlock)
  | .add env task flag, _ =>
    if flag = TASK_FLAG_SND ∧ task.container ≠ none then
      match env.node with
      | some n => [.alloc (.node n)]
      | none => []
    else []
  | .get .., _ => []

/-- `destroy_task_admin`: the blocks it frees, in order. -/
def destroyTaskAdmin (fuel : ℕ) (admin : TaskAdmin) : Option (List AdminBlock) := do
  let voiceUser ← hashMapRelease .node (.buckets .voiceUser) fuel admin.voiceUserDesignateSlot
  let dataUser ← hashMapRelease .node (.buckets .dataUser) fuel admin.dataUserDesignateSlot
  let (voiceSys, _) ← llistDestroy fuel admin.voiceSysDesignateSlot
  let (dataSys, _) ← llistDestroy fuel admin.dataSysDesignateSlot
  some (voiceUser ++ dataUser ++ voiceSys.map .node ++ dataSys.map .node ++ [.admin, .allocator])

/-! ## The blocks that are held -/

/-- The blocks of an admin with this board. -/
def Board.held (b : Board) : Set AdminBlock :=
  {x | x ∈ createBlocks b.dataHead b.voiceHead ∨ ∃ a ∈ b.nodes, x = .node a}

section Held

variable {b : Board}

/-- The nodes after a task has been added. -/
theorem nodes_add (env : AddEnv) (task : Task) (flag : UInt8) :
    (b.add env task flag).nodes.Perm
      (if flag = TASK_FLAG_SND ∧ task.container ≠ none then env.node.toList ++ b.nodes
        else b.nodes) := by
  unfold Board.add
  by_cases hflag : flag = TASK_FLAG_SND
  · rw [if_pos hflag]
    cases hc : task.container with
    | none => simp
    | some c =>
      rw [if_pos ⟨hflag, Option.some_ne_none c⟩]
      cases hn : env.node with
      | none => cases c <;> simp
      | some n =>
        rw [List.perm_iff_count]
        intro a
        cases c <;>
          simp only [Board.nodes, Board.record, Option.toList_some, List.map_append, List.map_cons,
            List.map_nil, List.count_cons, List.count_append, List.count_nil] <;> omega
  · rw [if_neg hflag, if_neg fun h => hflag h.1]

/-- A task that is fetched leaves its node in use. -/
theorem nodes_get (flag : UInt8) (slotNum : UInt16) : (b.get flag slotNum).nodes.Perm b.nodes := by
  unfold Board.get
  split_ifs
  · cases hlog : b.dataSys with
    | nil => exact .refl _
    | cons e dataSys =>
      rw [List.perm_iff_count]
      intro a
      simp only [Board.nodes, hlog, List.map_cons, List.count_cons, List.count_append]
      omega
  · exact .refl _

theorem heads_add (env : AddEnv) (task : Task) (flag : UInt8) :
    (b.add env task flag).dataHead = b.dataHead ∧
      (b.add env task flag).voiceHead = b.voiceHead := by
  unfold Board.add
  split_ifs
  · split <;> exact ⟨rfl, rfl⟩
  · exact ⟨rfl, rfl⟩

theorem heads_get (flag : UInt8) (slotNum : UInt16) :
    (b.get flag slotNum).dataHead = b.dataHead ∧ (b.get flag slotNum).voiceHead = b.voiceHead := by
  unfold Board.get
  split_ifs
  · split <;> exact ⟨rfl, rfl⟩
  · exact ⟨rfl, rfl⟩

/-- What is held with a node more. -/
theorem Board.held_insert {b' : Board} {n : Addr}
    (hheads : b'.dataHead = b.dataHead ∧ b'.voiceHead = b.voiceHead)
    (hnodes : b'.nodes.Perm (n :: b.nodes)) : b'.held = insert (.node n) b.held := by
  ext x
  simp only [held, Set.mem_insert_iff, Set.mem_ofPred_eq, hheads.1, hheads.2, hnodes.mem_iff,
    List.mem_cons]
  constructor
  · rintro (h | ⟨a, rfl | ha, rfl⟩)
    · exact .inr (.inl h)
    · exact .inl rfl
    · exact .inr (.inr ⟨a, ha, rfl⟩)
  · rintro (rfl | h | ⟨a, ha, rfl⟩)
    · exact .inr ⟨n, .inl rfl, rfl⟩
    · exact .inl h
    · exact .inr ⟨a, .inr ha, rfl⟩

theorem Board.held_congr {b' : Board}
    (hheads : b'.dataHead = b.dataHead ∧ b'.voiceHead = b.voiceHead)
    (hnodes : b'.nodes.Perm b.nodes) : b'.held = b.held := by
  ext x
  simp only [held, Set.mem_ofPred_eq, hheads.1, hheads.2, hnodes.mem_iff]

/-- A node that is not in use is not held. -/
theorem Board.node_notMem_held {n : Addr} (hn : n ∉ b.nodes) : .node n ∉ b.held := by
  have hheads : n ≠ b.dataHead ∧ n ≠ b.voiceHead := (notMem_nodes hn).1
  rintro (h | ⟨a, ha, h⟩)
  · simp [createBlocks, hheads] at h
  · exact hn (AdminBlock.node.inj h ▸ ha)

/-- **A call keeps the books.** -/
theorem AdminCall.books {c : AdminCall} (hok : c.Allowed b) :
    Books b.held (c.events b) (c.apply b).held := by
  cases c with
  | add env task flag =>
    have hnodes := nodes_add (b := b) env task flag
    have hheads := heads_add (b := b) env task flag
    simp only [events, apply]
    split_ifs at hnodes ⊢ with h
    · cases hn : env.node with
      | none =>
        rw [hn] at hnodes
        exact (Books.nil _).cast (Board.held_congr hheads hnodes).symm
      | some n =>
        rw [hn] at hnodes
        rw [Board.held_insert hheads hnodes]
        exact .alloc_one (Board.node_notMem_held ((hok h.1).1 n hn))
    · exact (Books.nil _).cast (Board.held_congr hheads hnodes).symm
  | get flag slotNum out =>
    exact (Books.nil _).cast (Board.held_congr (heads_get ..) (nodes_get ..)).symm

/-- A call keeps the nodes apart. -/
theorem AdminCall.nodup {c : AdminCall} (hok : c.Allowed b) (hnd : b.nodes.Nodup) :
    (c.apply b).nodes.Nodup := by
  cases c with
  | add env task flag =>
    rw [apply, (nodes_add env task flag).nodup_iff]
    split_ifs with h
    · cases hn : env.node with
      | none => exact hnd
      | some n => exact List.nodup_cons.2 ⟨(hok h.1).1 n hn, hnd⟩
    · exact hnd
  | get flag slotNum out =>
    rw [apply, (nodes_get flag slotNum).nodup_iff]
    exact hnd

end Held

/-! ## The whole life -/

section Life

variable {b : Board} {admin : TaskAdmin}

/-- What is freed when the maps delete their nodes in the order of `voice` and `data`. -/
def Board.freed (b : Board) (voice data : List Addr) : List AdminBlock :=
  voice.map .node ++ [.buckets .voiceUser] ++ (data.map .node ++ [.buckets .dataUser]) ++
    (b.voiceSys.map Prod.fst ++ [b.voiceHead]).map .node ++
    (b.dataSys.map Prod.fst ++ [b.dataHead]).map .node ++ [.admin, .allocator]

/-- The nodes among them. -/
def Board.freedNodes (b : Board) (voice data : List Addr) : List Addr :=
  voice ++ data ++ (b.voiceSys.map Prod.fst ++ [b.voiceHead]) ++
    (b.dataSys.map Prod.fst ++ [b.dataHead])

/-- What destroying an admin frees. -/
theorem TaskAdmin.Shows.destroy (h : admin.Shows b) :
    ∃ voice data : List Addr, voice.Perm (b.voiceUser.map Prod.fst) ∧
      data.Perm (b.dataUser.map Prod.fst) ∧ ∀ fuel, b.nodes.length ≤ fuel →
        destroyTaskAdmin fuel admin = some (b.freed voice data) := by
  obtain ⟨voice, hvoice, hvoiceUser⟩ :=
    h.voiceUser.holds.release AdminBlock.node (.buckets .voiceUser)
  obtain ⟨data, hdata, hdataUser⟩ :=
    h.dataUser.holds.release AdminBlock.node (.buckets .dataUser)
  obtain ⟨_, -, hvoiceSys⟩ := h.voiceSys.toLinked.destroy
  obtain ⟨_, -, hdataSys⟩ := h.dataSys.toLinked.destroy
  refine ⟨voice, data, hvoice, hdata, fun fuel hf => ?_⟩
  simp only [Board.nodes, List.length_cons, List.length_append, List.length_map] at hf
  rw [destroyTaskAdmin, hvoiceUser fuel (by omega), hdataUser fuel (by omega),
    hvoiceSys fuel (by omega), hdataSys fuel (by omega), h.voiceHead, h.dataHead]
  rfl

/-- All nodes are freed but those that have been fetched. -/
theorem Board.perm_freedNodes {voice data : List Addr}
    (hvoice : voice.Perm (b.voiceUser.map Prod.fst)) (hdata : data.Perm (b.dataUser.map Prod.fst)) :
    (b.freedNodes voice data ++ b.fetched).Perm b.nodes := by
  rw [List.perm_iff_count]
  intro a
  have hv := hvoice.count_eq a
  have hd := hdata.count_eq a
  simp only [freedNodes, nodes, List.count_append, List.count_cons, List.count_nil]
  omega

theorem Board.perm_freed (b : Board) (voice data : List Addr) : (b.freed voice data).Perm
    ([.buckets .voiceUser, .buckets .dataUser, .admin, .allocator] ++
      (b.freedNodes voice data).map .node) := by
  rw [List.perm_iff_count]
  intro x
  simp only [freed, freedNodes, List.map_append, List.count_append, List.count_cons,
    List.count_nil]
  omega

theorem nodup_createBlocks {dataHead voiceHead : Addr} (hne : dataHead ≠ voiceHead) :
    (createBlocks dataHead voiceHead).Nodup := by
  simp [createBlocks, hne]

/-- What a new admin holds. -/
theorem Board.mem_held_empty {dataHead voiceHead : Addr} {x : AdminBlock} :
    x ∈ (Board.empty dataHead voiceHead).held ↔ x ∈ createBlocks dataHead voiceHead := by
  simp only [held, empty, nodes, createBlocks, Set.mem_ofPred_eq]
  grind

/-- The books of the creation. -/
theorem books_createBlocks {dataHead voiceHead : Addr} (hne : dataHead ≠ voiceHead) :
    Books ∅ ((createBlocks dataHead voiceHead).map .alloc)
      (Board.empty dataHead voiceHead).held := by
  apply (Books.allocs (nodup_createBlocks hne) (by simp)).cast
  ext x
  rw [Board.mem_held_empty, Set.empty_union]
  rfl

/-- **The books of the destruction.** What is left are the containers, the pair and the nodes of the
tasks that have been fetched. -/
theorem Board.books_freed {voice data : List Addr} (hnd : b.nodes.Nodup)
    (hvoice : voice.Perm (b.voiceUser.map Prod.fst))
    (hdata : data.Perm (b.dataUser.map Prod.fst)) :
    Books b.held ((b.freed voice data).map .free)
      ({.pair} ∪ Set.range .container ∪ {x | ∃ a ∈ b.fetched, x = .node a}) := by
  have hperm := perm_freedNodes hvoice hdata
  have hfreed := b.perm_freed voice data
  obtain ⟨hndf, -, hdisj⟩ := List.nodup_append.1 (hperm.nodup_iff.2 hnd)
  have hnodup : (b.freed voice data).Nodup := by
    have hnode : Function.Injective AdminBlock.node := fun _ _ => AdminBlock.node.inj
    rw [hfreed.nodup_iff]
    simp [List.nodup_cons, hndf.map hnode]
  refine (Books.frees hnodup ?_).cast ?_
  · -- what is freed is held
    intro x hx
    rcases List.mem_append.1 (hfreed.mem_iff.1 hx) with hx | hx
    · have hcreated : x ∈ createBlocks b.dataHead b.voiceHead := by
        simp only [createBlocks]
        grind
      exact .inl hcreated
    · obtain ⟨a, ha, rfl⟩ := List.mem_map.1 hx
      exact .inr ⟨a, hperm.mem_iff.1 (List.mem_append_left _ ha), rfl⟩
  · -- what is left
    ext x
    simp only [Set.mem_sdiff, Set.mem_ofPred_eq, hfreed.mem_iff, held, createBlocks]
    cases x with
    | node a =>
      have hnodes : a ∈ b.nodes ↔ a ∈ b.freedNodes voice data ∨ a ∈ b.fetched := by
        rw [← hperm.mem_iff, List.mem_append]
      have hheads : b.dataHead ∈ b.freedNodes voice data ∧
          b.voiceHead ∈ b.freedNodes voice data := by
        simp [freedNodes]
      have hapart : a ∈ b.freedNodes voice data → a ∉ b.fetched := fun ha ha' =>
        hdisj a ha a ha' rfl
      simp
      grind
    | container c => cases c <;> simp
    | buckets c => cases c <;> simp
    | _ => simp

/-- **The life of a task admin.** After every history of calls of a new admin its destruction ends,
and the books of the whole life are in order: every node of the lists and maps is freed once, with
the heads, the buckets, the admin and its allocator. What is left are the two `llist_t`, the two
`hash_map_t`, the pair, and the nodes of the tasks that `get_task` has fetched. -/
theorem destroyTaskAdmin_books {dataHead voiceHead : Addr} (hne : dataHead ≠ voiceHead)
    (uninit : List UInt8) {calls : List AdminCall}
    (hok : adminCalls.Admissible calls (.empty dataHead voiceHead)) :
    ∃ admin freed, adminCalls.run calls (createTaskAdmin dataHead voiceHead uninit) = some admin ∧
      (∀ fuel, (adminCalls.after calls (.empty dataHead voiceHead)).nodes.length ≤ fuel →
        destroyTaskAdmin fuel admin = some freed) ∧
      Books ∅ ((createBlocks dataHead voiceHead).map .alloc ++
          adminCalls.history AdminCall.events calls (.empty dataHead voiceHead) ++
          freed.map .free)
        ({.pair} ∪ Set.range .container ∪
          {x | ∃ a ∈ (adminCalls.after calls (.empty dataHead voiceHead)).fetched, x = .node a}) := by
  obtain ⟨admin, hrun, hshows⟩ :=
    adminCalls_simulates.run (shows_createTaskAdmin dataHead voiceHead uninit) hok
  have hnd : (adminCalls.after calls (.empty dataHead voiceHead)).nodes.Nodup :=
    Refinement.invariant (P := fun b => b.nodes.Nodup) (fun _ _ hnd hc => AdminCall.nodup hc hnd)
      (by simp [Board.empty, Board.nodes, hne]) hok
  have hbooks : Books (Board.empty dataHead voiceHead).held _ _ :=
    Refinement.books (fun _ _ hc => AdminCall.books hc) hok
  obtain ⟨voice, data, hvoice, hdata, hdestroy⟩ := hshows.destroy
  exact ⟨admin, _, hrun, hdestroy,
    ((books_createBlocks hne).append hbooks).append (Board.books_freed hnd hvoice hdata)⟩

end Life

/-- Of `mixedCalls` the first task has been fetched, and its node is never freed. -/
theorem destroyTaskAdmin_books_mixedCalls :
    ∃ admin freed, adminCalls.run mixedCalls (createTaskAdmin 64 96 []) = some admin ∧
      (∀ fuel, (adminCalls.after mixedCalls (.empty 64 96)).nodes.length ≤ fuel →
        destroyTaskAdmin fuel admin = some freed) ∧
      Books ∅ ((createBlocks 64 96).map .alloc ++
          adminCalls.history AdminCall.events mixedCalls (.empty 64 96) ++ freed.map .free)
        ({.pair} ∪ Set.range .container ∪
          {x | ∃ a ∈ (adminCalls.after mixedCalls (.empty 64 96)).fetched, x = .node a}) :=
  destroyTaskAdmin_books (by decide) [] (by decide +kernel)

example : (adminCalls.after mixedCalls (.empty 64 96)).fetched = [128] := by decide +kernel

end HpiDriver
