import HpiDriver.DataStructure.HashListRun

/-!
# Destroying a hash map

The loop of `hash_map_destroy` deletes the record at the cached begin until that position is the
end. A deletion moves the begin on to a record that is still there, if there is one, so the loop
deletes every record once and leaves nothing (`hashMapDestroy_spec`).
-/

namespace HpiDriver

/-- The loop of `hash_map_destroy`: the positions it calls `hash_map_delete` on and the map it
leaves. It stops with `none` when it has not reached the end within `fuel` passes. -/
def hashMapDestroy : ℕ → HashMap → Option (List HashMapPos × HashMap)
  | 0, hmap =>
    if hashMapPosEqual (hashMapBegin hmap) (hashMapEnd hmap) then some ([], hmap) else none
  | fuel + 1, hmap =>
    if hashMapPosEqual (hashMapBegin hmap) (hashMapEnd hmap) then some ([], hmap)
    else do
      let hmap' ← hashMapDelete hmap (hashMapBegin hmap)
      let r ← hashMapDestroy fuel hmap'
      some (hashMapBegin hmap :: r.1, r.2)

namespace Holds

variable {m : HashMap} {log : List Record}

/-- The begin is the end when nothing is held. -/
theorem begin_eq_end_iff (h : Holds m log) :
    hashMapPosEqual (hashMapBegin m) (hashMapEnd m) = true ↔ log = [] := by
  rw [← h.begin_none, hashMapPosEqual, beq_iff_eq, hashMapEnd, h.end_, hashMapBegin]

/-- A pass of the loop takes one record out of the map. -/
theorem destroy_step (h : Holds m log) (hne : log ≠ []) :
    ∃ a m', (hashMapBegin m).hlistNodeP = some a ∧ hashMapDelete m (hashMapBegin m) = some m' ∧
      Holds m' (log.filter fun r => r.1 ≠ a) ∧ a ∈ log.map Prod.fst ∧
      m'.live = m.live.erase a := by
  obtain ⟨a, ha⟩ := Option.ne_none_iff_exists'.1 (mt h.begin_none.1 hne)
  obtain ⟨B, hdel, hm'⟩ := h.delete (h.begin_live ha)
  exact ⟨a, _, ha, hdel, hm', mem_log_of_mem_bucket (h.begin_live ha).2, rfl⟩

/-- Taking out one record. -/
theorem perm_filter (h : Holds m log) {a : Addr} (ha : a ∈ log.map Prod.fst) :
    (log.map Prod.fst).Perm (a :: (log.filter fun r => r.1 ≠ a).map Prod.fst) := by
  have herase : (log.filter fun r => r.1 ≠ a).map Prod.fst = (log.map Prod.fst).erase a := by
    rw [h.nodup.erase_eq_filter, List.filter_map]
    refine congrArg _ (List.filter_congr fun r _ => ?_)
    simp [bne, beq_eq_decide]
  rw [herase]
  exact List.perm_cons_erase ha

/-- The whole loop, by the number of records that are left. -/
theorem destroy (h : Holds m log) :
    ∃ ps m', (∀ fuel, log.length ≤ fuel → hashMapDestroy fuel m = some (ps, m')) ∧
      Holds m' [] ∧ (ps.map HashMapPos.hlistNodeP).Perm (log.map fun r => some r.1) ∧
      m.live.Perm (log.map Prod.fst ++ m'.live) := by
  obtain ⟨n, hn⟩ : ∃ n, log.length = n := ⟨_, rfl⟩
  induction n generalizing m log with
  | zero =>
    obtain rfl := List.length_eq_zero_iff.1 hn
    have hend := h.begin_eq_end_iff.2 rfl
    refine ⟨[], m, fun fuel _ => ?_, h, by simp, by simp⟩
    cases fuel <;> rw [hashMapDestroy, if_pos hend]
  | succ n ih =>
    have hne : log ≠ [] := by
      rintro rfl
      simp at hn
    obtain ⟨a, m₁, ha, hdel, h₁, hmem, hlive⟩ := h.destroy_step hne
    have hperm := h.perm_filter hmem
    have hlen := hperm.length_eq
    rw [List.length_cons, List.length_map, List.length_map] at hlen
    obtain ⟨ps, m', hloop, hm', hps, hfreed⟩ := ih h₁ (by omega)
    refine ⟨hashMapBegin m :: ps, m', fun fuel hf => ?_, hm', ?_, ?_⟩
    · obtain ⟨fuel, rfl⟩ : ∃ k, fuel = k + 1 := ⟨fuel - 1, by omega⟩
      have hnot : ¬ hashMapPosEqual (hashMapBegin m) (hashMapEnd m) = true :=
        fun e => hne (h.begin_eq_end_iff.1 e)
      rw [hashMapDestroy, if_neg hnot, hdel, Option.bind_eq_bind, Option.bind_some,
        hloop fuel (by omega)]
      rfl
    · have hsome := hperm.map some
      rw [List.map_map, List.map_cons, List.map_map] at hsome
      rw [List.map_cons, ha]
      exact (hps.cons (some a)).trans hsome.symm
    · have herase : m.live.Perm (a :: m.live.erase a) := List.perm_cons_erase (h.live hmem)
      rw [hlive] at hfreed
      exact (herase.trans (hfreed.cons a)).trans (hperm.symm.append_right m'.live)

end Holds

/-- **Destroying a map ends and frees every record once.** After every history, with as many passes
as there are live records, the loop ends; the positions it deletes are those of the live records,
each once; the blocks of the records are returned, no bucket has a node left, and the begin is the
end. -/
theorem hashMapDestroy_spec {c : MapConfig} (hb : 0 < c.bucketSize) {m : HashMap}
    {log : List Record} {held : List HashMapPos} (h : Run c m log held) :
    ∃ ps m', (∀ fuel, log.length ≤ fuel → hashMapDestroy fuel m = some (ps, m')) ∧
      (ps.map HashMapPos.hlistNodeP).Perm (log.map fun r => some r.1) ∧
      (log.map Prod.fst).Nodup ∧ ps.length = log.length ∧
      m.live.Perm (log.map Prod.fst ++ m'.live) ∧
      (∀ b, m'.links.ptr (.first b) = none) ∧
      hashMapPosEqual (hashMapBegin m') (hashMapEnd m') = true := by
  have hm := (h.inv hb).holds
  obtain ⟨ps, m', hloop, hm', hps, hfreed⟩ := hm.destroy
  refine ⟨ps, m', hloop, hps, hm.nodup, ?_, hfreed, fun b => ?_, hm'.begin_eq_end_iff.2 rfl⟩
  · simpa using hps.length_eq
  · rw [hm'.spells.first_eq, bucket_nil]
    rfl

/-- Two records of one bucket. -/
theorem hashMapDestroy_spec_twoRecords :
    ∃ ps m', (∀ fuel, 2 ≤ fuel → hashMapDestroy fuel twoRecords = some (ps, m')) ∧
      (ps.map HashMapPos.hlistNodeP).Perm [some 16, some 8] ∧
      ([16, 8] : List Addr).Nodup ∧ ps.length = 2 ∧
      twoRecords.live.Perm ([16, 8] ++ m'.live) ∧
      (∀ b, m'.links.ptr (.first b) = none) ∧
      hashMapPosEqual (hashMapBegin m') (hashMapEnd m') = true :=
  hashMapDestroy_spec (by decide) twoRecords_run

/-! ## What is returned -/

/-- The blocks that `hash_map_destroy` returns, its nodes under the names `node` and the array of
its buckets as `hlist`; the `hash_map_t` itself is not among them. -/
def hashMapRelease {β : Type} (node : Addr → β) (hlist : β) (fuel : ℕ) (hmap : HashMap) :
    Option (List β) := do
  let (ps, hmap) ← hashMapDestroy fuel hmap
  let nodes := ps.filterMap fun pos => pos.hlistNodeP.map node
  some (nodes ++ if hashMapPosEqual (hashMapEnd hmap) (hashMapBegin hmap) then [hlist] else [])

/-- The nodes of the records are returned in some order, and the buckets behind them. -/
theorem Holds.release {m : HashMap} {log : List Record} (h : Holds m log) {β : Type}
    (node : Addr → β) (hlist : β) :
    ∃ nodes : List Addr, nodes.Perm (log.map Prod.fst) ∧ ∀ fuel, log.length ≤ fuel →
      hashMapRelease node hlist fuel m = some (nodes.map node ++ [hlist]) := by
  obtain ⟨ps, m', hloop, hm', hps, -⟩ := h.destroy
  refine ⟨ps.filterMap HashMapPos.hlistNodeP, ?_, fun fuel hf => ?_⟩
  · have hperm := hps.filterMap id
    rw [List.filterMap_map, List.filterMap_map] at hperm
    have hsome : (log.filterMap fun r => some r.1) = log.map Prod.fst :=
      congrFun List.filterMap_eq_map _
    exact hsome ▸ hperm
  · have hend : hashMapPosEqual (hashMapEnd m') (hashMapBegin m') = true := by
      have hend := hm'.begin_eq_end_iff.2 rfl
      rw [hashMapPosEqual, beq_iff_eq] at hend ⊢
      exact hend.symm
    rw [hashMapRelease, hloop fuel hf, Option.bind_eq_bind, Option.bind_some]
    simp only
    rw [if_pos hend, List.map_filterMap]

end HpiDriver
