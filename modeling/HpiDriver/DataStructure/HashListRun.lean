import HpiDriver.DataStructure.HashListInv

/-!
# Histories of a hash map

`Run` is a history of one map from `hash_map_init` on: insertions, searches, positions asked for
and deletions of positions the client holds. It records the live records, the newest first, and
the positions the client holds; a position is dropped when its record is deleted. Along every
history the map holds its log and every position held is accurate (`Run.inv`), so the results on
single states apply.
-/

namespace HpiDriver

/-- The map that `hash_map_init` makes of a configuration. -/
def MapConfig.init (c : MapConfig) : HashMap :=
  hashMapInit c.keySize c.dataSize c.bucketSize c.hashFunc c.keyCmpFunc

/-- The states of a map, its live records and the positions held by its client. -/
inductive Run (c : MapConfig) : HashMap → List Record → List HashMapPos → Prop
  | init : Run c c.init [] []
  /-- The allocator hands out a block that is not in use. -/
  | insert {m log held} (n : Addr) (data : List UInt8) :
      Run c m log held → n ∉ m.live → data.length = c.dataSize →
      (hashMapInsert m (some n) data).1 = 0 →
      Run c (hashMapInsert m (some n) data).2 ((n, data) :: log) held
  /-- The allocator has no block left, or the hash function leaves the table. -/
  | insertFail {m log held} (mnode : Option Addr) (data : List UInt8) :
      Run c m log held → (∀ n, mnode = some n → n ∉ m.live) →
      (hashMapInsert m mnode data).1 ≠ 0 →
      Run c (hashMapInsert m mnode data).2 log held
  | search {m log held} (key : List UInt8) :
      Run c m log held → Run c m log (hashMapSearch m key :: held)
  | begin_ {m log held} :
      Run c m log held → Run c m log (hashMapBegin m :: held)
  | posNext {m log held} {p q : HashMapPos} :
      Run c m log held → p ∈ held → hashMapPosNext m p = some q → Run c m log (q :: held)
  | delete {m m' log held} {p : HashMapPos} {a : Addr} :
      Run c m log held → p ∈ held → p.hlistNodeP = some a → hashMapDelete m p = some m' →
      Run c m' (log.filter fun r => r.1 ≠ a) (held.filter fun q => q.hlistNodeP ≠ some a)

namespace Run

variable {c : MapConfig} {m : HashMap} {log : List Record} {held : List HashMapPos}

/-- What holds along every history. -/
structure Inv (c : MapConfig) (m : HashMap) (log : List Record) (held : List HashMapPos) :
    Prop where
  holds : Holds m log
  config : m.config = c
  live {p : HashMapPos} {a : Addr} : p ∈ held → p.hlistNodeP = some a → IsLivePos m log p a

theorem inv (hb : 0 < c.bucketSize) (h : Run c m log held) : Inv c m log held := by
  induction h with
  | init => exact ⟨Holds.init hb _ _, rfl, fun hp => by simp at hp⟩
  | @insert m _ _ n data _ hn hd h0 ih =>
    obtain ⟨hm, rfl, hl⟩ := ih
    have hc := config_hashMapInsert m (some n) data
    refine ⟨hm.insert hn hd h0, hc, fun hp ha => ?_⟩
    obtain ⟨ha, hb⟩ := hl hp ha
    obtain ⟨d, hd, hh⟩ := mem_bucket.1 hb
    rw [IsLivePos, HashMap.bucketOf_congr hc]
    exact ⟨ha, mem_bucket.2 ⟨d, List.mem_cons_of_mem _ hd, hh⟩⟩
  | @insertFail m _ _ mnode data _ hn h1 ih =>
    obtain ⟨hm, rfl, hl⟩ := ih
    have hc := config_hashMapInsert m mnode data
    refine ⟨hm.insertFail hn h1, hc, fun hp ha => ?_⟩
    rw [IsLivePos, HashMap.bucketOf_congr hc]
    exact hl hp ha
  | search key _ ih =>
    obtain ⟨hm, rfl, hl⟩ := ih
    refine ⟨hm, rfl, fun hp ha => ?_⟩
    rcases List.mem_cons.1 hp with rfl | hp
    · exact hm.search_live ha
    · exact hl hp ha
  | begin_ _ ih =>
    obtain ⟨hm, rfl, hl⟩ := ih
    refine ⟨hm, rfl, fun hp ha => ?_⟩
    rcases List.mem_cons.1 hp with rfl | hp
    · exact hm.begin_live ha
    · exact hl hp ha
  | @posNext _ _ _ p q _ hp hq ih =>
    obtain ⟨hm, rfl, hl⟩ := ih
    refine ⟨hm, rfl, fun {p' a} hp' ha => ?_⟩
    rcases List.mem_cons.1 hp' with rfl | hp'
    · cases hpa : p.hlistNodeP with
      | none => simp [hashMapPosNext, hpa] at hq
      | some x => exact hm.posNext_live (hl hp hpa) hq ha
    · exact hl hp' ha
  | @delete _ _ _ _ p a _ hp ha hdel ih =>
    obtain ⟨hm, rfl, hl⟩ := ih
    obtain ⟨B, hB, hm'⟩ := hm.delete (hl hp ha)
    obtain rfl := Option.some.inj (hB.symm.trans hdel)
    refine ⟨hm', rfl, fun {q x} hq hx => ?_⟩
    obtain ⟨hq, hqa⟩ := List.mem_filter.1 hq
    obtain ⟨-, hb⟩ := hl hq hx
    obtain ⟨d, hd, hh⟩ := mem_bucket.1 hb
    have hxa : x ≠ a := fun e => by simp [hx, e] at hqa
    exact ⟨hx, mem_bucket.2 ⟨d, by simp [hd, hxa], hh⟩⟩

/-- A position that is held and not `NULL` can be deleted. -/
theorem exists_delete (hb : 0 < c.bucketSize) (h : Run c m log held) {p : HashMapPos} {a : Addr}
    (hp : p ∈ held) (ha : p.hlistNodeP = some a) : ∃ m', hashMapDelete m p = some m' := by
  have hi := h.inv hb
  obtain ⟨B, hB, -⟩ := hi.holds.delete (hi.live hp ha)
  exact ⟨_, hB⟩

end Run

/-! ## What the client sees -/

section Client

variable {m : HashMap} {log : List Record} {held : List HashMapPos}

/-- The configuration with the default functions. -/
def defaultConfig (keySize valueSize bucketSize : ℕ) : MapConfig where
  keySize := keySize
  dataSize := keySize + valueSize
  bucketSize := bucketSize
  hashFunc := defaultHashFunc
  keyCmpFunc := defaultKeyCmpFunc

/-- **Search returns the newest live record with the key.** Along every history, `hash_map_search`
of `key` is the position of the most recently inserted live record whose first `keySize` bytes are
`key`, and `hash_map_pos_get_pointer` of it gives the value of that record; it is a `NULL`
position exactly when no live record has the key. Every insertion that gets a block succeeds, and
every position the client holds can be deleted. -/
theorem hashMapSearch_spec {keySize valueSize bucketSize : ℕ} (hb : 0 < bucketSize)
    (hk : 1 ≤ keySize) (hk' : keySize ≤ 255)
    (h : Run (defaultConfig keySize valueSize bucketSize) m log held) (key : List UInt8)
    (hkey : key.length = keySize) :
    (∀ r, log.find? (fun r => r.2.take keySize = key) = some r →
      (hashMapSearch m key).hlistNodeP = some r.1 ∧
        hashMapPosGetPointer m (hashMapSearch m key) = some (r.2.drop keySize)) ∧
      ((hashMapSearch m key).hlistNodeP = none ↔ ∀ r ∈ log, r.2.take keySize ≠ key) ∧
      (∀ n d, (hashMapInsert m (some n) d).1 = 0) ∧
      ∀ p ∈ held, ∀ a, p.hlistNodeP = some a → ∃ m', hashMapDelete m p = some m' := by
  obtain ⟨hm, hc, -⟩ := h.inv hb
  simp only [HashMap.config, defaultConfig, MapConfig.mk.injEq] at hc
  obtain ⟨rfl, hds, rfl, hf, hcmp⟩ := hc
  have hs := hm.search_default hf hcmp (by omega) hkey.ge
  rw [show key.take m.keySize = key from List.take_of_length_le hkey.le] at hs
  refine ⟨fun r hr => ?_, ?_, hashMapInsert_default hb hf, fun p hp a => h.exists_delete hb hp⟩
  · have hrl := List.mem_of_find?_eq_some hr
    have hpos : (UInt8.ofNat m.keySize).toNat = m.keySize := by
      simpa using Nat.mod_eq_of_lt (show m.keySize < 256 by omega)
    simp [hs, hr, hashMapPosGetPointer, hm.node r hrl, hpos]
  · simp [hs, List.find?_eq_none]

/-- Two records with one key. -/
def twoRecords : HashMap :=
  (hashMapInsert (hashMapInsert (defaultConfig 1 1 2).init (some 8) [1, 5]).2 (some 16) [1, 6]).2

theorem twoRecords_run :
    Run (defaultConfig 1 1 2) twoRecords [(16, [1, 6]), (8, [1, 5])] [] :=
  .insert 16 [1, 6] (.insert 8 [1, 5] .init (by decide) rfl rfl) (by decide) rfl rfl

/-- The record inserted last hides the other with its key. -/
theorem hashMapSearch_spec_twoRecords :
    (hashMapSearch twoRecords [1]).hlistNodeP = some 16 ∧
      hashMapPosGetPointer twoRecords (hashMapSearch twoRecords [1]) = some [6] :=
  (hashMapSearch_spec (by decide) (by decide) (by decide) twoRecords_run [1] rfl).1 (16, [1, 6]) rfl

/-- **Iteration visits every live record once, in bucket order.** Along every history, the cached
`begin` has a `NULL` node exactly when the map is empty and otherwise is the first node of the
lowest bucket in use with the number of that bucket; the walk of `hash_map_for_each` from `begin`
along `hash_map_pos_next` reaches `hash_map_end` after visiting each live record exactly once, at
its own bucket, in ascending order of the buckets. -/
theorem hashMapForEach_spec {c : MapConfig} (hb : 0 < c.bucketSize) (h : Run c m log held) :
    (m.begin_.hlistNodeP = none ↔ log = []) ∧
      (∀ a, m.begin_.hlistNodeP = some a →
        m.links.ptr (.first m.begin_.bucketPos) = some a ∧ m.begin_.bucketPos < c.bucketSize ∧
          ∀ b < m.begin_.bucketPos, m.links.ptr (.first b) = none) ∧
      ∃ ps, hashMapForEach m = some ps ∧
        (ps.map HashMapPos.hlistNodeP).Perm (log.map fun r => some r.1) ∧
        (log.map Prod.fst).Nodup ∧
        ps.Pairwise (fun p q => p.bucketPos ≤ q.bucketPos) ∧
        ∀ p ∈ ps, ∃ r ∈ log, p = ⟨some r.1, c.hashFunc r.2 c.keySize c.bucketSize⟩ := by
  obtain ⟨hm, rfl, -⟩ := h.inv hb
  refine ⟨hm.begin_none, fun a ha => ?_, _, hm.forEach, hm.perm_allPositions, hm.nodup,
    Holds.pairwise_allPositions m log, fun p hp => ?_⟩
  · obtain ⟨h₁, h₂⟩ := hm.begin_some a ha
    refine ⟨(hm.spells.first_eq _).trans h₁, ?_, fun b hb => ?_⟩
    · exact hm.bucket_lt (List.mem_of_mem_head? (Option.mem_def.2 h₁))
    · rw [hm.spells.first_eq, h₂ b hb, List.head?_nil]
  · obtain ⟨a, ha, hb⟩ := hm.mem_allPositions.1 hp
    obtain ⟨d, hd, hh⟩ := mem_bucket.1 hb
    refine ⟨(a, d), hd, ?_⟩
    rw [← ha]
    exact congrArg (HashMapPos.mk _) hh.symm

/-- The first record of a table whose keys collide is the one inserted last. -/
theorem hashMapForEach_spec_twoRecords :
    (∀ a, twoRecords.begin_.hlistNodeP = some a →
      twoRecords.links.ptr (.first twoRecords.begin_.bucketPos) = some a) ∧
      ∃ ps, hashMapForEach twoRecords = some ps ∧
        (ps.map HashMapPos.hlistNodeP).Perm [some 16, some 8] := by
  obtain ⟨-, h₂, ps, h₃, h₄, -⟩ :=
    hashMapForEach_spec (c := defaultConfig 1 1 2) (by decide) twoRecords_run
  exact ⟨fun a ha => (h₂ a ha).1, ps, h₃, h₄⟩

end Client

end HpiDriver
