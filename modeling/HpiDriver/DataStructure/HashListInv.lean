import HpiDriver.DataStructure.HashList
import Mathlib.Data.List.Range
import Mathlib.Data.List.Perm.Basic
import Mathlib.Tactic.SplitIfs

/-!
# What a hash map holds

The abstract content of a map is the log of its live records, the newest first. `Holds m log`
ties the memory of the map to the log: bucket `b` is the chain of the logged records that hash to
`b`, in the order of the log, every node keeps the bytes of its record, and the cached `begin` is
the first node of the lowest bucket in use. The step lemmas `Holds.insert` and `Holds.delete` say
what the two updates do to the log; `Holds.search`, `Holds.posNext` and `Holds.forEach` say what
the readers return.
-/

namespace HpiDriver

open BackLinked

/-- A live record: its node and its bytes. -/
abbrev Record := Addr × List UInt8

/-! ## Buckets of a log -/

/-- The nodes of the logged records that `H` puts into bucket `b`. -/
def bucket (H : List UInt8 → ℕ) (log : List Record) (b : ℕ) : List Addr :=
  (log.filter fun r => H r.2 = b).map Prod.fst

section Bucket

variable {H : List UInt8 → ℕ} {log : List Record} {a : Addr} {d : List UInt8} {b : ℕ}

@[simp] theorem bucket_nil : bucket H [] = fun _ => [] := rfl

theorem mem_bucket : a ∈ bucket H log b ↔
    ∃ d, (a, d) ∈ log ∧ H d = b := by
  simp [bucket]

theorem mem_log_of_mem_bucket (h : a ∈ bucket H log b) :
    a ∈ log.map Prod.fst := by
  obtain ⟨d, hd, -⟩ := mem_bucket.1 h
  exact List.mem_map.2 ⟨_, hd, rfl⟩

theorem bucket_cons (a : Addr) (d : List UInt8) (log : List Record) :
    bucket H ((a, d) :: log) =
      Function.update (bucket H log) (H d) (a :: bucket H log (H d)) := by
  funext b
  by_cases hb : b = H d
  · subst hb
    simp [bucket]
  · simp [bucket, hb, Ne.symm hb]

theorem nodup_bucket (h : (log.map Prod.fst).Nodup) : (bucket H log b).Nodup :=
  (List.filter_sublist.map Prod.fst).nodup h

/-- A node is logged with one record. -/
theorem eq_of_mem_log {d' : List UInt8} (h : (log.map Prod.fst).Nodup) (h₁ : (a, d) ∈ log)
    (h₂ : (a, d') ∈ log) : d = d' := by
  simpa using List.inj_on_of_nodup_map h h₁ h₂ rfl

theorem bucket_filter (h : (log.map Prod.fst).Nodup) (ha : (a, d) ∈ log) :
    bucket H (log.filter fun r => r.1 ≠ a) =
      Function.update (bucket H log) (H d)
        ((bucket H log (H d)).erase a) := by
  have key : ∀ b, bucket H (log.filter fun r => r.1 ≠ a) b =
      (bucket H log b).filter (· ≠ a) := by
    intro b
    rw [bucket, bucket, List.filter_map, List.filter_filter, List.filter_filter]
    simp only [Function.comp_def, Bool.and_comm]
  funext b
  rw [key]
  by_cases hb : b = H d
  · subst hb
    rw [Function.update_self, (nodup_bucket h).erase_eq_filter]
    exact List.filter_congr fun x _ => by by_cases hx : x = a <;> simp [hx]
  · rw [Function.update_of_ne hb, List.filter_eq_self]
    rintro x hx
    obtain ⟨d', hd', rfl⟩ := mem_bucket.1 hx
    have : x ≠ a := by
      rintro rfl
      exact hb (by rw [eq_of_mem_log h ha hd'])
    simpa using this

end Bucket

/-! ## The invariant -/

/-- The bucket `m` puts a record into. -/
def HashMap.bucketOf (m : HashMap) (d : List UInt8) : ℕ := m.hashFunc d m.keySize m.bucketSize

theorem HashMap.bucketOf_congr {m m' : HashMap} (h : m.config = m'.config) :
    m.bucketOf = m'.bucketOf := by
  simp only [config, MapConfig.mk.injEq] at h
  obtain ⟨h₁, -, h₂, h₃, -⟩ := h
  funext d
  rw [bucketOf, bucketOf, h₁, h₂, h₃]

/-- The map `m` holds the records of `log`, the newest first. -/
structure Holds (m : HashMap) (log : List Record) : Prop where
  bucketSize_pos : 0 < m.bucketSize
  bucketOf_lt : ∀ r ∈ log, m.bucketOf r.2 < m.bucketSize
  nodup : (log.map Prod.fst).Nodup
  live : log.map Prod.fst ⊆ m.live
  spells : Spells m.links (bucket m.bucketOf log)
  node : ∀ r ∈ log, m.node r.1 = ⟨UInt8.ofNat m.keySize, m.dataSize, r.2⟩
  length : ∀ r ∈ log, r.2.length = m.dataSize
  end_ : m.end_ = ⟨none, m.bucketSize - 1⟩
  begin_none : m.begin_.hlistNodeP = none ↔ log = []
  begin_some : ∀ a, m.begin_.hlistNodeP = some a →
    (bucket m.bucketOf log m.begin_.bucketPos).head? = some a ∧
      ∀ b < m.begin_.bucketPos, bucket m.bucketOf log b = []

/-- A position that is the node of a live record together with the bucket it is in. -/
def IsLivePos (m : HashMap) (log : List Record) (pos : HashMapPos) (a : Addr) : Prop :=
  pos.hlistNodeP = some a ∧ a ∈ bucket m.bucketOf log pos.bucketPos

namespace Holds

variable {m : HashMap} {log : List Record} {a : Addr} {d : List UInt8} {pos : HashMapPos}

/-- A fresh map holds nothing. -/
theorem init {keySize dataSize bucketSize : ℕ} (hb : 0 < bucketSize) (hashFunc : HashFunc)
    (keyCmpFunc : KeyCmpFunc) :
    Holds (hashMapInit keySize dataSize bucketSize hashFunc keyCmpFunc) [] where
  bucketSize_pos := hb
  bucketOf_lt _ h := by simp at h
  nodup := List.nodup_nil
  live := by simp
  spells := Spells.empty
  node _ h := by simp at h
  length _ h := by simp at h
  end_ := rfl
  begin_none := by simp [hashMapInit]
  begin_some _ h := by simp [hashMapInit] at h

theorem bucket_lt (h : Holds m log) {b : ℕ}
    (ha : a ∈ bucket m.bucketOf log b) : b < m.bucketSize := by
  obtain ⟨d, hd, rfl⟩ := mem_bucket.1 ha
  exact h.bucketOf_lt _ hd

theorem bucket_ge (h : Holds m log) {b : ℕ} (hb : m.bucketSize ≤ b) :
    bucket m.bucketOf log b = [] :=
  List.eq_nil_iff_forall_not_mem.2 fun _ ha => absurd (h.bucket_lt ha) (by omega)

theorem log_eq_nil_iff (m : HashMap) (log : List Record) :
    log = [] ↔ ∀ b, bucket m.bucketOf log b = [] := by
  refine ⟨fun e => by simp [e], fun e => ?_⟩
  refine List.eq_nil_iff_forall_not_mem.2 fun r hr => ?_
  have hb : r.1 ∈ bucket m.bucketOf log (m.bucketOf r.2) := mem_bucket.2 ⟨r.2, hr, rfl⟩
  simp [e] at hb

/-- The map has at least as many blocks as records. -/
theorem length_le (h : Holds m log) : log.length ≤ m.live.length := by
  simpa using (List.subperm_of_subset h.nodup h.live).length_le

/-! ### Insertion -/

/-- A block fresh from the allocator, whatever is stored in it, is no part of the map. -/
theorem alloc (h : Holds m log) (ha : a ∉ m.live) (v : HashMapNode) :
    Holds { m with
      node := Function.update m.node a v
      links := initHlistNode a m.links
      live := a :: m.live } log := by
  have hal : a ∉ log.map Prod.fst := fun hl => ha (h.live hl)
  have hab : ∀ b, a ∉ bucket m.bucketOf log b := fun b hb => hal (mem_log_of_mem_bucket hb)
  refine ⟨h.bucketSize_pos, h.bucketOf_lt, h.nodup, fun x hx => List.mem_cons_of_mem _ (h.live hx),
    ?_, fun r hr => ?_, h.length, h.end_, h.begin_none, h.begin_some⟩
  · refine h.spells.congr hab (fun b => ?_) (fun x hx => ?_) (fun x hx => ?_) <;>
      simp [initHlistNode, *]
  · have hra : r.1 ≠ a := fun e => hal (e ▸ List.mem_map_of_mem hr)
    exact (Function.update_of_ne hra _ _).trans (h.node r hr)

/-- Linking an allocated node into its bucket makes its record the newest. -/
theorem link (h : Holds m log) (ha : a ∈ m.live) (hal : a ∉ log.map Prod.fst)
    (hn : m.node a = ⟨UInt8.ofNat m.keySize, m.dataSize, d⟩) (hd : d.length = m.dataSize)
    (hlt : m.bucketOf d < m.bucketSize) {B : HashMapPos}
    (hB : B = if m.begin_.hlistNodeP = none ∨ m.bucketOf d ≤ m.begin_.bucketPos then
      ⟨some a, m.bucketOf d⟩ else m.begin_) :
    Holds { m with links := hlistAddHead a (m.bucketOf d) m.links, begin_ := B }
      ((a, d) :: log) := by
  subst hB
  have hab : ∀ b, a ∉ bucket m.bucketOf log b := fun b hb => hal (mem_log_of_mem_bucket hb)
  have hcons : bucket m.bucketOf ((a, d) :: log) (m.bucketOf d) =
      a :: bucket m.bucketOf log (m.bucketOf d) := by
    rw [bucket_cons, Function.update_self]
  have hother : ∀ b, b ≠ m.bucketOf d →
      bucket m.bucketOf ((a, d) :: log) b = bucket m.bucketOf log b := by
    intro b hb
    rw [bucket_cons, Function.update_of_ne hb]
  refine ⟨h.bucketSize_pos, ?_, by simpa using ⟨by simpa using hal, h.nodup⟩, ?_, ?_, ?_, ?_,
    h.end_, ?_, fun x hx => ?_⟩
  · exact List.forall_mem_cons.2 ⟨hlt, h.bucketOf_lt⟩
  · simpa using ⟨ha, by simpa using h.live⟩
  · exact (bucket_cons (H := m.bucketOf) a d log).symm ▸ h.spells.push hab _
  · exact List.forall_mem_cons.2 ⟨hn, h.node⟩
  · exact List.forall_mem_cons.2 ⟨hd, h.length⟩
  · split_ifs with hbegin
    · simp
    · simpa using (not_or.1 hbegin).1
  · dsimp only at hx ⊢
    split_ifs at hx ⊢ with hbegin
    · -- the new record becomes the first of the map
      obtain rfl : a = x := by simpa using hx
      refine ⟨congrArg List.head? hcons, fun b hb => (hother b hb.ne).trans ?_⟩
      rcases hbegin with hbegin | hbegin
      · exact (log_eq_nil_iff m log).1 (h.begin_none.1 hbegin) b
      · cases hn : m.begin_.hlistNodeP with
        | none => exact (log_eq_nil_iff m log).1 (h.begin_none.1 hn) b
        | some x => exact (h.begin_some x hn).2 b (lt_of_lt_of_le hb hbegin)
    · -- the new record comes after the first of the map
      simp only [not_or, not_le] at hbegin
      obtain ⟨h₁, h₂⟩ := h.begin_some x hx
      refine ⟨(congrArg _ (hother _ hbegin.2.ne)).trans h₁, fun b hb => ?_⟩
      exact (hother b (lt_trans hb hbegin.2).ne).trans (h₂ b hb)

/-- A call of `hash_map_insert` that returns `0` logs the record. -/
theorem insert (h : Holds m log) (ha : a ∉ m.live) (hd : d.length = m.dataSize)
    (h0 : (hashMapInsert m (some a) d).1 = 0) :
    Holds (hashMapInsert m (some a) d).2 ((a, d) :: log) := by
  have htake : d.take m.dataSize = d := List.take_of_length_le hd.le
  have hlt : m.bucketOf d < m.bucketSize := by
    by_contra hge
    have hge' : m.bucketSize ≤ m.hashFunc d m.keySize m.bucketSize := not_lt.1 hge
    simp [hashMapInsert, htake, hge'] at h0
  have hfirst : (hlistAddHead a (m.bucketOf d) (initHlistNode a m.links)).ptr
      (.first (m.bucketOf d)) = some a := by
    simp [hlistAddHead, Links.push_ptr]
  have halloc := h.alloc ha ⟨UInt8.ofNat m.keySize, m.dataSize, d⟩
  have hal : a ∉ log.map Prod.fst := fun hl => ha (h.live hl)
  have hnode := Function.update_self a
    (⟨UInt8.ofNat m.keySize, m.dataSize, d⟩ : HashMapNode) m.node
  have hlink {B} := halloc.link (B := B) List.mem_cons_self hal hnode hd hlt
  simp only [HashMap.bucketOf] at hlt hfirst
  simp only [hashMapInsert, htake, if_neg (not_le.2 hlt), hfirst]
  split_ifs with hbegin
  · exact hlink (if_pos hbegin).symm
  · exact hlink (if_neg hbegin).symm

/-- A call of `hash_map_insert` that fails logs nothing. -/
theorem insertFail (h : Holds m log) {mnode : Option Addr} (ha : ∀ n, mnode = some n → n ∉ m.live)
    (h1 : (hashMapInsert m mnode d).1 ≠ 0) : Holds (hashMapInsert m mnode d).2 log := by
  cases mnode with
  | none => exact h
  | some n =>
    simp only [hashMapInsert] at h1 ⊢
    split_ifs at h1 ⊢ with hge
    · exact h.alloc (ha n rfl) _
    · exact absurd rfl h1
    · exact absurd rfl h1

/-! ### Search -/

theorem searchLoop (m : HashMap) (key : List UInt8) {s : Slot ℕ Addr} {xs : List Addr}
    (hc : IsChain m.links s xs) {fuel : ℕ} (hf : xs.length ≤ fuel) :
    hashMapSearchLoop m key fuel (m.links.ptr s) =
      xs.find? fun x => m.keyCmpFunc (m.node x).key key m.keySize = 0 := by
  induction xs generalizing s fuel with
  | nil =>
    rw [show m.links.ptr s = none from hc]
    cases fuel <;> rfl
  | cons x xs ih =>
    obtain ⟨h₁, -, h₃⟩ := hc
    obtain ⟨fuel, rfl⟩ : ∃ n, fuel = n + 1 :=
      Nat.exists_eq_succ_of_ne_zero (by simp only [List.length_cons] at hf; omega)
    rw [h₁, hashMapSearchLoop, List.find?_cons]
    split_ifs with he
    · simp [he]
    · simpa [he] using ih h₃ (by simpa using hf)

/-- The search looks for the key in the bucket of the key. -/
theorem search (h : Holds m log) (key : List UInt8) :
    hashMapSearch m key =
      ⟨(bucket m.bucketOf log (m.bucketOf key)).find?
        fun x => m.keyCmpFunc (m.node x).key key m.keySize = 0, m.bucketOf key⟩ := by
  have hfuel : (bucket m.bucketOf log (m.bucketOf key)).length ≤ m.live.length := by
    rw [bucket, List.length_map]
    exact (List.length_filter_le _ _).trans h.length_le
  rw [hashMapSearch]
  split_ifs with hge
  · have hge' : m.bucketSize ≤ m.bucketOf key := hge
    rw [h.bucket_ge hge', List.find?_nil]
    rfl
  · rw [← searchLoop m key (h.spells.chain _) hfuel]
    rfl

/-! ### Search with the default functions -/

section Default

/-- The hash of a key only depends on its first `keySize` bytes. -/
theorem defaultHashFunc_congr {key key' : List UInt8} {keySize : ℕ} (bucketSize : ℕ)
    (h : key.take keySize = key'.take keySize) :
    defaultHashFunc key keySize bucketSize = defaultHashFunc key' keySize bucketSize := by
  refine congrArg (· % bucketSize) (List.foldl_ext _ _ _ fun sum i hi => ?_)
  rw [getD_eq_of_take_eq h (List.mem_range.1 hi)]

theorem defaultHashFunc_lt {key : List UInt8} {keySize bucketSize : ℕ} (hb : 0 < bucketSize) :
    defaultHashFunc key keySize bucketSize < bucketSize :=
  Nat.mod_lt _ hb

/-- With the default functions the search finds the newest record with the key. -/
theorem search_default (h : Holds m log) (hf : m.hashFunc = defaultHashFunc)
    (hc : m.keyCmpFunc = defaultKeyCmpFunc) (hk : m.keySize ≤ m.dataSize) {key : List UInt8}
    (hkey : m.keySize ≤ key.length) :
    (hashMapSearch m key).hlistNodeP =
      (log.find? fun r => r.2.take m.keySize = key.take m.keySize).map Prod.fst := by
  have hcmp : ∀ r ∈ log, m.keyCmpFunc (m.node r.1).key key m.keySize = 0 ↔
      r.2.take m.keySize = key.take m.keySize := by
    intro r hr
    rw [hc, h.node r hr]
    exact memcmp_eq_zero_iff (by rw [h.length r hr]; exact hk) hkey
  rw [h.search key, bucket]
  dsimp only
  rw [List.find?_map, ← List.head?_filter, ← List.head?_filter, List.filter_filter]
  refine congrArg (fun l => (List.head? l).map Prod.fst) (List.filter_congr fun r hr => ?_)
  rw [Function.comp_def, ← Bool.decide_and, decide_eq_decide, hcmp r hr, and_iff_left_iff_imp]
  intro he
  simp only [HashMap.bucketOf, hf]
  exact defaultHashFunc_congr _ he

end Default

/-! ### Walking from a position to the next -/

/-- The positions of the records in the `n` buckets from `b`, in bucket order. -/
def positionsFrom (H : List UInt8 → ℕ) (log : List Record) (b n : ℕ) : List HashMapPos :=
  (List.range' b n).flatMap fun b =>
    (bucket H log b).map fun a => ⟨some a, b⟩

theorem positionsFrom_succ (H : List UInt8 → ℕ) (log : List Record) (b n : ℕ) :
    positionsFrom H log b (n + 1) =
      ((bucket H log b).map fun a => ⟨some a, b⟩) ++
        positionsFrom H log (b + 1) n := by
  simp [positionsFrom, List.range'_succ]

/-- The positions behind `ys`, the rest of bucket `b`. -/
def positionsAfter (m : HashMap) (log : List Record) (b : ℕ) (ys : List Addr) :
    List HashMapPos :=
  ys.map (fun a => ⟨some a, b⟩) ++
    positionsFrom m.bucketOf log (b + 1) (m.bucketSize - (b + 1))

@[simp] theorem positionsAfter_cons (m : HashMap) (log : List Record) (b : ℕ) (y : Addr)
    (ys : List Addr) :
    positionsAfter m log b (y :: ys) = ⟨some y, b⟩ :: positionsAfter m log b ys := by
  simp [positionsAfter]

/-- The buckets from `b` on are empty, or the walk over them starts in the first that is not. -/
theorem positionsFrom_cases (m : HashMap) (log : List Record) (n b : ℕ)
    (hn : b + n = m.bucketSize) :
    (positionsFrom m.bucketOf log b n = [] ∧
        ∀ b' < m.bucketSize, b ≤ b' → bucket m.bucketOf log b' = []) ∨
      ∃ b' a as, b ≤ b' ∧ bucket m.bucketOf log b' = a :: as ∧
        (∀ b'' < b', b ≤ b'' → bucket m.bucketOf log b'' = []) ∧
        positionsFrom m.bucketOf log b n = positionsAfter m log b' (a :: as) := by
  induction n generalizing b with
  | zero => exact .inl ⟨rfl, fun b' _ _ => by omega⟩
  | succ n ih =>
    rw [positionsFrom_succ]
    cases hb : bucket m.bucketOf log b with
    | cons a as =>
      refine .inr ⟨b, a, as, le_rfl, hb, fun b'' _ _ => by omega, ?_⟩
      rw [positionsAfter, show m.bucketSize - (b + 1) = n by omega]
    | nil =>
      have hle : ∀ b', b ≤ b' → b' = b ∨ b + 1 ≤ b' := fun b' _ => by omega
      rcases ih (b + 1) (by omega) with ⟨h₁, h₂⟩ | ⟨b', a, as, h₁, h₂, h₃, h₄⟩
      · refine .inl ⟨by simp [h₁], fun b' hlt hb' => ?_⟩
        rcases hle b' hb' with rfl | hb'
        · exact hb
        · exact h₂ b' hlt hb'
      · refine .inr ⟨b', a, as, by omega, h₂, fun b'' hlt hb'' => ?_, by simp [h₄]⟩
        rcases hle b'' hb'' with rfl | hb''
        · exact hb
        · exact h₃ b'' hlt hb''

theorem nextBucket_eq (h : Holds m log) (n b : ℕ) :
    nextBucket m n b =
      (positionsFrom m.bucketOf log b n).head?.getD ⟨none, m.bucketSize - 1⟩ := by
  induction n generalizing b with
  | zero => rfl
  | succ n ih =>
    rw [nextBucket, positionsFrom_succ, h.spells.first_eq]
    cases bucket m.bucketOf log b with
    | nil => simpa using ih (b + 1)
    | cons a as => simp

/-- From the node in front of `ys` the walk goes on to the first position behind. -/
theorem posNext (h : Holds m log) {b : ℕ} {xs ys : List Addr}
    (hb : bucket m.bucketOf log b = xs ++ a :: ys) :
    hashMapPosNext m ⟨some a, b⟩ =
      some ((positionsAfter m log b ys).head?.getD ⟨none, m.bucketSize - 1⟩) := by
  have hlt : b < m.bucketSize := h.bucket_lt (a := a) (by simp [hb])
  rw [hashMapPosNext]
  simp only [h.spells.next_eq hb, positionsAfter]
  cases ys with
  | cons y ys => simp
  | nil =>
    simp only [List.head?_nil, List.map_nil, List.nil_append, h.nextBucket_eq]
    split
    · rfl
    · have hlast : b = m.bucketSize - 1 := by omega
      rw [if_pos hlast, show m.bucketSize - (b + 1) = 0 by omega, hlast]
      rfl

/-- The walk over the positions behind `ys` visits them in order and stops at the end. -/
theorem forEachLoop (h : Holds m log) {b : ℕ} {xs ys : List Addr}
    (hb : bucket m.bucketOf log b = xs ++ ys) {fuel : ℕ}
    (hf : (positionsAfter m log b ys).length ≤ fuel) :
    hashMapForEachLoop m fuel
      ((positionsAfter m log b ys).head?.getD ⟨none, m.bucketSize - 1⟩) =
        some (positionsAfter m log b ys) := by
  induction hn : (positionsAfter m log b ys).length generalizing b xs ys fuel with
  | zero =>
    have he : hashMapPosEqual ⟨none, m.bucketSize - 1⟩ (hashMapEnd m) = true := by
      simp [hashMapPosEqual, hashMapEnd, h.end_]
    rw [List.length_eq_zero_iff.1 hn, List.head?_nil, Option.getD_none]
    cases fuel <;> simp [hashMapForEachLoop, he]
  | succ n ih =>
    -- the next position to visit is the first of the rest of some bucket
    obtain ⟨b', xs', y, ys', hb', he⟩ : ∃ b' xs' y ys',
        bucket m.bucketOf log b' = xs' ++ y :: ys' ∧
          positionsAfter m log b ys = positionsAfter m log b' (y :: ys') := by
      cases ys with
      | cons y ys => exact ⟨b, xs, y, ys, hb, rfl⟩
      | nil =>
        have hlt : b + 1 + (m.bucketSize - (b + 1)) = m.bucketSize := by
          by_contra hge
          simp [positionsAfter, positionsFrom, show m.bucketSize - (b + 1) = 0 by omega] at hn
        rcases positionsFrom_cases m log _ _ hlt with ⟨h₁, -⟩ | ⟨b', a, as, -, h₂, -, h₄⟩
        · simp [positionsAfter, h₁] at hn
        · exact ⟨b', [], a, as, h₂, by simpa [positionsAfter] using h₄⟩
    rw [he, positionsAfter_cons] at hf hn ⊢
    obtain ⟨fuel, rfl⟩ : ∃ k, fuel = k + 1 :=
      Nat.exists_eq_succ_of_ne_zero (by simp only [List.length_cons] at hf; omega)
    have hne : hashMapPosEqual ⟨some y, b'⟩ (hashMapEnd m) = false := by
      simp [hashMapPosEqual, hashMapEnd, h.end_]
    have hb'' : bucket m.bucketOf log b' = (xs' ++ [y]) ++ ys' := by simp [hb']
    have hrest := ih hb'' (by simpa using hf) (by simpa using hn)
    simp [hashMapForEachLoop, hne, h.posNext hb', hrest]

/-- All positions of the map, in the order of a walk. -/
def allPositions (m : HashMap) (log : List Record) : List HashMapPos :=
  positionsFrom m.bucketOf log 0 m.bucketSize

theorem mem_allPositions (h : Holds m log) :
    pos ∈ allPositions m log ↔ ∃ a, IsLivePos m log pos a := by
  constructor
  · intro hp
    obtain ⟨b, -, hb⟩ := List.mem_flatMap.1 hp
    obtain ⟨a, ha, rfl⟩ := List.mem_map.1 hb
    exact ⟨a, rfl, ha⟩
  · rintro ⟨a, ha, hb⟩
    refine List.mem_flatMap.2 ⟨pos.bucketPos, ?_, List.mem_map.2 ⟨a, hb, by simp [← ha]⟩⟩
    simpa [List.mem_range'] using h.bucket_lt hb

/-- The walk meets every live record once. -/
theorem perm_allPositions (h : Holds m log) :
    ((allPositions m log).map HashMapPos.hlistNodeP).Perm (log.map fun r => some r.1) := by
  have hnodes : (allPositions m log).map HashMapPos.hlistNodeP =
      ((List.range' 0 m.bucketSize).flatMap (bucket m.bucketOf log)).map some := by
    simp [allPositions, positionsFrom, List.map_flatMap, Function.comp_def]
  have hnd : ((List.range' 0 m.bucketSize).flatMap
      (bucket m.bucketOf log)).Nodup := by
    refine List.nodup_flatMap.2 ⟨fun b _ => nodup_bucket h.nodup, ?_⟩
    have hr : (List.range' 0 m.bucketSize).Nodup := List.nodup_range'
    exact hr.imp fun hne x hx hx' => hne (h.spells.disjoint hx hx')
  rw [hnodes, show (log.map fun r => some r.1) = (log.map Prod.fst).map some by simp]
  refine List.Perm.map _ ((List.perm_ext_iff_of_nodup hnd h.nodup).2 fun a => ?_)
  constructor
  · intro ha
    obtain ⟨b, -, hb⟩ := List.mem_flatMap.1 ha
    exact mem_log_of_mem_bucket hb
  · intro ha
    obtain ⟨r, hr, rfl⟩ := List.mem_map.1 ha
    refine List.mem_flatMap.2 ⟨m.bucketOf r.2, ?_,
      mem_bucket.2 ⟨r.2, hr, rfl⟩⟩
    simpa [List.mem_range'] using h.bucketOf_lt r hr

/-- The walk meets the buckets in ascending order. -/
theorem pairwise_allPositions (m : HashMap) (log : List Record) :
    (allPositions m log).Pairwise fun p q => p.bucketPos ≤ q.bucketPos := by
  refine List.pairwise_flatMap.2 ⟨fun b _ => ?_, ?_⟩
  · exact List.pairwise_map.2 (List.pairwise_of_forall fun _ _ => le_rfl)
  · have hr : (List.range' 0 m.bucketSize).Pairwise (· < ·) := List.pairwise_lt_range'
    refine hr.imp fun {b b'} hlt p hp q hq => ?_
    obtain ⟨_, -, rfl⟩ := List.mem_map.1 hp
    obtain ⟨_, -, rfl⟩ := List.mem_map.1 hq
    exact hlt.le

/-- `hash_map_for_each` visits all positions in order. -/
theorem forEach (h : Holds m log) : hashMapForEach m = some (allPositions m log) := by
  have hlen : (allPositions m log).length ≤ m.live.length := by
    have hlog : (allPositions m log).length = log.length := by
      simpa using h.perm_allPositions.length_eq
    exact hlog.le.trans h.length_le
  rcases positionsFrom_cases m log m.bucketSize 0 (by omega) with
    ⟨h₁, h₂⟩ | ⟨b, a, as, -, h₂, h₃, h₄⟩
  · have hlog : log = [] := (log_eq_nil_iff m log).2 fun b => by
      rcases lt_or_ge b m.bucketSize with hb | hb
      · exact h₂ b hb (Nat.zero_le b)
      · exact h.bucket_ge hb
    have he : hashMapPosEqual m.begin_ (hashMapEnd m) = true := by
      simp [hashMapPosEqual, hashMapEnd, h.end_, h.begin_none.2 hlog]
    rw [hashMapForEach, allPositions, h₁, hashMapBegin]
    cases m.live.length <;> simp [hashMapForEachLoop, he]
  · -- the cached `begin` is the first position of the walk
    have hbegin : m.begin_ = ⟨some a, b⟩ := by
      cases hx : m.begin_.hlistNodeP with
      | none => simp [h.begin_none.1 hx] at h₂
      | some x =>
        obtain ⟨h₅, h₆⟩ := h.begin_some x hx
        have hle : m.begin_.bucketPos ≤ b := by
          by_contra hlt
          simp [h₆ b (by omega)] at h₂
        have hge : b ≤ m.begin_.bucketPos := by
          by_contra hlt
          simp [h₃ m.begin_.bucketPos (by omega) (Nat.zero_le _)] at h₅
        have hb : m.begin_.bucketPos = b := le_antisymm hle hge
        rw [hb, h₂] at h₅
        obtain rfl : a = x := by simpa using h₅
        rw [← hx, ← hb]
    have hf : (positionsAfter m log b (a :: as)).length ≤ m.live.length := h₄ ▸ hlen
    have hb : bucket m.bucketOf log b = [] ++ a :: as := h₂
    have hloop := h.forEachLoop hb hf
    rw [positionsAfter_cons, List.head?_cons, Option.getD_some] at hloop
    rw [hashMapForEach, hashMapBegin, hbegin, hloop, allPositions, h₄, positionsAfter_cons]

/-! ### Deletion -/

/-- Unlinking a live node, with a new `begin` that fits what is left. -/
theorem remove (h : Holds m log) (ha : (a, d) ∈ log) {B : HashMapPos}
    (hB : B.hlistNodeP = none ∧ (log.filter fun r => r.1 ≠ a) = [] ∨
      ∃ x xs, B.hlistNodeP = some x ∧
        bucket m.bucketOf (log.filter fun r => r.1 ≠ a) B.bucketPos = x :: xs ∧
        ∀ b < B.bucketPos, bucket m.bucketOf (log.filter fun r => r.1 ≠ a) b = []) :
    Holds { m with begin_ := B, links := hlistDel a m.links, live := m.live.erase a }
      (log.filter fun r => r.1 ≠ a) where
  bucketSize_pos := h.bucketSize_pos
  bucketOf_lt r hr := h.bucketOf_lt r (List.mem_of_mem_filter hr)
  nodup := (List.filter_sublist.map Prod.fst).nodup h.nodup
  live x hx := by
    obtain ⟨r, hr, rfl⟩ := List.mem_map.1 hx
    obtain ⟨hr, hra⟩ := List.mem_filter.1 hr
    exact (List.mem_erase_of_ne (by simpa using hra)).2 (h.live (List.mem_map_of_mem hr))
  spells := by
    have hmem : a ∈ bucket m.bucketOf log
        (m.bucketOf d) := mem_bucket.2 ⟨d, ha, rfl⟩
    have hunlink := h.spells.unlink hmem
    rw [← bucket_filter h.nodup ha] at hunlink
    refine hunlink.congr (a := a) (fun b hb => ?_) (fun b => ?_) (fun x hx => ?_)
      (fun x hx => ?_)
    · obtain ⟨d', hd', -⟩ := mem_bucket.1 hb
      simp at hd'
    all_goals simp [hlistDel, hlistDel', *]
  node r hr := h.node r (List.mem_of_mem_filter hr)
  length r hr := h.length r (List.mem_of_mem_filter hr)
  end_ := h.end_
  begin_none := by
    rcases hB with ⟨h₁, h₂⟩ | ⟨x, xs, h₁, h₂, -⟩
    · simp only [h₁, h₂]
    · simp only [h₁, reduceCtorEq, false_iff]
      intro e
      rw [e] at h₂
      simp at h₂
  begin_some y hy := by
    rcases hB with ⟨h₁, -⟩ | ⟨x, xs, h₁, h₂, h₃⟩
    · simp [h₁] at hy
    · obtain rfl : x = y := by simpa [h₁] using hy
      exact ⟨h₂ ▸ rfl, h₃⟩

/-- Deleting a live position takes its record out of the log. -/
theorem delete (h : Holds m log) (hp : IsLivePos m log pos a) :
    ∃ B, hashMapDelete m pos =
        some { m with begin_ := B, links := hlistDel a m.links, live := m.live.erase a } ∧
      Holds { m with begin_ := B, links := hlistDel a m.links, live := m.live.erase a }
        (log.filter fun r => r.1 ≠ a) := by
  obtain ⟨hpa, hpb⟩ := hp
  obtain ⟨d, had, hdb⟩ := mem_bucket.1 hpb
  set b := pos.bucketPos with hb
  have hpos : pos = ⟨some a, b⟩ := by rw [← hpa]
  have hbuck : bucket m.bucketOf (log.filter fun r => r.1 ≠ a) =
      Function.update (bucket m.bucketOf log) b
        ((bucket m.bucketOf log b).erase a) := hdb ▸ bucket_filter h.nodup had
  have hsame : bucket m.bucketOf (log.filter fun r => r.1 ≠ a) b =
      (bucket m.bucketOf log b).erase a := by rw [hbuck, Function.update_self]
  have hother : ∀ b', b' ≠ b →
      bucket m.bucketOf (log.filter fun r => r.1 ≠ a) b' =
        bucket m.bucketOf log b' := by
    intro b' hne
    rw [hbuck, Function.update_of_ne hne]
  have hnil : ∀ b', bucket m.bucketOf log b' = [] →
      bucket m.bucketOf (log.filter fun r => r.1 ≠ a) b' = [] := by
    intro b' hb'
    by_cases hne : b' = b
    · rw [hne] at hb'
      simp [hb'] at hpb
    · rw [hother b' hne, hb']
  have hlog := log_eq_nil_iff m (log.filter fun r => r.1 ≠ a)
  by_cases hbegin : m.begin_.hlistNodeP = some a
  · -- the first record goes: the walk says which one is first now
    obtain ⟨h₁, h₂⟩ := h.begin_some a hbegin
    have hbb : m.begin_.bucketPos = b :=
      h.spells.disjoint (List.mem_of_mem_head? (Option.mem_def.2 h₁)) hpb
    rw [hbb] at h₁ h₂
    obtain ⟨ys, hys⟩ := List.head?_eq_some_iff.1 h₁
    have hys₀ : bucket m.bucketOf log b = [] ++ a :: ys := hys
    have hnext : hashMapPosNext m pos = _ := hpos ▸ h.posNext hys₀
    generalize hq : (positionsAfter m log b ys).head?.getD ⟨none, m.bucketSize - 1⟩ = q at hnext
    have hys' : bucket m.bucketOf (log.filter fun r => r.1 ≠ a) b = ys := by
      rw [hsame, hys, List.erase_cons_head]
    refine ⟨q, by simp [hashMapDelete, hpa, hashMapPosEqual, hbegin, hnext], h.remove had ?_⟩
    cases ys with
    | cons y ys =>
      obtain rfl : q = ⟨some y, b⟩ := by simp [← hq]
      exact .inr ⟨y, ys, rfl, hys', fun b' hb' => hnil b' (h₂ b' hb')⟩
    | nil =>
      have hlt : b + 1 + (m.bucketSize - (b + 1)) = m.bucketSize := by
        have := h.bucket_lt hpb
        omega
      rcases positionsFrom_cases m log _ _ hlt with ⟨h₃, h₄⟩ | ⟨b', x, xs, h₃, h₄, h₅, h₆⟩
      · refine .inl ⟨by simp [← hq, positionsAfter, h₃], hlog.2 fun b' => ?_⟩
        rcases lt_trichotomy b' b with hlt' | rfl | hlt'
        · exact hnil b' (h₂ b' hlt')
        · exact hys'
        · rcases lt_or_ge b' m.bucketSize with hb' | hb'
          · exact hnil b' (h₄ b' hb' hlt')
          · exact hnil b' (h.bucket_ge hb')
      · obtain rfl : q = ⟨some x, b'⟩ := by
          rw [← hq, positionsAfter, List.map_nil, List.nil_append, h₆]
          simp
        refine .inr ⟨x, xs, rfl, (hother b' (by omega)).trans h₄, fun b'' hb'' => ?_⟩
        rcases lt_trichotomy b'' b with hlt' | rfl | hlt'
        · exact hnil b'' (h₂ b'' hlt')
        · exact hys'
        · exact hnil b'' (h₅ b'' hb'' hlt')
  · -- another record goes: the first one stays
    refine ⟨m.begin_, by simp [hashMapDelete, hpa, hashMapPosEqual, Ne.symm hbegin],
      h.remove had (.inr ?_)⟩
    obtain ⟨x, hx⟩ : ∃ x, m.begin_.hlistNodeP = some x := by
      refine Option.ne_none_iff_exists'.1 fun e => ?_
      simp [h.begin_none.1 e] at had
    obtain ⟨h₁, h₂⟩ := h.begin_some x hx
    obtain ⟨xs, hxs⟩ := List.head?_eq_some_iff.1 h₁
    have hxa : x ≠ a := fun e => hbegin (e ▸ hx)
    by_cases hbb : m.begin_.bucketPos = b
    · refine ⟨x, xs.erase a, hx, ?_, fun b' hb' => hnil b' (h₂ b' hb')⟩
      rw [hbb] at hxs ⊢
      rw [hsame, hxs, List.erase_cons_tail (by simpa using hxa)]
    · exact ⟨x, xs, hx, (hother _ hbb).trans hxs, fun b' hb' => hnil b' (h₂ b' hb')⟩

/-! ### Positions handed out are live -/

theorem search_live (h : Holds m log) {key : List UInt8}
    (ha : (hashMapSearch m key).hlistNodeP = some a) : IsLivePos m log (hashMapSearch m key) a := by
  refine ⟨ha, ?_⟩
  rw [h.search key] at ha ⊢
  exact List.mem_of_find?_eq_some ha

theorem begin_live (h : Holds m log) (ha : (hashMapBegin m).hlistNodeP = some a) :
    IsLivePos m log (hashMapBegin m) a :=
  ⟨ha, List.mem_of_mem_head? (Option.mem_def.2 (h.begin_some a ha).1)⟩

theorem posNext_live (h : Holds m log) {q : HashMapPos} {x : Addr} (hp : IsLivePos m log pos a)
    (hq : hashMapPosNext m pos = some q) (hx : q.hlistNodeP = some x) : IsLivePos m log q x := by
  obtain ⟨hpa, hpb⟩ := hp
  obtain ⟨xs, ys, hb⟩ := List.append_of_mem hpb
  have hpos : pos = ⟨some a, pos.bucketPos⟩ := by rw [← hpa]
  rw [hpos, h.posNext hb, Option.some.injEq] at hq
  refine ⟨hx, ?_⟩
  cases hh : (positionsAfter m log pos.bucketPos ys).head? with
  | none => simp [← hq, hh] at hx
  | some q' =>
    obtain rfl : q' = q := by simpa [hh] using hq
    have hmem : q' ∈ positionsAfter m log pos.bucketPos ys := List.mem_of_mem_head? hh
    rcases List.mem_append.1 hmem with hmem | hmem
    · obtain ⟨y, hy, rfl⟩ := List.mem_map.1 hmem
      obtain rfl : y = x := by simpa using hx
      simp [hb, hy]
    · obtain ⟨b, -, hb⟩ := List.mem_flatMap.1 hmem
      obtain ⟨y, hy, rfl⟩ := List.mem_map.1 hb
      obtain rfl : y = x := by simpa using hx
      exact hy

end Holds

/-! ## Insertion -/

/-- With the default hash function an insertion fails only when there is no block. -/
theorem hashMapInsert_default {m : HashMap} (hb : 0 < m.bucketSize)
    (hf : m.hashFunc = defaultHashFunc) (n : Addr) (d : List UInt8) :
    (hashMapInsert m (some n) d).1 = 0 := by
  have hlt : defaultHashFunc (d.take m.dataSize) m.keySize m.bucketSize < m.bucketSize :=
    Holds.defaultHashFunc_lt hb
  simp only [hashMapInsert, hf, if_neg (not_le.2 hlt)]
  split_ifs <;> rfl

/-- The configuration never changes. -/
@[simp] theorem config_hashMapInsert (m : HashMap) (n : Option Addr) (d : List UInt8) :
    (hashMapInsert m n d).2.config = m.config := by
  unfold hashMapInsert
  split
  · rfl
  · dsimp only
    split_ifs <;> rfl

theorem live_hashMapInsert (m : HashMap) (n : Addr) (d : List UInt8) :
    (hashMapInsert m (some n) d).2.live = n :: m.live := by
  simp only [hashMapInsert]
  split_ifs <;> rfl

/-- Records inserted one after another. -/
theorem Holds.foldl_insert {m : HashMap} {log records : List Record} (hm : Holds m log)
    (hf : m.hashFunc = defaultHashFunc) (hnd : (records.map Prod.fst).Nodup)
    (hfresh : ∀ r ∈ records, r.1 ∉ m.live) (hlen : ∀ r ∈ records, r.2.length = m.dataSize) :
    Holds (records.foldl (fun m r => (hashMapInsert m (some r.1) r.2).2) m)
      (records.reverse ++ log) := by
  induction records generalizing m log with
  | nil => exact hm
  | cons r records ih =>
    obtain ⟨hr, hnd⟩ := List.nodup_cons.1 hnd
    have h0 := hashMapInsert_default hm.bucketSize_pos hf r.1 r.2
    have hm' := hm.insert (hfresh r List.mem_cons_self) (hlen r List.mem_cons_self) h0
    have hc := config_hashMapInsert m (some r.1) r.2
    rw [List.foldl_cons, List.reverse_cons, List.append_assoc]
    refine ih hm' ((congrArg MapConfig.hashFunc hc).trans hf) hnd (fun q hq => ?_) fun q hq => ?_
    · rw [live_hashMapInsert, List.mem_cons, not_or]
      refine ⟨fun e => hr ?_, hfresh q (List.mem_cons_of_mem _ hq)⟩
      rw [← e]
      exact List.mem_map_of_mem hq
    · exact (hlen q (List.mem_cons_of_mem _ hq)).trans (congrArg MapConfig.dataSize hc).symm

theorem config_foldl_insert (m : HashMap) (records : List Record) :
    (records.foldl (fun m r => (hashMapInsert m (some r.1) r.2).2) m).config = m.config := by
  induction records generalizing m with
  | nil => rfl
  | cons r records ih => rw [List.foldl_cons, ih, config_hashMapInsert]

end HpiDriver
