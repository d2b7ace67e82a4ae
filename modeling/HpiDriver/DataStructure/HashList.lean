import HpiDriver.Memory
import HpiDriver.Foundations.BackLinked

/-!
# The hash map

`libdata_structure/hash_map/hash_list.c` and `hash_list.h`: an array of `hlist` chains of records.
A record is a run of `data_size` bytes whose first `key_size` bytes are its key; a key may occur
any number of times. The map caches the position of its first record in `begin`.

The pointers `hlist` and `hmap` of a position always lead back to the map it was obtained from
and are left out of `HashMapPos`; the locks of the map are compiled to nothing. Lengths and bucket
numbers are `uint32_t` in the source and never leave their range here.
-/

namespace HpiDriver

open BackLinked

/-! ## Kernel lists with a single pointer head -/

/-- The `hlist` cells of a hash table: the heads of its buckets and the links of its nodes. -/
abbrev HlistLinks := Links ℕ Addr

/-- `INIT_HLIST_NODE` -/
def initHlistNode (h : Addr) (L : HlistLinks) : HlistLinks :=
  (L.setPtr (.next h) none).setPrev h none

/-- `hlist_add_head` -/
def hlistAddHead (n : Addr) (h : ℕ) (L : HlistLinks) : HlistLinks :=
  L.push n h

/-- `__hlist_del` -/
def hlistDel' (n : Addr) (L : HlistLinks) : HlistLinks :=
  L.unlink n

/-- `hlist_del`; the back link of a removed node is never followed and is left empty here. -/
def hlistDel (n : Addr) (L : HlistLinks) : HlistLinks :=
  ((hlistDel' n L).setPtr (.next n) (some LIST_POISON1)).setPrev n none

/-! ## The map -/

/-- `struct hash_map_node`, less its link: `key` holds the whole record. -/
structure HashMapNode where
  /-- Where the value starts in `key`. -/
  valuePos : UInt8
  dataSize : ℕ
  key : List UInt8
  deriving DecidableEq

/-- `hash_map_pos_t` -/
structure HashMapPos where
  hlistNodeP : Option Addr
  bucketPos : ℕ
  deriving DecidableEq

/-- `hash_func_fpt` -/
abbrev HashFunc := List UInt8 → ℕ → ℕ → ℕ

/-- `key_cmp_fpt` -/
abbrev KeyCmpFunc := List UInt8 → List UInt8 → ℕ → ℤ

/-- `default_key_cmp_func` -/
def defaultKeyCmpFunc : KeyCmpFunc := fun key₁ key₂ size => memcmp key₁ key₂ size

/-- `default_hash_func` -/
def defaultHashFunc : HashFunc := fun key keySize bucketSize =>
  (List.range keySize).foldl (fun sum i => (sum + (key.getD i 0).toNat) % 2 ^ 32) 0 % bucketSize

/-- `struct hash_map_s`, with the memory it owns: the links and the records of its nodes, and the
blocks obtained from the allocator and not yet returned to it. -/
structure HashMap where
  bucketSize : ℕ
  dataSize : ℕ
  keySize : ℕ
  hashFunc : HashFunc
  keyCmpFunc : KeyCmpFunc
  links : HlistLinks
  node : Addr → HashMapNode
  begin_ : HashMapPos
  end_ : HashMapPos
  live : List Addr

/-- What a map is initialised with. -/
structure MapConfig where
  keySize : ℕ
  dataSize : ℕ
  bucketSize : ℕ
  hashFunc : HashFunc
  keyCmpFunc : KeyCmpFunc

/-- What `m` was initialised with. -/
def HashMap.config (m : HashMap) : MapConfig :=
  ⟨m.keySize, m.dataSize, m.bucketSize, m.hashFunc, m.keyCmpFunc⟩

/-- `hash_map_init` -/
def hashMapInit (keySize dataSize bucketSize : ℕ) (hashFunc : HashFunc)
    (keyCmpFunc : KeyCmpFunc) : HashMap where
  bucketSize := bucketSize
  dataSize := dataSize
  keySize := keySize
  hashFunc := hashFunc
  keyCmpFunc := keyCmpFunc
  links := ⟨fun _ => none, fun _ => none⟩
  node := fun _ => ⟨0, 0, []⟩
  begin_ := ⟨none, 0⟩
  end_ := ⟨none, bucketSize - 1⟩
  live := []

/-- `hash_map_begin` -/
def hashMapBegin (hmap : HashMap) : HashMapPos := hmap.begin_

/-- `hash_map_end` -/
def hashMapEnd (hmap : HashMap) : HashMapPos := hmap.end_

/-- `hash_map_pos_equal` -/
def hashMapPosEqual (pos₁ pos₂ : HashMapPos) : Bool := pos₁.hlistNodeP == pos₂.hlistNodeP

/-- `hash_map_insert`; `mnode` is the allocator's answer. -/
def hashMapInsert (hmap : HashMap) (mnode : Option Addr) (data : List UInt8) : ℤ × HashMap :=
  match mnode with
  | none => (-1, hmap)
  | some n =>
    let key := data.take hmap.dataSize
    let hmap := { hmap with
      node := Function.update hmap.node n ⟨UInt8.ofNat hmap.keySize, hmap.dataSize, key⟩
      links := initHlistNode n hmap.links
      live := n :: hmap.live }
    let bucketPos := hmap.hashFunc key hmap.keySize hmap.bucketSize
    if hmap.bucketSize ≤ bucketPos then (-1, hmap)
    else
      let hmap := { hmap with links := hlistAddHead n bucketPos hmap.links }
      if hmap.begin_.hlistNodeP = none ∨ bucketPos ≤ hmap.begin_.bucketPos then
        (0, { hmap with begin_ := ⟨hmap.links.ptr (.first bucketPos), bucketPos⟩ })
      else (0, hmap)

/-- The walk of `hash_map_search` along a chain. A chain has no more nodes than the map has
blocks, which bounds the walk. -/
def hashMapSearchLoop (hmap : HashMap) (key : List UInt8) : ℕ → Option Addr → Option Addr
  | _, none => none
  | 0, some _ => none
  | fuel + 1, some pos =>
    if hmap.keyCmpFunc (hmap.node pos).key key hmap.keySize = 0 then some pos
    else hashMapSearchLoop hmap key fuel (hmap.links.ptr (.next pos))

/-- `hash_map_search` -/
def hashMapSearch (hmap : HashMap) (key : List UInt8) : HashMapPos :=
  let bucketPos := hmap.hashFunc key hmap.keySize hmap.bucketSize
  if hmap.bucketSize ≤ bucketPos then ⟨none, bucketPos⟩
  else ⟨hashMapSearchLoop hmap key hmap.live.length (hmap.links.ptr (.first bucketPos)), bucketPos⟩

/-- The search of `hash_map_pos_next` for the next bucket in use, `n` buckets from `bucketPos`. -/
def nextBucket (hmap : HashMap) : ℕ → ℕ → HashMapPos
  | 0, _ => ⟨none, hmap.bucketSize - 1⟩
  | n + 1, bucketPos =>
    match hmap.links.ptr (.first bucketPos) with
    | some a => ⟨some a, bucketPos⟩
    | none => nextBucket hmap n (bucketPos + 1)

/-- `hash_map_pos_next`; `none` when it follows a `NULL` node. -/
def hashMapPosNext (hmap : HashMap) (pos : HashMapPos) : Option HashMapPos :=
  match pos.hlistNodeP with
  | none => none
  | some a =>
    match hmap.links.ptr (.next a) with
    | some n => some ⟨some n, pos.bucketPos⟩
    | none =>
      if pos.bucketPos < hmap.bucketSize - 1 then
        some (nextBucket hmap (hmap.bucketSize - (pos.bucketPos + 1)) (pos.bucketPos + 1))
      else if pos.bucketPos = hmap.bucketSize - 1 then some ⟨none, pos.bucketPos⟩
      else some pos

/-- `hash_map_delete`; `none` when it follows a `NULL` node. -/
def hashMapDelete (hmap : HashMap) (pos : HashMapPos) : Option HashMap :=
  match pos.hlistNodeP with
  | none => none
  | some n => do
    let hmap ← if hashMapPosEqual pos hmap.begin_ then do
        let next ← hashMapPosNext hmap pos
        pure { hmap with begin_ := ⟨next.hlistNodeP, next.bucketPos⟩ }
      else pure hmap
    pure { hmap with links := hlistDel n hmap.links, live := hmap.live.erase n }

/-- `hash_map_pos_get_pointer`: the bytes of the record from its value on. -/
def hashMapPosGetPointer (hmap : HashMap) (pos : HashMapPos) : Option (List UInt8) :=
  pos.hlistNodeP.map fun a => (hmap.node a).key.drop (hmap.node a).valuePos.toNat

/-- The loop of `hash_map_for_each` from `pos`: the positions it calls its function on. It stops
with `none` when it has not reached the end within `fuel` steps. -/
def hashMapForEachLoop (hmap : HashMap) : ℕ → HashMapPos → Option (List HashMapPos)
  | 0, pos => if hashMapPosEqual pos (hashMapEnd hmap) then some [] else none
  | fuel + 1, pos =>
    if hashMapPosEqual pos (hashMapEnd hmap) then some []
    else do
      let next ← hashMapPosNext hmap pos
      let ps ← hashMapForEachLoop hmap fuel next
      pure (pos :: ps)

/-- `hash_map_for_each` -/
def hashMapForEach (hmap : HashMap) : Option (List HashMapPos) :=
  hashMapForEachLoop hmap hmap.live.length (hashMapBegin hmap)

/-! ## Pairs -/

/-- `pair_t` -/
structure Pair where
  keyLen : ℕ
  valueLen : ℕ
  data : List UInt8
  deriving DecidableEq

/-- `create_pair`; the contents of the new block are `uninit`. -/
def createPair (keyLen valueLen : ℕ) (uninit : List UInt8) : Pair := ⟨keyLen, valueLen, uninit⟩

/-- `make_pair`, from the bytes at `key` and the bytes at `value`. -/
def makePair (p : Pair) (key value : List UInt8) : Pair :=
  { p with data := key.take p.keyLen ++ value.take p.valueLen }

end HpiDriver
