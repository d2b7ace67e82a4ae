import HpiDriver.DataStructure.HashList
import HpiDriver.ProtoAnalyzer.FormatSet

/-!
# The protocol analyzer

`libproto_analyzer/protocol_analyzer.c`: an analyzer owns a private copy of the fields of a
format, a hash table from field names to the fields, and a buffer of 100 bytes. It generates the
bytes of a message from the values of the fields and parses them back. A variable-length field
takes its length from another field when it is reached and moves every field behind it.

The fields live in memory: `info` gives the block at an address and `paListHeadP` the addresses
of the fields in list order, so the loops of the source run over lists of addresses and
`cur->next` is the tail of the list. `none` stands for an access through a `NULL` pointer or
outside an array. What the C standard leaves open in a call is collected in `Env`.
-/

namespace HpiDriver

/-! ## Bits of a byte -/

/-- `pow`, the one of `protocol_analyzer.c`; its loop makes `y + 1` passes. -/
def pow (x y : UInt32) : UInt32 := (List.range (y.toNat + 1)).foldl (fun p _ => p * x) 1

/-- `get_bit_data` -/
def getBitData (data : UInt32) (bitPos len : UInt8) : UInt8 :=
  ((data >>> bitPos.toUInt32) &&& (pow 2 len.toUInt32 - 1)).toUInt8

/-- `set_bit_data`: what becomes of the byte `buf`. -/
def setBitData (buf data bitPos len : UInt8) : UInt8 :=
  (buf.toUInt32 ||| ((data.toUInt32 &&& (pow 2 len.toUInt32 - 1)) <<< bitPos.toUInt32)).toUInt8

/-- The part of a bit field that lies in one byte: the byte, counted from the one the field
starts in, the lowest bit of the part in this byte, the number of its bits and the place of the
lowest of them in the value. -/
structure Chunk where
  byte : ℕ
  low : ℤ
  width : UInt8
  valuePos : ℤ
  deriving DecidableEq

/-- The `short` with the bits of `x`. -/
def shortOf (x : UInt16) : ℤ := Int.bmod x.toNat (2 ^ 16)

/-- The value of `z` in a plain `char`. -/
def charOf (signed : Bool) (z : ℤ) : ℤ := if signed then Int.bmod z 256 else z % 256

/-- The passes of the loop of `pa_set_protocol_bit_data`. -/
def setChunks (signed : Bool) : ℕ → ℕ → ℤ → ℤ → List Chunk
  | 0, _, _, _ => []
  | fuel + 1, i, tLen, tPosSet =>
    if tLen > 0 then
      let room := tPosSet.tmod 8 + 1
      let tLenGet := UInt8.ofInt (if tLen > room then room else tLen)
      let tPosSet := charOf signed (tPosSet - tLenGet.toNat)
      ⟨i, room - tLenGet.toNat, tLenGet, tLen - tLenGet.toNat⟩ ::
        setChunks signed fuel (i + 1) (tLen - tLenGet.toNat) (if tPosSet < 0 then 7 else tPosSet)
    else []

/-- The passes of the loop of `pa_get_protocol_bit_data`; its position is a `uint8_t`, which is
never less than zero. -/
def getChunks : ℕ → ℕ → ℤ → UInt8 → List Chunk
  | 0, _, _, _ => []
  | fuel + 1, i, tLen, tPosGet =>
    if tLen > 0 then
      let room : ℤ := tPosGet.toNat % 8 + 1
      let tLenGet := UInt8.ofInt (if tLen > room then room else tLen)
      ⟨i, room - tLenGet.toNat, tLenGet, tLen - tLenGet.toNat⟩ ::
        getChunks fuel (i + 1) (tLen - tLenGet.toNat) (tPosGet - tLenGet)
    else []

/-- A pass handles at least one bit, but for the first one at a negative position. -/
def chunkFuel (len : UInt16) : ℕ := (shortOf len).toNat + 1

/-! ## The state of an analyzer -/

/-- `struct protocol_analyzer_s`, with the blocks of its fields. -/
structure ProtocolAnalyzer where
  pfs : ProtocolFormatSet
  protocolData : List UInt8
  protocolDataLen : UInt16
  protocolNum : UInt32
  pfListHeadP : Option (List ProtoInfo)
  paListHeadP : Option (List Addr)
  info : Addr → ProtoInfo
  hmap : Option HashMap

/-- `MAX_PROTO_DATA_LEN` -/
def MAX_PROTO_DATA_LEN : ℕ := 100

/-- What one call finds undetermined: the signedness of plain `char`, the initial contents of the
local `key_str` in the lookup made for the field at an address (by `pa_recompute_byte_pos` and by
`pa_set_variable_length_flag`), and the sum of two locals of `pa_generate_protocol_data` that only
its loop sets. -/
structure Env where
  charSigned : Bool
  keyStr : Addr → ℕ → UInt8
  flagKeyStr : Addr → ℕ → UInt8
  dataLen : UInt16

/-- Change the field at `a`. -/
def ProtocolAnalyzer.modify (pa : ProtocolAnalyzer) (a : Addr) (g : ProtoInfo → ProtoInfo) :
    ProtocolAnalyzer :=
  { pa with info := Function.update pa.info a (g (pa.info a)) }

/-! ## Creation -/

/-- `pa_create_protocol_analyzer`; `pfs_p` is set by `pa_init_protocol_analyzer`. -/
def paCreateProtocolAnalyzer (pfs : ProtocolFormatSet) : ProtocolAnalyzer where
  pfs := pfs
  protocolData := List.replicate MAX_PROTO_DATA_LEN 0
  protocolDataLen := 0
  protocolNum := 0
  pfListHeadP := none
  paListHeadP := none
  info := fun _ => ProtoInfo.zero
  hmap := none

/-- `pa_check_protocol_num` -/
def paCheckProtocolNum (pa : ProtocolAnalyzer) : ℤ :=
  if pa.protocolNum > pa.pfs.protoBaseAddr + pa.pfs.protoMaxNum ∨
      pa.protocolNum < pa.pfs.protoBaseAddr then -1
  else 0

/-- `pa_find_protocol_format` -/
def paFindProtocolFormat (pa : ProtocolAnalyzer) : Option (ℤ × ProtocolAnalyzer) :=
  if paCheckProtocolNum pa < 0 then some (paCheckProtocolNum pa, pa)
  else do
    let hl ← pa.pfs.listHeadP2[(pa.protocolNum - pa.pfs.protoBaseAddr).toNat]?
    let pa := { pa with pfListHeadP := hl }
    if hl = none then some (-1, pa) else some (0, pa)

/-- `pa_copy_protocol_format`; `infos` are the blocks the allocator hands out. -/
def paCopyProtocolFormat (infos : List Addr) (pa : ProtocolAnalyzer) : ℤ × ProtocolAnalyzer :=
  match pa.pfListHeadP with
  | none => (-1, pa)
  | some hl =>
    (0, { pa with
      paListHeadP := some (infos.take hl.length)
      info := (infos.zip hl).foldl (fun h p => Function.update h p.1 p.2) pa.info })

/-- The bytes of an address, as `pa_create_hash_table` stores them. -/
def addrBuffer (a : Addr) : List UInt8 :=
  [(a >>> 24).toUInt8, (a >>> 16).toUInt8, (a >>> 8).toUInt8, a.toUInt8]

/-- The pointer that `pa_find_key` reads back. -/
def addrOfBuffer (b : List UInt8) : Option Addr :=
  let a := (b.getD 0 0).toUInt32 <<< 24 ||| (b.getD 1 0).toUInt32 <<< 16 |||
    (b.getD 2 0).toUInt32 <<< 8 ||| (b.getD 3 0).toUInt32
  if a = 0 then none else some a

/-- `pa_create_hash_table`; `nodes` are the blocks the allocator hands out. -/
def paCreateHashTable (nodes : List Addr) (pa : ProtocolAnalyzer) : ℤ × ProtocolAnalyzer :=
  let keySize := 10
  let dataSize := 4
  let bucketSize := 10
  let pair := createPair keySize dataSize []
  let hmap := hashMapInit keySize (dataSize + keySize) bucketSize defaultHashFunc defaultKeyCmpFunc
  match pa.paListHeadP with
  | none => (-1, pa)
  | some hl =>
    (0, { pa with
      hmap := some ((hl.zip nodes).foldl (fun hmap p =>
        (hashMapInsert hmap (some p.2)
          (makePair pair (pa.info p.1).name (addrBuffer p.1)).data).2) hmap) })

/-- `pa_init_protocol_analyzer`; its steps ignore each other's errors. -/
def paInitProtocolAnalyzer (protoNo : UInt32) (pfp : ProtocolFormatSet) (infos nodes : List Addr)
    (pa : ProtocolAnalyzer) : Option ProtocolAnalyzer := do
  let r ← paFindProtocolFormat { pa with protocolNum := protoNo, pfs := pfp }
  some (paCreateHashTable nodes (paCopyProtocolFormat infos r.2).2).2

/-! ## Lookup -/

/-- `pa_find_key`; `uninit` is what its local `key_str` holds initially. -/
def paFindKey (key : List UInt8) (uninit : ℕ → UInt8) (pa : ProtocolAnalyzer) :
    Option (Option Addr) := do
  let hmap ← pa.hmap
  let keyStr :=
    if key.length < hmap.keySize then key ++ List.replicate (hmap.keySize - key.length) 0
    else (List.range hmap.keySize).map uninit
  let mapPos := hashMapSearch hmap keyStr
  match mapPos.hlistNodeP with
  | none => some none
  | some _ => do
    let addrP ← hashMapPosGetPointer hmap mapPos
    some (addrOfBuffer addrP)

/-- The scan of the list that `pa_find_key` was before, still there under `#if 0`. -/
def paFindKeyScan (key : List UInt8) (pa : ProtocolAnalyzer) : Option (Option Addr) := do
  let hl ← pa.paListHeadP
  some (hl.find? fun a => cString (pa.info a).name = key)

/-! ## Values of fields -/

/-- What `pa_set_buf` does to the field it has found. -/
def setBuf (data : List UInt8) (f : ProtoInfo) : Option ProtoInfo :=
  match f.buf.dataP with
  | none => some { f with buf := ⟨UInt16.ofNat data.length, some data⟩ }
  | some block =>
    if data.length ≤ f.buf.len.toNat then do
      let block ← memcpyTo block 0 data
      some { f with buf := { f.buf with dataP := some block } }
    else some { f with buf := ⟨UInt16.ofNat data.length, some data⟩ }

/-- `pa_set_buf` -/
def paSetBuf (key data : List UInt8) (uninit : ℕ → UInt8) (pa : ProtocolAnalyzer) :
    Option (ℤ × ProtocolAnalyzer) := do
  match ← paFindKey key uninit pa with
  | none => some (0, pa)
  | some a => do
    let f ← setBuf data (pa.info a)
    some (0, pa.modify a fun _ => f)

/-- What `pa_set_value` does to the field it has found. -/
def setValue (value : UInt32) (f : ProtoInfo) : ProtoInfo := { f with data := value }

/-- `pa_set_value` -/
def paSetValue (key : List UInt8) (value : UInt32) (uninit : ℕ → UInt8) (pa : ProtocolAnalyzer) :
    Option (ℤ × ProtocolAnalyzer) := do
  let a ← ← paFindKey key uninit pa
  some (0, pa.modify a (setValue value))

/-- `pa_get_value` -/
def paGetValue (key : List UInt8) (uninit : ℕ → UInt8) (pa : ProtocolAnalyzer) : Option ℤ := do
  match ← paFindKey key uninit pa with
  | none => some (-1)
  | some a => some (wrapInt (pa.info a).data.toNat)

/-- `pa_set_variable_length_value` -/
def paSetVariableLengthValue (key : List UInt8) (value : UInt32) (uninit : ℕ → UInt8)
    (pa : ProtocolAnalyzer) : Option (ℤ × ProtocolAnalyzer) := do
  match ← paFindKey key uninit pa with
  | none => some (-1, pa)
  | some a =>
    some (0, pa.modify a fun f => { f with data := value, vlenthValueAssignedFlag := true })

/-! ## Variable lengths -/

/-- `pa_recompute_byte_pos` for the field at `cur`, with the fields behind it in `rest`. -/
def paRecomputeBytePos (env : Env) (cur : Addr) (rest : List Addr) (pa : ProtocolAnalyzer) :
    Option (ℤ × ProtocolAnalyzer) := do
  match ← paFindKey (cString (pa.info cur).vlenthIndex) (env.keyStr cur) pa with
  | none => some (-1, pa)
  | some find =>
    let data := (pa.info find).data
    let bitLen := data * (pa.info cur).lenUnit.toUInt32
    let pa := pa.modify cur fun f => { f with len := data.toUInt16 }
    some (0, rest.foldl (fun pa pos =>
      pa.modify pos fun f => { f with bytePos := f.bytePos + (bitLen / 8).toUInt8 }) pa)

/-- `pa_set_variable_length_flag` -/
def paSetVariableLengthFlag (env : Env) (hl : List Addr) (pa : ProtocolAnalyzer) :
    Option ProtocolAnalyzer :=
  hl.foldlM (fun pa pos =>
    if (pa.info pos).vlenthFlag then do
      match ← paFindKey (cString (pa.info pos).vlenthIndex) (env.flagKeyStr pos) pa with
      | none => some pa
      | some find => some (pa.modify find fun f => { f with vlenthValueFlag := true })
    else some pa) pa

/-- The common step of the two loops: a field whose flag is set has its length looked up. -/
def paResolveLength (env : Env) (cur : Addr) (rest : List Addr) (pa : ProtocolAnalyzer) :
    Option ProtocolAnalyzer :=
  if (pa.info cur).vlenthFlag then do
    let r ← paRecomputeBytePos env cur rest pa
    some (r.2.modify cur fun f => { f with vlenthFlag := false })
  else some pa

/-! ## Writing fields -/

/-- `pa_set_protocol_buf` -/
def paSetProtocolBuf (data : Option (List UInt8)) (len : ℕ) (bytePos bitPos : UInt8)
    (dp : List UInt8) : Option (List UInt8) :=
  if bitPos ≠ 0 then some dp
  else do
    let block ← data
    let bs ← memcpyFrom block 0 len
    memcpyTo dp bytePos.toNat bs

/-- `pa_set_protocol_byte_data` -/
def paSetProtocolByteData (data : UInt32) (bytePos : UInt8) (len : UInt16) (dp : List UInt8) :
    Option (List UInt8) :=
  (List.range len.toNat).foldlM (fun dp i =>
    arrayStore dp (bytePos.toNat + i) (data >>> UInt32.ofNat (8 * (len.toNat - i - 1))).toUInt8) dp

/-- `pa_set_protocol_bit_data` -/
def paSetProtocolBitData (env : Env) (data : UInt32) (bytePos bitPos : UInt8) (len : UInt16)
    (dp : List UInt8) : Option (List UInt8) :=
  (setChunks env.charSigned (chunkFuel len) 0 (shortOf len)
    (charOf env.charSigned bitPos.toNat)).foldlM (fun dp c => do
      let tDataGet := getBitData data (UInt8.ofInt c.valuePos) c.width
      let b ← dp[bytePos.toNat + c.byte]?
      arrayStore dp (bytePos.toNat + c.byte) (setBitData b tDataGet (UInt8.ofInt c.low) c.width)) dp

/-- The body of the loop of `pa_generate_protocol_data` that writes a field at `bytePos`. -/
def paSetProtocolField (env : Env) (f : ProtoInfo) (bytePos : UInt8) (dp : List UInt8) :
    Option (List UInt8) :=
  if f.lenUnit = 8 then
    if f.len ≤ 4 then paSetProtocolByteData f.data bytePos f.len dp
    else paSetProtocolBuf f.buf.dataP f.len.toNat bytePos f.bitPos dp
  else if f.lenUnit = 1 then paSetProtocolBitData env f.data bytePos f.bitPos f.len dp
  else some dp

/-- The loop of `pa_generate_protocol_data`; `dataLen` is the sum of its `byte_pos` and `len`. -/
def paGenerateLoop (env : Env) : List Addr → ProtocolAnalyzer → UInt16 →
    Option (ProtocolAnalyzer × UInt16)
  | [], pa, dataLen => some (pa, dataLen)
  | pos :: rest, pa, _ => do
    let bytePos := (pa.info pos).bytePos
    let pa ← paResolveLength env pos rest pa
    let dp ← paSetProtocolField env (pa.info pos) bytePos pa.protocolData
    paGenerateLoop env rest { pa with protocolData := dp }
      (bytePos.toUInt16 + (pa.info pos).len)

/-- `pa_generate_protocol_data` -/
def paGenerateProtocolData (env : Env) (pa : ProtocolAnalyzer) : Option (ℤ × ProtocolAnalyzer) :=
  match pa.paListHeadP with
  | none => some (-1, pa)
  | some hl => do
    let pa ← paSetVariableLengthFlag env hl pa
    let r ← paGenerateLoop env hl pa env.dataLen
    some (0, { r.1 with protocolDataLen := r.2 })

/-! ## Reading fields -/

/-- `pa_get_protocol_buf` -/
def paGetProtocolBuf (f : ProtoInfo) (dp : List UInt8) : Option ProtoInfo := do
  let bs ← memcpyFrom dp f.bytePos.toNat f.len.toNat
  match f.buf.dataP with
  | none => some { f with buf := ⟨f.len, some bs⟩ }
  | some block =>
    if f.len ≤ f.buf.len then do
      let block ← memcpyTo block 0 bs
      some { f with buf := ⟨f.len, some block⟩ }
    else some { f with buf := ⟨f.len, some bs⟩ }

/-- `pa_get_protocol_byte_data` -/
def paGetProtocolByteData (f : ProtoInfo) (dp : List UInt8) : Option ProtoInfo := do
  let tLen := (shortOf f.len).toNat
  let data ← (List.range tLen).foldlM (fun data i => do
    let b ← dp[f.bytePos.toNat + i]?
    some (data ||| b.toUInt32 <<< UInt32.ofNat ((tLen - i - 1) * 8))) (0 : UInt32)
  some { f with data := data }

/-- `pa_get_protocol_bit_data`; its `byte_pos` is a plain `char`. -/
def paGetProtocolBitData (env : Env) (f : ProtoInfo) (dp : List UInt8) : Option ProtoInfo := do
  let bytePos := charOf env.charSigned f.bytePos.toNat
  let data ← (getChunks (chunkFuel f.len) 0 (shortOf f.len) f.bitPos).foldlM (fun data c => do
    let b ← if bytePos + c.byte < 0 then none else dp[(bytePos + c.byte).toNat]?
    let tDataGet := getBitData b.toUInt32 (UInt8.ofInt c.low) c.width
    some (data ||| tDataGet.toUInt32 <<< UInt32.ofInt c.valuePos)) (0 : UInt32)
  some { f with data := data }

/-- The body of the loop of `pa_parse_protocol_data` that reads a field. -/
def paGetProtocolField (env : Env) (f : ProtoInfo) (dp : List UInt8) : Option ProtoInfo :=
  if f.lenUnit = 8 then
    if f.len ≤ 4 then paGetProtocolByteData f dp else paGetProtocolBuf f dp
  else if f.lenUnit = 1 then paGetProtocolBitData env f dp
  else some f

/-- The loop of `pa_parse_protocol_data`. -/
def paParseLoop (env : Env) : List Addr → ProtocolAnalyzer → Option ProtocolAnalyzer
  | [], pa => some pa
  | pos :: rest, pa => do
    let pa ← paResolveLength env pos rest pa
    let f ← paGetProtocolField env (pa.info pos) pa.protocolData
    paParseLoop env rest (pa.modify pos fun _ => f)

/-- `pa_parse_protocol_data` -/
def paParseProtocolData (env : Env) (pa : ProtocolAnalyzer) : Option (ℤ × ProtocolAnalyzer) :=
  match pa.paListHeadP with
  | none => some (-1, pa)
  | some hl =>
    if pa.protocolDataLen = 0 then some (-1, pa)
    else do
      let pa ← paParseLoop env hl pa
      some (0, pa)

/-- `pa_reset_vlen_flag` -/
def paResetVlenFlag (pa : ProtocolAnalyzer) : ℤ × ProtocolAnalyzer :=
  match pa.paListHeadP with
  | none => (-1, pa)
  | some hl =>
    (0, hl.foldl (fun pa pos =>
      pa.modify pos fun f => if f.vlenthFlagBak then { f with vlenthFlag := true } else f) pa)

end HpiDriver
