import HpiDriver.Memory

/-!
# Protocol formats

`libproto_analyzer/protocol_format_set.c`: a protocol format is a list of fields, each described
by its name, its place in the message and its length; a variable-length field names another field
in `vlenth_index` that holds its length. A format is built field by field from decimal strings and
registered in a table under its protocol number.

The `list_head` ring of a format is the list of its fields. `none` stands for an access through a
`NULL` pointer or outside an array. Blocks for new fields are taken to be available.
-/

namespace HpiDriver

/-! ## Strings -/

/-- The characters of a string literal. -/
def str (s : String) : List UInt8 := s.toList.map fun c => c.toNat.toUInt8

/-- The `int` that the 32 low bits of `z` are. -/
def wrapInt (z : ℤ) : ℤ := Int.bmod z (2 ^ 32)

/-- The loop of `atoi` over the digits. -/
def atoiLoop : List UInt8 → ℤ → Option ℤ
  | [], result => some result
  | c :: p, result =>
    if c < 48 ∨ 57 < c then none
    else atoiLoop p (wrapInt (result * 10 + ((c.toNat : ℤ) - 48)))

/-- `atoi`, the one of `protocol_format_set.c` -/
def atoi : Option (List UInt8) → ℤ
  | none => -1
  | some p =>
    let (minusFlag, p) := match p with
      | 45 :: p => (true, p)
      | 43 :: p => (false, p)
      | p => (false, p)
    match atoiLoop p 0 with
    | none => -1
    | some result => if minusFlag then wrapInt (-result) else result

/-- `strcpy` into a character array; `none` when it does not fit. -/
def strcpy (dst src : List UInt8) : Option (List UInt8) :=
  if src.length < dst.length then some (src ++ 0 :: dst.drop (src.length + 1)) else none

/-! ## Fields -/

/-- `MAX_NAME_LEN` -/
def MAX_NAME_LEN : ℕ := 20

/-- `buffer_t`: the recorded length and the block at `data_p`. -/
structure Buffer where
  len : UInt16
  dataP : Option (List UInt8)
  deriving DecidableEq

/-- `proto_info_list_t`, less its links and the hooks nothing calls. -/
structure ProtoInfo where
  name : List UInt8
  vlenthIndex : List UInt8
  vlenthFlag : Bool
  vlenthFlagBak : Bool
  vlenthValueFlag : Bool
  vlenthValueAssignedFlag : Bool
  bytePos : UInt8
  bitPos : UInt8
  len : UInt16
  lenUnit : UInt8
  bitLen : UInt32
  data : UInt32
  buf : Buffer
  deriving DecidableEq

/-- The zeroed block `pfs_set_proto_info` starts from. -/
def ProtoInfo.zero : ProtoInfo where
  name := List.replicate MAX_NAME_LEN 0
  vlenthIndex := List.replicate MAX_NAME_LEN 0
  vlenthFlag := false
  vlenthFlagBak := false
  vlenthValueFlag := false
  vlenthValueAssignedFlag := false
  bytePos := 0
  bitPos := 0
  len := 0
  lenUnit := 0
  bitLen := 0
  data := 0
  buf := ⟨0, none⟩

/-- `set_proto_info_attribs` -/
def setProtoInfoAttribs (name : List UInt8) (attrValue : Option (List UInt8))
    (info : ProtoInfo) : Option ProtoInfo :=
  if name = str "name" then do
    let name ← strcpy info.name (← attrValue)
    some { info with name := name }
  else if name = str "byte_pos" then
    some { info with bytePos := UInt8.ofInt (atoi attrValue) }
  else if name = str "bit_pos" then
    some { info with bitPos := UInt8.ofInt (atoi attrValue) }
  else if name = str "len" then
    some { info with len := UInt16.ofInt (atoi attrValue) }
  else if name = str "len_unit" then
    some { info with lenUnit := UInt8.ofInt (atoi attrValue) }
  else if name = str "vlenth_index" then
    match attrValue with
    | none => some info
    | some value => do
      let index ← strcpy info.vlenthIndex value
      if (cString index).length > 0 then
        some { info with vlenthIndex := index, vlenthFlag := true, vlenthFlagBak := true }
      else
        let index ← strcpy index (str "N/A")
        some { info with vlenthIndex := index }
  else if name = str "value" then
    let info := { info with bitLen := info.len.toUInt32 * info.lenUnit.toUInt32 }
    if info.bitLen / 8 ≤ 4 then some { info with data := UInt32.ofInt (atoi attrValue) }
    else some { info with buf := { info.buf with dataP := none } }
  else some info

/-- `pfs_set_proto_info` as `PFS_SET_PROTO_INFO` calls it: append a field to a format. -/
def pfsSetProtoInfo (name bytePos bitPos len lenUnit vlenthIndex : Option (List UInt8))
    (hlHead : List ProtoInfo) : Option (List ProtoInfo) := do
  let info ← setProtoInfoAttribs (str "name") name ProtoInfo.zero
  let info ← setProtoInfoAttribs (str "byte_pos") bytePos info
  let info ← setProtoInfoAttribs (str "bit_pos") bitPos info
  let info ← setProtoInfoAttribs (str "len") len info
  let info ← setProtoInfoAttribs (str "len_unit") lenUnit info
  let info ← setProtoInfoAttribs (str "vlenth_index") vlenthIndex info
  some (hlHead ++ [info])

/-! ## Names and specifications -/

/-- A string that fits the name array of a field. -/
structure CName where
  chars : List UInt8
  no_nul : 0 ∉ chars
  length_lt : chars.length < MAX_NAME_LEN
  deriving DecidableEq

/-- The array `strcpy` makes of a zeroed one. -/
def CName.array (n : CName) : List UInt8 :=
  n.chars ++ List.replicate (MAX_NAME_LEN - n.chars.length) 0

/-- The description of a field: what `PFS_SET_PROTO_INFO` is told about it. -/
structure FieldSpec where
  name : CName
  bytePos : UInt8
  bitPos : UInt8
  len : UInt16
  lenUnit : UInt8
  vlenthIndex : Option CName
  deriving DecidableEq

/-- The name of the field that holds the length of this one. -/
def FieldSpec.index (s : FieldSpec) : Option CName :=
  match s.vlenthIndex with
  | none => none
  | some n => if n.chars = [] then none else some n

/-- The field that `PFS_SET_PROTO_INFO` appends for a description. -/
def FieldSpec.info (s : FieldSpec) : ProtoInfo where
  name := s.name.array
  vlenthIndex := match s.vlenthIndex with
    | none => List.replicate MAX_NAME_LEN 0
    | some n => if n.chars = [] then str "N/A" ++ List.replicate 17 0 else n.array
  vlenthFlag := s.index.isSome
  vlenthFlagBak := s.index.isSome
  vlenthValueFlag := false
  vlenthValueAssignedFlag := false
  bytePos := s.bytePos
  bitPos := s.bitPos
  len := s.len
  lenUnit := s.lenUnit
  bitLen := 0
  data := 0
  buf := ⟨0, none⟩

section Names

variable (n : CName) (s : FieldSpec)

@[simp] theorem CName.length_array : n.array.length = MAX_NAME_LEN := by
  have := n.length_lt
  simp only [array, List.length_append, List.length_replicate]
  omega

theorem takeWhile_append_replicate {l : List UInt8} (h : 0 ∉ l) (k : ℕ) :
    (l ++ List.replicate k 0).takeWhile (· != 0) = l := by
  have hl : ∀ c ∈ l, (c != 0) = true := by
    intro c hc
    simpa using fun e : c = 0 => h (e ▸ hc)
  rw [List.takeWhile_append_of_pos hl]
  cases k <;> simp [List.replicate_succ]

@[simp] theorem CName.cString_array : cString n.array = n.chars :=
  takeWhile_append_replicate n.no_nul _

theorem FieldSpec.vlenthIndex_info {i : CName} (h : s.index = some i) :
    cString s.info.vlenthIndex = i.chars := by
  have hi : s.vlenthIndex = some i ∧ i.chars ≠ [] := by
    unfold index at h
    split at h
    · cases h
    · split_ifs at h with he
      obtain rfl := Option.some.inj h
      exact ⟨by assumption, he⟩
  simp [info, hi.1, hi.2]

end Names

/-! ## The table of formats -/

/-- `protocol_format_set_t`; `listHeadP2` is the table of `proto_max_num` slots. -/
structure ProtocolFormatSet where
  listHeadP2 : List (Option (List ProtoInfo))
  protoTotalNum : UInt32
  protoMaxNum : UInt32
  protoBaseAddr : UInt32

/-- `init_proto_format_set` -/
def initProtoFormatSet (protoBaseAddr maxProtoNum : UInt32) : ProtocolFormatSet where
  listHeadP2 := List.replicate maxProtoNum.toNat none
  protoTotalNum := 0
  protoMaxNum := maxProtoNum
  protoBaseAddr := protoBaseAddr

/-- `pfs_add_proto_link_list`; `none` when it writes outside the table. -/
def pfsAddProtoLinkList (llistNum : UInt32) (newProtoLlist : Option (List ProtoInfo))
    (pfs : ProtocolFormatSet) : Option (ℤ × ProtocolFormatSet) :=
  if llistNum > 200 then some (-1, pfs)
  else if newProtoLlist = none then some (-1, pfs)
  else if llistNum.toNat < pfs.listHeadP2.length then
    some (0, { pfs with
      listHeadP2 := pfs.listHeadP2.set llistNum.toNat newProtoLlist
      protoTotalNum := pfs.protoTotalNum + 1 })
  else none

end HpiDriver
