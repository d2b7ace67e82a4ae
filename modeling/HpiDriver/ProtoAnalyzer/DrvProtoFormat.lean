import HpiDriver.ProtoAnalyzer.FormatSet

/-!
# The formats of the driver protocol

`libproto_analyzer/test/pdt_drv_proto_format.c` and `pdt_drv_proto_format.h`: the formats of the
commands `0x3008` and `0x3019` and of the parts `0x3050`, `0x3052` and `0x3054` of other commands,
built from strings as the source builds them. Each of them is the list of fields of a table of
descriptions (`protoFormat3008_eq` and so on), which is the form the results on formats
speak about. Building the format set of the driver enters them into its table (`drvFormatSet_eq`),
where an analyzer finds them (`registered_drvPfs`).
-/

namespace HpiDriver

/-! ## Field names -/

def PROTO_NUM := str "proto_num"
def LAB := str "lab"
def LEN := str "len"
def SLOT_INFO := str "slot_info"
def SYNC_INFO := str "sync_info"
def TACT_INFO := str "tact_info"
def SLC_INFO := str "slc_info"
def SLC_DATA := str "slc_data"
def SYNC_INDEX := str "sync_index"
def ST_INFO := str "st_info"
def DC_INFO := str "dc_info"
def DC_DATA := str "dc_data"
def EMB_FLAG := str "emb_flag"
def EMB_INFO := str "emb_info"
def LC_INFO := str "lc_info"
def LC_DATA := str "lc_data"
def NO_NAME1 := str "no_name1"

/-- `PFS_SET_PROTO_INFO` with string literals. -/
def PFS_SET_PROTO_INFO (name : List UInt8) (bytePos bitPos len lenUnit : String)
    (vlenthIndex : Option (List UInt8)) (hlHead : List ProtoInfo) : Option (List ProtoInfo) :=
  pfsSetProtoInfo (some name) (some (str bytePos)) (some (str bitPos)) (some (str len))
    (some (str lenUnit)) vlenthIndex hlHead

/-! ## The formats as the source builds them -/

/-- The list that `pfs_set_proto_format_3008` registers. -/
def protoFormat3008 : Option (List ProtoInfo) := do
  let hl ← PFS_SET_PROTO_INFO PROTO_NUM "0" "0" "2" "8" none []
  let hl ← PFS_SET_PROTO_INFO LAB "2" "0" "2" "8" none hl
  let hl ← PFS_SET_PROTO_INFO SLOT_INFO "4" "0" "2" "8" none hl
  let hl ← PFS_SET_PROTO_INFO SYNC_INFO "6" "0" "2" "8" none hl
  let hl ← PFS_SET_PROTO_INFO TACT_INFO "8" "0" "1" "8" none hl
  let hl ← PFS_SET_PROTO_INFO SLC_INFO "9" "0" "1" "8" none hl
  let hl ← PFS_SET_PROTO_INFO SLC_DATA "10" "0" "0" "8" (some SLC_INFO) hl
  let hl ← PFS_SET_PROTO_INFO SYNC_INDEX "10" "0" "1" "8" none hl
  let hl ← PFS_SET_PROTO_INFO ST_INFO "11" "0" "1" "8" none hl
  let hl ← PFS_SET_PROTO_INFO DC_INFO "12" "0" "1" "8" none hl
  PFS_SET_PROTO_INFO DC_DATA "13" "0" "0" "8" (some DC_INFO) hl

/-- The list that `pfs_set_proto_format_3019` registers. -/
def protoFormat3019 : Option (List ProtoInfo) := do
  let hl ← PFS_SET_PROTO_INFO PROTO_NUM "0" "0" "2" "8" none []
  let hl ← PFS_SET_PROTO_INFO LAB "2" "0" "2" "8" none hl
  let hl ← PFS_SET_PROTO_INFO LEN "5" "0" "1" "8" none hl
  let hl ← PFS_SET_PROTO_INFO SLOT_INFO "6" "0" "2" "8" none hl
  let hl ← PFS_SET_PROTO_INFO SYNC_INDEX "8" "0" "1" "8" none hl
  let hl ← PFS_SET_PROTO_INFO ST_INFO "9" "0" "1" "8" none hl
  let hl ← PFS_SET_PROTO_INFO DC_INFO "10" "0" "1" "8" none hl
  PFS_SET_PROTO_INFO DC_DATA "11" "0" "0" "8" (some DC_INFO) hl

/-- The list that `pfs_set_proto_format_3050` registers. -/
def protoFormat3050 : Option (List ProtoInfo) := do
  let hl ← PFS_SET_PROTO_INFO PROTO_NUM "0" "0" "2" "8" none []
  let hl ← PFS_SET_PROTO_INFO LEN "2" "0" "1" "8" none hl
  let hl ← PFS_SET_PROTO_INFO EMB_FLAG "3" "0" "1" "8" none hl
  let hl ← PFS_SET_PROTO_INFO SLOT_INFO "4" "0" "2" "8" none hl
  let hl ← PFS_SET_PROTO_INFO SYNC_INFO "6" "0" "2" "8" none hl
  let hl ← PFS_SET_PROTO_INFO TACT_INFO "8" "0" "1" "8" none hl
  let hl ← PFS_SET_PROTO_INFO SLC_INFO "9" "0" "1" "8" none hl
  let hl ← PFS_SET_PROTO_INFO SLC_DATA "10" "0" "0" "8" (some SLC_INFO) hl
  let hl ← PFS_SET_PROTO_INFO SYNC_INDEX "10" "0" "1" "8" none hl
  let hl ← PFS_SET_PROTO_INFO ST_INFO "11" "0" "1" "8" none hl
  let hl ← PFS_SET_PROTO_INFO DC_INFO "12" "0" "1" "8" none hl
  PFS_SET_PROTO_INFO DC_DATA "13" "0" "0" "8" (some DC_INFO) hl

/-- The list that `pfs_set_proto_format_3052` registers. -/
def protoFormat3052 : Option (List ProtoInfo) := do
  let hl ← PFS_SET_PROTO_INFO PROTO_NUM "0" "0" "2" "8" none []
  let hl ← PFS_SET_PROTO_INFO LEN "2" "0" "1" "8" none hl
  let hl ← PFS_SET_PROTO_INFO EMB_FLAG "3" "0" "1" "8" none hl
  let hl ← PFS_SET_PROTO_INFO SLOT_INFO "4" "0" "2" "8" none hl
  let hl ← PFS_SET_PROTO_INFO SYNC_INFO "6" "0" "2" "8" none hl
  let hl ← PFS_SET_PROTO_INFO TACT_INFO "8" "0" "1" "8" none hl
  let hl ← PFS_SET_PROTO_INFO SLC_INFO "9" "0" "1" "8" none hl
  let hl ← PFS_SET_PROTO_INFO SLC_DATA "10" "0" "0" "8" (some SLC_INFO) hl
  let hl ← PFS_SET_PROTO_INFO EMB_INFO "10" "0" "1" "8" none hl
  let hl ← PFS_SET_PROTO_INFO LC_INFO "11" "0" "1" "8" none hl
  let hl ← PFS_SET_PROTO_INFO LC_DATA "12" "0" "0" "8" (some LC_INFO) hl
  let hl ← PFS_SET_PROTO_INFO DC_INFO "12" "0" "1" "8" none hl
  PFS_SET_PROTO_INFO DC_DATA "13" "0" "0" "8" (some DC_INFO) hl

/-- The list that `pfs_set_proto_format_3054` registers. -/
def protoFormat3054 : Option (List ProtoInfo) := do
  let hl ← PFS_SET_PROTO_INFO PROTO_NUM "0" "0" "2" "8" none []
  let hl ← PFS_SET_PROTO_INFO NO_NAME1 "2" "0" "1" "8" none hl
  let hl ← PFS_SET_PROTO_INFO ST_INFO "3" "0" "1" "8" none hl
  let hl ← PFS_SET_PROTO_INFO DC_INFO "4" "0" "1" "8" none hl
  PFS_SET_PROTO_INFO DC_DATA "5" "0" "0" "8" (some DC_INFO) hl

/-- The common end of the functions `pfs_set_proto_format_*`: register the format of `num`. -/
def registerFormat (num : UInt32) (hlHead : Option (List ProtoInfo))
    (pfs : ProtocolFormatSet) : Option ProtocolFormatSet := do
  let hl ← hlHead
  let r ← pfsAddProtoLinkList (num - pfs.protoBaseAddr) (some hl) pfs
  some r.2

/-- `pfs_set_proto_format_3008` -/
def pfsSetProtoFormat3008 := registerFormat 0x3008 protoFormat3008

/-- `pfs_set_proto_format_3019` -/
def pfsSetProtoFormat3019 := registerFormat 0x3019 protoFormat3019

/-- `pfs_set_proto_format_3050` -/
def pfsSetProtoFormat3050 := registerFormat 0x3050 protoFormat3050

/-- `pfs_set_proto_format_3052` -/
def pfsSetProtoFormat3052 := registerFormat 0x3052 protoFormat3052

/-- `pfs_set_proto_format_3054` -/
def pfsSetProtoFormat3054 := registerFormat 0x3054 protoFormat3054

/-- `pfs_set_pdt_drv_proto_format` -/
def pfsSetPdtDrvProtoFormat (pfs : ProtocolFormatSet) : Option ProtocolFormatSet := do
  let pfs ← pfsSetProtoFormat3008 pfs
  let pfs ← pfsSetProtoFormat3019 pfs
  let pfs ← pfsSetProtoFormat3050 pfs
  let pfs ← pfsSetProtoFormat3052 pfs
  pfsSetProtoFormat3054 pfs

/-- The format set that `plat_probe` leaves in `pfs_p`. -/
def drvFormatSet : Option ProtocolFormatSet :=
  pfsSetPdtDrvProtoFormat (initProtoFormatSet 0x3000 100)

/-- The format set of the driver; building it succeeds (`drvFormatSet_eq`). -/
def drvPfs : ProtocolFormatSet := drvFormatSet.getD ⟨[], 0, 0, 0⟩

/-! ## The formats as tables -/

/-- A name that is known to fit. -/
def cname (s : String) (h₁ : 0 ∉ str s := by decide)
    (h₂ : (str s).length < MAX_NAME_LEN := by decide) : CName := ⟨str s, h₁, h₂⟩

/-- A field of whole bytes at `bytePos`. -/
def byteField (name : CName) (bytePos : UInt8) (len : UInt16)
    (vlenthIndex : Option CName) : FieldSpec where
  name := name
  bytePos := bytePos
  bitPos := 0
  len := len
  lenUnit := 8
  vlenthIndex := vlenthIndex

def specs3008 : List FieldSpec :=
  [byteField (cname "proto_num") 0 2 none,
    byteField (cname "lab") 2 2 none,
    byteField (cname "slot_info") 4 2 none,
    byteField (cname "sync_info") 6 2 none,
    byteField (cname "tact_info") 8 1 none,
    byteField (cname "slc_info") 9 1 none,
    byteField (cname "slc_data") 10 0 (some (cname "slc_info")),
    byteField (cname "sync_index") 10 1 none,
    byteField (cname "st_info") 11 1 none,
    byteField (cname "dc_info") 12 1 none,
    byteField (cname "dc_data") 13 0 (some (cname "dc_info"))]

def specs3019 : List FieldSpec :=
  [byteField (cname "proto_num") 0 2 none,
    byteField (cname "lab") 2 2 none,
    byteField (cname "len") 5 1 none,
    byteField (cname "slot_info") 6 2 none,
    byteField (cname "sync_index") 8 1 none,
    byteField (cname "st_info") 9 1 none,
    byteField (cname "dc_info") 10 1 none,
    byteField (cname "dc_data") 11 0 (some (cname "dc_info"))]

def specs3050 : List FieldSpec :=
  [byteField (cname "proto_num") 0 2 none,
    byteField (cname "len") 2 1 none,
    byteField (cname "emb_flag") 3 1 none,
    byteField (cname "slot_info") 4 2 none,
    byteField (cname "sync_info") 6 2 none,
    byteField (cname "tact_info") 8 1 none,
    byteField (cname "slc_info") 9 1 none,
    byteField (cname "slc_data") 10 0 (some (cname "slc_info")),
    byteField (cname "sync_index") 10 1 none,
    byteField (cname "st_info") 11 1 none,
    byteField (cname "dc_info") 12 1 none,
    byteField (cname "dc_data") 13 0 (some (cname "dc_info"))]

def specs3052 : List FieldSpec :=
  [byteField (cname "proto_num") 0 2 none,
    byteField (cname "len") 2 1 none,
    byteField (cname "emb_flag") 3 1 none,
    byteField (cname "slot_info") 4 2 none,
    byteField (cname "sync_info") 6 2 none,
    byteField (cname "tact_info") 8 1 none,
    byteField (cname "slc_info") 9 1 none,
    byteField (cname "slc_data") 10 0 (some (cname "slc_info")),
    byteField (cname "emb_info") 10 1 none,
    byteField (cname "lc_info") 11 1 none,
    byteField (cname "lc_data") 12 0 (some (cname "lc_info")),
    byteField (cname "dc_info") 12 1 none,
    byteField (cname "dc_data") 13 0 (some (cname "dc_info"))]

def specs3054 : List FieldSpec :=
  [byteField (cname "proto_num") 0 2 none,
    byteField (cname "no_name1") 2 1 none,
    byteField (cname "st_info") 3 1 none,
    byteField (cname "dc_info") 4 1 none,
    byteField (cname "dc_data") 5 0 (some (cname "dc_info"))]

theorem protoFormat3008_eq : protoFormat3008 = some (specs3008.map FieldSpec.info) := by
  decide +kernel

theorem protoFormat3019_eq : protoFormat3019 = some (specs3019.map FieldSpec.info) := by
  decide +kernel

theorem protoFormat3050_eq : protoFormat3050 = some (specs3050.map FieldSpec.info) := by
  decide +kernel

theorem protoFormat3052_eq : protoFormat3052 = some (specs3052.map FieldSpec.info) := by
  decide +kernel

theorem protoFormat3054_eq : protoFormat3054 = some (specs3054.map FieldSpec.info) := by
  decide +kernel

/-! ## The table of the driver -/

/-- The formats of the driver with their numbers. -/
def drvFormats : List (UInt32 × List FieldSpec) :=
  [(0x3008, specs3008), (0x3019, specs3019), (0x3050, specs3050), (0x3052, specs3052),
    (0x3054, specs3054)]

theorem mem_drvFormats_3008 : (0x3008, specs3008) ∈ drvFormats := List.mem_of_getElem? (i := 0) rfl

theorem mem_drvFormats_3050 : (0x3050, specs3050) ∈ drvFormats := List.mem_of_getElem? (i := 2) rfl

theorem mem_drvFormats_3052 : (0x3052, specs3052) ∈ drvFormats := List.mem_of_getElem? (i := 3) rfl

theorem mem_drvFormats_3054 : (0x3054, specs3054) ∈ drvFormats := List.mem_of_getElem? (i := 4) rfl

/-- A format with a number of the table goes to its entry. -/
theorem registerFormat_eq {num : UInt32} {hl : List ProtoInfo} {pfs : ProtocolFormatSet}
    (hsmall : ¬ num - pfs.protoBaseAddr > 200)
    (hlt : (num - pfs.protoBaseAddr).toNat < pfs.listHeadP2.length) :
    registerFormat num (some hl) pfs = some { pfs with
      listHeadP2 := pfs.listHeadP2.set (num - pfs.protoBaseAddr).toNat (some hl)
      protoTotalNum := pfs.protoTotalNum + 1 } := by
  have hadd : pfsAddProtoLinkList (num - pfs.protoBaseAddr) (some hl) pfs = some (0, { pfs with
      listHeadP2 := pfs.listHeadP2.set (num - pfs.protoBaseAddr).toNat (some hl)
      protoTotalNum := pfs.protoTotalNum + 1 }) := by
    rw [pfsAddProtoLinkList, if_neg hsmall, if_neg (by simp), if_pos hlt]
  simp only [registerFormat, Option.bind_eq_bind, Option.bind_some, hadd]

/-- Building the format set of the driver succeeds and enters the five formats. -/
theorem drvFormatSet_eq : drvFormatSet = some
    { listHeadP2 := (((((List.replicate 100 none).set
        0x08 (some (specs3008.map FieldSpec.info))).set
        0x19 (some (specs3019.map FieldSpec.info))).set
        0x50 (some (specs3050.map FieldSpec.info))).set
        0x52 (some (specs3052.map FieldSpec.info))).set
        0x54 (some (specs3054.map FieldSpec.info))
      protoTotalNum := 5
      protoMaxNum := 100
      protoBaseAddr := 0x3000 } := by
  simp only [drvFormatSet, pfsSetPdtDrvProtoFormat, pfsSetProtoFormat3008, pfsSetProtoFormat3019,
    pfsSetProtoFormat3050, pfsSetProtoFormat3052, pfsSetProtoFormat3054, protoFormat3008_eq,
    protoFormat3019_eq, protoFormat3050_eq, protoFormat3052_eq, protoFormat3054_eq,
    Option.bind_eq_bind]
  rw [registerFormat_eq (by decide) (by decide), Option.bind_some,
    registerFormat_eq (by decide) (by simp [initProtoFormatSet]), Option.bind_some,
    registerFormat_eq (by decide) (by simp [initProtoFormatSet]), Option.bind_some,
    registerFormat_eq (by decide) (by simp [initProtoFormatSet]), Option.bind_some,
    registerFormat_eq (by decide) (by simp [initProtoFormatSet])]
  rfl

/-- Each format of the driver is registered under its number. -/
theorem registered_drvPfs {num : UInt32} {specs : List FieldSpec} (h : (num, specs) ∈ drvFormats) :
    drvPfs.listHeadP2[(num - drvPfs.protoBaseAddr).toNat]? =
      some (some (specs.map FieldSpec.info)) := by
  rw [drvPfs, drvFormatSet_eq, Option.getD_some]
  simp only [drvFormats, List.mem_cons, List.not_mem_nil, or_false, Prod.mk.injEq] at h
  obtain ⟨rfl, rfl⟩ | ⟨rfl, rfl⟩ | ⟨rfl, rfl⟩ | ⟨rfl, rfl⟩ | ⟨rfl, rfl⟩ := h <;> rfl

/-- The numbers of the formats of the driver are in the range of its table. -/
theorem inRange_drvPfs {num : UInt32} {specs : List FieldSpec} (h : (num, specs) ∈ drvFormats) :
    drvPfs.protoBaseAddr ≤ num ∧ num ≤ drvPfs.protoBaseAddr + drvPfs.protoMaxNum := by
  rw [drvPfs, drvFormatSet_eq, Option.getD_some]
  simp only [drvFormats, List.mem_cons, List.not_mem_nil, or_false, Prod.mk.injEq] at h
  obtain ⟨rfl, -⟩ | ⟨rfl, -⟩ | ⟨rfl, -⟩ | ⟨rfl, -⟩ | ⟨rfl, -⟩ := h <;> decide

end HpiDriver
