import HpiDriver.ProtoAnalyzer.FindKey

/-!
# Giving fields their values

A message is made by giving every field of an analyzer a value, with `pa_set_value` or
`pa_set_buf`, and is read by copying its bytes into the buffer of an analyzer. `assign` is the
first, on the fields at given addresses; on a fresh analyzer it is what the calls by name do, as
long as the names are short enough to be found (`paSetValue_eq`, `paSetBuf_eq`). `loadMessage` is
the second.
-/

namespace HpiDriver

open Blocks BigEndian

/-! ## Assignments -/

/-- Give a field a value, as `pa_set_value` and `pa_set_buf` do with the field they find. -/
def assignField (v : FieldValue) (f : ProtoInfo) : Option ProtoInfo :=
  match v with
  | .int n => some (setValue n f)
  | .buf bs => setBuf bs f

/-- Give the fields at the addresses their values. -/
def assign (vals : List (Addr × FieldValue)) (pa : ProtocolAnalyzer) : Option ProtocolAnalyzer :=
  vals.foldlM (fun pa v => do
    let f ← assignField v.2 (pa.info v.1)
    some (pa.modify v.1 fun _ => f)) pa

/-- The field `g` holds the value `v`: a number in `data`, bytes at the front of the block. -/
def Given (v : FieldValue) (g : ProtoInfo) : Prop :=
  match v with
  | .int n => g.data = n
  | .buf bs => ∃ block, g.buf.dataP = some block ∧ bs <+: block

/-- The number of a field that had the number `old`, once it was given the value. -/
def FieldValue.dataAfter (v : FieldValue) (old : UInt32) : UInt32 :=
  match v with
  | .int n => n
  | .buf _ => old

section Field

variable {f : ProtoInfo}

/-- An assignment changes the value of a field and nothing else. -/
theorem assignField_eq (v : FieldValue) (hok : f.BufOk) :
    ∃ g, assignField v f = some g ∧ g = { f with data := g.data, buf := g.buf } ∧ g.BufOk ∧
      Given v g := by
  cases v with
  | int n => exact ⟨_, rfl, rfl, hok, rfl⟩
  | buf bs =>
    obtain ⟨g, hg⟩ := exists_setBuf hok bs
    obtain ⟨len, block, rfl, hprefix, hle⟩ := setBuf_inv hg
    refine ⟨_, hg, rfl, ?_, block, rfl, hprefix⟩
    rintro _ ⟨⟩
    exact hle hok

/-- A block of bytes leaves the number of the field. -/
theorem data_assignField {v : FieldValue} {g : ProtoInfo} (h : assignField v f = some g) :
    g.data = v.dataAfter f.data := by
  cases v with
  | int n =>
    obtain rfl := Option.some.inj h
    rfl
  | buf bs =>
    obtain ⟨len, block, rfl, -⟩ := setBuf_inv h
    rfl

end Field

/-- **An assignment gives every field its value and changes nothing else.** -/
theorem assign_eq {vals : List (Addr × FieldValue)} (hnd : (vals.map Prod.fst).Nodup)
    (pa : ProtocolAnalyzer) (hok : ∀ v ∈ vals, (pa.info v.1).BufOk) :
    ∃ info', assign vals pa = some { pa with info := info' } ∧
      (∀ v ∈ vals, info' v.1 = { pa.info v.1 with
          data := (info' v.1).data
          buf := (info' v.1).buf } ∧ (info' v.1).BufOk ∧ Given v.2 (info' v.1)) ∧
      ∀ a ∉ vals.map Prod.fst, info' a = pa.info a := by
  induction vals generalizing pa with
  | nil => exact ⟨pa.info, rfl, by simp, fun _ _ => rfl⟩
  | cons v vals ih =>
    obtain ⟨hv, hnd⟩ := List.nodup_cons.1 hnd
    obtain ⟨hokv, hok⟩ := List.forall_mem_cons.1 hok
    obtain ⟨g, hg, hgf, hgok, hgv⟩ := assignField_eq v.2 hokv
    have hne : ∀ w ∈ vals, w.1 ≠ v.1 := fun w hw e => hv (e ▸ List.mem_map_of_mem hw)
    have hinfo : ∀ a, a ≠ v.1 → (pa.modify v.1 fun _ => g).info a = pa.info a := fun a ha =>
      Function.update_of_ne ha _ _
    obtain ⟨info', h₁, h₂, h₃⟩ := ih hnd (pa.modify v.1 fun _ => g) fun w hw => by
      rw [hinfo _ (hne w hw)]
      exact hok w hw
    have hv' : info' v.1 = g := (h₃ _ hv).trans (Function.update_self _ _ _)
    refine ⟨info', ?_, List.forall_mem_cons.2 ⟨?_, fun w hw => ?_⟩, fun a ha => ?_⟩
    · simp only [assign, List.foldlM_cons, hg, Option.bind_eq_bind, Option.bind_some]
      exact h₁
    · rw [hv']
      exact ⟨hgf, hgok, hgv⟩
    · have := h₂ w hw
      rwa [hinfo _ (hne w hw)] at this
    · rw [List.map_cons, List.mem_cons, not_or] at ha
      rw [h₃ a ha.2, hinfo a ha.1]

/-- The number of a field after an assignment: a block of bytes leaves the one it had. -/
theorem data_assign {vals : List (Addr × FieldValue)} (hnd : (vals.map Prod.fst).Nodup)
    {pa pa' : ProtocolAnalyzer} (h : assign vals pa = some pa') :
    (∀ v ∈ vals, (pa'.info v.1).data = v.2.dataAfter (pa.info v.1).data) ∧
      ∀ a ∉ vals.map Prod.fst, pa'.info a = pa.info a := by
  induction vals generalizing pa with
  | nil =>
    obtain rfl := Option.some.inj h
    exact ⟨by simp, fun _ _ => rfl⟩
  | cons v vals ih =>
    obtain ⟨hv, hnd⟩ := List.nodup_cons.1 hnd
    simp only [assign, List.foldlM_cons, Option.bind_eq_bind] at h
    obtain ⟨pa₁, h₁, h⟩ := Option.bind_eq_some_iff.1 h
    obtain ⟨g, hg, h₁⟩ := Option.bind_eq_some_iff.1 h₁
    obtain rfl := Option.some.inj h₁
    obtain ⟨hvals, hrest⟩ := ih hnd h
    have hinfo : ∀ a, a ≠ v.1 → (pa.modify v.1 fun _ => g).info a = pa.info a := fun a ha =>
      Function.update_of_ne ha _ _
    have hself : pa'.info v.1 = g := (hrest _ hv).trans (Function.update_self _ _ _)
    refine ⟨List.forall_mem_cons.2 ⟨?_, fun w hw => ?_⟩, fun a ha => ?_⟩
    · rw [hself]
      exact data_assignField hg
    · rw [hvals w hw, hinfo _ fun e => hv (e ▸ List.mem_map_of_mem hw)]
    · rw [List.map_cons, List.mem_cons, not_or] at ha
      rw [hrest a ha.2, hinfo a ha.1]

section Init

variable {specs : List FieldSpec} (i : Init specs) {vals : List (FieldSpec × FieldValue)}
  (hvals : vals.map Prod.fst = specs)
include hvals

theorem Init.nodup_assigned : ((i.infos.zip (vals.map Prod.snd)).map Prod.fst).Nodup := by
  rw [List.map_fst_zip (by rw [i.length_infos, List.length_map, ← hvals, List.length_map])]
  exact i.nodup_infos

/-- An assignment to all fields of a format. -/
theorem Init.assign_eq (pa : ProtocolAnalyzer) (hok : ∀ a ∈ i.infos, (pa.info a).BufOk) :
    ∃ info', assign (i.infos.zip (vals.map Prod.snd)) pa = some { pa with info := info' } ∧
      ∀ e ∈ i.infos.zip vals, info' e.1 = { pa.info e.1 with
          data := (info' e.1).data
          buf := (info' e.1).buf } ∧ (info' e.1).BufOk ∧ Given e.2.2 (info' e.1) := by
  have hzip : i.infos.zip (vals.map Prod.snd) =
      (i.infos.zip vals).map fun e => (e.1, e.2.2) := List.zip_map_right
  obtain ⟨info', hassign, hgiven, -⟩ := HpiDriver.assign_eq (i.nodup_assigned hvals) pa
    fun v hv => hok v.1 (List.of_mem_zip hv).1
  rw [hzip] at hgiven
  exact ⟨info', hassign, fun e he => hgiven _ (List.mem_map_of_mem he)⟩

/-- The number of a field after an assignment to all fields. -/
theorem Init.data_assign {pa pa' : ProtocolAnalyzer}
    (h : assign (i.infos.zip (vals.map Prod.snd)) pa = some pa')
    {e : Addr × FieldSpec × FieldValue} (he : e ∈ i.infos.zip vals) :
    (pa'.info e.1).data = e.2.2.dataAfter (pa.info e.1).data := by
  have hmem : (e.1, e.2.2) ∈ i.infos.zip (vals.map Prod.snd) := by
    rw [List.zip_map_right]
    exact List.mem_map_of_mem he
  exact (HpiDriver.data_assign (i.nodup_assigned hvals) h).1 _ hmem

end Init

/-! ## Values that fit a byte field -/

/-- A number of at most four bytes for a field of at most four bytes, else a block of its
length. -/
def FieldValue.Fits (v : FieldValue) (len : ℕ) : Prop :=
  match v with
  | .int n => len ≤ 4 ∧ n.toNat < 256 ^ len
  | .buf bs => 4 < len ∧ bs.length = len

instance (v : FieldValue) (len : ℕ) : Decidable (v.Fits len) :=
  match v with
  | .int _ => inferInstanceAs (Decidable (_ ∧ _))
  | .buf _ => inferInstanceAs (Decidable (_ ∧ _))

/-- The bytes that stand for the value in a field of `len` bytes. -/
def FieldValue.bytes (v : FieldValue) (len : ℕ) : List UInt8 :=
  match v with
  | .int n => beBytes len n.toNat
  | .buf bs => bs

section Fits

variable {v : FieldValue} {len : ℕ}

theorem FieldValue.Fits.length_bytes (h : v.Fits len) : (v.bytes len).length = len := by
  cases v with
  | int n => exact length_beBytes _ _
  | buf bs => exact h.2

/-- Decoding the bytes of a value gives the value. -/
theorem FieldValue.Fits.decodeValue_bytes (h : v.Fits len) : decodeValue (v.bytes len) = v := by
  rw [decodeValue, h.length_bytes]
  cases v with
  | int n =>
    obtain ⟨hlen, hn⟩ := h
    rw [if_pos hlen, bytes, beValue_beBytes hn, UInt32.ofNat_toNat]
  | buf bs => exact if_neg (by have := h.1; omega)

/-- A field that was given the value has its bytes as wire form. -/
theorem FieldValue.Fits.wire (h : v.Fits len) {g : ProtoInfo} (hg : Given v g) :
    Wire g (v.bytes len) := by
  have hl := h.length_bytes
  cases v with
  | int n =>
    obtain ⟨hlen, hn⟩ := h
    refine ⟨fun _ => ?_, fun hb => absurd hb (by omega)⟩
    rw [bytes, beValue_beBytes hn, UInt32.ofNat_toNat]
    exact hg
  | buf bs =>
    have := h.1
    exact ⟨fun hb => absurd hb (by omega), fun _ => hg⟩

/-- A value of at most four bytes is the number it stands for. -/
theorem FieldValue.Fits.eq_int (h : v.Fits len) (hlen : len ≤ 4) :
    ∃ n, v = .int n ∧ beValue (v.bytes len) = n.toNat := by
  cases v with
  | int n => exact ⟨n, rfl, beValue_beBytes h.2⟩
  | buf bs => exact absurd h.1 (by omega)

end Fits

/-! ## Assignments by name -/

section Names

variable {specs : List FieldSpec} {i : Init specs} {pa : ProtocolAnalyzer} {a : Addr}
  {s : FieldSpec}

/-- `pa_set_value` finds the field with the name, when the name is short. -/
theorem paSetValue_eq (hnames : (specs.map FieldSpec.name).Nodup)
    (hp : pa.hmap = i.analyzer.hmap) (h : (a, s) ∈ i.fields) (hs : s.name.chars.length < 10)
    (value : UInt32) (uninit : ℕ → UInt8) :
    paSetValue s.name.chars value uninit pa =
      (assign [(a, .int value)] pa).map fun pa => (0, pa) := by
  simp only [paSetValue, i.paFindKey_short hp s.name.no_nul hs, i.nameFind_eq_some hnames h]
  rfl

/-- `pa_set_buf` finds the field with the name, when the name is short. -/
theorem paSetBuf_eq (hnames : (specs.map FieldSpec.name).Nodup)
    (hp : pa.hmap = i.analyzer.hmap) (h : (a, s) ∈ i.fields) (hs : s.name.chars.length < 10)
    (data : List UInt8) (uninit : ℕ → UInt8) :
    paSetBuf s.name.chars data uninit pa =
      (assign [(a, .buf data)] pa).map fun pa => (0, pa) := by
  simp only [paSetBuf, i.paFindKey_short hp s.name.no_nul hs, i.nameFind_eq_some hnames h, assign,
    assignField, List.foldlM_cons, List.foldlM_nil, Option.bind_eq_bind, Option.bind_some]
  cases setBuf data (pa.info a) <;> rfl

end Names

/-! ## Loading a message -/

/-- Copy a message to the start of the buffer of an analyzer and note its length, as the callers
of `pa_parse_protocol_data` do. -/
def loadMessage (bs : List UInt8) (pa : ProtocolAnalyzer) : Option ProtocolAnalyzer := do
  let dp ← memcpyTo pa.protocolData 0 bs
  some { pa with protocolData := dp, protocolDataLen := UInt16.ofNat bs.length }

theorem loadMessage_eq {bs : List UInt8} {pa : ProtocolAnalyzer}
    (h : bs.length ≤ pa.protocolData.length) :
    loadMessage bs pa = some { pa with
      protocolData := blit pa.protocolData 0 bs
      protocolDataLen := UInt16.ofNat bs.length } := by
  rw [loadMessage, memcpyTo_eq (by rwa [Nat.zero_add])]
  rfl

end HpiDriver
