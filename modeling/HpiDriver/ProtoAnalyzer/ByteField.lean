import HpiDriver.ProtoAnalyzer.Analyzer

/-!
# Byte fields

A field of at most four bytes is a big-endian number in `data`, a longer one is kept in `buf`.
`ProtoInfo.value` is what a field holds, `Carries f bs` says that its wire form is `bs`, and
`decodeValue bs` is the value with the wire form `bs`. Writing a field copies its wire form into
the buffer (`paSetProtocolField_byte`) and reading it decodes the bytes at its place
(`paGetProtocolField_byte`).
-/

namespace HpiDriver

open Blocks BigEndian

/-! ## Words and bytes -/

theorem toUInt8_shiftRight (a : UInt32) {k : ℕ} (hk : k < 32) :
    (a >>> UInt32.ofNat k).toUInt8 = UInt8.ofNat (a.toNat >>> k) :=
  UInt8.toNat_inj.1 (by
    simp [Nat.mod_eq_of_lt (show k < 4294967296 by omega), Nat.mod_eq_of_lt hk])

theorem or_shiftLeft_eq_beValue (b₀ b₁ b₂ b₃ : UInt8) :
    b₀.toUInt32 <<< 24 ||| b₁.toUInt32 <<< 16 ||| b₂.toUInt32 <<< 8 ||| b₃.toUInt32 =
      UInt32.ofNat (beValue [b₀, b₁, b₂, b₃]) := by
  rw [← foldl_or_shiftLeft]
  simp [List.range_succ]

theorem beValue_addrBuffer (a : Addr) : beValue (addrBuffer a) = a.toNat := by
  have hb : addrBuffer a = beBytes 4 a.toNat := by
    have h₀ : a.toUInt8 = UInt8.ofNat a.toNat := UInt8.toNat_inj.1 (by simp)
    rw [← map_range_shiftRight]
    simp only [addrBuffer, List.range_succ, List.range_zero, List.nil_append, List.cons_append,
      List.map_cons, List.map_nil, h₀]
    exact congrArg₂ _ (toUInt8_shiftRight a (k := 24) (by decide))
      (congrArg₂ _ (toUInt8_shiftRight a (k := 16) (by decide))
        (congrArg₂ _ (toUInt8_shiftRight a (k := 8) (by decide)) rfl))
  rw [hb, beValue_beBytes a.toNat_lt]

/-- `pa_find_key` reads back the address that `pa_create_hash_table` stored. -/
theorem addrOfBuffer_addrBuffer {a : Addr} (ha : a ≠ 0) :
    addrOfBuffer (addrBuffer a) = some a := by
  have hval : (a >>> 24).toUInt8.toUInt32 <<< 24 ||| (a >>> 16).toUInt8.toUInt32 <<< 16 |||
      (a >>> 8).toUInt8.toUInt32 <<< 8 ||| a.toUInt8.toUInt32 = a := by
    rw [or_shiftLeft_eq_beValue, show [(a >>> 24).toUInt8, (a >>> 16).toUInt8,
      (a >>> 8).toUInt8, a.toUInt8] = addrBuffer a from rfl, beValue_addrBuffer,
      UInt32.ofNat_toNat]
  simp only [addrOfBuffer, addrBuffer, List.getD_cons_zero, List.getD_cons_succ, hval, if_neg ha]

theorem charOf_natCast (signed : Bool) {n : ℕ} (hn : n < 128) : charOf signed n = n := by
  cases signed with
  | true =>
    rw [charOf, if_pos rfl]
    exact Int.bmod_eq_of_le (by omega) (by omega)
  | false =>
    simp only [charOf, Bool.false_eq_true, if_false]
    omega

theorem shortOf_eq {x : UInt16} (h : x.toNat < 2 ^ 15) : shortOf x = x.toNat := by
  exact Int.bmod_eq_of_le (by omega) (by omega)

/-- Writing a number writes its bytes. -/
theorem paSetProtocolByteData_eq (data : UInt32) (bytePos : UInt8) {len : UInt16}
    (hlen : len.toNat ≤ 4) (dp : List UInt8) :
    paSetProtocolByteData data bytePos len dp =
      memcpyTo dp bytePos.toNat (beBytes len.toNat data.toNat) := by
  rw [paSetProtocolByteData, foldlM_arrayStore, ← map_range_shiftRight]
  congr 1
  refine List.map_congr_left fun i hi => ?_
  have := List.mem_range.1 hi
  exact toUInt8_shiftRight data (by omega)

/-- Reading a number decodes its bytes. -/
theorem paGetProtocolByteData_eq {f : ProtoInfo} {dp : List UInt8} (hlen : f.len.toNat ≤ 4)
    (hdp : f.bytePos.toNat + f.len.toNat ≤ dp.length) :
    paGetProtocolByteData f dp = some { f with
      data := UInt32.ofNat (beValue (slice dp f.bytePos.toNat f.len.toNat)) } := by
  have hshort : (shortOf f.len).toNat = f.len.toNat := by
    rw [shortOf_eq (by omega), Int.toNat_natCast]
  generalize hbs : slice dp f.bytePos.toNat f.len.toNat = bs
  have hbl : bs.length = f.len.toNat := by rw [← hbs, length_slice hdp]
  have key : ∀ n ≤ f.len.toNat, (List.range n).foldlM (fun (data : UInt32) i => do
      let b ← dp[f.bytePos.toNat + i]?
      some (data ||| b.toUInt32 <<< UInt32.ofNat ((f.len.toNat - i - 1) * 8))) 0 =
        some (UInt32.ofNat ((List.range n).foldl
          (fun v i => v ||| (bs.getD i 0).toNat <<< (8 * (bs.length - i - 1))) 0)) := by
    intro n hn
    induction n with
    | zero => rfl
    | succ n ih =>
      have hget : dp[f.bytePos.toNat + n]? = some (bs.getD n 0) := by
        have hs : bs[n]? = dp[f.bytePos.toNat + n]? := by
          rw [← hbs, getElem?_slice, if_pos (by omega)]
        have hn' : n < bs.length := by omega
        rw [← hs, List.getElem?_eq_getElem hn', List.getD_eq_getElem _ _ hn']
      rw [List.range_succ, List.foldlM_append, ih (by omega), List.foldl_append]
      simp only [Option.bind_eq_bind, Option.bind_some, List.foldlM_cons, List.foldlM_nil, hget,
        List.foldl_cons, List.foldl_nil, UInt32.ofNat_or, hbl]
      rw [UInt32.ofNat_shiftLeft _ _ (by omega), UInt8.toUInt32, Nat.mul_comm]
      simp
  simp only [paGetProtocolByteData, hshort]
  rw [key _ le_rfl, ← hbl, foldl_or_shiftLeft]
  rfl

/-- A block of bytes is read to the front of the block of its field, an old or a new one. -/
theorem paGetProtocolBuf_inv {f g : ProtoInfo} {dp : List UInt8}
    (h : paGetProtocolBuf f dp = some g) :
    ∃ bs block, memcpyFrom dp f.bytePos.toNat f.len.toNat = some bs ∧
      g = { f with buf := ⟨f.len, some block⟩ } ∧ memcpyTo block 0 bs = some block := by
  obtain ⟨bs, hbs, hg⟩ := Option.bind_eq_some_iff.1 h
  have hnew : memcpyTo bs 0 bs = some bs := by
    rw [memcpyTo_eq (by omega)]
    simp [blit]
  cases hb : f.buf.dataP with
  | none =>
    rw [hb] at hg
    exact ⟨bs, bs, hbs, (Option.some.inj hg).symm, hnew⟩
  | some block =>
    rw [hb] at hg
    dsimp only at hg
    split_ifs at hg with hfit
    · obtain ⟨block', hblock', hg⟩ := Option.bind_eq_some_iff.1 hg
      exact ⟨bs, block', hbs, (Option.some.inj hg).symm, memcpyTo_memcpyTo hblock'⟩
    · exact ⟨bs, bs, hbs, (Option.some.inj hg).symm, hnew⟩

/-! ## Values -/

/-- What a field holds: a number or a block of bytes. -/
inductive FieldValue
  | int (n : UInt32)
  | buf (bs : List UInt8)
  deriving DecidableEq

/-- What the field holds. -/
def ProtoInfo.value (f : ProtoInfo) : FieldValue :=
  if f.lenUnit = 8 ∧ 4 < f.len then .buf ((f.buf.dataP.getD []).take f.len.toNat)
  else .int f.data

/-- The value with the wire form `bs`. -/
def decodeValue (bs : List UInt8) : FieldValue :=
  if bs.length ≤ 4 then .int (UInt32.ofNat (beValue bs)) else .buf bs

/-- The recorded length of the buffer is not more than its block. -/
def ProtoInfo.BufOk (f : ProtoInfo) : Prop :=
  ∀ block, f.buf.dataP = some block → f.buf.len.toNat ≤ block.length

section SetBuf

variable {f g : ProtoInfo} {bs : List UInt8}

/-- A block of sound length is long enough for what fits the recorded length. -/
theorem exists_setBuf (hok : f.BufOk) (bs : List UInt8) : ∃ g, setBuf bs f = some g := by
  unfold setBuf
  cases hb : f.buf.dataP with
  | none => exact ⟨_, rfl⟩
  | some block =>
    dsimp only
    split_ifs with hfit
    · have hlen : 0 + bs.length ≤ block.length := by
        have := hok block hb
        omega
      rw [memcpyTo_eq hlen]
      exact ⟨_, rfl⟩
    · exact ⟨_, rfl⟩

/-- `pa_set_buf` puts the bytes at the front of a block: of a new one, whose length it records, or
of the old one. -/
theorem setBuf_inv (h : setBuf bs f = some g) :
    ∃ len block, g = { f with buf := ⟨len, some block⟩ } ∧ bs <+: block ∧
      (f.BufOk → len.toNat ≤ block.length) := by
  have hnew : (UInt16.ofNat bs.length).toNat ≤ bs.length := by
    rw [UInt16.toNat_ofNat']
    exact Nat.mod_le _ _
  unfold setBuf at h
  cases hb : f.buf.dataP with
  | none =>
    rw [hb] at h
    exact ⟨_, bs, (Option.some.inj h).symm, List.prefix_rfl, fun _ => hnew⟩
  | some block =>
    rw [hb] at h
    dsimp only at h
    split_ifs at h
    · obtain ⟨block', hblock', h⟩ := Option.bind_eq_some_iff.1 h
      have hle := length_le_of_memcpyTo hblock'
      refine ⟨_, block', (Option.some.inj h).symm, ?_, fun hok => ?_⟩
      · rw [memcpyTo_eq (by omega)] at hblock'
        rw [← Option.some.inj hblock']
        simp [blit]
      · rw [length_memcpyTo hblock']
        exact hok block hb
    · exact ⟨_, bs, (Option.some.inj h).symm, List.prefix_rfl, fun _ => hnew⟩

end SetBuf

/-- The value of the field has the wire form `bs`. -/
structure Wire (f : ProtoInfo) (bs : List UInt8) : Prop where
  data : bs.length ≤ 4 → f.data = UInt32.ofNat (beValue bs)
  buf : 4 < bs.length → ∃ block, f.buf.dataP = some block ∧ bs <+: block

/-- The wire form of the field is `bs`. -/
structure Carries (f : ProtoInfo) (bs : List UInt8) : Prop extends Wire f bs where
  len : f.len.toNat = bs.length

/-- The field holds the value with the wire form `bs`, in a buffer of sound length. -/
structure Decoded (f : ProtoInfo) (bs : List UInt8) : Prop extends Carries f bs where
  bufOk : f.BufOk

theorem Wire.beBytes_eq {f : ProtoInfo} {bs : List UInt8} (h : Wire f bs) (hbs : bs.length ≤ 4) :
    beBytes bs.length f.data.toNat = bs := by
  have hlt := (beValue_lt bs).trans_le (Nat.pow_le_pow_right (n := 256) (by decide) hbs)
  rw [h.data hbs, UInt32.toNat_ofNat', Nat.mod_eq_of_lt hlt, beBytes_beValue]

theorem slice_zero_of_prefix {bs block : List UInt8} (h : bs <+: block) :
    slice block 0 bs.length = bs := by
  rw [← take_eq_slice]
  exact (List.prefix_iff_eq_take.1 h).symm

theorem Carries.value_eq {f : ProtoInfo} {bs : List UInt8} (h : Carries f bs)
    (hu : f.lenUnit = 8) : f.value = decodeValue bs := by
  have hlt : 4 < f.len ↔ 4 < bs.length := by
    rw [← h.len, UInt16.lt_iff_toNat_lt]
    rfl
  unfold ProtoInfo.value decodeValue
  by_cases hbs : bs.length ≤ 4
  · rw [if_neg (fun e => absurd (hlt.1 e.2) (by omega)), if_pos hbs, h.data hbs]
  · obtain ⟨block, hblock, hpre⟩ := h.buf (by omega)
    rw [if_pos ⟨hu, hlt.2 (by omega)⟩, if_neg hbs, hblock, h.len]
    exact congrArg _ (List.prefix_iff_eq_take.1 hpre).symm

theorem len_le_four_iff {f : ProtoInfo} : f.len ≤ 4 ↔ f.len.toNat ≤ 4 := by
  rw [UInt16.le_iff_toNat_le]
  rfl

/-- Writing a field copies its wire form; only a buffer has to begin at a whole byte. -/
theorem paSetProtocolField_byte {f : ProtoInfo} {bs : List UInt8} (env : Env)
    (hu : f.lenUnit = 8) (hb : f.bitPos = 0 ∨ bs.length ≤ 4) (hc : Carries f bs) (pos : UInt8)
    (dp : List UInt8) : paSetProtocolField env f pos dp = memcpyTo dp pos.toNat bs := by
  rw [paSetProtocolField, if_pos hu]
  by_cases hlen : f.len ≤ 4
  · have hlen' := len_le_four_iff.1 hlen
    rw [if_pos hlen, paSetProtocolByteData_eq _ _ hlen', hc.len, hc.beBytes_eq (by rwa [← hc.len])]
  · have hlen' : 4 < bs.length := by
      rw [len_le_four_iff, hc.len] at hlen
      omega
    have hb0 : f.bitPos = 0 := hb.resolve_right (by omega)
    obtain ⟨block, hblock, hpre⟩ := hc.buf hlen'
    rw [if_neg hlen, paSetProtocolBuf, if_neg (by simp [hb0]), hblock, hc.len]
    simp only [Option.bind_eq_bind, Option.bind_some]
    have hle : 0 + bs.length ≤ block.length := by
      rw [Nat.zero_add]
      exact hpre.length_le
    rw [memcpyFrom_eq hle, slice_zero_of_prefix hpre]
    rfl

/-- A buffer that does not begin at a whole byte is not written. -/
theorem paSetProtocolField_skipped {f : ProtoInfo} (env : Env) (hu : f.lenUnit = 8)
    (hb : f.bitPos ≠ 0) (hlen : 4 < f.len.toNat) (pos : UInt8) (dp : List UInt8) :
    paSetProtocolField env f pos dp = some dp := by
  have hlen' : ¬ f.len ≤ 4 := by
    rw [len_le_four_iff]
    omega
  rw [paSetProtocolField, if_pos hu, if_neg hlen', paSetProtocolBuf, if_pos hb]

section Read

variable {f : ProtoInfo} (env : Env) {dp : List UInt8}

/-- Reading a number field decodes the bytes at its place. -/
theorem paGetProtocolField_number (hu : f.lenUnit = 8) (hlen : f.len.toNat ≤ 4) (hok : f.BufOk)
    (hdp : f.bytePos.toNat + f.len.toNat ≤ dp.length) :
    ∃ g, paGetProtocolField env f dp = some g ∧ g = { f with data := g.data, buf := g.buf } ∧
      Decoded g (slice dp f.bytePos.toNat f.len.toNat) := by
  have hsl := length_slice hdp
  rw [paGetProtocolField, if_pos hu, if_pos (len_le_four_iff.2 hlen),
    paGetProtocolByteData_eq hlen hdp]
  exact ⟨_, rfl, rfl, ⟨⟨⟨fun _ => rfl, fun h => absurd h (by omega)⟩, hsl.symm⟩, hok⟩⟩

/-- Reading a buffer field copies the bytes at its place: into its block if they fit, else into a
new one. -/
theorem paGetProtocolField_buf (hu : f.lenUnit = 8) (hlen : 4 < f.len.toNat) (hok : f.BufOk)
    (hdp : f.bytePos.toNat + f.len.toNat ≤ dp.length) :
    ∃ g, paGetProtocolField env f dp = some g ∧ g = { f with data := g.data, buf := g.buf } ∧
      Decoded g (slice dp f.bytePos.toNat f.len.toNat) := by
  have hsl := length_slice hdp
  have hbig : ¬ (slice dp f.bytePos.toNat f.len.toNat).length ≤ 4 := by omega
  have hlen' : ¬ f.len ≤ 4 := fun h => by
    have := len_le_four_iff.1 h
    omega
  rw [paGetProtocolField, if_pos hu, if_neg hlen', paGetProtocolBuf, memcpyFrom_eq hdp]
  simp only [Option.bind_eq_bind, Option.bind_some]
  cases hblock : f.buf.dataP with
  | none =>
    refine ⟨_, rfl, rfl, ⟨⟨⟨fun h => absurd h hbig, fun _ => ⟨_, rfl, List.prefix_rfl⟩⟩,
      hsl.symm⟩, ?_⟩⟩
    rintro block ⟨⟩
    exact hsl.ge
  | some block =>
    dsimp only
    by_cases hfit : f.len ≤ f.buf.len
    · -- the block is large enough: its first bytes are replaced
      have hle : 0 + (slice dp f.bytePos.toNat f.len.toNat).length ≤ block.length := by
        rw [Nat.zero_add, hsl]
        exact (UInt16.le_iff_toNat_le.1 hfit).trans (hok block hblock)
      rw [if_pos hfit, memcpyTo_eq hle]
      refine ⟨_, rfl, rfl, ⟨⟨⟨fun h => absurd h hbig, fun _ => ⟨_, rfl, ?_⟩⟩, hsl.symm⟩, ?_⟩⟩
      · simp [blit]
      · rintro block' ⟨⟩
        rw [length_blit hle]
        simpa [hsl] using hle
    · rw [if_neg hfit]
      refine ⟨_, rfl, rfl, ⟨⟨⟨fun h => absurd h hbig, fun _ => ⟨_, rfl, List.prefix_rfl⟩⟩,
        hsl.symm⟩, ?_⟩⟩
      rintro block' ⟨⟩
      exact hsl.ge

/-- Reading a field decodes the bytes at its place. -/
theorem paGetProtocolField_byte (dp : List UInt8)
    (hu : f.lenUnit = 8) (hok : f.BufOk) (hdp : f.bytePos.toNat + f.len.toNat ≤ dp.length) :
    ∃ g, paGetProtocolField env f dp = some g ∧ g = { f with data := g.data, buf := g.buf } ∧
      Decoded g (slice dp f.bytePos.toNat f.len.toNat) := by
  rcases Nat.lt_or_ge 4 f.len.toNat with hlen | hlen
  · exact paGetProtocolField_buf env hu hlen hok hdp
  · exact paGetProtocolField_number env hu hlen hok hdp

end Read

end HpiDriver
