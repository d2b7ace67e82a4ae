import HpiDriver.ProtoAnalyzer.BitField
import HpiDriver.ProtoAnalyzer.RoundTrip

/-!
# What parsing reads

The indices of the protocol buffer that `pa_parse_protocol_data` accesses (`parseReads`), and when
they all belong to the message. The function compares `protocol_data_len` with zero and with
nothing else, so it keeps to the message exactly when every field ends within it, at the place and
with the length that the length fields read before give it (`decodesMessage_iff`).
-/

namespace HpiDriver

open BigEndian Blocks

/-! ## The bytes of a field -/

/-- The indices of the buffer that reading a field accesses. -/
def fieldReads (env : Env) (f : ProtoInfo) : List ℤ :=
  if f.lenUnit = 8 then (List.range f.len.toNat).map fun i : ℕ => (f.bytePos.toNat : ℤ) + i
  else if f.lenUnit = 1 then
    (getChunks (chunkFuel f.len) 0 (shortOf f.len) f.bitPos).map fun c =>
      charOf env.charSigned f.bytePos.toNat + c.byte
  else []

/-- The number of bytes that `n` bits from bit `p` of a byte on lie in. -/
def bitBytes (p n : ℕ) : ℕ := if n = 0 then 0 else (n + 14 - p) / 8

namespace ProtoInfo

variable (env : Env) (f : ProtoInfo)

/-- The number of bytes that the field lies in. -/
def byteCount : ℕ :=
  if f.lenUnit = 8 then f.len.toNat
  else if f.lenUnit = 1 then bitBytes (f.bitPos.toNat % 8) (shortOf f.len).toNat
  else 0

/-- The first of them; for bit fields it is a plain `char`. -/
def firstByte : ℤ :=
  if f.lenUnit = 8 then f.bytePos.toNat else charOf env.charSigned f.bytePos.toNat

/-- The field lies in the first `n` bytes. -/
def Within (n : ℕ) : Prop :=
  f.byteCount = 0 ∨ 0 ≤ f.firstByte env ∧ f.firstByte env + f.byteCount ≤ n

instance (n : ℕ) : Decidable (f.Within env n) :=
  inferInstanceAs (Decidable (_ ∨ _))

end ProtoInfo

/-- The bytes that the parts of a bit field are in. -/
theorem map_byte_bitChunks {fuel i p n : ℕ} (hp : p < 8) (hn : n ≤ fuel) :
    (bitChunks fuel i p n).map Chunk.byte = List.range' i (bitBytes p n) := by
  induction fuel generalizing i p n with
  | zero =>
    obtain rfl : n = 0 := by omega
    rfl
  | succ fuel ih =>
    rcases Nat.eq_zero_or_pos n with rfl | hpos
    · rw [bitChunks_zero]
      rfl
    · have hcount : bitBytes p n = bitBytes 7 (n - min n (p + 1)) + 1 := by
        unfold bitBytes
        split_ifs <;> omega
      rw [bitChunks, if_neg (by omega), List.map_cons, ih (by decide) (by omega), hcount,
        List.range'_succ]

theorem getChunks_of_nonpos {fuel i : ℕ} {tLen : ℤ} (h : tLen ≤ 0) (pos : UInt8) :
    getChunks fuel i tLen pos = [] := by
  cases fuel with
  | zero => rfl
  | succ fuel => rw [getChunks, if_neg (by omega)]

/-- Reading a field accesses the bytes that it lies in. -/
theorem fieldReads_eq (env : Env) (f : ProtoInfo) :
    fieldReads env f = (List.range f.byteCount).map fun i : ℕ => f.firstByte env + i := by
  unfold fieldReads ProtoInfo.byteCount ProtoInfo.firstByte
  split_ifs with hu hu1
  · rfl
  · have hbytes : (getChunks (chunkFuel f.len) 0 (shortOf f.len) f.bitPos).map Chunk.byte =
        List.range (bitBytes (f.bitPos.toNat % 8) (shortOf f.len).toNat) := by
      rcases le_or_gt (shortOf f.len) 0 with hle | hgt
      · rw [getChunks_of_nonpos hle, Int.toNat_of_nonpos hle]
        rfl
      · obtain ⟨n, hn⟩ := Int.eq_ofNat_of_zero_le hgt.le
        rw [chunkFuel, hn, Int.toNat_natCast, getChunks_eq,
          map_byte_bitChunks (Nat.mod_lt _ (by decide)) (Nat.le_succ n), List.range_eq_range']
    rw [← hbytes, List.map_map]
    rfl
  · rfl

theorem forall_fieldReads_iff (env : Env) (f : ProtoInfo) (n : ℕ) :
    (∀ k ∈ fieldReads env f, 0 ≤ k ∧ k < n) ↔ f.Within env n := by
  rw [fieldReads_eq, ProtoInfo.Within]
  constructor
  · intro h
    rcases Nat.eq_zero_or_pos f.byteCount with h0 | hpos
    · exact .inl h0
    · have hfirst := h (f.firstByte env + (0 : ℕ)) (List.mem_map.2
        ⟨0, List.mem_range.2 hpos, rfl⟩)
      have hlast := h (f.firstByte env + (f.byteCount - 1 : ℕ)) (List.mem_map.2
        ⟨f.byteCount - 1, List.mem_range.2 (by omega), rfl⟩)
      exact .inr ⟨by omega, by omega⟩
  · rintro h k hk
    obtain ⟨i, hi, rfl⟩ := List.mem_map.1 hk
    have := List.mem_range.1 hi
    rcases h with h | h <;> omega

/-! ## Reading one field -/

/-- A fold that reads something at every step goes through when all of it can be read. -/
theorem foldlM_read_isSome_iff {α β γ : Type*} (o : β → Option γ) (h : α → β → γ → α) (l : List β)
    (a : α) : (l.foldlM (fun a b => (o b).bind fun c => some (h a b c)) a).isSome ↔
      ∀ b ∈ l, (o b).isSome := by
  induction l generalizing a with
  | nil => simp
  | cons b l ih =>
    rw [List.foldlM_cons, List.forall_mem_cons]
    cases hb : o b with
    | none => simp
    | some c => simpa using ih _

/-- What it reads is what its result is made of. -/
theorem foldlM_read_eq {α β γ : Type*} (o : β → Option γ) (h : α → β → γ → α) (c : γ) {l : List β}
    {a r : α} (hr : l.foldlM (fun a b => (o b).bind fun c => some (h a b c)) a = some r) :
    r = l.foldl (fun a b => h a b ((o b).getD c)) a := by
  induction l generalizing a with
  | nil => exact (Option.some.inj hr).symm
  | cons b l ih =>
    rw [List.foldlM_cons] at hr
    obtain ⟨a', ha', hr⟩ := Option.bind_eq_some_iff.1 hr
    obtain ⟨x, hx, ha'⟩ := Option.bind_eq_some_iff.1 ha'
    obtain rfl := Option.some.inj ha'
    rw [List.foldl_cons, hx, Option.getD_some]
    exact ih hr

theorem isSome_bind_some {α β : Type*} (x : Option α) (g : α → β) :
    (x.bind fun a => some (g a)).isSome = x.isSome := by
  cases x <;> rfl

theorem isSome_getElem?_iff (dp : List UInt8) (k : ℤ) :
    (if k < 0 then none else dp[k.toNat]?).isSome ↔ 0 ≤ k ∧ k < dp.length := by
  split_ifs with hk
  · simp only [Option.isSome_none, Bool.false_eq_true, false_iff]
    omega
  · rw [isSome_getElem?]
    omega

/-- **Reading a field stays within the buffer exactly when all accesses do.** -/
theorem paGetProtocolField_isSome_iff (env : Env) {f : ProtoInfo} (hok : f.BufOk)
    (dp : List UInt8) : (paGetProtocolField env f dp).isSome ↔
      ∀ k ∈ fieldReads env f, 0 ≤ k ∧ k < dp.length := by
  unfold paGetProtocolField fieldReads
  split_ifs with hu hlen hu1
  · have hshort : (shortOf f.len).toNat = f.len.toNat := by
      have := len_le_four_iff.1 hlen
      rw [shortOf_eq (by omega), Int.toNat_natCast]
    have hfold := foldlM_read_isSome_iff (fun i => dp[f.bytePos.toNat + i]?)
      (fun (data : UInt32) i b =>
        data ||| b.toUInt32 <<< UInt32.ofNat ((f.len.toNat - i - 1) * 8)) (List.range f.len.toNat) 0
    simp only [paGetProtocolByteData, hshort, Option.bind_eq_bind, isSome_bind_some, hfold,
      List.forall_mem_map, isSome_getElem?]
    exact forall₂_congr fun i _ => by omega
  · have h4 : 4 < f.len.toNat := by
      rw [len_le_four_iff] at hlen
      omega
    have hreads : (∀ k ∈ (List.range f.len.toNat).map fun i : ℕ => (f.bytePos.toNat : ℤ) + i,
        0 ≤ k ∧ k < dp.length) ↔ f.bytePos.toNat + f.len.toNat ≤ dp.length := by
      rw [List.forall_mem_map]
      constructor
      · intro h
        have := h (f.len.toNat - 1) (List.mem_range.2 (by omega))
        omega
      · intro h i hi
        have := List.mem_range.1 hi
        omega
    rw [hreads, paGetProtocolBuf]
    constructor
    · intro h
      by_contra hout
      rw [memcpyFrom, if_neg (by omega), if_neg hout] at h
      cases h
    · intro hin
      obtain ⟨g, hg, -⟩ := paGetProtocolField_byte env dp hu hok hin
      rw [paGetProtocolField, if_pos hu, if_neg hlen, paGetProtocolBuf] at hg
      rw [hg]
      rfl
  · have hfold := foldlM_read_isSome_iff
      (fun c : Chunk => if charOf env.charSigned f.bytePos.toNat + c.byte < 0 then none
        else dp[(charOf env.charSigned f.bytePos.toNat + c.byte).toNat]?)
      (fun (data : UInt32) c b => data |||
        (getBitData b.toUInt32 (UInt8.ofInt c.low) c.width).toUInt32 <<< UInt32.ofInt c.valuePos)
      (getChunks (chunkFuel f.len) 0 (shortOf f.len) f.bitPos) 0
    have hreads := hfold.trans (forall₂_congr fun c _ => isSome_getElem?_iff dp _)
    rw [List.forall_mem_map, ← hreads]
    simp only [paGetProtocolBitData, Option.bind_eq_bind, isSome_bind_some]
    refine iff_of_eq (congrArg (Option.isSome · = true) ?_)
    congr 1
    funext data c
    split_ifs <;> rfl
  · simp

/-- The number that reading a field stores: the one of its bytes, the one of its bits, or the old
one if the bytes go to a buffer. -/
def fieldData (env : Env) (f : ProtoInfo) (dp : List UInt8) : UInt32 :=
  if f.lenUnit = 8 then
    if f.len ≤ 4 then UInt32.ofNat (beValue (slice dp f.bytePos.toNat f.len.toNat)) else f.data
  else if f.lenUnit = 1 then
    (getChunks (chunkFuel f.len) 0 (shortOf f.len) f.bitPos).foldl (fun data c =>
      let b := dp.getD (charOf env.charSigned f.bytePos.toNat + c.byte).toNat 0
      let tDataGet := getBitData b.toUInt32 (UInt8.ofInt c.low) c.width
      data ||| tDataGet.toUInt32 <<< UInt32.ofInt c.valuePos) 0
  else f.data

theorem data_paGetProtocolField {env : Env} {f g : ProtoInfo} {dp : List UInt8} (hok : f.BufOk)
    (h : paGetProtocolField env f dp = some g) : g.data = fieldData env f dp := by
  have hwithin := (forall_fieldReads_iff env f dp.length).1
    ((paGetProtocolField_isSome_iff env hok dp).1 (by rw [h]; rfl))
  unfold paGetProtocolField at h
  unfold fieldData
  split_ifs at h ⊢ with hu hlen hu1
  · have hlen4 := len_le_four_iff.1 hlen
    simp only [ProtoInfo.Within, ProtoInfo.byteCount, ProtoInfo.firstByte, if_pos hu] at hwithin
    rcases hwithin with h0 | ⟨-, hle⟩
    · have hshort : (shortOf f.len).toNat = 0 := by rw [shortOf_eq (by omega), h0]; rfl
      rw [paGetProtocolByteData, hshort] at h
      rw [← Option.some.inj h, h0]
      rfl
    · rw [paGetProtocolByteData_eq hlen4 (by omega)] at h
      rw [← Option.some.inj h]
  · obtain ⟨_, _, -, rfl, -⟩ := paGetProtocolBuf_inv h
    rfl
  · simp only [paGetProtocolBitData, Option.bind_eq_bind] at h
    obtain ⟨data, hdata, h⟩ := Option.bind_eq_some_iff.1 h
    have hnonneg : ∀ c ∈ getChunks (chunkFuel f.len) 0 (shortOf f.len) f.bitPos,
        ¬ charOf env.charSigned f.bytePos.toNat + c.byte < 0 := by
      intro c hc
      have hreads := (forall_fieldReads_iff env f dp.length).2 hwithin
      simp only [fieldReads, if_neg hu, if_pos hu1, List.forall_mem_map] at hreads
      have := hreads c hc
      omega
    generalize getChunks (chunkFuel f.len) 0 (shortOf f.len) f.bitPos = chunks at hdata hnonneg ⊢
    have hfold : chunks.foldlM (fun data c =>
        (if charOf env.charSigned f.bytePos.toNat + c.byte < 0 then none
          else dp[(charOf env.charSigned f.bytePos.toNat + c.byte).toNat]?).bind fun b =>
            some (data ||| (getBitData b.toUInt32 (UInt8.ofInt c.low) c.width).toUInt32 <<<
              UInt32.ofInt c.valuePos)) (0 : UInt32) = some data := by
      refine (congrArg (fun w => chunks.foldlM w (0 : UInt32)) ?_).trans hdata
      funext data c
      split_ifs <;> rfl
    rw [← Option.some.inj h, foldlM_read_eq _ _ 0 hfold]
    refine List.foldl_ext _ _ _ fun data c hc => ?_
    rw [if_neg (hnonneg c hc), List.getD_eq_getElem?_getD]
  · rw [Option.some.inj h]

/-! ## Reading a message -/

/-- The indices of the buffer that the loop of `pa_parse_protocol_data` accesses. -/
def parseLoopReads (env : Env) : List Addr → ProtocolAnalyzer → List ℤ
  | [], _ => []
  | pos :: rest, pa =>
    match paResolveLength env pos rest pa with
    | none => []
    | some pa =>
      fieldReads env (pa.info pos) ++
        match paGetProtocolField env (pa.info pos) pa.protocolData with
        | none => []
        | some f => parseLoopReads env rest (pa.modify pos fun _ => f)

/-- The indices of the buffer that a call of `pa_parse_protocol_data` accesses. -/
def parseReads (env : Env) (pa : ProtocolAnalyzer) : List ℤ :=
  match pa.paListHeadP with
  | none => []
  | some hl => if pa.protocolDataLen = 0 then [] else parseLoopReads env hl pa

/-- The call returns an error or accesses bytes of the message only. -/
def DecodesMessage (env : Env) (pa : ProtocolAnalyzer) : Prop :=
  ∃ ret pa', paParseProtocolData env pa = some (ret, pa') ∧
    (ret < 0 ∨ ∀ k ∈ parseReads env pa, 0 ≤ k ∧ k < pa.protocolDataLen.toNat)

/-- Every field lies in the first `n` bytes. The fields in front take `S` bytes more than the
format says, `o` is what the lookups of length fields return and `vals` are the numbers that the
fields have before this one is read. -/
def MessageFits (env : Env) (dp : List UInt8) (n : ℕ) (o : Addr → Option Addr) :
    (Addr → UInt32) → UInt8 → List (Addr × ProtoInfo) → Prop
  | _, _, [] => True
  | vals, S, (a, f) :: fields =>
    let d := if f.vlenthFlag then (o a).map vals else none
    let g := (f.shift S).resolve d
    g.Within env n ∧ MessageFits env dp n o (Function.update vals a (fieldData env g dp))
      (S + f.shiftBy d) fields

instance (env : Env) (dp : List UInt8) (n : ℕ) (o : Addr → Option Addr) :
    ∀ (vals : Addr → UInt32) (S : UInt8) (fields : List (Addr × ProtoInfo)),
      Decidable (MessageFits env dp n o vals S fields)
  | _, _, [] => inferInstanceAs (Decidable True)
  | vals, S, (a, f) :: fields =>
    let d := if f.vlenthFlag then (o a).map vals else none
    let g := (f.shift S).resolve d
    haveI := instDecidableMessageFits env dp n o (Function.update vals a (fieldData env g dp))
      (S + f.shiftBy d) fields
    inferInstanceAs (Decidable (_ ∧ _))

/-- A pass accesses the bytes of its field, with the length found. -/
theorem parseLoopReads_cons {env : Env} {a : Addr} {rest : List Addr} {pa : ProtocolAnalyzer}
    {o : Addr → Option Addr} (hnd : (a :: rest).Nodup) (ho : Finds env.keyStr pa [a] o) :
    parseLoopReads env (a :: rest) pa =
      fieldReads env ((pa.info a).resolve (pa.foundData o a)) ++
        match paGetProtocolField env ((pa.info a).resolve (pa.foundData o a)) pa.protocolData with
        | none => []
        | some g => parseLoopReads env rest
            (pa.pass a rest g ((pa.info a).shiftBy (pa.foundData o a))) := by
  simp only [parseLoopReads, paResolveLength_eq hnd ho, ProtocolAnalyzer.info_pass_self,
    ProtocolAnalyzer.protocolData_pass, ProtocolAnalyzer.modify_pass]

/-- The run over the fields `hl`, which are moved by `S` already. -/
theorem parseLoopReads_iff {env : Env} {o : Addr → Option Addr} {n : ℕ} {hl : List Addr}
    (hnd : hl.Nodup) {pa : ProtocolAnalyzer} {S : UInt8} {fields : Addr → ProtoInfo}
    (hinfo : ∀ a ∈ hl, pa.info a = (fields a).shift S) (ho : Finds env.keyStr pa hl o)
    (hok : ∀ a ∈ hl, (pa.info a).BufOk) :
    ((paParseLoop env hl pa).isSome ∧ ∀ k ∈ parseLoopReads env hl pa, 0 ≤ k ∧ k < n) ↔
      MessageFits env pa.protocolData (min n pa.protocolData.length) o (fun a => (pa.info a).data) S
        (hl.map fun a => (a, fields a)) := by
  induction hl generalizing pa S with
  | nil => simp [paParseLoop, parseLoopReads, MessageFits]
  | cons a rest ih =>
    obtain ⟨ha, hnd'⟩ := List.nodup_cons.1 hnd
    obtain ⟨hinfo_a, hinfo⟩ := List.forall_mem_cons.1 hinfo
    obtain ⟨hok_a, hok⟩ := List.forall_mem_cons.1 hok
    -- the length that is found is the one of the message
    have hd : pa.foundData o a = if (fields a).vlenthFlag then
        (o a).map fun j => (pa.info j).data else none := by
      rw [ProtocolAnalyzer.foundData, hinfo_a, ProtoInfo.vlenthFlag_shift]
    rw [paParseLoop_cons hnd ho.head, parseLoopReads_cons hnd ho.head, List.map_cons, MessageFits,
      ← hd, ← hinfo_a]
    generalize pa.foundData o a = d
    set g := (pa.info a).resolve d
    have hshift : (pa.info a).shiftBy d = (fields a).shiftBy d := by
      rw [hinfo_a, ProtoInfo.shiftBy_shift]
    rw [hshift]
    set T := (fields a).shiftBy d
    have hread := paGetProtocolField_isSome_iff env (f := g) hok_a pa.protocolData
    have hwithin := forall_fieldReads_iff env g
    cases hF : paGetProtocolField env g pa.protocolData with
    | none =>
      -- the access that is outside the buffer is outside the message too
      refine iff_of_false (fun h => absurd h.1 (by simp)) fun h => ?_
      have hall := hread.2 fun k hk => by
        have := (hwithin _).2 h.1 k hk
        omega
      rw [hF] at hall
      cases hall
    | some F =>
      rw [Option.bind_some]
      set pa₁ := pa.pass a rest F T
      have hinfo₁ : ∀ b ∈ rest, pa₁.info b = (pa.info b).shift T := fun b hb =>
        ProtocolAnalyzer.info_pass_rest F T ha hb
      have hvals : (fun b => (pa₁.info b).data) = Function.update (fun b => (pa.info b).data) a
          (fieldData env g pa.protocolData) := by
        funext b
        by_cases hb : b = a
        · rw [hb, Function.update_self, ProtocolAnalyzer.info_pass_self,
            data_paGetProtocolField (f := g) hok_a hF]
        · rw [Function.update_of_ne hb, ProtocolAnalyzer.data_pass_of_ne F T hb]
      have ih₁ := @ih hnd' pa₁ (S + T)
        (fun b hb => by rw [hinfo₁ b hb, hinfo b hb, ProtoInfo.shift_shift]) (ho.pass F T ha)
        fun b hb => by rw [hinfo₁ b hb]; exact hok b hb
      rw [hvals, ProtocolAnalyzer.protocolData_pass] at ih₁
      have hsome : ∀ k ∈ fieldReads env g, 0 ≤ k ∧ k < pa.protocolData.length :=
        hread.1 (by rw [hF]; rfl)
      rw [← ih₁, ← hwithin]
      constructor
      · rintro ⟨h₁, h₂⟩
        refine ⟨fun k hk => ?_, h₁, fun k hk => h₂ k (List.mem_append_right _ hk)⟩
        have h₃ := h₂ k (List.mem_append_left _ hk)
        have h₄ := hsome k hk
        omega
      · rintro ⟨h₁, h₂, h₃⟩
        refine ⟨h₂, fun k hk => ?_⟩
        rcases List.mem_append.1 hk with hk | hk
        · have := h₁ k hk
          omega
        · exact h₃ k hk

/-- **When parsing keeps to the message.** For every format, every content of the buffer and every
length of the message, and whatever the fields hold: exactly when every field lies within the
message and the buffer, at the place and with the length that the length fields read before it
give it. -/
theorem decodesMessage_iff {specs : List FieldSpec} (i : Init specs) {pa : ProtocolAnalyzer}
    (hhl : pa.paListHeadP = some i.infos) (hmap : pa.hmap = i.analyzer.hmap)
    (hok : ∀ a ∈ i.infos, (pa.info a).BufOk) (hlen : 0 < pa.protocolDataLen) (env : Env) :
    DecodesMessage env pa ↔
      MessageFits env pa.protocolData (min pa.protocolDataLen.toNat pa.protocolData.length)
        (fun a => i.tableFind (keyBytes (cString (pa.info a).vlenthIndex) (env.keyStr a)))
        (fun a => (pa.info a).data) 0 (i.infos.map fun a => (a, pa.info a)) := by
  have hne : pa.protocolDataLen ≠ 0 := by
    intro h
    rw [h] at hlen
    exact absurd hlen (by decide)
  rw [← @parseLoopReads_iff env _ _ _ i.nodup_infos pa 0 pa.info
    (fun a _ => (ProtoInfo.shift_zero _).symm) (i.finds hmap env.keyStr i.infos) hok]
  simp only [DecodesMessage, parseReads, paParseProtocolData, hhl, if_neg hne]
  cases hloop : paParseLoop env i.infos pa with
  | none => simp
  | some pa' =>
    simp only [Option.bind_eq_bind, Option.bind_some, Option.some.injEq, Prod.mk.injEq,
      Option.isSome_some, true_and]
    constructor
    · rintro ⟨ret, _, ⟨rfl, rfl⟩, h⟩
      exact h.resolve_left (by decide)
    · intro h
      exact ⟨0, pa', ⟨rfl, rfl⟩, .inr h⟩

/-- A whole record is decoded from its own bytes. -/
theorem decodesMessage_record : DecodesMessage ⟨true, fun _ _ => 0, fun _ _ => 0, 0⟩
    (loaded3054 [0x30, 0x54, 7, 1, 5, 1, 2, 3, 4, 5] (List.replicate 90 0)) := by
  have hhl : (loaded3054 [0x30, 0x54, 7, 1, 5, 1, 2, 3, 4, 5] (List.replicate 90 0)).paListHeadP =
      some init3054.infos := init3054.paListHeadP_analyzer
  exact (decodesMessage_iff init3054 hhl rfl init3054.bufOk (by decide) _).2 (by decide +kernel)

/-- A record that was cut off after its length field is completed with the bytes behind it. -/
theorem not_decodesMessage : ¬ ∀ (specs : List FieldSpec) (i : Init specs) (dp : List UInt8),
    dp.length = MAX_PROTO_DATA_LEN → ∀ len : UInt16, 0 < len → ∀ env : Env,
      DecodesMessage env { i.analyzer with protocolData := dp, protocolDataLen := len } := by
  intro h
  obtain ⟨ret, pa', hparse, hret⟩ := h specs3054 init3054
    ([0x30, 0x54, 7, 1, 5] ++ List.replicate 95 9) rfl 5 (by decide)
    ⟨true, fun _ _ => 0, fun _ _ => 0, 0⟩
  have hzero : (paParseProtocolData ⟨true, fun _ _ => 0, fun _ _ => 0, 0⟩
      (loaded3054 [0x30, 0x54, 7, 1, 5] (List.replicate 95 9))).map Prod.fst = some 0 := by
    decide +kernel
  have hbehind : (5 : ℤ) ∈ parseReads ⟨true, fun _ _ => 0, fun _ _ => 0, 0⟩
      (loaded3054 [0x30, 0x54, 7, 1, 5] (List.replicate 95 9)) := by decide +kernel
  have hret0 : ret = 0 := Option.some.inj ((congrArg (Option.map Prod.fst) hparse).symm.trans hzero)
  rcases hret with hret | hret
  · rw [hret0] at hret
    exact absurd hret (by decide)
  · exact absurd (hret 5 hbehind).2 (by decide)

end HpiDriver
