import HpiDriver.ProtoAnalyzer.BitRoundTrip
import HpiDriver.ProtoAnalyzer.Reset
import Mathlib.Order.Bounds.Basic

/-!
# When the reported length is the size of the message

`pa_generate_protocol_data` reports the byte of the last field plus the length of that field as the
length of the message, whatever the field counts its length in. For fields in order that is the
number of bytes up to the last occupied one after a byte field, but hardly ever after a bit field
(`reportsSize_iff`).
-/

namespace HpiDriver

open BitString

/-! ## Occupied bytes -/

/-- The number of bytes up to the last one that a field occupies, 0 when none does. -/
def IsSize (l : List Slot) (size : ℕ) : Prop := IsLeast {m | ∀ n, Covered l n → n < m} size

/-- Every field starts behind the ones in front of it. -/
def Ascending (l : List Slot) : Prop :=
  l.Pairwise fun p q => p.layer.start + p.layer.len ≤ q.layer.start

instance (l : List Slot) : Decidable (Ascending l) :=
  inferInstanceAs (Decidable (l.Pairwise _))

theorem covered_iff {l : List Slot} {n : ℕ} :
    Covered l n ↔ ∃ p ∈ l, ∃ k, k / 8 = n ∧ p.layer.start ≤ k ∧
      k < p.layer.start + p.layer.len := by
  simp only [Covered, Layer.covers_eq_true]

section Last

variable {l : List Slot} {p : Slot}

/-- The other fields end where the last one starts. -/
theorem Ascending.le_last (h : Ascending l) (hp : l.getLast? = some p) :
    ∀ q ∈ l, q = p ∨ q.layer.start + q.layer.len ≤ p.layer.start := by
  obtain ⟨l', rfl⟩ := List.getLast?_eq_some_iff.1 hp
  intro q hq
  rcases List.mem_append.1 hq with hq | hq
  · exact .inr ((List.pairwise_append.1 h).2.2 q hq p (List.mem_singleton.2 rfl))
  · exact .inl (List.mem_singleton.1 hq)

/-- The message ends with its last field when that one is not empty. -/
theorem isSize_last (h : Ascending l) (hp : l.getLast? = some p) (hlen : p.layer.len ≠ 0) :
    IsSize l ((p.layer.start + p.layer.len - 1) / 8 + 1) := by
  refine ⟨fun n hn => ?_, fun m hm => ?_⟩
  · obtain ⟨q, hq, k, rfl, -, hk⟩ := covered_iff.1 hn
    have hle : k ≤ p.layer.start + p.layer.len - 1 := by
      rcases h.le_last hp q hq with rfl | hq
      · omega
      · omega
    exact Nat.lt_succ_of_le (Nat.div_le_div_right hle)
  · exact hm _ (covered_iff.2 ⟨p, List.mem_of_getLast? hp, _, rfl, by omega, by omega⟩)

/-- An empty field behind the message is at the end of the message when the byte in front of it is
the last occupied one. -/
theorem isSize_iff_of_le {B : ℕ} (h : ∀ n, Covered l n → n ≤ B) :
    IsSize l B ↔ ¬ Covered l B ∧ (B = 0 ∨ Covered l (B - 1)) := by
  constructor
  · rintro ⟨hB, hleast⟩
    refine ⟨fun hc => lt_irrefl B (hB B hc), ?_⟩
    by_contra! hno
    have : B ≤ B - 1 := hleast fun n hn => by
      have hlt : n < B := hB n hn
      have hne : n ≠ B - 1 := fun e => hno.2 (e ▸ hn)
      omega
    omega
  · rintro ⟨hB, hfront⟩
    refine ⟨fun n hn => lt_of_le_of_ne (h n hn) fun e => hB (e ▸ hn), fun m hm => ?_⟩
    rcases hfront with rfl | hfront
    · exact Nat.zero_le m
    · have : B - 1 < m := hm _ hfront
      omega

end Last

/-! ## The last field -/

/-- The length of the last field counts as bytes: it is a byte field, or a bit field that takes as
many bytes as it has bits. An empty field has to be right behind the last occupied byte. -/
def LastCountsBytes (l : List Slot) (p : Slot) : Prop :=
  if p.len = 0 then ¬ Covered l p.pos ∧ (p.pos = 0 ∨ Covered l (p.pos - 1))
  else p.spec.lenUnit = 8 ∨ p.len = 1 ∨ p.len = 2 ∧ p.spec.bitPos = 0

/-- A bit field takes as many bytes as it has bits when it is one bit, or two in two bytes. -/
theorem len_eq_bytes_iff {pos b len : ℕ} (hb : b ≤ 7) (hlen : len ≠ 0) :
    pos + len = (8 * pos + 7 - b + len - 1) / 8 + 1 ↔ len = 1 ∨ len = 2 ∧ b = 0 := by
  constructor
  · intro h
    omega
  · rintro (rfl | ⟨rfl, rfl⟩)
    · omega
    · omega

/-- Where the last field ends, its length counted in its unit, is the size of the message exactly
when its length counts as bytes. -/
theorem isSize_reported_iff {l : List Slot} {p : Slot} (hord : Ascending l)
    (hp : l.getLast? = some p) (hfit : p.Fits)
    (hf : p.spec.ByteOrBit) :
    IsSize l (p.pos + p.len) ↔ LastCountsBytes l p := by
  obtain ⟨hstart, hlen⟩ := hfit.layer_eq
  unfold LastCountsBytes
  split_ifs with h0
  · -- an empty field occupies nothing, and the others end where it is
    have hlen0 : p.layer.len = 0 := by
      rw [hlen, h0]
      split_ifs <;> rfl
    have hstart' : p.layer.start ≤ 8 * p.pos + 7 := by
      rw [hstart, startBit]
      split_ifs <;> omega
    rw [h0, Nat.add_zero]
    refine isSize_iff_of_le fun n hn => ?_
    obtain ⟨q, hq, k, rfl, -, hk⟩ := covered_iff.1 hn
    rcases hord.le_last hp q hq with rfl | hq
    · omega
    · omega
  · have hlen0 : p.layer.len ≠ 0 := by
      rw [hlen]
      split_ifs <;> omega
    have hsize := isSize_last hord hp hlen0
    have hiff : IsSize l (p.pos + p.len) ↔
        p.pos + p.len = (p.layer.start + p.layer.len - 1) / 8 + 1 :=
      ⟨fun h => h.unique hsize, fun h => h ▸ hsize⟩
    rw [hiff, hstart, hlen]
    rcases hf with hu | ⟨hu, hb⟩
    · rw [if_pos hu, if_pos hu]
      exact ⟨fun _ => .inl hu, fun _ => by omega⟩
    · have hu8 : p.spec.lenUnit ≠ 8 := by
        rw [hu]
        decide
      have hb0 : p.spec.bitPos = 0 ↔ p.spec.bitPos.toNat = 0 := UInt8.toNat_inj.symm
      rw [if_neg hu8, if_neg hu8, startBit, hb0, or_iff_right hu8]
      exact len_eq_bytes_iff hb h0

/-! ## The reported length -/

/-- Encoding the values with a fresh analyzer reports the size of the message. -/
def ReportsSize {specs : List FieldSpec} (i : Init specs) (env : Env)
    (vals : List (FieldSpec × FieldValue)) : Prop :=
  ∃ pa', encode i env vals i.analyzer = some pa' ∧
    IsSize (layout vals (i.keys env)) pa'.protocolDataLen.toNat

/-- **When the reported length is the size of the message.** For any format of byte and bit fields
and any values whose fields lie in order in the buffer: exactly when the length of the last field
counts as bytes. -/
theorem reportsSize_iff {specs : List FieldSpec} {vals : List (FieldSpec × FieldValue)}
    {i : Init specs} {env : Env} (hne : specs ≠ []) (hf : FieldFormat specs)
    (hvals : vals.map Prod.fst = specs) (hfits : ∀ p ∈ layout vals (i.keys env), p.Fits)
    (hord : Ascending (layout vals (i.keys env))) :
    ReportsSize i env vals ↔
      ∀ p ∈ (layout vals (i.keys env)).getLast?,
        LastCountsBytes (layout vals (i.keys env)) p := by
  obtain ⟨pa', hfresh⟩ := encode_fresh i env hf hvals hfits
  have hlne : layout vals (i.keys env) ≠ [] := by
    intro h
    have hl := i.length_layout hvals env
    rw [h] at hl
    exact hne (List.length_eq_zero_iff.1 hl.symm)
  have hp := List.getLast?_eq_some_getLast hlne
  generalize (layout vals (i.keys env)).getLast hlne = p at hp
  have hpl := List.mem_of_getLast? hp
  have hspec := i.spec_mem_of_mem_layout hvals hpl
  have hreported : pa'.protocolDataLen.toNat = p.pos + p.len := by
    rw [hfresh.dataLen hne, reportedLen, hp]
  have hiff := isSize_reported_iff hord hp (hfits p hpl) (hf _ hspec)
  rw [← hreported] at hiff
  rw [hp]
  simp only [Option.mem_some_iff, forall_eq']
  rw [← hiff]
  constructor
  · intro h
    obtain ⟨pa, hpa, hs⟩ := h
    rwa [← Option.some.inj (hfresh.encode_eq.symm.trans hpa)] at hs
  · exact fun hs => ⟨pa', hfresh.encode_eq, hs⟩

/-- A record ends with its data, a byte field. -/
theorem reportsSize_iff_vals3054 :
    ReportsSize init3054 ⟨true, fun _ _ => 0, fun _ _ => 0, 0⟩ vals3054 ↔
      ∀ p ∈ (layout vals3054 (init3054.keys ⟨true, fun _ _ => 0, fun _ _ => 0, 0⟩)).getLast?,
        LastCountsBytes
          (layout vals3054 (init3054.keys ⟨true, fun _ _ => 0, fun _ _ => 0, 0⟩)) p :=
  reportsSize_iff (by decide) (by decide) (show vals3054.map Prod.fst = specs3054 from rfl)
    (by decide +kernel) (by decide +kernel)

/-- The fields of the `ackd` PDU. -/
def specsAckd : List FieldSpec := specsLbPf ++
  [⟨cname "CSBKO", 0, 5, 6, 1, none⟩, ⟨cname "FID", 1, 7, 8, 1, none⟩,
    ⟨cname "RI", 2, 7, 7, 1, none⟩, ⟨cname "ARC", 2, 0, 8, 1, none⟩,
    ⟨cname "RSVD", 3, 0, 1, 1, none⟩, ⟨cname "TADDR", 4, 7, 24, 1, none⟩,
    ⟨cname "SADDR", 7, 7, 24, 1, none⟩]

/-- An analyzer for the PDU. -/
def initAckd : Init specsAckd :=
  .standalone specsAckd [64, 128, 192, 256, 320, 384, 448, 512, 576]
    [4096, 4128, 4160, 4192, 4224, 4256, 4288, 4320, 4352] rfl rfl (by decide) (by decide)
    (by simp)

/-- The values of an `ackd` PDU. -/
def valsAckd : List (FieldSpec × FieldValue) :=
  specsAckd.zip [.int 1, .int 0, .int 0x20, .int 0, .int 0, .int 0x60, .int 0, .int 0x1001,
    .int 0x2002]

/-- The `ackd` PDU has 10 bytes and 31 are reported. -/
theorem not_reportsSize : ¬ ∀ specs : List FieldSpec, specs ≠ [] → FieldFormat specs →
    ∀ vals : List (FieldSpec × FieldValue), vals.map Prod.fst = specs → ∀ (i : Init specs)
      (env : Env), (∀ p ∈ layout vals (i.keys env), p.Fits) →
        Ascending (layout vals (i.keys env)) → ReportsSize i env vals := by
  intro h
  obtain ⟨pa', henc, -, hleast⟩ := h specsAckd (by decide) (by decide) valsAckd rfl initAckd
    ⟨true, fun _ _ => 0, fun _ _ => 0, 0⟩ (by decide +kernel) (by decide +kernel)
  have hlen : (encode initAckd ⟨true, fun _ _ => 0, fun _ _ => 0, 0⟩ valsAckd
      initAckd.analyzer).map (·.protocolDataLen) = some 31 := by decide +kernel
  rw [henc] at hlen
  have h31 : pa'.protocolDataLen = 31 := Option.some.inj hlen
  have hends : ∀ p ∈ layout valsAckd (initAckd.keys ⟨true, fun _ _ => 0, fun _ _ => 0, 0⟩),
      p.layer.start + p.layer.len ≤ 80 := by decide +kernel
  have hle : pa'.protocolDataLen.toNat ≤ 10 := hleast fun n hn => by
    obtain ⟨p, hp, k, rfl, -, hk⟩ := covered_iff.1 hn
    have := hends p hp
    omega
  rw [h31] at hle
  exact absurd hle (by decide)

end HpiDriver
