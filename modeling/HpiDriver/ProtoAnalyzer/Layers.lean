import HpiDriver.ProtoAnalyzer.BitField
import HpiDriver.ProtoAnalyzer.Loops

/-!
# Fields as layers

What the fields of a message do to the buffer, for byte fields and bit fields alike: every field
is a layer over the bits of the buffer, a byte field one that replaces what is below it and a bit
field one that is or-ed into it. A byte field of more than four bytes that does not begin at a
whole byte is not written at all. Writing the fields in order lays the layers one over the other
(`writeFields_laid`).
-/

namespace HpiDriver

open Blocks BitString

/-- The layer that a byte field with the bytes `bs` at `pos` is. -/
def byteLayer (pos : ℕ) (bs : List UInt8) : Layer :=
  ⟨8 * pos, 8 * bs.length, fun k => bitAt bs (k - 8 * pos), true⟩

theorem byteLayer_apply (pos : ℕ) (bs : List UInt8) (f : ℕ → Bool) (k : ℕ) :
    (byteLayer pos bs).apply f k =
      if 8 * pos ≤ k ∧ k < 8 * (pos + bs.length) then bitAt bs (k - 8 * pos) else f k := by
  have hcov : (byteLayer pos bs).covers k = decide (8 * pos ≤ k ∧ k < 8 * (pos + bs.length)) := by
    rw [Nat.mul_add]
    rfl
  simp only [Layer.apply, Layer.hides, Layer.sets, hcov]
  split_ifs with h
  · simp [h, byteLayer]
  · simp [h]

/-- The layer over `len` bytes at `pos` that changes nothing. -/
def skippedLayer (pos len : ℕ) : Layer := ⟨8 * pos, 8 * len, fun _ => false, false⟩

theorem skippedLayer_apply (pos len : ℕ) (f : ℕ → Bool) (k : ℕ) :
    (skippedLayer pos len).apply f k = f k := by
  simp [Layer.apply, Layer.hides, Layer.sets, skippedLayer]

/-- The placed field `f` is the layer `l`. -/
inductive Laid (f : ProtoInfo) : Layer → Prop
  | byte {bs : List UInt8} (lenUnit : f.lenUnit = 8) (bitPos : f.bitPos = 0 ∨ bs.length ≤ 4)
      (carries : Carries f bs) : Laid f (byteLayer f.bytePos.toNat bs)
  | skipped (lenUnit : f.lenUnit = 8) (bitPos : f.bitPos ≠ 0) (len : 4 < f.len.toNat) :
      Laid f (skippedLayer f.bytePos.toNat f.len.toNat)
  | bit (lenUnit : f.lenUnit = 1) (bitPos : f.bitPos.toNat < 8) (len : f.len.toNat ≤ 32)
      (data : f.data.toNat < 2 ^ f.len.toNat) :
      Laid f (bitLayer (startBit f.bytePos.toNat f.bitPos) f.len.toNat f.data.toNat)

/-- Writing a field lays its layer over the buffer. -/
theorem Laid.write {f : ProtoInfo} {l : Layer} (h : Laid f l) (env : Env) {dp : List UInt8}
    (hle : l.start + l.len ≤ 8 * dp.length) :
    ∃ dp', paSetProtocolField env f f.bytePos dp = some dp' ∧ dp'.length = dp.length ∧
      bitAt dp' = l.apply (bitAt dp) := by
  cases h with
  | @byte bs hu hb hc =>
    have hle' : f.bytePos.toNat + bs.length ≤ dp.length := by
      simp only [byteLayer] at hle
      omega
    refine ⟨_, (paSetProtocolField_byte env hu hb hc _ _).trans (memcpyTo_eq hle'),
      length_blit hle', funext fun k => ?_⟩
    rw [bitAt_blit hle', byteLayer_apply]
  | skipped hu hb hlen =>
    exact ⟨dp, paSetProtocolField_skipped env hu hb hlen _ _, rfl,
      funext fun k => (skippedLayer_apply _ _ _ k).symm⟩
  | bit hu hb hlen hdata =>
    obtain ⟨dp', h₁, h₂, h₃⟩ := paSetProtocolField_bit env hu hb hlen hdata f.bytePos hle
    exact ⟨dp', h₁, h₂, funext h₃⟩

/-- **Writing the fields lays their layers over the buffer.** -/
theorem writeFields_laid (env : Env) {fs : List ProtoInfo} {ls : List Layer}
    (h : List.Forall₂ Laid fs ls) (dp : List UInt8)
    (hle : ∀ l ∈ ls, l.start + l.len ≤ 8 * dp.length) :
    ∃ dp', writeFields env fs dp = some dp' ∧ dp'.length = dp.length ∧
      bitAt dp' = applyAll ls (bitAt dp) := by
  induction h generalizing dp with
  | nil => exact ⟨dp, rfl, rfl, rfl⟩
  | cons hl _ ih =>
    obtain ⟨hle₁, hle⟩ := List.forall_mem_cons.1 hle
    obtain ⟨dp₁, h₁, hl₁, hb₁⟩ := hl.write env hle₁
    obtain ⟨dp', h₂, hl₂, hb₂⟩ := ih dp₁ fun l hl => by rw [hl₁]; exact hle l hl
    refine ⟨dp', ?_, hl₂.trans hl₁, ?_⟩
    · simp only [writeFields, List.foldlM_cons, h₁, Option.bind_eq_bind, Option.bind_some]
      exact h₂
    · rw [hb₂, hb₁]
      rfl

end HpiDriver
