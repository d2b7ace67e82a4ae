import Mathlib.Data.Nat.Bitwise
import Mathlib.Data.UInt
import Mathlib.Algebra.Order.Ring.Nat
import Mathlib.Tactic.Ring

/-!
# Big-endian numbers

`beValue bs` is the number whose bytes, most significant first, are `bs`, and `beBytes n x` are
the `n` low bytes of `x`; the two are inverse to each other on numbers of `n` bytes. The last
section relates them to the usual loops: a byte is picked by a shift, and a number is put together
by or-ing shifted bytes.
-/

namespace BigEndian

/-- The number with the bytes `bs`, most significant first. -/
def beValue (bs : List UInt8) : ℕ := bs.foldl (fun v b => 256 * v + b.toNat) 0

/-- The `n` low bytes of `x`, most significant first. -/
def beBytes : ℕ → ℕ → List UInt8
  | 0, _ => []
  | n + 1, x => beBytes n (x / 256) ++ [UInt8.ofNat x]

@[simp] theorem beValue_nil : beValue [] = 0 := rfl

@[simp] theorem beValue_concat (bs : List UInt8) (b : UInt8) :
    beValue (bs ++ [b]) = 256 * beValue bs + b.toNat := by
  simp [beValue]

@[simp] theorem beValue_singleton (b : UInt8) : beValue [b] = b.toNat := by
  simp [beValue]

@[simp] theorem length_beBytes (n x : ℕ) : (beBytes n x).length = n := by
  induction n generalizing x with
  | zero => rfl
  | succ n ih => simp [beBytes, ih]

@[simp] theorem beBytes_zero (n : ℕ) : beBytes n 0 = List.replicate n 0 := by
  induction n with
  | zero => rfl
  | succ n ih =>
    rw [beBytes, ih, List.replicate_succ']
    rfl

theorem beValue_lt (bs : List UInt8) : beValue bs < 256 ^ bs.length := by
  induction bs using List.reverseRecOn with
  | nil => simp
  | append_singleton bs b ih =>
    have hb := b.toNat_lt
    rw [beValue_concat, List.length_append, List.length_singleton, pow_succ]
    omega

theorem beValue_beBytes {n x : ℕ} (h : x < 256 ^ n) : beValue (beBytes n x) = x := by
  induction n generalizing x with
  | zero =>
    obtain rfl : x = 0 := by simpa using h
    rfl
  | succ n ih =>
    have hx : x / 256 < 256 ^ n := Nat.div_lt_of_lt_mul (by rwa [pow_succ, mul_comm] at h)
    have hb : (UInt8.ofNat x).toNat = x % 256 := by simp
    rw [beBytes, beValue_concat, ih hx, hb]
    omega

/-- Only the last bytes of a number are kept. -/
theorem beValue_beBytes_mod (n x : ℕ) : beValue (beBytes n x) = x % 256 ^ n := by
  induction n generalizing x with
  | zero => rw [pow_zero, Nat.mod_one, beBytes, beValue_nil]
  | succ n ih =>
    have hb : (UInt8.ofNat x).toNat = x % 256 := by simp
    rw [beBytes, beValue_concat, ih, hb, pow_succ', Nat.mod_mul, Nat.add_comm]

theorem beBytes_beValue (bs : List UInt8) : beBytes bs.length (beValue bs) = bs := by
  induction bs using List.reverseRecOn with
  | nil => rfl
  | append_singleton bs b ih =>
    have hb := b.toNat_lt
    have hdiv : (256 * beValue bs + b.toNat) / 256 = beValue bs := by omega
    have hmod : UInt8.ofNat (256 * beValue bs + b.toNat) = b :=
      UInt8.toNat_inj.1 (by simp)
    rw [List.length_append, List.length_singleton, beBytes, beValue_concat, hdiv, ih, hmod]

/-! ## Shifting loops -/

theorem getElem_beBytes {n x i : ℕ} (h : i < (beBytes n x).length) :
    (beBytes n x)[i] = UInt8.ofNat (x / 256 ^ (n - i - 1)) := by
  induction n generalizing x with
  | zero => simp at h
  | succ n ih =>
    simp only [beBytes]
    rw [length_beBytes] at h
    rcases Nat.lt_succ_iff_lt_or_eq.1 h with hi | rfl
    · rw [List.getElem_append_left (by simpa using hi), ih (by simpa using hi),
        Nat.div_div_eq_div_mul,
        ← pow_succ', show n + 1 - i - 1 = n - i - 1 + 1 by omega]
    · rw [List.getElem_append_right (by simp)]
      simp

/-- The bytes picked by shifts. -/
theorem map_range_shiftRight (n x : ℕ) :
    (List.range n).map (fun i => UInt8.ofNat (x >>> (8 * (n - i - 1)))) = beBytes n x := by
  refine List.ext_getElem (by simp) fun i _ hi => ?_
  rw [getElem_beBytes hi, List.getElem_map, List.getElem_range, Nat.shiftRight_eq_div_pow,
    pow_mul]
  rfl

/-- The number put together by or-ing shifted bytes. -/
theorem foldl_or_shiftLeft (bs : List UInt8) :
    (List.range bs.length).foldl
      (fun v i => v ||| (bs.getD i 0).toNat <<< (8 * (bs.length - i - 1))) 0 = beValue bs := by
  have key : ∀ k ≤ bs.length, (List.range k).foldl
      (fun v i => v ||| (bs.getD i 0).toNat <<< (8 * (bs.length - i - 1))) 0 =
        beValue (bs.take k) * 256 ^ (bs.length - k) := by
    intro k hk
    induction k with
    | zero => simp
    | succ k ih =>
      have hk' : k < bs.length := hk
      have hb := (bs[k]).toNat_lt
      have hlt : (bs[k]).toNat <<< (8 * (bs.length - k - 1)) < 2 ^ (8 * (bs.length - k)) := by
        rw [Nat.shiftLeft_eq, show 8 * (bs.length - k) = 8 + 8 * (bs.length - k - 1) by omega,
          pow_add]
        exact Nat.mul_lt_mul_of_pos_right hb (Nat.two_pow_pos _)
      have hpow : (256 : ℕ) ^ (bs.length - k) = 2 ^ (8 * (bs.length - k)) := by
        rw [pow_mul]
        norm_num
      rw [List.range_succ, List.foldl_append, ih (by omega), List.take_succ_eq_append_getElem hk',
        beValue_concat, hpow, ← Nat.shiftLeft_eq]
      simp only [List.foldl_cons, List.foldl_nil, List.getD_eq_getElem _ _ hk']
      rw [← Nat.shiftLeft_add_eq_or_of_lt hlt, Nat.shiftLeft_eq, Nat.shiftLeft_eq,
        show 8 * (bs.length - k) = 8 * (bs.length - (k + 1)) + 8 by omega, pow_add,
        show bs.length - k - 1 = bs.length - (k + 1) by omega, pow_mul,
        show (2 : ℕ) ^ 8 = 256 by norm_num]
      ring
  simpa using key bs.length le_rfl

end BigEndian
