import HpiDriver.Business.Framing

/-!
# Writing to the device

`plat_driver.c`: `device_write` copies what the user writes into a local buffer of 1024 bytes and
hands it to `process_protocol`. Neither of them compares the lengths that they find in the message
with its own length or with the size of a buffer, so the accesses stay in range exactly when the
message is well framed (`deviceWrite_inRange_iff`).
-/

namespace HpiDriver

/-- `MAX_BUF_SIZE` -/
def MAX_BUF_SIZE : ℕ := 1024

/-- What a call of `device_write` finds: what is in its local buffer, and what its callees find. -/
structure WriteEnv where
  uninit : ℕ → UInt8
  process : ProcessEnv

/-- The command of a message, its first two bytes. -/
def commandOf (data : ℕ → UInt8) : UInt16 := (data 0).toUInt16 <<< 8 ||| (data 1).toUInt16

/-- `device_write`, with its accesses; `buf` is the memory of the user. -/
def deviceWrite (env : WriteEnv) (buf : ℕ → UInt8) (count : UInt32) (admins : TaskAdmins) :
    List Access × Option TaskAdmins :=
  let data := fun n => if n < count.toNat then buf n else env.uninit n
  let r := processProtocol env.process (commandOf data) data count admins
  ((List.range count.toNat).map .buffer ++ [.message 0, .message 1] ++ r.1,
    if count.toNat ≤ MAX_BUF_SIZE then r.2 else none)

/-! ## Accesses in range -/

/-- The access is inside the message of `count` bytes, or inside its buffer. -/
def Access.InRange (count : ℕ) : Access → Prop
  | .message n => n < count
  | .buffer n => n < MAX_BUF_SIZE
  | .protocolData n => n < MAX_PROTO_DATA_LEN

/-- All accesses are in range. -/
def InRange (count : ℕ) (l : List Access) : Prop := ∀ a ∈ l, a.InRange count

section InRange

variable {count : ℕ}

@[simp] theorem inRange_nil : InRange count [] := by simp [InRange]

@[simp] theorem inRange_cons {a : Access} {l : List Access} :
    InRange count (a :: l) ↔ a.InRange count ∧ InRange count l := List.forall_mem_cons

@[simp] theorem inRange_append {l l' : List Access} :
    InRange count (l ++ l') ↔ InRange count l ∧ InRange count l' := List.forall_mem_append

theorem inRange_buffer {n : ℕ} : InRange count ((List.range n).map .buffer) ↔ n ≤ MAX_BUF_SIZE := by
  simp only [InRange, List.forall_mem_map, List.mem_range, Access.InRange]
  constructor
  · intro h
    by_contra hn
    exact absurd (h MAX_BUF_SIZE (by omega)) (lt_irrefl _)
  · intro h k hk
    omega

theorem inRange_copyAccesses {src dst n : ℕ} : InRange count (copyAccesses src dst n) ↔
    n = 0 ∨ src + n ≤ count ∧ dst + n ≤ MAX_PROTO_DATA_LEN := by
  simp only [InRange, copyAccesses, List.forall_mem_flatMap, List.mem_range, List.forall_mem_cons,
    List.not_mem_nil, false_implies, implies_true, and_true, Access.InRange]
  constructor
  · intro h
    rcases Nat.eq_zero_or_pos n with hn | hn
    · exact .inl hn
    · have := h (n - 1) (by omega)
      omega
  · intro h k hk
    omega

end InRange

/-! ## Loops in range -/

section Run

variable {σ : Type} {iteration : ℕ → Framing σ → Framing σ} {size size' : ℕ → ℕ}
  {acc : ℕ → List Access} {P : ℕ → Prop} {st : Framing σ} {count : ℕ}

/-- While the frames of a message fit, the loop is where they start. -/
theorem run_os_of_fits
    (hos : ∀ i st, (iteration i st).os = st.os + UInt16.ofNat (size st.os.toNat))
    (hP : ∀ os, P os → size os = size' os ∧ os + size' os ≤ count)
    (hcount : count < 2 ^ 16) (hst : st.os.toNat ≤ count) {n : ℕ}
    (h : ∀ k < n, P (frameOffset size' st.os.toNat k)) :
    (Framing.run iteration n st).os.toNat = frameOffset size' st.os.toNat n ∧
      frameOffset size' st.os.toNat n ≤ count := by
  induction n with
  | zero => exact ⟨rfl, hst⟩
  | succ n ih =>
    obtain ⟨ih, -⟩ := ih fun k hk => h k (by omega)
    obtain ⟨hsize, hle⟩ := hP _ (h n n.lt_succ_self)
    rw [frameOffset, Framing.run_succ, hos, ih, hsize, UInt16.toNat_add, UInt16.toNat_ofNat', ih]
    exact ⟨by omega, hle⟩

variable (size size' st) in
/-- **A loop stays in range exactly when the frames of the message fit.** -/
theorem run_inRange_iff
    (hos : ∀ i st, (iteration i st).os = st.os + UInt16.ofNat (size st.os.toNat))
    (hacc : ∀ i st, (iteration i st).accesses = st.accesses ++ acc st.os.toNat)
    (haccP : ∀ os, InRange count (acc os) ↔ P os)
    (hP : ∀ os, P os → size os = size' os ∧ os + size' os ≤ count)
    (hcount : count < 2 ^ 16) (hst : InRange count st.accesses → st.os.toNat ≤ count) (n : ℕ) :
    InRange count (Framing.run iteration n st).accesses ↔
      InRange count st.accesses ∧ ∀ k < n, P (frameOffset size' st.os.toNat k) := by
  rw [Framing.run_accesses hacc, inRange_append]
  refine and_congr_right fun hstart => ?_
  have hflat : InRange count ((List.range n).flatMap fun k =>
      acc (Framing.run iteration k st).os.toNat) ↔
        ∀ k < n, P (Framing.run iteration k st).os.toNat := by
    simp only [← haccP, InRange, List.forall_mem_flatMap, List.mem_range]
  rw [hflat]
  clear hflat
  -- both sides say the same of the first iterations
  induction n with
  | zero => simp
  | succ n ih =>
    have hsucc : ∀ Q : ℕ → Prop, (∀ k < n + 1, Q k) ↔ (∀ k < n, Q k) ∧ Q n := fun Q =>
      Nat.forall_lt_succ_right
    rw [hsucc, hsucc]
    refine (and_congr_left fun _ => ih).trans (and_congr_right fun hfits => ?_)
    rw [(run_os_of_fits hos hP hcount (hst hstart) hfits).1]

end Run

/-! ## Well-framed messages -/

/-- The number of bytes of the record at `os`. -/
def recordSize (data : ℕ → UInt8) (os : ℕ) : ℕ := (data (os + 2)).toNat + 3

/-- The record at `os` lies in the message and fits behind the two bytes in front of it. -/
def RecordFits (data : ℕ → UInt8) (count os : ℕ) : Prop :=
  os + recordSize data os ≤ count ∧ recordSize data os ≤ 98

/-- The number of bytes of the sub-PDU at `os`. -/
def pduSize (data : ℕ → UInt8) (os : ℕ) : ℕ := (data os).toNat

/-- The sub-PDU at `os` lies in the message with its `emb_flag`, and fits behind the two bytes in
front of it. -/
def PduFits (data : ℕ → UInt8) (count os : ℕ) : Prop :=
  os + 1 < count ∧ os + pduSize data os ≤ count ∧ pduSize data os ≤ 98

/-- A message of `count` bytes that stays inside itself and inside the buffers. -/
structure WellFramed (data : ℕ → UInt8) (count : ℕ) : Prop where
  two_le : 2 ≤ count
  le_max : count ≤ MAX_BUF_SIZE
  task : commandOf data = 0x3008 → count ≤ MAX_PROTO_DATA_LEN
  records : commandOf data = 0x3010 → 6 ≤ count ∧
    ∀ k < (data 5).toNat, RecordFits data count (frameOffset (recordSize data) 6 k)
  pdus : commandOf data = 0x301b → 5 ≤ count ∧
    ∀ k < (data 4).toNat, PduFits data count (frameOffset (pduSize data) 5 k)

section Commands

variable {data buf : ℕ → UInt8} {count : ℕ}

theorem doCommand0x3010_inRange_iff (env : ℕ → Env) (pfs : ProtocolFormatSet) (b : AnalyzerBlocks)
    (hbuf : ∀ n < count, data n = buf n) (hcount : count < 2 ^ 16) :
    InRange count (doCommand0x3010 env pfs b data).accesses ↔
      6 ≤ count ∧ ∀ k < (buf 5).toNat, RecordFits buf count (frameOffset (recordSize buf) 6 k) := by
  have hP : ∀ os, InRange count (.message (os + 2) :: .protocolData 0 :: .protocolData 1 ::
      copyAccesses os 2 ((data (os + 2)).toUInt16.toNat + 3)) ↔ RecordFits buf count os :=
    fun os => by
      simp only [inRange_cons, inRange_copyAccesses, Access.InRange, RecordFits, recordSize,
        MAX_PROTO_DATA_LEN, UInt8.toNat_toUInt16]
      rcases Nat.lt_or_ge (os + 2) count with h | h
      · rw [hbuf _ h]
        omega
      · omega
  have hrun := run_inRange_iff (recordSize data) (recordSize buf) (start3010 pfs b)
    (os_iteration3010 env data) (fun _ _ => rfl) hP
  rw [doCommand0x3010, hrun (fun os h => ⟨?_, h.1⟩) hcount fun h => ?_]
  · have hstart : InRange count (start3010 pfs b).accesses ↔ 6 ≤ count := by
      simp only [start3010, inRange_cons, inRange_nil, and_true, Access.InRange]
      omega
    rw [hstart]
    refine and_congr_right fun h => ?_
    rw [hbuf 5 (by omega)]
    rfl
  · have h := h.1
    simp only [recordSize] at h ⊢
    rw [hbuf _ (by omega)]
  · simp only [start3010, inRange_cons, Access.InRange] at h ⊢
    exact h.1

theorem doCommand0x301b_inRange_iff (env : ℕ → Env) (pfs : ProtocolFormatSet)
    (b50 b52 : AnalyzerBlocks) (hbuf : ∀ n < count, data n = buf n) (hcount : count < 2 ^ 16) :
    InRange count (doCommand0x301b env pfs b50 b52 data).accesses ↔
      5 ≤ count ∧ ∀ k < (buf 4).toNat, PduFits buf count (frameOffset (pduSize buf) 5 k) := by
  have hP : ∀ os, InRange count (.message os :: .message (os + 1) :: .protocolData 0 ::
      .protocolData 1 :: copyAccesses os 2 (data os).toUInt16.toNat) ↔ PduFits buf count os :=
    fun os => by
      simp only [inRange_cons, inRange_copyAccesses, Access.InRange, PduFits, pduSize,
        MAX_PROTO_DATA_LEN, UInt8.toNat_toUInt16]
      rcases Nat.lt_or_ge os count with h | h
      · rw [hbuf _ h]
        omega
      · omega
  have hrun := run_inRange_iff (pduSize data) (pduSize buf) (start301b pfs b50 b52)
    (os_iteration301b env data) (fun _ _ => rfl) hP
  rw [doCommand0x301b, hrun (fun os h => ⟨?_, h.2.1⟩) hcount fun h => ?_]
  · have hstart : InRange count (start301b pfs b50 b52).accesses ↔ 5 ≤ count := by
      simp only [start301b, inRange_cons, inRange_nil, and_true, Access.InRange]
      omega
    rw [hstart]
    refine and_congr_right fun h => ?_
    rw [hbuf 4 (by omega)]
    rfl
  · have h := h.1
    simp only [pduSize]
    rw [hbuf _ (by omega)]
  · simp only [start301b, inRange_cons, Access.InRange] at h ⊢
    exact h.1

theorem processProtocol_inRange_iff (env : ProcessEnv) (command : UInt16) {count : UInt32}
    (hbuf : ∀ n < count.toNat, data n = buf n) (hcount : count.toNat < 2 ^ 16)
    (admins : TaskAdmins) :
    InRange count.toNat (processProtocol env command data count admins).1 ↔
      (command = 0x3008 → count.toNat ≤ MAX_PROTO_DATA_LEN) ∧
      (command = 0x3010 → 6 ≤ count.toNat ∧ ∀ k < (buf 5).toNat,
        RecordFits buf count.toNat (frameOffset (recordSize buf) 6 k)) ∧
      (command = 0x301b → 5 ≤ count.toNat ∧ ∀ k < (buf 4).toNat,
        PduFits buf count.toNat (frameOffset (pduSize buf) 5 k)) := by
  unfold processProtocol
  by_cases h₁ : command = 0x3008
  · subst h₁
    rw [if_pos rfl, accesses3008, inRange_copyAccesses]
    simp only [MAX_PROTO_DATA_LEN, Nat.zero_add, le_refl, true_and, forall_const,
      show ¬ (0x3008 : UInt16) = 0x3010 by decide, show ¬ (0x3008 : UInt16) = 0x301b by decide,
      false_implies, and_true]
    omega
  rw [if_neg h₁]
  by_cases h₂ : command = 0x3010
  · subst h₂
    rw [if_pos rfl, doCommand0x3010_inRange_iff env.frame env.pfs env.blocks hbuf hcount]
    simp only [h₁, show ¬ (0x3010 : UInt16) = 0x301b by decide, false_implies, true_and, and_true,
      forall_const]
  rw [if_neg h₂]
  by_cases h₃ : command = 0x301b
  · subst h₃
    rw [if_pos rfl, doCommand0x301b_inRange_iff env.frame env.pfs env.blocks env.blocks' hbuf
      hcount]
    simp only [h₁, h₂, false_implies, true_and, forall_const]
  · rw [if_neg h₃]
    simp only [h₁, h₂, h₃, false_implies, and_true, inRange_nil]

end Commands

/-- **When a written message drives no access out of range.** Whatever the user writes and whatever
is in the memory around it: every access to the message is inside the message and every byte copied
is inside its buffer exactly when the message is well framed. -/
theorem deviceWrite_inRange_iff (env : WriteEnv) (buf : ℕ → UInt8) (count : UInt32)
    (admins : TaskAdmins) :
    (∀ a ∈ (deviceWrite env buf count admins).1, a.InRange count.toNat) ↔
      WellFramed buf count.toNat := by
  set data : ℕ → UInt8 := fun n => if n < count.toNat then buf n else env.uninit n with hdata
  have hbuf : ∀ n < count.toNat, data n = buf n := fun n hn => if_pos hn
  have hwf : WellFramed buf count.toNat ↔ (count.toNat ≤ MAX_BUF_SIZE ∧ 2 ≤ count.toNat) ∧
      (commandOf buf = 0x3008 → count.toNat ≤ MAX_PROTO_DATA_LEN) ∧
      (commandOf buf = 0x3010 → 6 ≤ count.toNat ∧ ∀ k < (buf 5).toNat,
        RecordFits buf count.toNat (frameOffset (recordSize buf) 6 k)) ∧
      (commandOf buf = 0x301b → 5 ≤ count.toNat ∧ ∀ k < (buf 4).toNat,
        PduFits buf count.toNat (frameOffset (pduSize buf) 5 k)) :=
    ⟨fun h => ⟨⟨h.le_max, h.two_le⟩, h.task, h.records, h.pdus⟩,
      fun h => ⟨h.1.2, h.1.1, h.2.1, h.2.2.1, h.2.2.2⟩⟩
  have hfirst : InRange count.toNat ((List.range count.toNat).map .buffer ++
      [.message 0, .message 1]) ↔ count.toNat ≤ MAX_BUF_SIZE ∧ 2 ≤ count.toNat := by
    simp only [inRange_append, inRange_buffer, inRange_cons, inRange_nil, and_true, Access.InRange]
    omega
  change InRange count.toNat (_ ++ _ ++
    (processProtocol env.process (commandOf data) data count admins).1) ↔ _
  rw [inRange_append, hfirst, hwf]
  refine and_congr_right fun ⟨hmax, h2⟩ => ?_
  have hcommand : commandOf data = commandOf buf := by
    rw [commandOf, commandOf, hbuf 0 (by omega), hbuf 1 (by omega)]
  simp only [MAX_BUF_SIZE] at hmax
  rw [hcommand, processProtocol_inRange_iff env.process _ hbuf (by omega)]

/-- A `0x3010` message of six bytes that claims one record is read behind its end. -/
theorem not_deviceWrite_inRange : ¬ ∀ (env : WriteEnv) (buf : ℕ → UInt8) (count : UInt32)
    (admins : TaskAdmins), ∀ a ∈ (deviceWrite env buf count admins).1, a.InRange count.toNat := by
  intro h
  have hmem : Access.message 8 ∈ (deviceWrite ⟨fun _ => 0, ⟨drvPfs, ⟨⟨[], []⟩,
      ⟨true, fun _ _ => 0, fun _ _ => 0, 0⟩, fun _ _ => 0, ⟨0, 0, 0, 0, 0⟩,
      ⟨none, fun _ => none, 0⟩⟩, fun _ => ⟨true, fun _ _ => 0, fun _ _ => 0, 0⟩, ⟨[], []⟩,
      ⟨[], []⟩⟩⟩ (fun n => [0x30, 0x10, 0, 0, 0, 1].getD n 0) 6
      ⟨createTaskAdmin 16 32 [], createTaskAdmin 48 64 []⟩).1 := by
    decide +kernel
  exact absurd (h _ _ _ _ _ hmem) (show ¬ 8 < 6 by decide)

end HpiDriver
