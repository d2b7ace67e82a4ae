import HpiDriver.ProtoAnalyzer.Lifetime
import HpiDriver.Session
import HpiDriver.TaskAdmin.Lifetime

/-!
# What the driver holds

The blocks of the task admins and the analyzers of the driver, from the creation of its two task
admins, through any session of well-formed writes, to their destruction. A write makes one analyzer
or two, and nobody destroys them: no block that is asked for on behalf of an analyzer is ever given
back for good, apart from a field buffer that makes way for a larger one. The destruction of the
admins leaves all of them behind, next to what it leaves of the admins (`driverLife_books`).

What `plat_probe` makes beside the admins is not in these books: `plat_remove` frees its `pdev_priv`
and leaves its allocator and its set of protocol formats.
-/

namespace HpiDriver

open Ledger Simulation

/-! ## Frames -/

/-- What `parseFrame` asks for. -/
def frameEvents (env : Env) (num₀ num₁ : UInt8) (bytes : List UInt8) (len : UInt16)
    (pa : ProtocolAnalyzer) : List (Event PaBlock) :=
  match arrayStore pa.protocolData 0 num₀ >>= (arrayStore · 1 num₁) >>= (memcpyTo · 2 bytes) with
  | none => []
  | some dp => parseEvents env { pa with protocolData := dp, protocolDataLen := len }

section Renews

variable {env : Env} {pa : ProtocolAnalyzer}

theorem renews_getBufEvents (a : Addr) (f : ProtoInfo) : Renews (getBufEvents a f) := by
  rw [getBufEvents]
  split
  · exact .alloc _ .nil
  · split_ifs
    · exact .nil
    · exact .renew _ .nil

theorem renews_fieldEvents (a : Addr) (f : ProtoInfo) : Renews (fieldEvents a f) := by
  rw [fieldEvents]
  split_ifs
  · exact .nil
  · exact renews_getBufEvents a f
  · exact .nil

theorem renews_parseLoopEvents (rest : List Addr) : Renews (parseLoopEvents env rest pa) := by
  induction rest generalizing pa with
  | nil => exact .nil
  | cons pos rest ih =>
    rw [parseLoopEvents]
    split
    · exact .nil
    · refine (renews_fieldEvents _ _).append ?_
      split
      · exact .nil
      · exact ih

theorem renews_parseEvents : Renews (parseEvents env pa) := by
  unfold parseEvents
  split
  · exact .nil
  · split_ifs
    · exact .nil
    · exact renews_parseLoopEvents _

theorem renews_frameEvents {num₀ num₁ : UInt8} {bytes : List UInt8} {len : UInt16} :
    Renews (frameEvents env num₀ num₁ bytes len pa) := by
  unfold frameEvents
  split
  · exact .nil
  · exact renews_parseEvents

end Renews

section Frames

variable {specs : List FieldSpec} {i : Init specs} {pa pa' : ProtocolAnalyzer} {env : Env}

/-- The blocks of the initialisation name no buffer. -/
theorem buf_notMem_initBlocks (infos nodes : List Addr) (a : Addr) :
    .buf a ∉ initBlocks infos nodes := by
  simp [initBlocks]

/-- A new analyzer holds the blocks of its initialisation. -/
theorem Init.held_analyzer (i : Init specs) (L : List PaBlock) :
    i.analyzer.held L = {b | b ∈ L} := by
  ext b
  simp [ProtocolAnalyzer.held, i.buf_analyzer]

/-- The books of the initialisation. -/
theorem Init.books_init (i : Init specs) :
    Books ∅ ((initBlocks i.infos i.nodes).map .alloc)
      (i.analyzer.held (initBlocks i.infos i.nodes)) := by
  rw [i.held_analyzer]
  exact (Books.allocs (nodup_initBlocks i.nodup_infos i.nodup_nodes) (by simp)).cast (by simp)

/-- The books of a parsing run. -/
theorem books_parse {r : ℤ} (hk : i.analyzer.Keeps pa)
    (h : paParseProtocolData env pa = some (r, pa')) :
    Books (pa.held (initBlocks i.infos i.nodes)) (parseEvents env pa)
      (pa'.held (initBlocks i.infos i.nodes)) :=
  (i.moves_run (c := .parse env) (buf_notMem_initBlocks _ _) hk
    (by rw [AnalyzerCall.run, h]; rfl)).books

/-- **The books of a frame.** -/
theorem books_parseFrame {num₀ num₁ : UInt8} {bytes : List UInt8} {len : UInt16}
    (hk : i.analyzer.Keeps pa) (h : parseFrame env num₀ num₁ bytes len pa = some pa') :
    Books (pa.held (initBlocks i.infos i.nodes)) (frameEvents env num₀ num₁ bytes len pa)
        (pa'.held (initBlocks i.infos i.nodes)) ∧
      i.analyzer.Keeps pa' := by
  simp only [parseFrame, Option.bind_eq_bind] at h
  obtain ⟨dp₀, h₀, h⟩ := Option.bind_eq_some_iff.1 h
  obtain ⟨dp₁, h₁, h⟩ := Option.bind_eq_some_iff.1 h
  obtain ⟨dp, h₂, h⟩ := Option.bind_eq_some_iff.1 h
  obtain ⟨r, hparse, h⟩ := Option.bind_eq_some_iff.1 h
  have hcalls : afterCalls [.receive dp len, .parse env, .reset] pa = some pa' := by
    simp only [afterCalls, List.foldlM_cons, List.foldlM_nil, AnalyzerCall.run,
      Option.bind_eq_bind, Option.bind_some, hparse, Option.map_some]
    exact h
  have hmoves := i.moves_afterCalls (buf_notMem_initBlocks i.infos i.nodes) hk hcalls
  have hevents : historyEvents [.receive dp len, .parse env, .reset] pa =
      frameEvents env num₀ num₁ bytes len pa := by
    simp [historyEvents, AnalyzerCall.events, AnalyzerCall.run, frameEvents, h₀, h₁, h₂, hparse]
  rw [hevents] at hmoves
  exact ⟨hmoves.books, hk.trans (keeps_afterCalls hcalls)⟩

end Frames

/-! ## Commands -/

/-- What `do_command_0x3008` asks for on behalf of its analyzer. -/
def events3008 (env : TaskEnv) (pfs : ProtocolFormatSet) (data : ℕ → UInt8) (len : UInt32) :
    List (Event PaBlock) :=
  (initBlocks env.blocks.infos env.blocks.nodes).map .alloc ++
    match newAnalyzer 0x3008 pfs env.blocks with
    | none => []
    | some pa =>
      match memcpyTo pa.protocolData 0 (messageBytes data 0 len.toNat) with
      | none => []
      | some dp =>
        parseEvents env.parse { pa with protocolData := dp, protocolDataLen := len.toUInt16 }

/-- What an iteration of `do_command_0x3010` asks for. -/
def iterationEvents3010 (env : Env) (data : ℕ → UInt8) (st : Framing ProtocolAnalyzer) :
    List (Event PaBlock) :=
  let periDataLen := (data (st.os.toNat + 2)).toUInt16
  match st.state with
  | none => []
  | some pa =>
    frameEvents env 0x30 0x54 (messageBytes data st.os.toNat (periDataLen.toNat + 3))
      (periDataLen + 3 + 2) pa

/-- What `do_command_0x3010` asks for. -/
def events3010 (env : ℕ → Env) (pfs : ProtocolFormatSet) (b : AnalyzerBlocks) (data : ℕ → UInt8) :
    List (Event PaBlock) :=
  (initBlocks b.infos b.nodes).map .alloc ++
    (List.range (data 5).toNat).flatMap fun k =>
      iterationEvents3010 (env k) data (Framing.run (iteration3010 env data) k (start3010 pfs b))

/-- What an iteration of `do_command_0x301b` asks for, on behalf of the first analyzer or of the
second. -/
def iterationEvents301b (env : Env) (data : ℕ → UInt8) (st : Framing PduAnalyzers) :
    List (Event (Bool × PaBlock)) :=
  let os := st.os.toNat
  let pduLen := (data os).toUInt16
  let bytes := messageBytes data os pduLen.toNat
  match st.state with
  | none => []
  | some pas =>
    if data (os + 1) = 0 then
      (frameEvents env 0x30 0x50 bytes (pduLen + 2) pas.pa50).map (Event.map (Prod.mk false))
    else
      (frameEvents env 0x30 0x52 bytes (pduLen + 2) pas.pa52).map (Event.map (Prod.mk true))

/-- What `do_command_0x301b` asks for. -/
def events301b (env : ℕ → Env) (pfs : ProtocolFormatSet) (b50 b52 : AnalyzerBlocks)
    (data : ℕ → UInt8) : List (Event (Bool × PaBlock)) :=
  ((initBlocks b50.infos b50.nodes).map .alloc).map (Event.map (Prod.mk false)) ++
    ((initBlocks b52.infos b52.nodes).map .alloc).map (Event.map (Prod.mk true)) ++
    (List.range (data 4).toNat).flatMap fun k =>
      iterationEvents301b (env k) data
        (Framing.run (iteration301b env data) k (start301b pfs b50 b52))

/-- What `process_protocol` asks for on behalf of its analyzers. -/
def processEvents (env : ProcessEnv) (command : UInt16) (data : ℕ → UInt8) (len : UInt32) :
    List (Event (Bool × PaBlock)) :=
  if command = 0x3008 then
    (events3008 env.task env.pfs data len).map (Event.map (Prod.mk false))
  else if command = 0x3010 then
    (events3010 env.frame env.pfs env.blocks data).map (Event.map (Prod.mk false))
  else if command = 0x301b then events301b env.frame env.pfs env.blocks env.blocks' data
  else []

/-- What a write asks for on behalf of its analyzers. -/
def Write.analyzerEvents (w : Write) : List (Event (Bool × PaBlock)) :=
  processEvents w.env.process (commandOf w.data) w.data w.count

/-- The blocks that a write asks for on behalf of its analyzers. -/
def Write.analyzerBlocks (w : Write) : Set (Bool × PaBlock) := {p | .alloc p ∈ w.analyzerEvents}

section Renews

theorem renews_events3008 (env : TaskEnv) (pfs : ProtocolFormatSet) (data : ℕ → UInt8)
    (len : UInt32) : Renews (events3008 env pfs data len) := by
  refine (Renews.allocs _).append ?_
  split
  · exact .nil
  · split
    · exact .nil
    · exact renews_parseEvents

theorem renews_events3010 (env : ℕ → Env) (pfs : ProtocolFormatSet) (b : AnalyzerBlocks)
    (data : ℕ → UInt8) : Renews (events3010 env pfs b data) := by
  refine (Renews.allocs _).append (Renews.flatMap (fun k => ?_) _)
  unfold iterationEvents3010
  split
  · exact .nil
  · exact renews_frameEvents

theorem renews_events301b (env : ℕ → Env) (pfs : ProtocolFormatSet) (b50 b52 : AnalyzerBlocks)
    (data : ℕ → UInt8) : Renews (events301b env pfs b50 b52 data) := by
  refine (((Renews.allocs _).map _).append ((Renews.allocs _).map _)).append
    (Renews.flatMap (fun k => ?_) _)
  unfold iterationEvents301b
  dsimp only
  split
  · exact .nil
  · split_ifs
    · exact renews_frameEvents.map _
    · exact renews_frameEvents.map _

/-- **A write gives back no block of an analyzer for good.** -/
theorem Write.renews_analyzerEvents (w : Write) : Renews w.analyzerEvents := by
  unfold analyzerEvents processEvents
  split_ifs
  · exact (renews_events3008 _ _ _ _).map _
  · exact (renews_events3010 _ _ _ _).map _
  · exact renews_events301b _ _ _ _ _
  · exact .nil

end Renews

/-! ## The books of a write -/

/-- The books of `do_command_0x3008`. -/
theorem books_doCommand0x3008 {i : Init specs3008} (hnum : i.num = 0x3008) {env : TaskEnv}
    (hblocks : env.blocks = ⟨i.infos, i.nodes⟩) {data : ℕ → UInt8} {len : UInt32}
    {admins admins' : TaskAdmins} (h : doCommand0x3008 env i.pfs data len admins = some admins') :
    ∃ H, Books ∅ (events3008 env i.pfs data len) H := by
  obtain ⟨pa, hpa, h⟩ := Option.bind_eq_some_iff.1 h
  obtain ⟨dp, hdp, h⟩ := Option.bind_eq_some_iff.1 h
  obtain ⟨⟨r, pa'⟩, hparse, -⟩ := Option.bind_eq_some_iff.1 h
  have hnew : newAnalyzer 0x3008 i.pfs env.blocks = some i.analyzer := by
    rw [hblocks, newAnalyzer, ← hnum]
    exact i.paInitProtocolAnalyzer_eq
  obtain rfl := Option.some.inj (hnew.symm.trans hpa)
  refine ⟨pa'.held (initBlocks i.infos i.nodes), ?_⟩
  have hkeeps : i.analyzer.Keeps { i.analyzer with
      protocolData := dp, protocolDataLen := len.toUInt16 } := ⟨rfl, rfl, fun _ h => h⟩
  rw [events3008, hnew, hblocks]
  simp only [hdp]
  exact i.books_init.append (books_parse hkeeps hparse)

section Loops

variable {env : ℕ → Env} {data : ℕ → UInt8}

/-- The books of the loop of `do_command_0x3010`. -/
theorem books_run3010 {i : Init specs3054} (hnum : i.num = 0x3054) {n : ℕ} {pa : ProtocolAnalyzer}
    (h : (Framing.run (iteration3010 env data) n (start3010 i.pfs ⟨i.infos, i.nodes⟩)).state =
      some pa) :
    Books ∅ ((initBlocks i.infos i.nodes).map .alloc ++ (List.range n).flatMap fun k =>
        iterationEvents3010 (env k) data
          (Framing.run (iteration3010 env data) k (start3010 i.pfs ⟨i.infos, i.nodes⟩)))
        (pa.held (initBlocks i.infos i.nodes)) ∧
      i.analyzer.Keeps pa := by
  induction n generalizing pa with
  | zero =>
    rw [Framing.run_zero, start3010, newAnalyzer, ← hnum, i.paInitProtocolAnalyzer_eq] at h
    obtain rfl := Option.some.inj h
    rw [List.range_zero, List.flatMap_nil, List.append_nil]
    exact ⟨i.books_init, .rfl⟩
  | succ n ih =>
    rw [Framing.run_succ] at h
    obtain ⟨pa₁, hstate, hparse⟩ := Option.bind_eq_some_iff.1 h
    obtain ⟨hbooks, hkeeps⟩ := ih hstate
    obtain ⟨hframe, hkeeps'⟩ := books_parseFrame hkeeps hparse
    refine ⟨?_, hkeeps'⟩
    rw [List.range_succ, List.flatMap_append, List.flatMap_singleton, ← List.append_assoc]
    apply hbooks.append
    rw [iterationEvents3010, hstate]
    exact hframe

/-- The blocks of the two analyzers of `do_command_0x301b`. -/
def PduAnalyzers.held (L50 L52 : List PaBlock) (pas : PduAnalyzers) : Set (Bool × PaBlock) :=
  Prod.mk true '' pas.pa52.held L52 ∪ Prod.mk false '' pas.pa50.held L50

theorem notMem_image_mk {b b' : Bool} (hne : b ≠ b') (H : Set PaBlock) (x : PaBlock) :
    (b, x) ∉ Prod.mk b' '' H := by
  rintro ⟨y, -, h⟩
  exact hne (congrArg Prod.fst h).symm

theorem mk_injective (b : Bool) : Function.Injective (Prod.mk b : PaBlock → Bool × PaBlock) :=
  fun _ _ h => congrArg Prod.snd h

/-- The books of the loop of `do_command_0x301b`. -/
theorem books_run301b {i50 : Init specs3050} {i52 : Init specs3052} {pfs : ProtocolFormatSet}
    (hpfs50 : pfs = i50.pfs) (hpfs52 : pfs = i52.pfs) (hnum50 : i50.num = 0x3050)
    (hnum52 : i52.num = 0x3052) {n : ℕ} {pas : PduAnalyzers}
    (h : (Framing.run (iteration301b env data) n
      (start301b pfs ⟨i50.infos, i50.nodes⟩ ⟨i52.infos, i52.nodes⟩)).state = some pas) :
    Books ∅ (((initBlocks i50.infos i50.nodes).map .alloc).map (Event.map (Prod.mk false)) ++
        ((initBlocks i52.infos i52.nodes).map .alloc).map (Event.map (Prod.mk true)) ++
        (List.range n).flatMap fun k => iterationEvents301b (env k) data
          (Framing.run (iteration301b env data) k
            (start301b pfs ⟨i50.infos, i50.nodes⟩ ⟨i52.infos, i52.nodes⟩)))
        (pas.held (initBlocks i50.infos i50.nodes) (initBlocks i52.infos i52.nodes)) ∧
      i50.analyzer.Keeps pas.pa50 ∧ i52.analyzer.Keeps pas.pa52 := by
  induction n generalizing pas with
  | zero =>
    have h50 : newAnalyzer 0x3050 pfs ⟨i50.infos, i50.nodes⟩ = some i50.analyzer := by
      rw [hpfs50, newAnalyzer, ← hnum50]
      exact i50.paInitProtocolAnalyzer_eq
    have h52 : newAnalyzer 0x3052 pfs ⟨i52.infos, i52.nodes⟩ = some i52.analyzer := by
      rw [hpfs52, newAnalyzer, ← hnum52]
      exact i52.paInitProtocolAnalyzer_eq
    rw [Framing.run_zero, start301b, h50, h52] at h
    obtain rfl := Option.some.inj h
    rw [List.range_zero, List.flatMap_nil, List.append_nil]
    have hbooks50 := i50.books_init.map (mk_injective false) (K := ∅) fun _ h => h
    have hbooks52 := i52.books_init.map (mk_injective true)
      (K := Prod.mk false '' i50.analyzer.held (initBlocks i50.infos i50.nodes))
      (notMem_image_mk (by decide) _)
    simp only [Set.image_empty, Set.union_empty, Set.empty_union] at hbooks50 hbooks52
    exact ⟨(hbooks50.append hbooks52).cast (Set.union_comm _ _), .rfl, .rfl⟩
  | succ n ih =>
    rw [Framing.run_succ] at h
    obtain ⟨pas₁, hstate, h⟩ := Option.bind_eq_some_iff.1 h
    obtain ⟨hbooks, hkeeps50, hkeeps52⟩ := ih hstate
    rw [List.range_succ, List.flatMap_append, List.flatMap_singleton, ← List.append_assoc]
    rw [iterationEvents301b, hstate]
    dsimp only at h ⊢
    split_ifs at h ⊢ with hemb
    · obtain ⟨pa, hparse, h⟩ := Option.bind_eq_some_iff.1 h
      obtain rfl := Option.some.inj h
      obtain ⟨hframe, hkeeps⟩ := books_parseFrame hkeeps50 hparse
      refine ⟨hbooks.append ?_, hkeeps, hkeeps52⟩
      exact hframe.map (mk_injective false) (notMem_image_mk (by decide) _)
    · obtain ⟨pa, hparse, h⟩ := Option.bind_eq_some_iff.1 h
      obtain rfl := Option.some.inj h
      obtain ⟨hframe, hkeeps⟩ := books_parseFrame hkeeps52 hparse
      refine ⟨hbooks.append ?_, hkeeps50, hkeeps⟩
      rw [PduAnalyzers.held, PduAnalyzers.held, Set.union_comm, Set.union_comm (Prod.mk true '' _)]
      exact hframe.map (mk_injective true) (notMem_image_mk (by decide) _)

end Loops

section Writes

variable {admins admins' : TaskAdmins}

/-- A message asks for what its command needs. -/
theorem Delivery.analyzerEvents_eq (d : Delivery) (h2 : 2 ≤ d.message.length) :
    d.write.analyzerEvents =
      processEvents d.env.process d.command d.write.data d.write.count := by
  rw [Write.analyzerEvents, d.commandOf_data h2]
  rfl

theorem TaskWrite.books (w : TaskWrite) (h : w.write.run admins = some admins') :
    ∃ H, Books ∅ w.write.analyzerEvents H := by
  rw [w.toDelivery.run_eq w.two_le, w.command_eq, processProtocol, if_pos rfl, w.task_eq,
    w.pfs_eq] at h
  obtain ⟨H, hbooks⟩ := books_doCommand0x3008 w.call.num_eq rfl h
  rw [w.toDelivery.analyzerEvents_eq w.two_le, w.command_eq, processEvents, if_pos rfl, w.task_eq,
    w.pfs_eq]
  have hmap := hbooks.map (mk_injective false) (K := ∅) fun _ h => h
  rw [Set.image_empty, Set.union_empty] at hmap
  exact ⟨_, hmap⟩

theorem RecordsWrite.books (w : RecordsWrite) : ∃ H, Books ∅ w.write.analyzerEvents H := by
  have h6 := w.six_le
  have hcount : w.write.data 5 = w.hdr.getD 5 0 := by
    rw [w.inMemory_data 5 (by omega), w.message_eq, List.getD_append _ _ _ _ (by
      rw [w.length_hdr]; omega)]
  obtain ⟨-, pa, hstate, -⟩ := w.rested_run le_rfl
  rw [w.pfs_eq, w.blocks_eq] at hstate
  have hmap := (books_run3010 w.num_eq hstate).1.map (mk_injective false) (K := ∅) fun _ h => h
  rw [Set.image_empty, Set.union_empty] at hmap
  rw [w.toDelivery.analyzerEvents_eq (by omega), w.command_eq, processEvents, if_neg (by decide),
    if_pos rfl, events3010, hcount, w.count_eq, w.pfs_eq, w.blocks_eq]
  exact ⟨_, hmap⟩

theorem PdusWrite.books (w : PdusWrite) : ∃ H, Books ∅ w.write.analyzerEvents H := by
  have h5 := w.five_le
  have hcount : w.write.data 4 = w.hdr.getD 4 0 :=
    (w.inMemory_data 4 (by omega)).trans w.data_four
  obtain ⟨-, pas, hstate, -⟩ := w.rested_run le_rfl
  rw [w.blocks_eq, w.blocks'_eq] at hstate
  have hbooks := (books_run301b w.pfs50_eq w.pfs52_eq w.num50_eq w.num52_eq hstate).1
  rw [w.toDelivery.analyzerEvents_eq (by omega), w.command_eq, processEvents, if_neg (by decide),
    if_neg (by decide), if_pos rfl, events301b, hcount, w.count_eq, w.blocks_eq, w.blocks'_eq]
  exact ⟨_, hbooks⟩

theorem OtherWrite.books (w : OtherWrite) : ∃ H, Books ∅ w.write.analyzerEvents H := by
  obtain ⟨h₁, h₂, h₃⟩ := w.command_ne'
  rw [w.toDelivery.analyzerEvents_eq w.two_le, processEvents, if_neg h₁, if_neg h₂, if_neg h₃]
  exact ⟨_, .nil _⟩

/-- **The books of a write** that returns: it keeps every block that it asks for on behalf of its
analyzers. -/
theorem DeviceCall.books (c : DeviceCall) (h : c.delivery.write.run admins = some admins') :
    Books ∅ c.delivery.write.analyzerEvents c.delivery.write.analyzerBlocks := by
  have hbooks : ∃ H, Books ∅ c.delivery.write.analyzerEvents H := by
    cases c with
    | task w => exact w.books h
    | records w => exact w.books
    | pdus w => exact w.books
    | other w => exact w.books
  obtain ⟨H, hH⟩ := hbooks
  have hheld := c.delivery.write.renews_analyzerEvents.held_eq hH
  rw [Set.empty_union] at hheld
  exact hH.cast hheld

end Writes

/-! ## The books of a session -/

/-- A block of the driver: of the admin of the even slots or of the odd ones, or of an analyzer of
a write, the first or the second one. -/
inductive DriverBlock
  | admin (odd : Bool) (x : AdminBlock)
  | analyzer (write : ℕ) (second : Bool) (x : PaBlock)

/-- A block of an analyzer of the `k`-th write. -/
def DriverBlock.ofWrite (k : ℕ) (p : Bool × PaBlock) : DriverBlock := .analyzer k p.1 p.2

/-- What the `k`-th write asks for: blocks for its analyzers and a node for its task. -/
def DeviceCall.events (k : ℕ) (c : DeviceCall) (b : Board × Board) : List (Event DriverBlock) :=
  c.delivery.write.analyzerEvents.map (Event.map (.ofWrite k)) ++
    match c.posted with
    | none => []
    | some t =>
      ((AdminCall.add t.env.add t.made TASK_FLAG_SND).events (if t.odd then b.2 else b.1)).map
        (Event.map (.admin t.odd))

/-- What a session asks for, the first write of which is the `k`-th one. -/
def sessionEvents : ℕ → List DeviceCall → Board × Board → List (Event DriverBlock)
  | _, [], _ => []
  | k, c :: calls, b => c.events k b ++ sessionEvents (k + 1) calls (c.apply b)

/-- The blocks that a session asks for on behalf of its analyzers. -/
def analyzersOf : ℕ → List DeviceCall → Set DriverBlock
  | _, [] => ∅
  | k, c :: calls =>
    DriverBlock.ofWrite k '' c.delivery.write.analyzerBlocks ∪ analyzersOf (k + 1) calls

/-- The blocks of the two admins. -/
def adminsHeld (b : Board × Board) : Set DriverBlock :=
  DriverBlock.admin false '' b.1.held ∪ DriverBlock.admin true '' b.2.held

/-- These are blocks of analyzers of the first `k` writes. -/
def OfWrites (k : ℕ) (K : Set DriverBlock) : Prop :=
  ∀ x ∈ K, ∃ j < k, ∃ second y, x = .analyzer j second y

section Session

variable {k : ℕ} {K : Set DriverBlock} {b : Board × Board} {odd : Bool} {x : AdminBlock}

theorem ofWrite_injective (k : ℕ) : Function.Injective (DriverBlock.ofWrite k) := fun _ _ h =>
  Prod.ext (DriverBlock.analyzer.inj h).2.1 (DriverBlock.analyzer.inj h).2.2

theorem admin_injective (odd : Bool) : Function.Injective (DriverBlock.admin odd) := fun _ _ h =>
  (DriverBlock.admin.inj h).2

theorem ofWrite_notMem_adminsHeld (p : Bool × PaBlock) : .ofWrite k p ∉ adminsHeld b := by
  rintro (⟨_, -, h⟩ | ⟨_, -, h⟩) <;> cases h

theorem OfWrites.ofWrite_notMem (hK : OfWrites k K) (p : Bool × PaBlock) : .ofWrite k p ∉ K := by
  intro h
  obtain ⟨j, hj, second, y, heq⟩ := hK _ h
  exact hj.ne (DriverBlock.analyzer.inj heq).1.symm

theorem OfWrites.admin_notMem (hK : OfWrites k K) : .admin odd x ∉ K := by
  intro h
  obtain ⟨j, -, second, y, heq⟩ := hK _ h
  cases heq

theorem admin_notMem_image {odd' : Bool} (hne : odd ≠ odd') (H : Set AdminBlock) :
    .admin odd x ∉ DriverBlock.admin odd' '' H := by
  rintro ⟨y, -, h⟩
  exact hne (DriverBlock.admin.inj h).1.symm

/-- The blocks of the analyzers of one write more. -/
theorem OfWrites.succ (hK : OfWrites k K) (H : Set (Bool × PaBlock)) :
    OfWrites (k + 1) (K ∪ DriverBlock.ofWrite k '' H) := by
  rintro x (hx | ⟨p, -, rfl⟩)
  · obtain ⟨j, hj, hx⟩ := hK x hx
    exact ⟨j, Nat.lt_succ_of_lt hj, hx⟩
  · exact ⟨k, k.lt_succ_self, p.1, p.2, rfl⟩

theorem union_adminsHeld : K ∪ adminsHeld b =
    K ∪ DriverBlock.admin true '' b.2.held ∪ DriverBlock.admin false '' b.1.held := by
  rw [adminsHeld, Set.union_comm (DriverBlock.admin false '' _), Set.union_assoc]

/-- **A write keeps the books.** -/
theorem DeviceCall.books_events (hK : OfWrites k K) (c : DeviceCall) {admins : TaskAdmins}
    (h : admins.Shows b) (hok : c.Allowed b) :
    Books (K ∪ adminsHeld b) (c.events k b)
      (K ∪ DriverBlock.ofWrite k '' c.delivery.write.analyzerBlocks ∪ adminsHeld (c.apply b)) := by
  obtain ⟨admins', hrun, -⟩ := deviceCalls_simulates c admins b h hok
  have hanalyzers := (c.books hrun).map (ofWrite_injective k) (K := K ∪ adminsHeld b) fun p hp =>
    hp.elim (hK.ofWrite_notMem p) (ofWrite_notMem_adminsHeld p)
  rw [Set.image_empty, Set.union_empty, Set.union_right_comm] at hanalyzers
  have hK' := hK.succ c.delivery.write.analyzerBlocks
  refine hanalyzers.append ?_
  unfold apply
  cases hposted : c.posted with
  | none => exact .nil _
  | some t =>
    obtain ⟨hnode, hread⟩ := hok t hposted
    dsimp only
    -- the node goes to one admin, and the other one keeps what it has
    cases hodd : t.odd with
    | false =>
      rw [hodd] at hnode
      have hadd := AdminCall.books (c := .add t.env.add t.made TASK_FLAG_SND)
        (TaskCall.addOk hnode hread)
      simp only [Bool.false_eq_true, if_false]
      rw [union_adminsHeld, union_adminsHeld]
      refine hadd.map (admin_injective false) fun x hx => ?_
      exact hx.elim hK'.admin_notMem (admin_notMem_image (by decide) _)
    | true =>
      rw [hodd] at hnode
      have hadd := AdminCall.books (c := .add t.env.add t.made TASK_FLAG_SND)
        (TaskCall.addOk hnode hread)
      simp only [if_true, adminsHeld, ← Set.union_assoc]
      refine hadd.map (admin_injective true) fun x hx => ?_
      exact hx.elim hK'.admin_notMem (admin_notMem_image (by decide) _)

/-- **A session keeps the books**: it keeps every block that it asks for on behalf of its
analyzers. -/
theorem books_sessionEvents (hK : OfWrites k K) {calls : List DeviceCall} {admins : TaskAdmins}
    (h : admins.Shows b) (hok : deviceCalls.Admissible calls b) :
    Books (K ∪ adminsHeld b) (sessionEvents k calls b)
      (K ∪ analyzersOf k calls ∪ adminsHeld (deviceCalls.after calls b)) := by
  induction calls generalizing k K admins b with
  | nil =>
    rw [analyzersOf, Set.union_empty]
    exact .nil _
  | cons c calls ih =>
    obtain ⟨hc, hok⟩ := hok
    obtain ⟨admins₁, -, h₁⟩ := deviceCalls_simulates c admins b h hc
    have hrest := ih (hK.succ c.delivery.write.analyzerBlocks) h₁ hok
    rw [analyzersOf, ← Set.union_assoc]
    exact (c.books_events hK h hc).append hrest

/-- The nodes of the admins stay apart. -/
theorem nodup_apply {c : DeviceCall} (hok : c.Allowed b)
    (hnd : b.1.nodes.Nodup ∧ b.2.nodes.Nodup) :
    (c.apply b).1.nodes.Nodup ∧ (c.apply b).2.nodes.Nodup := by
  unfold DeviceCall.apply
  cases hposted : c.posted with
  | none => exact hnd
  | some t =>
    obtain ⟨hnode, hread⟩ := hok t hposted
    dsimp only
    split_ifs with hodd
    · rw [if_pos hodd] at hnode
      exact ⟨hnd.1, AdminCall.nodup (c := .add t.env.add t.made TASK_FLAG_SND)
        (TaskCall.addOk hnode hread)
        hnd.2⟩
    · rw [if_neg hodd] at hnode
      exact ⟨AdminCall.nodup (c := .add t.env.add t.made TASK_FLAG_SND)
        (TaskCall.addOk hnode hread) hnd.1,
        hnd.2⟩

theorem admin_notMem_analyzersOf {calls : List DeviceCall} :
    .admin odd x ∉ analyzersOf k calls := by
  induction calls generalizing k with
  | nil => exact fun h => h
  | cons c calls ih =>
    rintro (⟨_, -, h⟩ | h)
    · cases h
    · exact ih h

end Session

/-! ## The whole life -/

/-- What `plat_probe` asks for with its two calls of `create_task_admin`. -/
def probeEvents (head₁ voice₁ head₂ voice₂ : Addr) : List (Event DriverBlock) :=
  ((createBlocks head₁ voice₁).map .alloc).map (Event.map (.admin false)) ++
    ((createBlocks head₂ voice₂).map .alloc).map (Event.map (.admin true))

/-- What `plat_remove` frees with its two calls of `destroy_task_admin`. -/
def removeAdmins (fuel : ℕ) (admins : TaskAdmins) : Option (List DriverBlock) := do
  let slot1 ← destroyTaskAdmin fuel admins.slot1
  let slot2 ← destroyTaskAdmin fuel admins.slot2
  some (slot1.map (.admin false) ++ slot2.map (.admin true))

/-- What the destruction of an admin forgets. -/
def forgotten : Set AdminBlock := {.pair} ∪ Set.range .container

section Life

variable {head₁ voice₁ head₂ voice₂ : Addr}

/-- The books of the creation. -/
theorem books_probeEvents (hne₁ : head₁ ≠ voice₁) (hne₂ : head₂ ≠ voice₂) :
    Books ∅ (probeEvents head₁ voice₁ head₂ voice₂)
      (adminsHeld (.empty head₁ voice₁, .empty head₂ voice₂)) := by
  have h₁ := (books_createBlocks hne₁).map (admin_injective false) (K := ∅) fun _ h => h
  have h₂ := (books_createBlocks hne₂).map (admin_injective true)
    (K := DriverBlock.admin false '' (Board.empty head₁ voice₁).held)
    fun _ => admin_notMem_image (by decide) _
  simp only [Set.image_empty, Set.union_empty, Set.empty_union] at h₁ h₂
  exact h₁.append h₂

theorem length_nodes_taskBoard {dataHead voiceHead : Addr} (tasks : List TaskCall) :
    (taskBoard dataHead voiceHead tasks).nodes.length = tasks.length + 2 := by
  have hsplit := List.length_eq_length_filter_add (l := tasks) TaskCall.sys
  simp only [taskBoard, Board.nodes, List.length_cons, List.length_append, List.length_map,
    List.length_reverse, List.length_nil]
  omega

/-- The books of the destruction, when nothing has been fetched. -/
theorem books_removeAdmins {b : Board × Board} {K : Set DriverBlock}
    (hK : ∀ {odd x}, .admin odd x ∉ K) {admins : TaskAdmins} (h : admins.Shows b)
    (hnd : b.1.nodes.Nodup ∧ b.2.nodes.Nodup)
    (hfetched : b.1.fetched = [] ∧ b.2.fetched = []) :
    ∃ freed, (∀ fuel, b.1.nodes.length ≤ fuel → b.2.nodes.length ≤ fuel →
        removeAdmins fuel admins = some freed) ∧
      Books (K ∪ adminsHeld b) (freed.map .free)
        (K ∪ (DriverBlock.admin false '' forgotten ∪ DriverBlock.admin true '' forgotten)) := by
  obtain ⟨voice₁, data₁, hvoice₁, hdata₁, hdestroy₁⟩ := h.slot1.destroy
  obtain ⟨voice₂, data₂, hvoice₂, hdata₂, hdestroy₂⟩ := h.slot2.destroy
  refine ⟨(b.1.freed voice₁ data₁).map (.admin false) ++ (b.2.freed voice₂ data₂).map (.admin true),
    fun fuel h₁ h₂ => ?_, ?_⟩
  · rw [removeAdmins, hdestroy₁ fuel h₁, hdestroy₂ fuel h₂]
    rfl
  · have hbooks₁ := Board.books_freed hnd.1 hvoice₁ hdata₁
    have hbooks₂ := Board.books_freed hnd.2 hvoice₂ hdata₂
    simp only [hfetched, List.not_mem_nil, false_and, exists_false, Set.ofPred_false,
      Set.union_empty] at hbooks₁ hbooks₂
    rw [List.map_append, Event.map_frees, Event.map_frees, union_adminsHeld, ← Set.union_assoc]
    refine Books.append (hbooks₁.map (admin_injective false) fun x hx => ?_) ?_
    · exact hx.elim hK (admin_notMem_image (by decide) _)
    · rw [Set.union_right_comm]
      refine hbooks₂.map (admin_injective true) fun x hx => ?_
      exact hx.elim hK (admin_notMem_image (by decide) _)

/-- **The life of the admins and the analyzers.** From the creation of the two admins, through any
session of well-formed writes with new nodes for their tasks and keys that can be read, to the
destruction of the admins, the books are in order: no block is handed out twice at a time, and what
is freed is held. What is left are the pair and the structures of the containers of both admins, and
every block that the session has ever asked for on behalf of an analyzer. -/
theorem driverLife_books (calls : List DeviceCall)
    (hfresh : (head₁ :: voice₁ :: head₂ :: voice₂ ::
      (postedTasks calls).map TaskCall.node).Nodup)
    (hread : ∀ t ∈ postedTasks calls, t.KeyReadable) (uninit₁ uninit₂ : List UInt8) :
    ∃ admins freed,
      deviceCalls.run calls ⟨createTaskAdmin head₁ voice₁ uninit₁,
        createTaskAdmin head₂ voice₂ uninit₂⟩ = some admins ∧
      (∀ fuel, (postedTasks calls).length + 2 ≤ fuel → removeAdmins fuel admins = some freed) ∧
      Books ∅
        (probeEvents head₁ voice₁ head₂ voice₂ ++
          sessionEvents 0 calls (.empty head₁ voice₁, .empty head₂ voice₂) ++ freed.map .free)
        (analyzersOf 0 calls ∪
          (DriverBlock.admin false '' forgotten ∪ DriverBlock.admin true '' forgotten)) := by
  obtain ⟨hok, hafter⟩ := after_sessionBoards calls hfresh hread
  have hnew : TaskAdmins.Shows ⟨createTaskAdmin head₁ voice₁ uninit₁,
      createTaskAdmin head₂ voice₂ uninit₂⟩ (.empty head₁ voice₁, .empty head₂ voice₂) :=
    ⟨shows_createTaskAdmin head₁ voice₁ uninit₁, shows_createTaskAdmin head₂ voice₂ uninit₂⟩
  have hne : head₁ ≠ voice₁ ∧ head₂ ≠ voice₂ := by
    simp only [List.nodup_cons, List.mem_cons, not_or] at hfresh
    exact ⟨hfresh.1.1, hfresh.2.2.1.1⟩
  obtain ⟨admins, hrun, hshows⟩ := deviceCalls_simulates.run hnew hok
  have hnd := Refinement.invariant (S := deviceCalls)
    (P := fun b => b.1.nodes.Nodup ∧ b.2.nodes.Nodup) (fun _ _ hnd hc => nodup_apply hc hnd)
    (by simp [Board.empty, Board.nodes, hne]) hok
  have hsession := books_sessionEvents (k := 0) (K := ∅) (fun _ h => h.elim) hnew hok
  rw [hafter] at hshows hnd hsession
  simp only [Set.empty_union] at hsession
  obtain ⟨freed, hremove, hbooks⟩ :=
    books_removeAdmins admin_notMem_analyzersOf hshows hnd ⟨rfl, rfl⟩
  have hlength : ∀ {head voice : Addr} {p : TaskCall → Bool},
      (taskBoard head voice ((postedTasks calls).filter p)).nodes.length ≤
        (postedTasks calls).length + 2 := by
    intro head voice p
    rw [length_nodes_taskBoard]
    exact Nat.add_le_add_right (List.length_filter_le p _) 2
  exact ⟨admins, freed, hrun, fun fuel hf => hremove fuel (hlength.trans hf) (hlength.trans hf),
    ((books_probeEvents hne.1 hne.2).append hsession).append hbooks⟩

end Life

/-- The addresses of the blocks that a write is given for its analyzers and for its task. -/
def DeviceCall.addresses : DeviceCall → List Addr
  | .task w => w.call.node :: (w.call.init.infos ++ w.call.init.nodes)
  | .records w => w.init.infos ++ w.init.nodes
  | .pdus w => w.i50.infos ++ w.i50.nodes ++ (w.i52.infos ++ w.i52.nodes)
  | .other _ => []

-- the four writes are given blocks of their own, none of them a head of a list
example : (9216 :: 9248 :: 9280 :: 9312 :: fourWrites.flatMap DeviceCall.addresses).Nodup := by
  decide +kernel

/-- The four writes make five analyzers. -/
theorem driverLife_books_fourWrites :
    ∃ admins freed,
      deviceCalls.run fourWrites ⟨createTaskAdmin 9216 9248 [],
        createTaskAdmin 9280 9312 []⟩ = some admins ∧
      (∀ fuel, 4 ≤ fuel → removeAdmins fuel admins = some freed) ∧
      Books ∅
        (probeEvents 9216 9248 9280 9312 ++
          sessionEvents 0 fourWrites (.empty 9216 9248, .empty 9280 9312) ++ freed.map .free)
        (analyzersOf 0 fourWrites ∪
          (DriverBlock.admin false '' forgotten ∪ DriverBlock.admin true '' forgotten)) :=
  driverLife_books fourWrites (by decide) keyReadable_fourWrites [] []

end HpiDriver
