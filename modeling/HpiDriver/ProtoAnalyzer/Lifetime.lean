import HpiDriver.DataStructure.HashListDestroy
import HpiDriver.Foundations.Ledger
import HpiDriver.ProtoAnalyzer.FieldBuffers
import HpiDriver.ProtoAnalyzer.Release

/-!
# The life of an analyzer

The blocks that an analyzer asks for between `pa_create_protocol_analyzer` and
`pa_destroy_protocol_analyzer`, and what becomes of them. Initialisation asks for the analyzer, a
copy of every field of the format with a head, the `pair` that the records of the hash table are put
together in, and the table; calls ask for the buffers of fields. The books of a whole life are in
order (`paDestroyProtocolAnalyzer_books`): nothing is freed twice, no buffer is lost when it is
replaced. What is never freed is the `pair`, the `hash_map_t`, and a buffer whose recorded length,
of 16 bits, is 0.
-/

namespace HpiDriver

open Ledger

/-- A block of an analyzer, by what it is for. -/
inductive PaBlock
  | pa
  | headList
  | pair
  | hmap
  | hlist
  | info (a : Addr)
  | buf (a : Addr)
  | node (a : Addr)
  deriving DecidableEq

/-! ## The requests -/

/-- What `pa_create_protocol_analyzer` and `pa_init_protocol_analyzer` allocate: the analyzer, in
`pa_copy_protocol_format` the head and the fields, in `pa_create_hash_table` the pair, the table and
its nodes. -/
def initBlocks (infos nodes : List Addr) : List PaBlock :=
  .pa :: .headList :: infos.map .info ++ .pair :: .hmap :: .hlist :: nodes.map .node

/-- What `pa_set_buf` does about the buffer of the field it has found. -/
def setBufEvents (a : Addr) (data : List UInt8) (f : ProtoInfo) : List (Event PaBlock) :=
  match f.buf.dataP with
  | none => [.alloc (.buf a)]
  | some _ => if data.length ≤ f.buf.len.toNat then [] else [.free (.buf a), .alloc (.buf a)]

/-- The requests of a call of `pa_set_buf`. -/
def paSetBufEvents (key data : List UInt8) (uninit : ℕ → UInt8) (pa : ProtocolAnalyzer) :
    List (Event PaBlock) :=
  match paFindKey key uninit pa with
  | some (some a) => setBufEvents a data (pa.info a)
  | _ => []

/-- What `pa_get_protocol_buf` does about the buffer of its field. -/
def getBufEvents (a : Addr) (f : ProtoInfo) : List (Event PaBlock) :=
  match f.buf.dataP with
  | none => [.alloc (.buf a)]
  | some _ => if f.len ≤ f.buf.len then [] else [.free (.buf a), .alloc (.buf a)]

/-- The requests of reading a field. -/
def fieldEvents (a : Addr) (f : ProtoInfo) : List (Event PaBlock) :=
  if f.lenUnit = 8 then if f.len ≤ 4 then [] else getBufEvents a f else []

/-- The requests of the loop of `pa_parse_protocol_data`. -/
def parseLoopEvents (env : Env) : List Addr → ProtocolAnalyzer → List (Event PaBlock)
  | [], _ => []
  | pos :: rest, pa =>
    match paResolveLength env pos rest pa with
    | none => []
    | some pa =>
      fieldEvents pos (pa.info pos) ++
        match paGetProtocolField env (pa.info pos) pa.protocolData with
        | none => []
        | some f => parseLoopEvents env rest (pa.modify pos fun _ => f)

/-- The requests of a call of `pa_parse_protocol_data`. -/
def parseEvents (env : Env) (pa : ProtocolAnalyzer) : List (Event PaBlock) :=
  match pa.paListHeadP with
  | none => []
  | some hl => if pa.protocolDataLen = 0 then [] else parseLoopEvents env hl pa

/-- The requests of a call; the other functions of the analyzer make none. -/
def AnalyzerCall.events : AnalyzerCall → ProtocolAnalyzer → List (Event PaBlock)
  | .setBuf key data uninit, pa => paSetBufEvents key data uninit pa
  | .parse env, pa => parseEvents env pa
  | _, _ => []

/-- The requests of a history of calls. -/
def historyEvents : List AnalyzerCall → ProtocolAnalyzer → List (Event PaBlock)
  | [], _ => []
  | c :: calls, pa =>
    c.events pa ++ match c.run pa with
      | none => []
      | some pa => historyEvents calls pa

/-- The name of a block that `pfs_del_list` frees for the field at `a`. -/
def FreedBlock.ofField (a : Addr) : FreedBlock → PaBlock
  | .buf _ => .buf a
  | .field _ => .info a
  | .head => .headList

/-- `pa_destroy_protocol_analyzer`: the blocks it frees, in order. `pfs_del_list_for_each` follows
the list and `hash_map_destroy` the table without a look at whether there is one. -/
def paDestroyProtocolAnalyzer (fuel : ℕ) (pa : ProtocolAnalyzer) : Option (List PaBlock) := do
  let hl ← pa.paListHeadP
  let fields := hl.flatMap fun a => (pfsDelList (pa.info a)).map (FreedBlock.ofField a)
  let hmap ← pa.hmap
  let table ← hashMapRelease .node .hlist fuel hmap
  some (fields ++ [.headList] ++ table ++ [.pa])

/-! ## The blocks that are held -/

section Held

variable {L : List PaBlock} {pa pa' : ProtocolAnalyzer} {f g : ProtoInfo} {a : Addr}
  {es : List (Event PaBlock)}

/-- The blocks `L` from the initialisation, and the buffers of the fields. -/
def ProtocolAnalyzer.held (L : List PaBlock) (pa : ProtocolAnalyzer) : Set PaBlock :=
  {b | b ∈ L ∨ ∃ a, b = .buf a ∧ (pa.info a).buf.dataP ≠ none}

/-- What an analyzer does about the buffer of a field that it turns from `f` into `g`. -/
inductive BufMove (a : Addr) (f g : ProtoInfo) : List (Event PaBlock) → Prop
  | same (h : g.buf = f.buf) : BufMove a f g []
  | reuse (hf : f.buf.dataP ≠ none) (hg : g.buf.dataP ≠ none) : BufMove a f g []
  | take (hf : f.buf.dataP = none) (hg : g.buf.dataP ≠ none) : BufMove a f g [.alloc (.buf a)]
  | renew (hf : f.buf.dataP ≠ none) (hg : g.buf.dataP ≠ none) :
    BufMove a f g [.free (.buf a), .alloc (.buf a)]

theorem held_congr (h : ∀ a, (pa'.info a).buf = (pa.info a).buf) : pa'.held L = pa.held L := by
  ext b
  simp only [ProtocolAnalyzer.held, Set.mem_ofPred_eq, ne_eq, h]

/-- The buffers after a field has changed. -/
theorem held_modify (hg : g.buf.dataP ≠ none) :
    (pa.modify a fun _ => g).held L = insert (.buf a) (pa.held L) := by
  ext b
  simp only [ProtocolAnalyzer.held, Set.mem_insert_iff, Set.mem_ofPred_eq]
  constructor
  · rintro (hb | ⟨c, rfl, hc⟩)
    · exact .inr (.inl hb)
    · by_cases hca : c = a
      · exact .inl (by rw [hca])
      · rw [pa.info_modify_of_ne hca] at hc
        exact .inr (.inr ⟨c, rfl, hc⟩)
  · rintro (rfl | hb | ⟨c, rfl, hc⟩)
    · exact .inr ⟨a, rfl, by rwa [pa.info_modify_self]⟩
    · exact .inl hb
    · refine .inr ⟨c, rfl, ?_⟩
      by_cases hca : c = a
      · rwa [hca, pa.info_modify_self]
      · rwa [pa.info_modify_of_ne hca]

/-- A move of a buffer keeps the books. -/
theorem BufMove.books (h : BufMove a (pa.info a) g es) (hL : .buf a ∉ L) :
    Books (pa.held L) es ((pa.modify a fun _ => g).held L) := by
  cases h with
  | same h =>
    apply (Books.nil _).cast
    apply (held_congr _).symm
    intro b
    by_cases hba : b = a
    · rw [hba, pa.info_modify_self, h]
    · rw [pa.info_modify_of_ne hba]
  | reuse hf hg =>
    have hin : .buf a ∈ pa.held L := .inr ⟨a, rfl, hf⟩
    rw [held_modify hg, Set.insert_eq_of_mem hin]
    exact .nil _
  | take hf hg =>
    rw [held_modify hg]
    apply Books.alloc_one
    rintro (hb | ⟨c, hc, hnone⟩)
    · exact hL hb
    · obtain rfl := PaBlock.buf.inj hc
      exact hnone hf
  | renew hf hg =>
    have hin : .buf a ∈ pa.held L := .inr ⟨a, rfl, hf⟩
    rw [held_modify hg, Set.insert_eq_of_mem hin]
    exact .renew hin

theorem bufMove_setBuf {data : List UInt8} (h : setBuf data f = some g) :
    BufMove a f g (setBufEvents a data f) := by
  obtain ⟨len, block, hg, -⟩ := setBuf_inv h
  have hsome : g.buf.dataP ≠ none := by simp [hg]
  unfold setBufEvents
  cases hb : f.buf.dataP with
  | none => exact .take hb hsome
  | some block' =>
    have hf : f.buf.dataP ≠ none := by simp [hb]
    dsimp only
    split_ifs
    · exact .reuse hf hsome
    · exact .renew hf hsome

theorem bufMove_paGetProtocolBuf {dp : List UInt8} (h : paGetProtocolBuf f dp = some g) :
    BufMove a f g (getBufEvents a f) := by
  obtain ⟨bs, block, -, hg, -⟩ := paGetProtocolBuf_inv h
  have hsome : g.buf.dataP ≠ none := by simp [hg]
  unfold getBufEvents
  cases hb : f.buf.dataP with
  | none => exact .take hb hsome
  | some block' =>
    have hf : f.buf.dataP ≠ none := by simp [hb]
    dsimp only
    split_ifs
    · exact .reuse hf hsome
    · exact .renew hf hsome

theorem bufMove_paGetProtocolField {env : Env} {dp : List UInt8}
    (h : paGetProtocolField env f dp = some g) : BufMove a f g (fieldEvents a f) := by
  unfold paGetProtocolField at h
  unfold fieldEvents
  split_ifs at h ⊢ with h8 h4 h1
  · simp only [paGetProtocolByteData, Option.bind_eq_bind] at h
    obtain ⟨data, -, hg⟩ := Option.bind_eq_some_iff.1 h
    obtain rfl := Option.some.inj hg
    exact .same rfl
  · exact bufMove_paGetProtocolBuf h
  · simp only [paGetProtocolBitData, Option.bind_eq_bind] at h
    obtain ⟨data, -, hg⟩ := Option.bind_eq_some_iff.1 h
    obtain rfl := Option.some.inj hg
    exact .same rfl
  · obtain rfl := Option.some.inj h
    exact .same rfl

end Held

/-! ## The calls -/

/-- Only the fields `hl` have buffers, and the recorded length of a buffer that is not there
is 0. -/
structure ProtocolAnalyzer.BufsOf (hl : List Addr) (pa : ProtocolAnalyzer) : Prop where
  owned : ∀ a, (pa.info a).buf.dataP ≠ none → a ∈ hl
  empty : ∀ a, (pa.info a).buf.dataP = none → (pa.info a).buf.len = 0

/-- From `pa` to `pa'` the books of the blocks are kept by the requests `es`, and buffers belong to
the fields `hl`. -/
structure Moves (L : List PaBlock) (hl : List Addr) (pa : ProtocolAnalyzer)
    (es : List (Event PaBlock)) (pa' : ProtocolAnalyzer) : Prop where
  books : Books (pa.held L) es (pa'.held L)
  bufsOf : pa.BufsOf hl → pa'.BufsOf hl

section Moves

variable {L : List PaBlock} {hl : List Addr} {pa pa' pa'' : ProtocolAnalyzer}
  {es es' : List (Event PaBlock)}

theorem Moves.trans (h : Moves L hl pa es pa') (h' : Moves L hl pa' es' pa'') :
    Moves L hl pa (es ++ es') pa'' :=
  ⟨h.books.append h'.books, fun hb => h'.bufsOf (h.bufsOf hb)⟩

theorem Moves.same (h : ∀ a, (pa'.info a).buf = (pa.info a).buf) : Moves L hl pa [] pa' where
  books := (Books.nil _).cast (held_congr h).symm
  bufsOf hb := ⟨fun a => by rw [h]; exact hb.owned a, fun a => by rw [h]; exact hb.empty a⟩

theorem Moves.modify {a : Addr} {g : ProtoInfo} (hL : .buf a ∉ L) (ha : a ∈ hl)
    (h : BufMove a (pa.info a) g es) : Moves L hl pa es (pa.modify a fun _ => g) where
  books := h.books hL
  bufsOf hb := by
    have hnone : g.buf.dataP = none → g.buf = (pa.info a).buf := by
      intro hg
      cases h with
      | same h => exact h
      | reuse _ hg' => exact absurd hg hg'
      | take _ hg' => exact absurd hg hg'
      | renew _ hg' => exact absurd hg hg'
    constructor
    · intro b hbuf
      by_cases hba : b = a
      · rwa [hba]
      · rw [pa.info_modify_of_ne hba] at hbuf
        exact hb.owned b hbuf
    · intro b hbuf
      by_cases hba : b = a
      · rw [hba, pa.info_modify_self] at hbuf ⊢
        have hsame := hnone hbuf
        rw [hsame] at hbuf ⊢
        exact hb.empty a hbuf
      · rw [pa.info_modify_of_ne hba] at hbuf ⊢
        exact hb.empty b hbuf

/-- A change of something else than the buffer. -/
theorem buf_modify {a : Addr} {g : ProtoInfo → ProtoInfo}
    (hg : (g (pa.info a)).buf = (pa.info a).buf) (b : Addr) :
    ((pa.modify a g).info b).buf = (pa.info b).buf := by
  by_cases hba : b = a
  · rw [hba, pa.info_modify_self, hg]
  · rw [pa.info_modify_of_ne hba]

/-- Resolving a length touches no buffer. -/
theorem buf_pass {cur : Addr} {rest : List Addr} {f : ProtoInfo} {S : UInt8}
    (hf : f.buf = (pa.info cur).buf) (a : Addr) :
    ((pa.pass cur rest f S).info a).buf = (pa.info a).buf := by
  unfold ProtocolAnalyzer.pass
  dsimp only
  split_ifs with ha
  · rw [ha, hf]
  · rfl
  · rfl

theorem moves_paParseLoop {env : Env} {rest : List Addr} (hL : ∀ a, .buf a ∉ L)
    (hnd : rest.Nodup) (hsub : ∀ a ∈ rest, a ∈ hl) (h : paParseLoop env rest pa = some pa') :
    Moves L hl pa (parseLoopEvents env rest pa) pa' := by
  induction rest generalizing pa with
  | nil =>
    obtain rfl := Option.some.inj h
    exact .same fun _ => rfl
  | cons a rest ih =>
    obtain ⟨pa₁, hres, h⟩ := Option.bind_eq_some_iff.1 h
    obtain ⟨f, hf, h⟩ := Option.bind_eq_some_iff.1 h
    obtain ⟨ha, hsub⟩ := List.forall_mem_cons.1 hsub
    obtain ⟨d, hpass⟩ := paResolveLength_inv hnd hres
    have hresolved : Moves L hl pa [] pa₁ := by
      rw [hpass]
      exact .same (buf_pass rfl)
    have hread : Moves L hl pa₁ (fieldEvents a (pa₁.info a)) (pa₁.modify a fun _ => f) :=
      .modify (hL a) ha (bufMove_paGetProtocolField hf)
    simp only [parseLoopEvents, hres, hf]
    exact hresolved.trans (hread.trans (ih (List.nodup_cons.1 hnd).2 hsub h))

theorem map_buf_place (S : UInt8) (l : List (ProtoInfo × Option UInt32)) :
    (place S l).map ProtoInfo.buf = l.map fun p => p.1.buf := by
  induction l generalizing S with
  | nil => rfl
  | cons p l ih =>
    rw [place, List.map_cons, List.map_cons, ih]
    rfl

end Moves

namespace Init

variable {specs : List FieldSpec} (i : Init specs) {L : List PaBlock} {pa pa' : ProtocolAnalyzer}

theorem mem_of_tableFind {k : List UInt8} {a : Addr} (h : i.tableFind k = some a) :
    a ∈ i.infos := by
  obtain ⟨p, hp, rfl⟩ := Option.map_eq_some_iff.1 h
  exact i.fst_mem (List.mem_reverse.1 (List.mem_of_find?_eq_some hp))

/-- Generating a message touches no buffer. -/
theorem buf_paGenerateProtocolData (hk : i.analyzer.Keeps pa) {env : Env} {r : ℤ}
    (h : paGenerateProtocolData env pa = some (r, pa')) (a : Addr) :
    (pa'.info a).buf = (pa.info a).buf := by
  have hhl : pa.paListHeadP = some i.infos := hk.paListHeadP.trans i.paListHeadP_analyzer
  have hfind := i.finds hk.hmap env.keyStr i.infos
  have hfind' := i.finds hk.hmap env.flagKeyStr i.infos
  obtain ⟨info', hplace, hrest, heq⟩ := paGenerateProtocolData_eq i.nodup_infos hhl hfind hfind'
  rw [heq] at h
  obtain ⟨dp, -, h⟩ := Option.map_eq_some_iff.1 h
  obtain ⟨-, rfl⟩ := Prod.mk.inj h
  change (info' a).buf = _
  by_cases ha : a ∈ i.infos
  · have hbuf := congrArg (List.map ProtoInfo.buf) hplace
    rw [map_buf_place, List.map_map, List.map_map] at hbuf
    exact List.map_inj_left.1 hbuf a ha
  · have hbuf := congrArg ProtoInfo.buf (hrest a ha)
    exact hbuf

/-- **What a call does to the blocks.** -/
theorem moves_run (hL : ∀ a, .buf a ∉ L) (hk : i.analyzer.Keeps pa) {c : AnalyzerCall}
    (h : c.run pa = some pa') : Moves L i.infos pa (c.events pa) pa' := by
  cases c with
  | setValue key value uninit =>
    obtain ⟨r, hr, rfl⟩ := Option.map_eq_some_iff.1 h
    obtain ⟨o, -, hr⟩ := Option.bind_eq_some_iff.1 hr
    obtain ⟨a, -, hr⟩ := Option.bind_eq_some_iff.1 hr
    obtain rfl := Option.some.inj hr
    exact .same (buf_modify rfl)
  | setVariableLengthValue key value uninit =>
    obtain ⟨r, hr, rfl⟩ := Option.map_eq_some_iff.1 h
    obtain ⟨o, -, hr⟩ := Option.bind_eq_some_iff.1 hr
    cases o with
    | none =>
      obtain rfl := Option.some.inj hr
      exact .same fun _ => rfl
    | some a =>
      obtain rfl := Option.some.inj hr
      dsimp only
      apply Moves.same
      exact buf_modify rfl
  | setBuf key data uninit =>
    obtain ⟨r, hr, rfl⟩ := Option.map_eq_some_iff.1 h
    have hfind := i.paFindKey_eq hk.hmap key uninit
    simp only [paSetBuf, hfind, Option.bind_eq_bind, Option.bind_some] at hr
    simp only [AnalyzerCall.events, paSetBufEvents, hfind]
    cases ha : i.tableFind (keyBytes key uninit) with
    | none =>
      rw [ha] at hr
      obtain rfl := Option.some.inj hr
      exact .same fun _ => rfl
    | some a =>
      rw [ha] at hr
      obtain ⟨f, hf, hr⟩ := Option.bind_eq_some_iff.1 hr
      obtain rfl := Option.some.inj hr
      exact .modify (hL a) (i.mem_of_tableFind ha) (bufMove_setBuf hf)
  | generate env =>
    obtain ⟨r, hr, rfl⟩ := Option.map_eq_some_iff.1 h
    exact .same (i.buf_paGenerateProtocolData hk hr)
  | receive data len =>
    obtain rfl := Option.some.inj h
    exact .same fun _ => rfl
  | parse env =>
    obtain ⟨r, hr, rfl⟩ := Option.map_eq_some_iff.1 h
    have hhl : pa.paListHeadP = some i.infos := hk.paListHeadP.trans i.paListHeadP_analyzer
    simp only [paParseProtocolData, hhl] at hr
    simp only [AnalyzerCall.events, parseEvents, hhl]
    split_ifs at hr ⊢
    · obtain rfl := Option.some.inj hr
      exact .same fun _ => rfl
    · obtain ⟨pa₁, hloop, hr⟩ := Option.bind_eq_some_iff.1 hr
      obtain rfl := Option.some.inj hr
      exact moves_paParseLoop hL i.nodup_infos (fun _ => id) hloop
  | reset =>
    obtain rfl := Option.some.inj h
    have hhl : pa.paListHeadP = some i.infos := hk.paListHeadP.trans i.paListHeadP_analyzer
    rw [paResetVlenFlag_eq i.nodup_infos hhl]
    apply Moves.same
    intro a
    dsimp only
    split_ifs
    · unfold resetField
      split_ifs <;> rfl
    · rfl

/-- **What a history does to the blocks.** -/
theorem moves_afterCalls (hL : ∀ a, .buf a ∉ L) {calls : List AnalyzerCall}
    (hk : i.analyzer.Keeps pa) (h : afterCalls calls pa = some pa') :
    Moves L i.infos pa (historyEvents calls pa) pa' := by
  induction calls generalizing pa with
  | nil =>
    obtain rfl := Option.some.inj h
    exact .same fun _ => rfl
  | cons c calls ih =>
    obtain ⟨pa₁, h₁, h⟩ := Option.bind_eq_some_iff.1 h
    simp only [historyEvents, h₁]
    exact (i.moves_run hL hk h₁).trans (ih (hk.trans (AnalyzerCall.keeps_run h₁)) h)

end Init

/-! ## The whole life -/

theorem nodup_initBlocks {infos nodes : List Addr} (hi : infos.Nodup) (hn : nodes.Nodup) :
    (initBlocks infos nodes).Nodup := by
  have hinfo : Function.Injective PaBlock.info := fun _ _ => PaBlock.info.inj
  have hnode : Function.Injective PaBlock.node := fun _ _ => PaBlock.node.inj
  simp [initBlocks, List.nodup_append, hi.map hinfo, hn.map hnode]

/-- Blocks that are filled with fields without a buffer. -/
theorem buf_foldl_update {l : List (Addr × ProtoInfo)} (hl : ∀ p ∈ l, p.2.buf = ⟨0, none⟩)
    {h : Addr → ProtoInfo} (hh : ∀ a, (h a).buf = ⟨0, none⟩) (a : Addr) :
    (l.foldl (fun h p => Function.update h p.1 p.2) h a).buf = ⟨0, none⟩ := by
  induction l generalizing h with
  | nil => exact hh a
  | cons p l ih =>
    obtain ⟨hp, hl⟩ := List.forall_mem_cons.1 hl
    apply ih hl
    intro b
    dsimp only
    by_cases hb : b = p.1
    · rwa [hb, Function.update_self]
    · rw [Function.update_of_ne hb]
      exact hh b

namespace Init

variable {specs : List FieldSpec} (i : Init specs) {pa : ProtocolAnalyzer}

/-- A new analyzer has no buffers. -/
theorem buf_analyzer (a : Addr) : (i.analyzer.info a).buf = ⟨0, none⟩ := by
  apply buf_foldl_update
  · intro p hp
    obtain ⟨s, -, hs⟩ := List.mem_map.1 (List.of_mem_zip hp).2
    rw [← hs]
    rfl
  · exact fun _ => rfl

/-- What `pfs_del_list` frees for the field at `a`. -/
def freedField (pa : ProtocolAnalyzer) (a : Addr) : List PaBlock :=
  (pfsDelList (pa.info a)).map (FreedBlock.ofField a)

/-- What is freed when the table deletes its nodes in the order `nodes`. -/
def freed (i : Init specs) (pa : ProtocolAnalyzer) (nodes : List Addr) : List PaBlock :=
  i.infos.flatMap (freedField pa) ++ [.headList] ++ nodes.map .node ++ [.hlist] ++ [.pa]

theorem mem_freedField {a : Addr} {b : PaBlock} :
    b ∈ freedField pa a ↔ b = .info a ∨ b = .buf a ∧ (pa.info a).buf.len ≠ 0 := by
  have hpos : (pa.info a).buf.len > 0 ↔ (pa.info a).buf.len ≠ 0 := UInt16.pos_iff_ne_zero
  unfold freedField pfsDelList
  split_ifs with h
  · simp [FreedBlock.ofField, hpos.1 h, or_comm]
  · simp [FreedBlock.ofField, not_not.1 (mt hpos.2 h)]

theorem nodup_freedField (a : Addr) : (freedField pa a).Nodup := by
  unfold freedField pfsDelList
  split_ifs <;> simp [FreedBlock.ofField]

theorem mem_freed {nodes : List Addr} {b : PaBlock} : b ∈ i.freed pa nodes ↔
    (∃ a ∈ i.infos, b = .info a ∨ b = .buf a ∧ (pa.info a).buf.len ≠ 0) ∨ b = .headList ∨
      (∃ a ∈ nodes, b = .node a) ∨ b = .hlist ∨ b = .pa := by
  simp [freed, mem_freedField, eq_comm (b := b)]

theorem nodup_freed {nodes : List Addr} (hn : nodes.Nodup) : (i.freed pa nodes).Nodup := by
  have hnode : Function.Injective PaBlock.node := fun _ _ => PaBlock.node.inj
  have hfields : (i.infos.flatMap (freedField pa)).Nodup := by
    rw [List.nodup_flatMap]
    refine ⟨fun a _ => nodup_freedField a, i.nodup_infos.imp fun {a a'} hne b hb hb' => ?_⟩
    rcases mem_freedField.1 hb with rfl | ⟨rfl, -⟩ <;>
      rcases mem_freedField.1 hb' with h | ⟨h, -⟩ <;> cases h <;> exact hne rfl
  simp only [freed, List.nodup_append, hfields, hn.map hnode, List.mem_append, List.mem_flatMap,
    mem_freedField, List.mem_map, List.mem_singleton, List.nodup_singleton]
  grind

/-- What destroying the analyzer frees. -/
theorem paDestroyProtocolAnalyzer_eq (hk : i.analyzer.Keeps pa) :
    ∃ nodes : List Addr, nodes.Perm i.nodes ∧ ∀ fuel, specs.length ≤ fuel →
      paDestroyProtocolAnalyzer fuel pa = some (i.freed pa nodes) := by
  obtain ⟨hmap, hhmap, hholds, -⟩ := i.exists_hmap
  obtain ⟨nodes, hperm, hrelease⟩ := hholds.release PaBlock.node .hlist
  have hfst : i.records.map Prod.fst = i.nodes := by
    rw [records, List.map_map]
    exact i.map_snd_entries
  have hlen : i.records.reverse.length = specs.length := by
    rw [List.length_reverse, ← List.length_map (f := Prod.fst), hfst, i.length_nodes]
  refine ⟨nodes, ?_, fun fuel hf => ?_⟩
  · rw [List.map_reverse, hfst] at hperm
    exact hperm.trans (List.reverse_perm i.nodes)
  · have hhl : pa.paListHeadP = some i.infos := hk.paListHeadP.trans i.paListHeadP_analyzer
    rw [paDestroyProtocolAnalyzer, hhl, hk.hmap, hhmap, Option.bind_eq_bind, Option.bind_some,
      Option.bind_eq_bind, Option.bind_some, hrelease fuel (hlen.trans_le hf),
      Option.bind_eq_bind, Option.bind_some, freed]
    simp only [List.append_assoc]
    rfl

/-- **The life of an analyzer.** Whatever is called on an analyzer between its initialisation and
its destruction, and however often buffers are set, received and replaced, destroying it ends, and
the books of the whole life are in order: no block is freed twice or without having been allocated.
What is left is the `pair`, the `hash_map_t`, and the buffers whose recorded length is 0. -/
theorem paDestroyProtocolAnalyzer_books {calls : List AnalyzerCall}
    (h : afterCalls calls i.analyzer = some pa) :
    ∃ freed, (∀ fuel, specs.length ≤ fuel → paDestroyProtocolAnalyzer fuel pa = some freed) ∧
      Books ∅ ((initBlocks i.infos i.nodes).map .alloc ++ historyEvents calls i.analyzer ++
          freed.map .free)
        ({.pair, .hmap} ∪ {b | ∃ a ∈ i.infos, b = .buf a ∧ (pa.info a).buf.dataP ≠ none ∧
          (pa.info a).buf.len = 0}) := by
  have hL : ∀ a, .buf a ∉ initBlocks i.infos i.nodes := by simp [initBlocks]
  have hmoves := i.moves_afterCalls hL .rfl h
  obtain ⟨nodes, hnodes, hdestroy⟩ := i.paDestroyProtocolAnalyzer_eq (keeps_afterCalls h)
  have hbufs := hmoves.bufsOf ⟨fun a ha => absurd (by rw [i.buf_analyzer]) ha,
    fun a _ => by rw [i.buf_analyzer]⟩
  have hsome : ∀ a, (pa.info a).buf.len ≠ 0 → (pa.info a).buf.dataP ≠ none :=
    fun a hlen hnone => hlen (hbufs.empty a hnone)
  have hnd : (i.freed pa nodes).Nodup := i.nodup_freed (hnodes.nodup_iff.2 i.nodup_nodes)
  refine ⟨_, hdestroy, (Books.append ?_ hmoves.books).append ((Books.frees hnd ?_).cast ?_)⟩
  · -- a new analyzer holds what its initialisation has asked for
    apply (Books.allocs (nodup_initBlocks i.nodup_infos i.nodup_nodes) (by simp)).cast
    ext b
    simp [ProtocolAnalyzer.held, i.buf_analyzer]
  · -- what is freed is held
    intro b hb
    rcases i.mem_freed.1 hb with ⟨a, ha, rfl | ⟨rfl, hlen⟩⟩ | rfl | ⟨a, ha, rfl⟩ | rfl | rfl
    · exact .inl (by simp [initBlocks, ha])
    · exact .inr ⟨a, rfl, hsome a hlen⟩
    · exact .inl (by simp [initBlocks])
    · exact .inl (by simp [initBlocks, hnodes.mem_iff.1 ha])
    · exact .inl (by simp [initBlocks])
    · exact .inl (by simp [initBlocks])
  · -- what is left
    ext b
    simp only [Set.mem_sdiff, Set.mem_ofPred_eq, i.mem_freed, ProtocolAnalyzer.held,
      Set.mem_union, Set.mem_insert_iff, Set.mem_singleton_iff]
    cases b with
    | buf a =>
      have hL := hL a
      have howned := hbufs.owned a
      grind
    | node a => simp [initBlocks, hnodes.mem_iff]
    | info a => simp [initBlocks]
    | _ => simp [initBlocks]

end Init

/-- The payload is set to eight bytes, and five are received into the same block. -/
theorem paDestroyProtocolAnalyzer_books_record : ∃ pa,
    afterCalls [.setBuf DC_DATA [1, 2, 3, 4, 5, 6, 7, 8] fun _ => 0,
      .receive ([0x30, 0x54, 7, 1, 5, 1, 2, 3, 4, 5] ++ List.replicate 90 0) 10,
      .parse ⟨true, fun _ _ => 0, fun _ _ => 0, 0⟩, .reset] init3054.analyzer = some pa ∧
    ∃ freed, (∀ fuel, 5 ≤ fuel → paDestroyProtocolAnalyzer fuel pa = some freed) ∧
      Books ∅ ((initBlocks init3054.infos init3054.nodes).map .alloc ++
          historyEvents [.setBuf DC_DATA [1, 2, 3, 4, 5, 6, 7, 8] fun _ => 0,
            .receive ([0x30, 0x54, 7, 1, 5, 1, 2, 3, 4, 5] ++ List.replicate 90 0) 10,
            .parse ⟨true, fun _ _ => 0, fun _ _ => 0, 0⟩, .reset] init3054.analyzer ++
          freed.map .free)
        ({.pair, .hmap} ∪ {b | ∃ a ∈ init3054.infos, b = .buf a ∧
          (pa.info a).buf.dataP ≠ none ∧ (pa.info a).buf.len = 0}) := by
  have hsome : (afterCalls [.setBuf DC_DATA [1, 2, 3, 4, 5, 6, 7, 8] fun _ => 0,
      .receive ([0x30, 0x54, 7, 1, 5, 1, 2, 3, 4, 5] ++ List.replicate 90 0) 10,
      .parse ⟨true, fun _ _ => 0, fun _ _ => 0, 0⟩, .reset] init3054.analyzer).isSome = true := by
    decide +kernel
  obtain ⟨pa, hpa⟩ := Option.isSome_iff_exists.1 hsome
  exact ⟨pa, hpa, init3054.paDestroyProtocolAnalyzer_books hpa⟩

end HpiDriver
