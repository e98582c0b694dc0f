import RustyBrain.Lib.Backlog
import RustyBrain.Lib.Batch
import RustyBrain.Engine.Reembed

/-!
# rusty-brain — repeated re-embedding

A pass of `reembed` takes the oldest stale rows up to a limit. A row whose input the embedder
refuses stays stale, so it is at the head of the next scan again.

## Model

`visit` is one turn of the loop, made of the two halves `Pass.embed` and `Pass.write`; beside
the store and the pass it lists the rows that were written. `reembed` is a whole pass, and
`passes` repeats it with nothing in between; a pass whose scan fails changes nothing. The
stale rows in the order of the scan are a backlog that passes serve in windows.
-/

namespace RustyBrain.Engine

open Store Transaction Backlog List

variable {notes : List MemoryNote} {n : MemoryNote} {e : Embedding}

section Passes

variable (engine : MemoryEngine) (env : Env) (limit : Nat)

/-- One turn of the loop of `reembed`: embed the next candidate and write its vector. -/
def MemoryEngine.visit : Db × Pass × List MemoryId → Db × Pass × List MemoryId
  | (db, p, written) =>
    let embedded := p.embed engine
    let (db', p') := embedded.write engine env db
    (db', p', written ++
      if p.changed < p'.changed then (embedded.embedded.map fun x => x.1.id).toList else [])

/-- `reembed`: the store afterwards, the counters, and the rows written. -/
def MemoryEngine.reembed (db : Db) : Result (Db × Pass × List MemoryId) := do
  let candidates ← memoriesForReembed db engine.modelId embeddingInputVersion limit
  pure ((engine.visit env)^[candidates.length] (db, { candidates := candidates }, []))

/-- Passes one after the other, and all the rows they write. -/
def MemoryEngine.passes : Nat → Db → Db × List MemoryId
  | 0, db => (db, [])
  | k + 1, db =>
    match engine.reembed env limit (passes k db).1 with
    | .ok (db', _, written) => (db', (passes k db).2 ++ written)
    | .error _ => passes k db

/-- The stale rows in the order of the scan. -/
def MemoryEngine.backlog (db : Db) : List MemoryRow :=
  (db.memories.filter fun m => m.archivedAt = none ∧ (m.embeddingModel ≠ engine.modelId ∨
    m.embeddingInputVersion ≠ embeddingInputVersion)).insertionSort MemoryRow.OldestFirst

/-- The row decodes. -/
def Readable (db : Db) (r : MemoryRow) : Bool := (db.rowToNote r).isOk

/-- The embedder accepts the input of the row: it returns a vector of the store's dimension. -/
def MemoryEngine.accepts (db : Db) (r : MemoryRow) : Bool :=
  match db.rowToNote r with
  | .ok n =>
    match engine.vectorOf (inputOf n) with
    | some e => e.length = db.embeddingDim
    | none => false
  | .error _ => false

/-- Re-embedding converges: at some time every active row that the embedder accepts carries the
stamp, no row was written twice, and every pass reports what it scanned. -/
structure MemoryEngine.Converges (db : Db) : Prop where
  stamped : ∃ k, ∀ r ∈ (engine.passes env limit k db).1.memories, r.archivedAt = none →
    engine.accepts (engine.passes env limit k db).1 r → engine.Stamps r
  once : ∀ k, (engine.passes env limit k db).2.Nodup
  reports : ∀ k, ∃ db' p written, engine.reembed env limit (engine.passes env limit k db).1 =
    .ok (db', p, written) ∧ p.scanned = p.changed + p.skipped

/-- Nothing that the embedder's answers depend on has changed. -/
structure SameInputs (db db' : Db) : Prop where
  wf : db'.Wf
  notes : db'.rowToNote = db.rowToNote
  dim : db'.embeddingDim = db.embeddingDim

variable {engine env limit} {db db' : Db} {r : MemoryRow}

theorem SameInputs.accepts (h : SameInputs db db') : engine.accepts db' = engine.accepts db := by
  funext r
  unfold MemoryEngine.accepts
  rw [h.notes, h.dim]

theorem SameInputs.readable (h : SameInputs db db') : Readable db' = Readable db := by
  funext r
  unfold Readable
  rw [h.notes]

theorem SameInputs.trans {db'' : Db} (h : SameInputs db db') (h' : SameInputs db' db'') :
    SameInputs db db'' :=
  ⟨h'.wf, h'.notes.trans h.notes, h'.dim.trans h.dim⟩

instance : Std.Total MemoryRow.OldestFirst := by
  refine ⟨fun a b => ?_⟩
  unfold MemoryRow.OldestFirst
  omega

instance : IsTrans MemoryRow MemoryRow.OldestFirst := by
  refine ⟨fun a b c => ?_⟩
  unfold MemoryRow.OldestFirst
  omega

theorem mem_backlog : r ∈ engine.backlog db ↔
    r ∈ db.memories ∧ r.archivedAt = none ∧ ¬ engine.Stamps r := by
  unfold MemoryEngine.backlog MemoryEngine.Stamps
  rw [mem_insertionSort, mem_filter, decide_eq_true_eq, not_and_or]

theorem backlog_nodup (hIds : db.ids.Nodup) :
    ((engine.backlog db).map MemoryRow.memoryId).Nodup :=
  ((perm_insertionSort _ _).map _).nodup_iff.mpr (hIds.sublist (filter_sublist.map _))

/-! ## One row -/

/-- Stamping a row takes it off the backlog. -/
theorem backlog_stamped (engine : MemoryEngine) (hIds : db.ids.Nodup) (hr : r ∈ db.memories) (hLive : r.archivedAt = none)
    (vectors : List VectorRow) :
    engine.backlog ((db.restamped r engine.modelId embeddingInputVersion).setVectors vectors) =
      (engine.backlog db).filter fun m => m ≠ r := by
  let stamp (m : MemoryRow) : MemoryRow := if m.memoryId = r.memoryId ∧ m.archivedAt = none then
    m.stamped engine.modelId embeddingInputVersion else m
  have hOther : ∀ m ∈ db.memories, m ≠ r → stamp m = m := fun m hm hne =>
    if_neg fun h => hne (db.row_unique hIds hm hr h.1)
  have hSelf : stamp r = r.stamped engine.modelId embeddingInputVersion := if_pos ⟨rfl, hLive⟩
  unfold MemoryEngine.backlog
  rw [Batch.filter_insertionSort]
  congr 1
  show (db.memories.map stamp).filter _ = _
  rw [filter_map, filter_filter]
  have hKept : db.memories.filter ((fun m => decide (m.archivedAt = none ∧
      (m.embeddingModel ≠ engine.modelId ∨ m.embeddingInputVersion ≠ embeddingInputVersion))) ∘
        stamp) = db.memories.filter fun m => decide (m ≠ r) && decide (m.archivedAt = none ∧
      (m.embeddingModel ≠ engine.modelId ∨ m.embeddingInputVersion ≠ embeddingInputVersion)) := by
    refine filter_congr fun m hm => ?_
    by_cases hEq : m = r
    · subst hEq
      simp [hSelf, MemoryRow.stamped]
    · simp [hOther m hm hEq, hEq]
  rw [hKept]
  refine (map_congr_left fun m hm => ?_).trans (map_id _)
  obtain ⟨hMem, hTerms⟩ := mem_filter.mp hm
  rw [Bool.and_eq_true, decide_eq_true_eq] at hTerms
  exact hOther m hMem hTerms.1

/-- A live row gets a vector of the right dimension: its old one is replaced, or one is added. -/
theorem replaceVector_completes {id : MemoryId} (hFind : db.find id = some r)
    (hLive : r.archivedAt = none) (hDim : e.length = db.embeddingDim) :
    ∃ n d, Runs (updateVectorRow id e) db n d ∧
      ∃ db', Runs (if n = 0 then insertMissingVector id e else pure ()) d () db' := by
  refine ⟨_, _, runs_updateVectorRow.mpr ⟨rfl, rfl⟩, ?_⟩
  split
  next hNone =>
    have hAbsent : ∀ v ∈ db.vectors.map (VectorRow.withEmbedding id e), v.memoryId ≠ id := by
      intro v hv hId
      obtain ⟨w, hw, rfl⟩ := mem_map.mp hv
      have hOld : w.memoryId = id := by
        unfold VectorRow.withEmbedding at hId
        split at hId <;> exact hId
      exact countP_eq_zero.mp hNone w hw (decide_eq_true hOld)
    obtain ⟨db', hInsert⟩ : ∃ db', Runs (insertVectorRow ⟨id, r.ns, e⟩)
        (db.setVectors (db.vectors.map (VectorRow.withEmbedding id e))) () db' :=
      ⟨_, runs_insertVectorRow.mpr ⟨hDim, hAbsent, rfl⟩⟩
    refine ⟨db', runs_bind.mpr ⟨_, _, runs_get.mpr ⟨rfl, rfl⟩, ?_⟩⟩
    rw [show (db.setVectors (db.vectors.map (VectorRow.withEmbedding id e))).find id = some r
      from hFind]
    dsimp only
    rw [if_pos hLive]
    exact hInsert
  next => exact ⟨_, runs_pure.mpr ⟨rfl, rfl⟩⟩

/-- An accepted vector is written. -/
theorem updateVector_completes (env : Env) (hWf : db.Wf) (hr : r ∈ db.memories) (hLive : r.archivedAt = none)
    (hNote : db.rowToNote r = .ok n)
    (hDim : e.length = db.embeddingDim) (model version : Text) :
    ∃ db', Runs (updateVector env n.id e model version (env.fingerprint n)) db () db' := by
  have hDecodes := Db.rowToNote_decodes hNote
  rw [hDecodes.id]
  have hGet : db.getMemory r.memoryId = .ok (some n) := by
    unfold Db.getMemory
    rw [Db.find_of_mem hWf.ids hr]
    exact congrArg (Except.map some) hNote
  have hLiveNote : n.archivedAt = none := by rw [hDecodes.archivedAt, hLive, Option.map_none]
  have hAffected : db.memories.countP (fun m => m.memoryId = r.memoryId ∧ m.archivedAt = none) ≠ 0 :=
    (countP_pos_iff.mpr ⟨r, hr, decide_eq_true ⟨rfl, hLive⟩⟩).ne'
  have hStamp : Runs (updateMemories (fun m => m.memoryId = r.memoryId ∧ m.archivedAt = none)
      (MemoryRow.stamped model version)) db _ _ :=
    runs_updateMemories.mpr ⟨fun m hm _ => hWf.check m hm, fun m hm _ => hWf.pointers m hm, rfl, rfl⟩
  have hFound := db.find_setMemories (p := fun m => m.memoryId = r.memoryId ∧ m.archivedAt = none)
    (f := MemoryRow.stamped model version) (fun _ _ _ => rfl) r.memoryId
  rw [Db.find_of_mem hWf.ids hr, Option.map_some, if_pos ⟨rfl, hLive⟩] at hFound
  obtain ⟨updated, d, hUpdate, db', hInsert⟩ := replaceVector_completes hFound hLive hDim
  refine ⟨db', ?_⟩
  simp only [updateVector, runs_bind, runs_get, runs_require, runs_attempt]
  refine ⟨db, db, ⟨rfl, rfl⟩, (), db, ⟨hDim, rfl⟩, some n, db, ⟨hGet, rfl⟩, ?_⟩
  simp only [runs_bind, runs_require]
  exact ⟨(), db, ⟨hLiveNote, rfl⟩, (), db, ⟨trivial, rfl⟩, _, _, hStamp, (), _, ⟨hAffected, rfl⟩,
    updated, d, hUpdate, hInsert⟩

/-- A turn on a row that the embedder accepts: the row leaves the backlog. -/
theorem visit_accepted (env : Env) (hWf : db.Wf) (hr : r ∈ engine.backlog db)
    (hNote : db.rowToNote r = .ok n) (hAccepts : engine.accepts db r) (rest : List MemoryNote)
    (s c k : Nat) (w : List MemoryId) :
    ∃ db', engine.visit env (db, ⟨n :: rest, none, s, c, k⟩, w) =
        (db', ⟨rest, none, s + 1, c + 1, k⟩, w ++ [r.memoryId]) ∧
      SameInputs db db' ∧ engine.backlog db' = (engine.backlog db).filter fun m => m ≠ r := by
  obtain ⟨hMem, hLive, -⟩ := mem_backlog.mp hr
  obtain ⟨e, hVector, hDim⟩ : ∃ e, engine.vectorOf (inputOf n) = some e ∧
      e.length = db.embeddingDim := by
    unfold MemoryEngine.accepts at hAccepts
    rw [hNote] at hAccepts
    dsimp only at hAccepts
    split at hAccepts
    next e hVector => exact ⟨e, hVector, of_decide_eq_true hAccepts⟩
    next => cases hAccepts
  obtain ⟨db', hRuns⟩ := updateVector_completes env hWf hMem hLive hNote hDim engine.modelId
    embeddingInputVersion
  have hCommit : commit ((engine.vectorWrite env n e).body env) db = (.ok (), db') :=
    hRuns.commit_eq
  have hId : n.id = r.memoryId := (Db.rowToNote_decodes hNote).id
  obtain ⟨q, -, vectors, hFind, -, -, -, -, hAfter⟩ := updateVector_runs hRuns
  rw [hId, Db.find_of_mem hWf.ids hMem, Option.some.injEq] at hFind
  subst hFind
  refine ⟨db', ?_, hAfter ▸ ⟨?_, rfl, rfl⟩,
    hAfter ▸ backlog_stamped engine hWf.ids hMem hLive vectors⟩
  · simp only [MemoryEngine.visit, Pass.embed, hVector, Pass.write, hCommit, Nat.lt_add_one,
      if_true, Option.map_some, Option.toList_some, hId]
  · have hStamped : (db.restamped r engine.modelId embeddingInputVersion).Wf :=
      hWf.setMemories (fun _ _ _ => rfl) (fun _ _ _ => rfl) (fun _ _ _ hCheck => hCheck)
        fun m hm _ => hWf.pointers m hm
    exact hStamped.setVectors vectors

/-- A turn on any other row: it is skipped. -/
theorem visit_other (hNote : db.rowToNote r = .ok n)
    (hNot : ¬ engine.accepts db r) (rest : List MemoryNote) (s c k : Nat) (w : List MemoryId) :
    engine.visit env (db, ⟨n :: rest, none, s, c, k⟩, w) =
      (db, ⟨rest, none, s + 1, c, k + 1⟩, w) := by
  cases hVector : engine.vectorOf (inputOf n) with
  | none =>
    simp only [MemoryEngine.visit, Pass.embed, hVector, Pass.write, lt_irrefl, if_false,
      append_nil]
  | some e =>
    -- a vector of another dimension is refused by the store
    have hDim : e.length ≠ db.embeddingDim := by
      intro hDim
      unfold MemoryEngine.accepts at hNot
      rw [hNote] at hNot
      dsimp only at hNot
      rw [hVector] at hNot
      exact hNot (decide_eq_true hDim)
    obtain ⟨err, hCommit⟩ : ∃ err,
        commit ((engine.vectorWrite env n e).body env) db = (.error err, db) := by
      rcases commit_cases ((engine.vectorWrite env n e).body env) db with ⟨_, _, hRuns, -⟩ | hFails
      · exact absurd (updateVector_length hRuns) hDim
      · exact hFails
    simp only [MemoryEngine.visit, Pass.embed, hVector, Pass.write, hCommit, lt_irrefl, if_false,
      append_nil]

/-! ## The loop -/

/-- **Run lemma:** the loop over the rows of a window. -/
theorem visits_spec (env : Env) {note : MemoryRow → Result MemoryNote} {rows : List MemoryRow}
    (hNotes : List.Forall₂ (fun r n => note r = .ok n) rows notes)
    (hDb : db.rowToNote = note) (hWf : db.Wf) (hIn : ∀ r ∈ rows, r ∈ engine.backlog db)
    (hNodup : rows.Nodup) (s c k : Nat) (w : List MemoryId) :
    ∃ db', (engine.visit env)^[notes.length] (db, ⟨notes, none, s, c, k⟩, w) =
        (db', ⟨[], none, s + rows.length, c + rows.countP (engine.accepts db),
          k + blocked (engine.accepts db) rows⟩,
          w ++ (rows.filter (engine.accepts db)).map MemoryRow.memoryId) ∧
      SameInputs db db' ∧
      engine.backlog db' = (engine.backlog db).filter fun m => ¬ (m ∈ rows ∧ engine.accepts db m) := by
  induction hNotes generalizing db s c k w with
  | nil => exact ⟨db, by simp [blocked], ⟨hWf, rfl, rfl⟩, by simp⟩
  | @cons r n rows notes hNote _ ih =>
    obtain ⟨hFresh, hNodup⟩ := nodup_cons.mp hNodup
    have hHead : r ∈ engine.backlog db := hIn r mem_cons_self
    have hRest : ∀ m ∈ rows, m ∈ engine.backlog db := fun m hm => hIn m (mem_cons_of_mem _ hm)
    rw [← hDb] at hNote
    rw [length_cons, Function.iterate_succ_apply]
    by_cases hAccepts : engine.accepts db r
    · obtain ⟨mid, hVisit, hSame, hLeft⟩ :=
        visit_accepted env hWf hHead hNote hAccepts notes s c k w
      have hStill : ∀ m ∈ rows, m ∈ engine.backlog mid := fun m hm => hLeft ▸
        mem_filter.mpr ⟨hRest m hm, decide_eq_true fun hEq => hFresh (hEq ▸ hm)⟩
      obtain ⟨db', hRun, hSame', hLeft'⟩ := ih (hSame.notes.trans hDb) hSame.wf hStill hNodup
        (s + 1) (c + 1) k (w ++ [r.memoryId])
      rw [hSame.accepts] at hRun hLeft'
      refine ⟨db', ?_, hSame.trans hSame', ?_⟩
      · rw [hVisit, hRun]
        simp [blocked, hAccepts]
        omega
      · rw [hLeft', hLeft, filter_filter]
        refine filter_congr fun m _ => ?_
        by_cases hEq : m = r <;> simp [hEq, hAccepts]
    · obtain ⟨db', hRun, hSame, hLeft⟩ := ih hDb hWf hRest hNodup (s + 1) c (k + 1) w
      refine ⟨db', ?_, hSame, ?_⟩
      · rw [visit_other hNote hAccepts, hRun]
        simp [blocked, hAccepts]
        omega
      · rw [hLeft]
        refine filter_congr fun m _ => ?_
        by_cases hEq : m = r <;> simp [hEq, hAccepts]

theorem reembed_eq (h : ((engine.backlog db).take limit).mapM db.rowToNote = .ok notes) :
    engine.reembed env limit db =
      .ok ((engine.visit env)^[notes.length] (db, { candidates := notes }, [])) := by
  unfold MemoryEngine.reembed
  rw [show memoriesForReembed db engine.modelId embeddingInputVersion limit = .ok notes from h]
  rfl

/-- A pass serves one window of the backlog. -/
theorem reembed_serves (env : Env) (hWf : db.Wf) {done left : List MemoryRow}
    (h : serve (engine.accepts db) (Readable db) limit (engine.backlog db) = some (done, left)) :
    ∃ db' p, engine.reembed env limit db = .ok (db', p, done.map MemoryRow.memoryId) ∧
      p.scanned = p.changed + p.skipped ∧ SameInputs db db' ∧ engine.backlog db' = left := by
  obtain ⟨hRead, rfl, rfl⟩ := serve_eq_some h
  obtain ⟨notes, hNotes⟩ := except_mapM_exists fun r hr => except_isOk (hRead r hr)
  have hNodup : (engine.backlog db).Nodup := (backlog_nodup hWf.ids).of_map
  obtain ⟨db', hRun, hSame, hLeft⟩ := visits_spec env (except_mapM_ok.mp hNotes) rfl hWf
    (fun r hr => mem_of_mem_take hr) (hNodup.sublist (take_sublist _ _)) 0 0 0 []
  refine ⟨db', _, (reembed_eq hNotes).trans (congrArg Except.ok hRun), ?_, hSame, ?_⟩
  · simp only [Nat.zero_add]
    exact length_eq_add_blocked _
  · rw [hLeft]
    exact filter_window hNodup

theorem reembed_fails (engine : MemoryEngine) (env : Env) (db : Db)
    (h : serve (engine.accepts db) (Readable db) limit (engine.backlog db) = none) :
    ∃ e, engine.reembed env limit db = .error e := by
  cases hScan : memoriesForReembed db engine.modelId embeddingInputVersion limit with
  | error e =>
    refine ⟨e, ?_⟩
    unfold MemoryEngine.reembed
    rw [hScan]
    rfl
  | ok notes =>
    -- then every row of the window was decoded
    have hRead : ∀ r ∈ (engine.backlog db).take limit, Readable db r := by
      intro r hr
      obtain ⟨n, hNote⟩ := except_mapM_each (f := db.rowToNote) hScan hr
      unfold Readable
      rw [hNote]
      rfl
    unfold serve at h
    rw [if_pos hRead] at h
    cases h

/-- Passes one after the other serve one window after the other. -/
theorem passes_serve (engine : MemoryEngine) (env : Env) (limit : Nat) (hWf : db.Wf) (k : Nat) :
    SameInputs db (engine.passes env limit k db).1 ∧
      engine.backlog (engine.passes env limit k db).1 =
        (serves (engine.accepts db) (Readable db) limit k (engine.backlog db)).2 ∧
      (engine.passes env limit k db).2 =
        (serves (engine.accepts db) (Readable db) limit k (engine.backlog db)).1.map
          MemoryRow.memoryId := by
  induction k with
  | zero => exact ⟨⟨hWf, rfl, rfl⟩, rfl, rfl⟩
  | succ k ih =>
    obtain ⟨hSame, hLeft, hWritten⟩ := ih
    cases hServe : serve (engine.accepts db) (Readable db) limit
        (serves (engine.accepts db) (Readable db) limit k (engine.backlog db)).2 with
    | none =>
      obtain ⟨e, hFails⟩ := reembed_fails engine env (engine.passes env limit k db).1
        (by rw [hSame.accepts, hSame.readable, hLeft, hServe])
      simp only [MemoryEngine.passes, hFails, serves, hServe]
      exact ⟨hSame, hLeft, hWritten⟩
    | some out =>
      obtain ⟨done, left⟩ := out
      rw [← hLeft, ← hSame.accepts, ← hSame.readable] at hServe
      obtain ⟨db', p, hPass, -, hSame', hLeft'⟩ := reembed_serves env hSame.wf hServe
      rw [hLeft, hSame.accepts, hSame.readable] at hServe
      simp only [MemoryEngine.passes, hPass, serves, hServe, map_append, hWritten]
      exact ⟨hSame.trans hSame', hLeft', trivial⟩

/-- **Key lemma:** passes converge exactly if the backlog they start with settles. -/
theorem converges_iff_settles (env : Env) (limit : Nat) (hWf : db.Wf) :
    engine.Converges env limit db ↔
      Settles (engine.accepts db) (Readable db) limit (engine.backlog db) := by
  have hServe : ∀ k, serve (engine.accepts (engine.passes env limit k db).1)
      (Readable (engine.passes env limit k db).1) limit
      (engine.backlog (engine.passes env limit k db).1) = serve (engine.accepts db) (Readable db)
        limit (serves (engine.accepts db) (Readable db) limit k (engine.backlog db)).2 := by
    intro k
    obtain ⟨hSame, hLeft, -⟩ := passes_serve engine env limit hWf k
    rw [hSame.accepts, hSame.readable, hLeft]
  constructor
  · intro h
    refine ⟨?_, fun k => ?_⟩
    · obtain ⟨k, hStamped⟩ := h.stamped
      obtain ⟨hSame, hLeft, -⟩ := passes_serve engine env limit hWf k
      refine ⟨k, fun r hr hAccepts => ?_⟩
      rw [← hLeft] at hr
      obtain ⟨hMem, hLive, hStale⟩ := mem_backlog.mp hr
      exact hStale (hStamped r hMem hLive (hSame.accepts ▸ hAccepts))
    · rw [← hServe, Option.isSome_iff_ne_none]
      intro hNone
      obtain ⟨e, hFails⟩ := reembed_fails engine env _ hNone
      obtain ⟨db', p, written, hPass, -⟩ := h.reports k
      exact nomatch hPass.symm.trans hFails
  · rintro ⟨⟨k, hDone⟩, hServes⟩
    refine ⟨⟨k, fun r hr hLive hAccepts => ?_⟩, fun k => ?_, fun k => ?_⟩
    · obtain ⟨hSame, hLeft, -⟩ := passes_serve engine env limit hWf k
      by_contra hStale
      have hIn := mem_backlog.mpr ⟨hr, hLive, hStale⟩
      rw [hLeft] at hIn
      exact hDone r hIn (hSame.accepts ▸ hAccepts)
    · obtain ⟨-, -, hWritten⟩ := passes_serve engine env limit hWf k
      have hPerm := serves_perm (engine.accepts db) (Readable db) limit k (engine.backlog db)
      have hAll := (hPerm.map MemoryRow.memoryId).nodup_iff.mpr (backlog_nodup hWf.ids)
      rw [map_append] at hAll
      rw [hWritten]
      exact hAll.of_append_left
    · obtain ⟨hSame, -, -⟩ := passes_serve engine env limit hWf k
      obtain ⟨⟨done, left⟩, hSome⟩ := Option.isSome_iff_exists.mp (hServes k)
      obtain ⟨db', p, hPass, hCount, -⟩ := reembed_serves env hSame.wf ((hServe k).trans hSome)
      exact ⟨db', p, _, hPass, hCount⟩

/-- Repeated re-embedding converges exactly if, in the order of the scan, fewer than `limit` of
the stale rows that the embedder does not accept stand before a stale row that it accepts, and
no row that cannot be read comes within the first `limit` of them. -/
theorem reembed_converges_iff (engine : MemoryEngine) (env : Env) (limit : Nat) (hWf : db.Wf) :
    engine.Converges env limit db ↔ ∀ before r after, engine.backlog db = before ++ r :: after →
      (engine.accepts db r → before.countP (fun m => !engine.accepts db m) < limit) ∧
      (¬ Readable db r → limit ≤ before.countP fun m => !engine.accepts db m) := by
  rw [converges_iff_settles env limit hWf, settles_iff]
  rfl

end Passes

/-! ## A row that is refused -/

/-- An engine of another model, whose embedder refuses one letter. -/
def pickyEngine : MemoryEngine where
  ns := .global
  isAlphanumeric := Char.isAlphanum
  toLowercase := id
  enrich := none
  modelId := ['n']
  embed := fun input => if 'a' ∈ input then .error (.storage "refused") else .ok [[1]]

/-- Two memories with the stamp of the first model, of which the older is refused. -/
def staleNote (id : Nat) (content : Text) : MemoryNote :=
  lengthEngine.noteFor ⟨id⟩ ⟨0, 0⟩ { raceInput with content := content }

def staleStore : Db :=
  storeAfter Env.blank 1 [.insertMemory 0 (staleNote 1 ['a']) none, .insertMemory 0 (staleNote 2 ['b']) none]

theorem staleStore_wf : staleStore.Wf := storeAfter_wf

theorem staleStore_backlog : pickyEngine.backlog staleStore =
    [noteRow (staleNote 1 ['a']), noteRow (staleNote 2 ['b'])] := by decide +kernel

/-- With room for one row, every pass meets the refused row and no other. -/
theorem refused_row_blocks : ¬ pickyEngine.Converges Env.blank 1 staleStore := by
  rw [converges_iff_settles _ _ staleStore_wf, settles_iff]
  intro hClear
  have hRoom := (hClear [noteRow (staleNote 1 ['a'])] _ [] staleStore_backlog).1 (by decide +kernel)
  exact absurd hRoom (by decide +kernel)

/-- With room for both, the passes converge. -/
theorem reembed_converges_iff_room : pickyEngine.Converges Env.blank 2 staleStore := by
  refine (reembed_converges_iff pickyEngine Env.blank 2 staleStore_wf).mpr fun before r after hSplit => ?_
  have hLength := congrArg List.length hSplit
  rw [staleStore_backlog, length_append] at hLength
  have hRead : ∀ m ∈ pickyEngine.backlog staleStore, Readable staleStore m := by
    rw [staleStore_backlog]
    decide +kernel
  refine ⟨fun _ => countP_le_length.trans_lt ?_, fun hUnread => absurd (hRead r ?_) hUnread⟩
  · simp only [length_cons, length_nil] at hLength
    omega
  · rw [hSplit]
    exact mem_append_right _ mem_cons_self

end RustyBrain.Engine
