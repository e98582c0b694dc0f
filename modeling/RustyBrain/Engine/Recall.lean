import RustyBrain.Engine.Context
import RustyBrain.Store.Search

/-!
# rusty-brain — recall

`MemoryEngine::recall_with_status`: three channels bring candidates, one batch fetch reads
them, whatever is quarantined or has lost all confidence is dropped, and the rest is ranked,
cut off at a floor and at the limit, or withheld altogether.

The reads of a recall are made one by one on a store that other clients write to, so each of
them has a store of its own here. How candidates are scored is a parameter.

## Results

* `recallWithStatus_results` — every memory that a recall returns is a row of the store that
  its batch fetch met, and is neither quarantined nor out of the namespace or the filter.
-/

namespace RustyBrain.Store

/-- `get_many`: the notes of a namespace for the ids asked for, in their order. -/
def Db.getMany (db : Db) (ns : Namespace) (ids : List MemoryId) : Result (List MemoryNote) := do
  let found ← (db.memories.filter fun m => m.ns = ns.asDbString ∧ m.memoryId ∈ ids).mapM db.rowToNote
  pure (ids.filterMap fun id => found.find? fun n => n.id = id)

/-- `graph_neighbors` at depth one: the targets of a memory's links, by id. -/
def Db.graphNeighbors (db : Db) (id : MemoryId) : List MemoryId :=
  ((db.links.filter fun l => l.sourceId = id ∧ l.targetId ≠ id).map LinkRow.targetId).eraseDups
    |>.insertionSort fun a b => a.uuid ≤ b.uuid

/-- `graph` at depth one: the neighbours of an active memory that are active themselves, one
hop away. -/
def Db.graph (db : Db) (ns : Namespace) (id : MemoryId) : Result (List (MemoryId × Nat)) := do
  match ← db.getMemory id with
  | none => pure []
  | some anchor =>
    if anchor.ns ≠ ns ∨ anchor.archivedAt.isSome then pure []
    else
      (db.graphNeighbors id).filterMapM fun target => do
        match ← db.getMemory target with
        | some n => pure (if n.ns = ns ∧ n.archivedAt = none then some (target, 1) else none)
        | none => pure none

end RustyBrain.Store

namespace RustyBrain.Engine

open Store Transaction

/-! ## Scores -/

/-- The product of two `f32` values. -/
def f32Mul (a b : ℚ) : ℚ := f32Round (a * b)

/-- `SESSION_PROVENANCE_SCORE_MULTIPLIER`, the `f32` nearest to 0.4. -/
def sessionProvenanceScoreMultiplier : ℚ := 13421773 / 2 ^ 25

/-- `DURABLE_KEYWORD_SCORE_FLOOR`, the `f32` nearest to 0.15. -/
def durableKeywordScoreFloor : ℚ := 5033165 / 2 ^ 25

/-- `TrustClass::score_multiplier`: the `f32` values of 1, 0.95, 0.9, 0.8 and 0.7. -/
def scoreMultiplier : TrustClass → ℚ
  | .measuredCi => 1
  | .measuredLocal => 15938355 / 2 ^ 24
  | .humanConfirmed => 7549747 / 2 ^ 23
  | .agentAttested => 13421773 / 2 ^ 24
  | .inferredActivity => 11744051 / 2 ^ 24

/-- What a recall takes from outside: the embedding of a query, full-text search, and the
scores of `rb_search` for the candidates of the three channels and their notes; and the
thresholds it was configured with. `linear` is the default fusion mode. -/
structure Ranker where
  embedQuery : Text → Result (List Embedding)
  fts : Fts
  rank : List MemoryId → List (MemoryId × ℚ) → List (MemoryId × Nat) → List MemoryNote →
    DateTime → List (MemoryId × ℚ)
  linear : Bool
  scoreFloor : ℚ
  abstainThreshold : Option ℚ

/-- `rb_types::AbstainReason`. -/
inductive AbstainReason where
  | noCandidates | belowThreshold | filterExcluded | degradedBackend
  deriving DecidableEq, Repr

/-- `rb_types::SearchResult`, with the dispute flag of the memory beside it. -/
structure SearchResult where
  memory : MemoryNote
  score : ℚ
  fts : Bool
  vector : Bool
  graph : Bool
  stale : Bool
  contested : Bool := false
  deriving DecidableEq

variable {notes : List MemoryNote} {r : SearchResult}

/-- `RecallOutcome`. -/
structure RecallOutcome where
  results : List SearchResult
  degraded : Bool
  abstained : Option AbstainReason
  snapshot : Option CorpusSnapshot
  deriving DecidableEq

/-- The stores that the reads of one recall meet, in their order, the state of the repository
and the clock. -/
structure RecallReads where
  keyword : Db
  vector : Db
  probe : Db
  seedDisputes : Db
  seed : Db
  graph : Db
  fetch : Db
  disputes : Db
  snapshot : Db
  flags : Db
  repo : Option RepoSnapshot
  now : DateTime

/-- A recall on a store that nobody else writes to. -/
def RecallReads.still (db : Db) (now : DateTime) : RecallReads :=
  ⟨db, db, db, db, db, db, db, db, db, db, none, now⟩

/-! ## Candidates -/

/-- What a candidate must be to be recalled: of the namespace, of the filter, and neither
quarantined nor below the confidence floor. -/
def MemoryEngine.recallable (engine : MemoryEngine) (filter : RecallFilter) (n : MemoryNote) : Bool :=
  n.ns = engine.ns && filter.matches n && !n.isQuarantined &&
    decide (recallMinEligibleConfidence ≤ n.confidence)

/-- A set of disputed memories has a memory on the side that the filter asks for. -/
def contestedAsAsked (filter : RecallFilter) (disputed : Finset MemoryId) (id : MemoryId) : Bool :=
  filter.contested.all fun want => decide (id ∈ disputed) = want

/-- The vector channel: archived memories have no vectors, and without an embedding of the
query there is nothing to compare. -/
def MemoryEngine.vectorChannel (engine : MemoryEngine) (env : Env) (db : Db)
    (embedding : Option Embedding) (limit : Nat) (filter : RecallFilter) :
    Result (List (MemoryId × ℚ)) :=
  match embedding with
  | some e =>
    if filter.state = .archived then pure []
    else db.vectorSearchFiltered env engine.ns e limit filter
  | none => pure []

/-- Whether only the filter keeps the query from having candidates, probed when the two direct
channels brought none. -/
def MemoryEngine.filterExcludedDirect (engine : MemoryEngine) (env : Env) (ranker : Ranker) (db : Db)
    (query : Text) (embedding : Option Embedding) (limit : Nat) (filter : RecallFilter)
    (direct : List MemoryId) : Result Bool :=
  match embedding with
  | some e =>
    if limit = 0 ∨ filter = {} ∨ direct ≠ [] then pure false
    else do
      let scopeOnly : RecallFilter := { state := filter.state }
      let found ← db.keywordSearchFiltered ranker.fts engine.ns query 1 scopeOnly
      let near ← if found ≠ [] ∨ filter.state = .archived then pure []
        else db.vectorSearchFiltered env engine.ns e 1 scopeOnly
      pure (found ≠ [] ∨ near ≠ [])
  | none => pure false

/-- The first keyword hit that may be recalled, whose neighbours the graph channel brings. -/
def MemoryEngine.graphSeed (engine : MemoryEngine) (db : Db) (filter : RecallFilter)
    (disputed : Finset MemoryId) : List MemoryId → Result (Option MemoryId)
  | [] => pure none
  | id :: rest => do
    match ← db.getMemory id with
    | some n =>
      if engine.recallable filter n && contestedAsAsked filter disputed id then pure (some id)
      else engine.graphSeed db filter disputed rest
    | none => engine.graphSeed db filter disputed rest

/-- The graph channel: the neighbours of the seed. -/
def MemoryEngine.graphChannel (engine : MemoryEngine) (db : Db) :
    Option MemoryId → Result (List (MemoryId × Nat))
  | some top => db.graph engine.ns top
  | none => pure []

/-! ## Results -/

/-- The score of a candidate with the priors of its session and its trust class. -/
def withPriors (notes : List MemoryNote) (c : MemoryId × ℚ) : MemoryId × ℚ :=
  match notes.find? fun n => n.id = c.1 with
  | some n =>
    (c.1, f32Mul (if n.sessionId.isSome then f32Mul c.2 sessionProvenanceScoreMultiplier else c.2)
      (scoreMultiplier n.trustClass))
  | none => c

/-- The bar for a note, given the one for its kind: both priors apply to it as to a score. -/
def scaledBar (n : MemoryNote) (session other : ℚ) : ℚ :=
  f32Mul (if n.sessionId.isSome then f32Mul session sessionProvenanceScoreMultiplier else other)
    (scoreMultiplier n.trustClass)

/-- A ranked candidate as a result, unless its note was dropped or its score is below its
floor. Only the linear mode has floors. -/
def Ranker.admitted (ranker : Ranker) (keyword : List MemoryId) (vector : List (MemoryId × ℚ))
    (graph : List (MemoryId × Nat)) (repo : Option RepoSnapshot) (notes : List MemoryNote)
    (c : MemoryId × ℚ) : Option SearchResult :=
  (notes.find? fun n => n.id = c.1).bind fun n =>
    if ranker.linear ∧ c.2 < scaledBar n ranker.scoreFloor
        (if c.1 ∈ keyword then min ranker.scoreFloor durableKeywordScoreFloor
          else ranker.scoreFloor) then none
    else some
      { memory := n
        score := c.2
        fts := c.1 ∈ keyword
        vector := c.1 ∈ vector.map Prod.fst
        graph := c.1 ∈ graph.map Prod.fst
        stale := evaluateStaleness n.anchors repo }

/-- The loop that assembles the results in ranked order up to the limit. -/
def assemble (limit : Nat) (admitted : MemoryId × ℚ → Option SearchResult) :
    List SearchResult → List (MemoryId × ℚ) → List SearchResult
  | out, [] => out
  | out, c :: rest =>
    match admitted c with
    | some r =>
      if (out ++ [r]).length = limit then out ++ [r] else assemble limit admitted (out ++ [r]) rest
    | none => assemble limit admitted out rest

/-- The abstention gate: the best result is below the threshold. -/
def Ranker.abstains (ranker : Ranker) (results : List SearchResult) : Bool :=
  match ranker.abstainThreshold, results with
  | some threshold, top :: _ =>
    ranker.linear && decide (top.score < scaledBar top.memory threshold threshold)
  | _, _ => false

/-- The vector of the query, unless the embedder fails. -/
def Ranker.embedded (ranker : Ranker) (query : Text) : Option Embedding :=
  (ranker.embedQuery query).toOption.map fun es => es.getLast?.getD []

/-- `recall_with_status`. -/
def MemoryEngine.recallWithStatus (engine : MemoryEngine) (env : Env) (ranker : Ranker)
    (reads : RecallReads) (query : Text) (limit : Nat) (filter : RecallFilter) :
    Result RecallOutcome := do
  filter.validate
  let candidateLimit := max (limit * 4) limit
  let embedding := ranker.embedded query
  let keyword ← reads.keyword.keywordSearchFiltered ranker.fts engine.ns query candidateLimit filter
  let vector ← engine.vectorChannel env reads.vector embedding candidateLimit filter
  let excluded ← engine.filterExcludedDirect env ranker reads.probe query embedding limit filter
    (keyword ++ vector.map Prod.fst)
  let seed ← engine.graphSeed reads.seed filter
    (reads.seedDisputes.activeContradicts engine.ns keyword) keyword
  let graph ← engine.graphChannel reads.graph seed
  let order := (keyword ++ vector.map Prod.fst ++ graph.map Prod.fst).eraseDups
  let fetched ← reads.fetch.getMany engine.ns order
  let eligible := fetched.filter (engine.recallable filter)
  let disputed := reads.disputes.activeContradicts engine.ns (eligible.map MemoryNote.id)
  let notes := eligible.filter fun n => contestedAsAsked filter disputed n.id
  let filterDropped := excluded || fetched.any (fun n => !filter.matches n) ||
    decide (notes.length < eligible.length)
  let known := fun id => decide (id ∈ notes.map MemoryNote.id)
  let ranked := ((ranker.rank (keyword.filter known) (vector.filter fun c => known c.1)
    (graph.filter fun c => known c.1) notes reads.now).map (withPriors notes)).insertionSort
    fun a b => b.2 ≤ a.2
  let found := assemble limit (ranker.admitted keyword vector graph reads.repo notes) [] ranked
  let abstains := ranker.abstains found
  let results := if abstains then [] else found
  let abstained : Option AbstainReason :=
    if abstains then some .belowThreshold
    else if results ≠ [] then none
    else if embedding = none then some .degradedBackend
    else if filterDropped then some .filterExcluded
    else if order = [] ∨ notes = [] then some .noCandidates
    else some .belowThreshold
  let contested := if filter.contested.isSome then disputed
    else reads.flags.activeContradicts engine.ns (results.map fun r => r.memory.id)
  pure
    { results := results.map fun r => { r with contested := decide (r.memory.id ∈ contested) }
      degraded := embedding = none
      abstained := abstained
      snapshot := some (reads.snapshot.corpusSnapshot engine.ns) }

/-! ## What is returned -/

section

variable {engine : MemoryEngine} {env : Env} {ranker : Ranker} {reads : RecallReads} {query : Text}
  {limit : Nat} {filter : RecallFilter} {out : RecallOutcome}

/-- A batch fetch hands out decoded rows of the namespace. -/
theorem getMany_mem {db : Db} {ns : Namespace} {ids : List MemoryId}
    (h : db.getMany ns ids = .ok notes) {n : MemoryNote} (hn : n ∈ notes) :
    ∃ m ∈ db.memories, m.ns = ns.asDbString ∧ db.rowToNote m = .ok n := by
  simp only [Db.getMany, except_bind_ok] at h
  obtain ⟨found, hFound, h⟩ := h
  cases h
  obtain ⟨id, -, hFind⟩ := List.mem_filterMap.mp hn
  have hMem : n ∈ found := List.mem_of_find?_eq_some hFind
  obtain ⟨m, hm, hNote⟩ := (except_mapM_mem hFound).mp hMem
  obtain ⟨hRow, hTerms⟩ := List.mem_filter.mp hm
  exact ⟨m, hRow, (of_decide_eq_true hTerms).1, hNote⟩

/-- What the loop assembles was there before or was admitted. -/
theorem assemble_mem {admitted : MemoryId × ℚ → Option SearchResult} {out : List SearchResult}
    {ranked : List (MemoryId × ℚ)} (h : r ∈ assemble limit admitted out ranked) :
    r ∈ out ∨ ∃ c ∈ ranked, admitted c = some r := by
  induction ranked generalizing out with
  | nil => exact .inl h
  | cons c rest ih =>
    unfold assemble at h
    have hStep : ∀ {r' : SearchResult}, admitted c = some r' → r ∈ out ++ [r'] →
        r ∈ out ∨ ∃ c' ∈ c :: rest, admitted c' = some r := by
      intro r' hAdmitted hMem
      rcases mem_concat.mp hMem with hOld | rfl
      · exact .inl hOld
      · exact .inr ⟨c, List.mem_cons_self, hAdmitted⟩
    have hLater : (r ∈ out ∨ ∃ c' ∈ rest, admitted c' = some r) →
        r ∈ out ∨ ∃ c' ∈ c :: rest, admitted c' = some r :=
      Or.imp_right fun ⟨c', hc', hAdmitted⟩ => ⟨c', List.mem_cons_of_mem _ hc', hAdmitted⟩
    cases hAdmitted : admitted c with
    | none =>
      rw [hAdmitted] at h
      exact hLater (ih h)
    | some r' =>
      rw [hAdmitted] at h
      dsimp only at h
      split at h
      · exact hStep hAdmitted h
      · rcases ih h with hMem | hRest
        · exact hStep hAdmitted hMem
        · exact hLater (.inr hRest)

theorem admitted_memory {keyword : List MemoryId} {vector : List (MemoryId × ℚ)}
    {graph : List (MemoryId × Nat)} {repo : Option RepoSnapshot}
    {c : MemoryId × ℚ}
    (h : ranker.admitted keyword vector graph repo notes c = some r) : r.memory ∈ notes := by
  obtain ⟨n, hFind, h⟩ := Option.bind_eq_some_iff.mp h
  obtain ⟨-, hResult⟩ := Option.ite_none_left_eq_some.mp h
  rw [← Option.some.inj hResult]
  exact List.mem_of_find?_eq_some hFind

/-- What a recall returns comes from the rows that its batch fetch met and may be recalled. -/
theorem recallWithStatus_results
    (h : engine.recallWithStatus env ranker reads query limit filter = .ok out) :
    ∀ r ∈ out.results, engine.recallable filter r.memory = true ∧
      ∃ m ∈ reads.fetch.memories, m.ns = engine.ns.asDbString ∧
        reads.fetch.rowToNote m = .ok r.memory := by
  simp only [MemoryEngine.recallWithStatus, except_bind_ok] at h
  obtain ⟨_, -, keyword, -, vector, -, excluded, -, seed, -, graph, -, fetched, hFetched, h⟩ := h
  cases h
  intro r hr
  obtain ⟨found, hFound, rfl⟩ := List.mem_map.mp hr
  -- an abstaining recall returns nothing
  split at hFound
  · cases hFound
  · rcases assemble_mem hFound with hNone | ⟨c, -, hAdmitted⟩
    · cases hNone
    · obtain ⟨hEligible, -⟩ := List.mem_filter.mp (admitted_memory hAdmitted)
      obtain ⟨hNote, hRecallable⟩ := List.mem_filter.mp hEligible
      exact ⟨hRecallable, getMany_mem hFetched hNote⟩

end

end RustyBrain.Engine
