import RustyBrain.Engine.Ranking
import RustyBrain.Engine.Recall

/-!
# rusty-brain — what a recall may return

`recall_with_status` takes candidates from a backend it does not trust: whatever ids the
three channels bring, in whatever order and however often, what is returned was read from
the store, checked against the filter, and listed once. The channels are therefore
arguments here, and scores are values of any linear order.

## Results

* `recallWithStatus_via` — the recall on the channels of the store.
-/

namespace RustyBrain.Engine

open Store Transaction List

variable {e : Option Embedding} {ids : List MemoryId}

variable {db : Db} {ns : Namespace} {env : Env} {hits : List (MemoryId × ℚ)} {query : Text}
  {f : RecallFilter} {limit : Nat} {filter : RecallFilter}

variable {S : Type} [LinearOrder S]

/-- What the backend and the embedder answer in one recall: whether the query could not be
embedded, the ids of the two direct channels, whether the probes without the filter found
anything, and the neighbours of a memory. -/
structure Legs where
  degraded : Bool
  keyword : List MemoryId
  vector : List (MemoryId × ℚ)
  excluded : Bool
  graph : MemoryId → List (MemoryId × Nat)

/-- How a fusion mode scores: the score of a record among all records, the priors of a
note, and the two bars that only the linear mode has, scaled for a note. The floor of a
note also depends on whether it is a keyword hit. -/
structure Scale (S : Type) where
  score : DateTime → List Signals → Signals → S
  prior : MemoryNote → S → S
  floor : Option (MemoryNote → Bool → S)
  bar : Option (MemoryNote → S)

/-- `rb_types::SearchResult`, with a score of the scale. -/
structure Hit (S : Type) where
  memory : MemoryNote
  score : S
  fts : Bool
  vector : Bool
  graph : Bool
  stale : Bool
  contested : Bool := false

/-- `RecallOutcome`, with scores of the scale. -/
structure Recalled (S : Type) where
  results : List (Hit S)
  degraded : Bool
  abstained : Option AbstainReason
  snapshot : Option CorpusSnapshot

/-- `candidate_limit`: how many ids each direct channel is asked for. -/
def candidateLimit (limit : Nat) : Nat := max (limit * 4) limit

/-- The metadata of the notes that were kept. -/
def metaOf (notes : List MemoryNote) (id : MemoryId) : Option Meta :=
  (notes.find? fun n => n.id = id).map fun n => ⟨n.importance, n.confidence, n.createdAt⟩

/-- The score of a ranked candidate with the priors of its note. -/
def Scale.adjusted (scale : Scale S) (notes : List MemoryNote) (c : MemoryId × S) : MemoryId × S :=
  match notes.find? fun n => n.id = c.1 with
  | some n => (c.1, scale.prior n c.2)
  | none => c

/-- A ranked candidate as a result, unless its note was dropped or its score is below its
floor. -/
def Scale.admitted (scale : Scale S) (keyword : List MemoryId) (vector : List (MemoryId × ℚ))
    (graph : List (MemoryId × Nat)) (repo : Option RepoSnapshot) (notes : List MemoryNote)
    (c : MemoryId × S) : Option (Hit S) :=
  (notes.find? fun n => n.id = c.1).bind fun n =>
    if scale.floor.any fun floor => decide (c.2 < floor n (decide (c.1 ∈ keyword))) then none
    else some
      { memory := n
        score := c.2
        fts := c.1 ∈ keyword
        vector := c.1 ∈ vector.map Prod.fst
        graph := c.1 ∈ graph.map Prod.fst
        stale := evaluateStaleness n.anchors repo }

/-- The loop that assembles the results up to the limit. The limit is checked after a result
was added. -/
def collect {α β : Type} (limit : Nat) (admitted : α → Option β) : List β → List α → List β
  | out, [] => out
  | out, c :: rest =>
    match admitted c with
    | some r =>
      if (out ++ [r]).length = limit then out ++ [r] else collect limit admitted (out ++ [r]) rest
    | none => collect limit admitted out rest

/-- The abstention gate: the best result is below the bar. -/
def Scale.abstains (scale : Scale S) : List (Hit S) → Bool
  | top :: _ => scale.bar.any fun bar => decide (top.score < bar top.memory)
  | [] => false

/-- The candidates of a recall after the priors, best first. -/
def Scale.rankedFor (scale : Scale S) (now : DateTime) (signals : List Signals)
    (notes : List MemoryNote) : List (MemoryId × S) :=
  ((rank (scale.score now) signals signals.length).map (scale.adjusted notes)).insertionSort
    fun a b => b.2 ≤ a.2

/-- The part of `recall_with_status` after the reads: from the candidates of the channels and
the notes fetched for them to the outcome. -/
def MemoryEngine.conclude (engine : MemoryEngine) (scale : Scale S) (reads : RecallReads)
    (limit : Nat) (filter : RecallFilter) (degraded excluded : Bool) (keyword : List MemoryId)
    (vector : List (MemoryId × ℚ)) (graph : List (MemoryId × Nat)) (fetched : List MemoryNote) :
    Recalled S :=
  let eligible := fetched.filter (engine.recallable filter)
  let disputed := reads.disputes.activeContradicts engine.ns (eligible.map MemoryNote.id)
  let notes := eligible.filter fun n => contestedAsAsked filter disputed n.id
  let filterDropped := excluded || fetched.any (fun n => !filter.matches n) ||
    decide (notes.length < eligible.length)
  let known := fun id => decide (id ∈ notes.map MemoryNote.id)
  let signals := buildSignals (keyword.filter known) (vector.filter fun c => known c.1)
    (graph.filter fun c => known c.1) (metaOf notes)
  let found := collect limit (scale.admitted keyword vector graph reads.repo notes) []
    (scale.rankedFor reads.now signals notes)
  let results := if scale.abstains found then [] else found
  let abstained : Option AbstainReason :=
    if scale.abstains found then some .belowThreshold
    else if results ≠ [] then none
    else if degraded then some .degradedBackend
    else if filterDropped then some .filterExcluded
    else if (keyword ++ vector.map Prod.fst ++ graph.map Prod.fst).eraseDups = [] ∨ notes = [] then
      some .noCandidates
    else some .belowThreshold
  let contested := if filter.contested.isSome then disputed
    else reads.flags.activeContradicts engine.ns (results.map fun r => r.memory.id)
  { results := results.map fun r => { r with contested := decide (r.memory.id ∈ contested) }
    degraded := degraded
    abstained := abstained
    snapshot := some (reads.snapshot.corpusSnapshot engine.ns) }

/-- `recall_with_status`, on what the legs answer. -/
def MemoryEngine.recallVia (engine : MemoryEngine) (scale : Scale S) (legs : Legs)
    (reads : RecallReads) (limit : Nat) (filter : RecallFilter) : Result (Recalled S) := do
  filter.validate
  let keyword := legs.keyword
  let vector := if legs.degraded ∨ filter.state = .archived then [] else legs.vector
  let excluded := decide (limit ≠ 0 ∧ filter ≠ {} ∧ keyword = [] ∧ vector = []) && !legs.degraded &&
    legs.excluded
  let seed ← engine.graphSeed reads.seed filter
    (reads.seedDisputes.activeContradicts engine.ns keyword) keyword
  let graph := seed.elim [] legs.graph
  let order := (keyword ++ vector.map Prod.fst ++ graph.map Prod.fst).eraseDups
  let fetched ← reads.fetch.getMany engine.ns order
  pure (engine.conclude scale reads limit filter legs.degraded excluded keyword vector graph fetched)

/-! ## The loop -/

section

variable {α β γ : Type} {admitted : α → Option β} {limit : Nat}

/-- The loop adds admitted candidates in their order, and stops somewhere. -/
theorem collect_sublist (limit : Nat) (admitted : α → Option β) (out : List β) (ranked : List α) :
    ∃ more, collect limit admitted out ranked = out ++ more ∧
      more.Sublist (ranked.filterMap admitted) := by
  induction ranked generalizing out with
  | nil => exact ⟨[], (append_nil _).symm, .slnil⟩
  | cons c rest ih =>
    unfold collect
    cases hAdmitted : admitted c with
    | none =>
      rw [filterMap_cons_none hAdmitted]
      exact ih out
    | some r =>
      rw [filterMap_cons_some hAdmitted]
      dsimp only
      split
      · exact ⟨[r], rfl, (nil_sublist _).cons_cons r⟩
      · obtain ⟨more, hEq, hSub⟩ := ih (out ++ [r])
        exact ⟨r :: more, by rw [hEq, append_assoc]; rfl, hSub.cons_cons r⟩

/-- A loop that starts below the limit ends at it. -/
theorem collect_length (admitted : α → Option β) {out : List β} (hRoom : out.length < limit)
    (ranked : List α) : (collect limit admitted out ranked).length ≤ limit := by
  induction ranked generalizing out with
  | nil => exact hRoom.le
  | cons c rest ih =>
    unfold collect
    cases admitted c with
    | none => exact ih hRoom
    | some r =>
      dsimp only
      split
      · rename_i hFull
        exact hFull.le
      · rename_i hNotFull
        rw [length_append, length_singleton] at hNotFull
        refine ih ?_
        rw [length_append, length_singleton]
        omega

/-- What an admitted candidate keeps of itself appears in the order of the candidates. -/
theorem filterMap_map_sublist {f : β → γ} {g : α → γ}
    (hKeeps : ∀ c r, admitted c = some r → f r = g c) (ranked : List α) :
    ((ranked.filterMap admitted).map f).Sublist (ranked.map g) := by
  induction ranked with
  | nil => exact .slnil
  | cons c rest ih =>
    cases hAdmitted : admitted c with
    | none =>
      rw [filterMap_cons_none hAdmitted]
      exact ih.cons (g c)
    | some r =>
      rw [filterMap_cons_some hAdmitted, map_cons, map_cons, hKeeps c r hAdmitted]
      exact ih.cons_cons (g c)

end

/-! ## Candidates -/

section

variable {scale : Scale S} {keyword : List MemoryId} {vector : List (MemoryId × ℚ)}
  {graph : List (MemoryId × Nat)} {repo : Option RepoSnapshot} {notes : List MemoryNote}

/-- A result is the note of its candidate, with the score of the candidate. -/
theorem Scale.admitted_some {c : MemoryId × S} {r : Hit S}
    (h : scale.admitted keyword vector graph repo notes c = some r) :
    r.memory ∈ notes ∧ r.memory.id = c.1 ∧ r.score = c.2 := by
  obtain ⟨n, hFind, h⟩ := Option.bind_eq_some_iff.mp h
  obtain ⟨-, hResult⟩ := Option.ite_none_left_eq_some.mp h
  rw [← Option.some.inj hResult]
  refine ⟨mem_of_find?_eq_some hFind, ?_, rfl⟩
  simpa using find?_some hFind

omit [LinearOrder S] in
theorem Scale.adjusted_fst (c : MemoryId × S) : (scale.adjusted notes c).1 = c.1 := by
  unfold Scale.adjusted
  split <;> rfl

theorem Scale.rankedFor_nodup (now : DateTime) {signals : List Signals}
    (h : (signals.map Signals.id).Nodup) :
    ((scale.rankedFor now signals notes).map Prod.fst).Nodup := by
  have hRank := rank_nodup (scale.score now) h signals.length
  unfold Scale.rankedFor
  rw [((perm_insertionSort _ _).map Prod.fst).nodup_iff, map_map]
  have hSame : Prod.fst ∘ scale.adjusted notes = Prod.fst := funext fun c => scale.adjusted_fst c
  rw [hSame]
  exact hRank

theorem Scale.rankedFor_sorted (now : DateTime) (signals : List Signals) :
    ((scale.rankedFor now signals notes).map Prod.snd).Pairwise fun a b => b ≤ a := by
  rw [pairwise_map]
  exact pairwise_insertionSort _ _

end

/-! ## The recall -/

section

variable {engine : MemoryEngine} {scale : Scale S} {legs : Legs} {reads : RecallReads}
  {limit : Nat} {filter : RecallFilter} {out : Recalled S}

/-- The notes that a recall kept: read from the store, recallable, and on the side of a
dispute that the filter asks for. -/
structure Kept (engine : MemoryEngine) (filter : RecallFilter) (reads : RecallReads)
    (notes : List MemoryNote) : Prop where
  row : ∀ n ∈ notes, ∃ m ∈ reads.fetch.memories, m.ns = engine.ns.asDbString ∧
    reads.fetch.rowToNote m = .ok n
  recallable : ∀ n ∈ notes, engine.recallable filter n = true
  asked : ∀ n ∈ notes, ∀ want ∈ filter.contested,
    (reads.disputes.Contested engine.ns n.id ↔ want = true)

/-- How the outcome of a recall comes about: the results are collected from the kept notes
in ranked order, and withheld when the best is below the bar. -/
structure Formed (scale : Scale S) (reads : RecallReads) (limit : Nat) (notes : List MemoryNote)
    (found : List (Hit S)) (out : Recalled S) : Prop where
  collected : ∃ keyword vector graph signals, (signals.map Signals.id).Nodup ∧
    found = collect limit (scale.admitted keyword vector graph reads.repo notes) []
      (scale.rankedFor reads.now signals notes)
  results : ∃ disputed : Finset MemoryId,
    out.results = (if scale.abstains found then [] else found).map fun r =>
      { r with contested := decide (r.memory.id ∈ disputed) }
  reason : out.abstained.isSome = true ↔ scale.abstains found = true ∨ found = []

/-- The notes that survive the filters of a fetch are kept notes. -/
theorem kept_of_fetched {fetched : List MemoryNote}
    (hFetched : reads.fetch.getMany engine.ns ids = .ok fetched) :
    Kept engine filter reads ((fetched.filter (engine.recallable filter)).filter fun n =>
      contestedAsAsked filter (reads.disputes.activeContradicts engine.ns
        ((fetched.filter (engine.recallable filter)).map MemoryNote.id)) n.id) := by
  refine ⟨fun n hn => ?_, fun n hn => ?_, fun n hn want hWant => ?_⟩
  · exact getMany_mem hFetched (mem_of_mem_filter (mem_of_mem_filter hn))
  · exact (mem_filter.mp (mem_of_mem_filter hn)).2
  · obtain ⟨hEligible, hAsked⟩ := mem_filter.mp hn
    have hSide : decide (n.id ∈ reads.disputes.activeContradicts engine.ns
        ((fetched.filter (engine.recallable filter)).map MemoryNote.id)) = want := by
      rw [contestedAsAsked, Option.mem_def.mp hWant] at hAsked
      simpa using hAsked
    rw [← hSide, decide_eq_true_eq, Db.mem_activeContradicts]
    exact ⟨fun h => ⟨h, mem_map_of_mem hEligible⟩, fun h => h.1⟩

omit [LinearOrder S] in
/-- A reason is reported exactly when nothing is returned. -/
theorem reason_isSome {found : List (Hit S)} {gate degraded dropped : Bool} {bare : Prop}
    [Decidable bare] :
    (if gate then some AbstainReason.belowThreshold
      else if (if gate then [] else found) ≠ [] then none
      else if degraded then some .degradedBackend
      else if dropped then some .filterExcluded
      else if bare then some .noCandidates
      else some .belowThreshold).isSome = true ↔ gate = true ∨ found = [] := by
  cases gate with
  | true => simp
  | false =>
    by_cases hFound : found = []
    · rw [hFound]
      cases degraded <;> cases dropped <;> simp
      split <;> rfl
    · simp [hFound]

/-- Without candidates nothing is fetched. -/
theorem getMany_nil {notes : List MemoryNote} (h : db.getMany ns [] = .ok notes) : notes = [] := by
  simp only [Db.getMany, except_bind_ok] at h
  obtain ⟨found, -, h⟩ := h
  exact (Except.ok.inj h).symm

/-- A recall forms its outcome from kept notes, of which there are none without candidates. -/
theorem recallVia_formed (h : engine.recallVia scale legs reads limit filter = .ok out) :
    ∃ notes found, Kept engine filter reads notes ∧ Formed scale reads limit notes found out ∧
      (legs.keyword = [] → legs.vector = [] → notes = []) := by
  simp only [MemoryEngine.recallVia, except_bind_ok] at h
  obtain ⟨_, -, seed, hSeed, fetched, hFetched, h⟩ := h
  cases h
  refine ⟨_, _, kept_of_fetched hFetched, ⟨⟨_, _, _, _, buildSignals_nodup .., rfl⟩,
    ⟨_, rfl⟩, ?_⟩, ?_⟩
  · exact reason_isSome
  · -- the graph channel starts from a keyword hit, so it brings nothing either
    intro hKeyword hVector
    rw [hKeyword] at hSeed
    cases hSeed
    rw [hKeyword, hVector] at hFetched
    have hEmpty : reads.fetch.getMany engine.ns [] = .ok fetched := by simpa using hFetched
    rw [getMany_nil hEmpty]
    rfl

variable {notes : List MemoryNote} {found : List (Hit S)}

section

variable (h : Formed scale reads limit notes found out)

include h

/-- Results are kept notes. -/
theorem Formed.memory_mem {r : Hit S} (hr : r ∈ out.results) : r.memory ∈ notes := by
  obtain ⟨disputed, hResults⟩ := h.results
  obtain ⟨keyword, vector, graph, signals, -, hFound⟩ := h.collected
  rw [hResults] at hr
  obtain ⟨hit, hHit, rfl⟩ := mem_map.mp hr
  split at hHit
  · cases hHit
  · obtain ⟨more, hMore, hSub⟩ := collect_sublist limit
      (scale.admitted keyword vector graph reads.repo notes) []
      (scale.rankedFor reads.now signals notes)
    rw [hFound, hMore, nil_append] at hHit
    obtain ⟨c, -, hAdmitted⟩ := mem_filterMap.mp (hSub.subset hHit)
    exact (Scale.admitted_some hAdmitted).1

/-- Ids and scores of the results are in the order of the ranking. -/
theorem Formed.sublists :
    ∃ signals, (signals.map Signals.id).Nodup ∧
      (out.results.map fun r => r.memory.id).Sublist
        ((scale.rankedFor reads.now signals notes).map Prod.fst) ∧
      (out.results.map Hit.score).Sublist
        ((scale.rankedFor reads.now signals notes).map Prod.snd) := by
  obtain ⟨disputed, hResults⟩ := h.results
  obtain ⟨keyword, vector, graph, signals, hNodup, hFound⟩ := h.collected
  obtain ⟨more, hMore, hSub⟩ := collect_sublist limit
    (scale.admitted keyword vector graph reads.repo notes) []
    (scale.rankedFor reads.now signals notes)
  have hIds : (((scale.rankedFor reads.now signals notes).filterMap
      (scale.admitted keyword vector graph reads.repo notes)).map fun r => r.memory.id).Sublist
        ((scale.rankedFor reads.now signals notes).map Prod.fst) :=
    filterMap_map_sublist (fun c r hr => (Scale.admitted_some hr).2.1) _
  have hScores : (((scale.rankedFor reads.now signals notes).filterMap
      (scale.admitted keyword vector graph reads.repo notes)).map Hit.score).Sublist
        ((scale.rankedFor reads.now signals notes).map Prod.snd) :=
    filterMap_map_sublist (fun c r hr => (Scale.admitted_some hr).2.2) _
  refine ⟨signals, hNodup, ?_⟩
  -- the flag of a dispute changes neither
  rw [hResults, map_map, map_map]
  split
  · exact ⟨nil_sublist _, nil_sublist _⟩
  · rw [hFound, hMore, nil_append]
    exact ⟨(hSub.map _).trans hIds, (hSub.map _).trans hScores⟩

/-- No more results than the limit, which a limit of zero owes to the channels. -/
theorem Formed.length_le (hNone : limit = 0 → notes = []) : out.results.length ≤ limit := by
  rcases Nat.eq_zero_or_pos limit with hZero | hPos
  · have hEmpty : out.results = [] := by
      refine eq_nil_iff_forall_not_mem.mpr fun r hr => ?_
      have hMem := h.memory_mem hr
      rw [hNone hZero] at hMem
      cases hMem
    rw [hEmpty]
    exact Nat.zero_le _
  · obtain ⟨disputed, hResults⟩ := h.results
    obtain ⟨keyword, vector, graph, signals, -, hFound⟩ := h.collected
    rw [hResults, length_map]
    split
    · exact Nat.zero_le _
    · rw [hFound]
      exact collect_length _ (show ([] : List (Hit S)).length < limit from hPos) _

/-- Nothing is returned exactly when a reason is given. -/
theorem Formed.nil_iff :
    out.results = [] ↔ out.abstained.isSome = true := by
  obtain ⟨disputed, hResults⟩ := h.results
  rw [h.reason, hResults, map_eq_nil_iff]
  cases scale.abstains found <;> simp

end

/-- A recall returns only admissible results, for any answers of its channels that keep to
the number of ids asked for, and for any scores. -/
theorem recall_returns_admissible
    (hKeyword : legs.keyword.length ≤ candidateLimit limit)
    (hVector : legs.vector.length ≤ candidateLimit limit)
    (h : engine.recallVia scale legs reads limit filter = .ok out) :
    (∀ r ∈ out.results,
      (∃ m ∈ reads.fetch.memories, m.ns = engine.ns.asDbString ∧
        reads.fetch.rowToNote m = .ok r.memory) ∧
      r.memory.ns = engine.ns ∧ filter.matches r.memory = true ∧
      (∀ want ∈ filter.contested,
        (reads.disputes.Contested engine.ns r.memory.id ↔ want = true)) ∧
      r.memory.isQuarantined = false ∧ recallMinEligibleConfidence ≤ r.memory.confidence) ∧
    (out.results.map fun r => r.memory.id).Nodup ∧
    out.results.length ≤ limit ∧
    (out.results.map Hit.score).Pairwise (fun a b => b ≤ a) ∧
    (out.results = [] ↔ out.abstained.isSome = true) := by
  obtain ⟨notes, found, hKept, hFormed, hNone⟩ := recallVia_formed h
  obtain ⟨signals, hNodup, hIds, hScores⟩ := hFormed.sublists
  have hZero : limit = 0 → notes = [] := by
    intro hLimit
    subst hLimit
    exact hNone (length_eq_zero_iff.mp (Nat.le_zero.mp hKeyword))
      (length_eq_zero_iff.mp (Nat.le_zero.mp hVector))
  refine ⟨fun r hr => ?_, (Scale.rankedFor_nodup reads.now hNodup).sublist hIds,
    hFormed.length_le hZero, (Scale.rankedFor_sorted reads.now signals).sublist hScores,
    hFormed.nil_iff⟩
  have hMem := hFormed.memory_mem hr
  have hRecallable := hKept.recallable _ hMem
  simp only [MemoryEngine.recallable, Bool.and_eq_true, decide_eq_true_eq,
    Bool.not_eq_true'] at hRecallable
  obtain ⟨⟨⟨hNs, hMatches⟩, hTrusted⟩, hFloor⟩ := hRecallable
  exact ⟨hKept.row _ hMem, hNs, hMatches, hKept.asked _ hMem, hTrusted, hFloor⟩

end

/-- A keyword channel that brings the one decision twice, and a memory that is not there. -/
def repeatedLegs : Legs := ⟨true, [⟨1⟩, ⟨9⟩, ⟨1⟩], [], false, fun _ => [(⟨1⟩, 1)]⟩

/-- Scores that do not tell candidates apart, without bars. -/
def flatScale : Scale Nat := ⟨fun _ _ _ => 1, fun _ s => s, none, none⟩

/-- The result for these channels: the decision is returned once. -/
theorem recall_returns_admissible_repeated : ∃ out,
    globalEngine.recallVia flatScale repeatedLegs (.still decidedStore ⟨0, 0⟩) 2 {} = .ok out ∧
    (out.results.map fun r => r.memory.id) = [⟨1⟩] ∧ out.results.length ≤ 2 ∧
    (out.results = [] ↔ out.abstained.isSome = true) := by
  have hIds : (globalEngine.recallVia flatScale repeatedLegs (.still decidedStore ⟨0, 0⟩) 2
      {}).toOption.map (fun out => out.results.map fun r => r.memory.id) = some [⟨1⟩] := by
    decide +kernel
  obtain ⟨out, hRun, hOne⟩ := except_toOption_map hIds
  obtain ⟨-, -, hRoom, -, hReason⟩ := recall_returns_admissible (by decide) (by decide) hRun
  exact ⟨out, hRun, hOne, hRoom, hReason⟩

/-! ## The channels of the store -/

/-- The loop of the recall on the store is the same loop. -/
theorem assemble_eq_collect {admitted : MemoryId × ℚ → Option SearchResult}
    {admitted' : MemoryId × ℚ → Option (Hit ℚ)} {f : Hit ℚ → SearchResult}
    (hSame : ∀ c, admitted c = (admitted' c).map f) (out : List (Hit ℚ))
    (ranked : List (MemoryId × ℚ)) :
    assemble limit admitted (out.map f) ranked = (collect limit admitted' out ranked).map f := by
  induction ranked generalizing out with
  | nil => rfl
  | cons c rest ih =>
    unfold assemble collect
    rw [hSame c]
    cases admitted' c with
    | none => exact ih out
    | some r =>
      have hNext : out.map f ++ [f r] = (out ++ [r]).map f := by rw [map_append]; rfl
      simp only [Option.map_some, hNext, length_map, ih]
      split <;> rfl

/-- The scale of a ranker that scores the records of the candidates. -/
def Ranker.scale (ranker : Ranker) (score : DateTime → List Signals → Signals → ℚ) : Scale ℚ where
  score := score
  prior := fun n s =>
    f32Mul (if n.sessionId.isSome then f32Mul s sessionProvenanceScoreMultiplier else s)
      (scoreMultiplier n.trustClass)
  floor := if ranker.linear then
      some fun n keyword => scaledBar n ranker.scoreFloor
        (if keyword then min ranker.scoreFloor durableKeywordScoreFloor else ranker.scoreFloor)
    else none
  bar := if ranker.linear then
      ranker.abstainThreshold.map fun threshold n => scaledBar n threshold threshold
    else none

/-- A hit as the recall on the store reports it. -/
def Hit.toResult (r : Hit ℚ) : SearchResult :=
  ⟨r.memory, r.score, r.fts, r.vector, r.graph, r.stale, r.contested⟩

section Store

variable {ranker : Ranker} {score : DateTime → List Signals → Signals → ℚ} {notes : List MemoryNote}

theorem withPriors_eq (c : MemoryId × ℚ) :
    withPriors notes c = (ranker.scale score).adjusted notes c := by
  unfold withPriors Scale.adjusted
  cases notes.find? fun n => n.id = c.1 <;> rfl

theorem admitted_eq (keyword : List MemoryId) (vector : List (MemoryId × ℚ))
    (graph : List (MemoryId × Nat)) (repo : Option RepoSnapshot) (c : MemoryId × ℚ) :
    ranker.admitted keyword vector graph repo notes c =
      ((ranker.scale score).admitted keyword vector graph repo notes c).map Hit.toResult := by
  unfold Ranker.admitted Scale.admitted
  cases notes.find? fun n => n.id = c.1 with
  | none => rfl
  | some n =>
    simp only [Option.bind_some, Ranker.scale]
    by_cases hLinear : ranker.linear = true
    · simp only [hLinear, if_true, Option.any_some, decide_eq_true_eq, true_and]
      rw [apply_ite (Option.map Hit.toResult)]
      rfl
    · simp only [hLinear]
      rfl

theorem abstains_eq (found : List (Hit ℚ)) :
    ranker.abstains (found.map Hit.toResult) = (ranker.scale score).abstains found := by
  cases found with
  | nil => cases hThreshold : ranker.abstainThreshold <;> simp [Ranker.abstains, hThreshold] <;> rfl
  | cons top rest =>
    unfold Ranker.abstains Scale.abstains Ranker.scale
    cases ranker.abstainThreshold <;> cases ranker.linear <;> rfl

/-- Neither direct channel brings more ids than it was asked for. -/
theorem keywordSearchFiltered_length {fts : Fts}
    (h : db.keywordSearchFiltered fts ns query limit f = .ok ids) : ids.length ≤ limit := by
  simp only [Db.keywordSearchFiltered, except_bind_ok] at h
  obtain ⟨_, -, h⟩ := h
  split at h
  · cases h
    rw [length_map, length_take]
    exact Nat.min_le_left _ _
  · cases h

theorem vectorSearchEligible_length {e : Embedding}
    (h : db.vectorSearchEligible env ns e limit f = .ok hits) : hits.length ≤ limit := by
  simp only [Db.vectorSearchEligible, except_bind_ok] at h
  obtain ⟨_, -, h⟩ := h
  split_ifs at h
  cases h
  rw [length_map, length_take]
  omega

theorem probeLoop_length {out near : List (MemoryId × ℚ)} (hRoom : out.length < limit)
    (h : db.probeLoop ns limit out near = some hits) : hits.length ≤ limit := by
  obtain ⟨rfl, -⟩ := probeLoop_ready hRoom h
  rw [length_append, length_take]
  omega

theorem vectorSearchFiltered_length {e : Embedding}
    (h : db.vectorSearchFiltered env ns e limit f = .ok hits) : hits.length ≤ limit := by
  simp only [Db.vectorSearchFiltered, except_bind_ok] at h
  obtain ⟨_, -, h⟩ := h
  by_cases hDim : e.length ≠ db.embeddingDim
  · rw [if_pos hDim] at h
    cases h
  rw [if_neg hDim] at h
  by_cases hNone : limit = 0 ∨ f.state = .archived
  · rw [if_pos hNone] at h
    cases h
    exact Nat.zero_le _
  rw [if_neg hNone] at h
  have hPos : 0 < limit := Nat.pos_of_ne_zero fun hZero => hNone (.inl hZero)
  by_cases hPlain : f = {}
  · rw [if_pos hPlain, Db.vectorSearch, if_neg hDim, if_neg hPos.ne'] at h
    split at h
    · rename_i hLoop
      cases h
      exact probeLoop_length (show ([] : List (MemoryId × ℚ)).length < limit from hPos) hLoop
    · exact vectorSearchEligible_length h
  · rw [if_neg hPlain] at h
    exact vectorSearchEligible_length h

variable {engine : MemoryEngine}

theorem vectorChannel_length (h : engine.vectorChannel env db e limit filter = .ok hits) :
    hits.length ≤ limit ∧ (e = none ∨ filter.state = .archived → hits = []) := by
  unfold MemoryEngine.vectorChannel at h
  cases e with
  | none =>
    cases h
    exact ⟨Nat.zero_le _, fun _ => rfl⟩
  | some v =>
    dsimp only at h
    split at h
    · cases h
      exact ⟨Nat.zero_le _, fun _ => rfl⟩
    · rename_i hState
      refine ⟨vectorSearchFiltered_length h, ?_⟩
      rintro (hNone | hArchived)
      · cases hNone
      · exact absurd hArchived hState

/-- The probes find something only where the direct channels brought nothing. -/
theorem filterExcludedDirect_true {ranker : Ranker} {direct : List MemoryId}
    (h : engine.filterExcludedDirect env ranker db query e limit filter direct = .ok true) :
    e ≠ none ∧ limit ≠ 0 ∧ filter ≠ {} ∧ direct = [] := by
  unfold MemoryEngine.filterExcludedDirect at h
  cases e with
  | none => cases h
  | some v =>
    dsimp only at h
    split at h
    · cases h
    · rename_i hProbed
      push Not at hProbed
      exact ⟨Option.some_ne_none v, hProbed⟩

/-- The legs are what the embedder and the channels of the store answer. Of the neighbours, a
recall asks for those of its seed. -/
structure Answer (engine : MemoryEngine) (env : Env) (ranker : Ranker) (reads : RecallReads)
    (query : Text) (limit : Nat) (filter : RecallFilter) (legs : Legs) : Prop where
  degraded : legs.degraded = decide (ranker.embedded query = none)
  keyword : reads.keyword.keywordSearchFiltered ranker.fts engine.ns query (candidateLimit limit)
    filter = .ok legs.keyword
  vector : engine.vectorChannel env reads.vector (ranker.embedded query) (candidateLimit limit)
    filter = .ok legs.vector
  excluded : engine.filterExcludedDirect env ranker reads.probe query (ranker.embedded query) limit
    filter (legs.keyword ++ legs.vector.map Prod.fst) = .ok legs.excluded
  graph : ∀ seed, engine.graphSeed reads.seed filter
      (reads.seedDisputes.activeContradicts engine.ns legs.keyword) legs.keyword = .ok seed →
    engine.graphChannel reads.graph seed = .ok (seed.elim [] legs.graph)

variable (score) in
/-- The recall on the channels of the store is a recall on what they answer. -/
theorem recallWithStatus_via {reads : RecallReads} {out : RecallOutcome}
    (hRank : ranker.rank = fun keyword vector graph notes now =>
      rank (score now) (buildSignals keyword vector graph (metaOf notes))
        (buildSignals keyword vector graph (metaOf notes)).length)
    (h : engine.recallWithStatus env ranker reads query limit filter = .ok out) :
    ∃ (legs : Legs) (via : Recalled ℚ), Answer engine env ranker reads query limit filter legs ∧
      legs.keyword.length ≤ candidateLimit limit ∧
      legs.vector.length ≤ candidateLimit limit ∧
      engine.recallVia (ranker.scale score) legs reads limit filter = .ok via ∧
      out = ⟨via.results.map Hit.toResult, via.degraded, via.abstained, via.snapshot⟩ := by
  simp only [MemoryEngine.recallWithStatus, except_bind_ok] at h
  obtain ⟨_, hValid, keyword, hKeyword, vector, hVector, excluded, hExcluded, seed, hSeed, graph,
    hGraph, fetched, hFetched, h⟩ := h
  cases h
  obtain ⟨hLength, hSkipped⟩ := vectorChannel_length hVector
  set embedding := ranker.embedded query with hEmb
  -- what the recall makes of the answers is the answers themselves
  have hSame : (if (decide (embedding = none) = true) ∨ filter.state = .archived then [] else vector) =
      vector := by
    split
    · rename_i hSkip
      exact (hSkipped (hSkip.imp_left of_decide_eq_true)).symm
    · rfl
  have hNear : seed.elim [] (fun _ => graph) = graph := by
    cases seed with
    | none => exact (Except.ok.inj hGraph)
    | some top => rfl
  have hProbed : (decide (limit ≠ 0 ∧ filter ≠ {} ∧ keyword = [] ∧ vector = []) &&
      !decide (embedding = none) && excluded) = excluded := by
    cases excluded with
    | false => exact Bool.and_false _
    | true =>
      obtain ⟨hSome, hLimit, hFilter, hDirect⟩ := filterExcludedDirect_true hExcluded
      rw [append_eq_nil_iff, map_eq_nil_iff] at hDirect
      simp [hSome, hLimit, hFilter, hDirect]
  refine ⟨⟨decide (embedding = none), keyword, vector, excluded, fun _ => graph⟩,
    engine.conclude (ranker.scale score) reads limit filter (decide (embedding = none)) excluded
      keyword vector graph fetched, ⟨rfl, hKeyword, hVector, hExcluded, ?_⟩,
    keywordSearchFiltered_length hKeyword, hLength, ?_, ?_⟩
  · intro top hTop
    obtain rfl := Except.ok.inj (hSeed.symm.trans hTop)
    rw [hNear]
    exact hGraph
  · simp only [MemoryEngine.recallVia, except_bind_ok]
    refine ⟨_, hValid, seed, hSeed, fetched, ?_, ?_⟩
    · rw [hSame, hNear]
      exact hFetched
    · rw [hSame, hNear, hProbed]
      rfl
  · have hPriors : ∀ notes, withPriors notes = (ranker.scale score).adjusted notes :=
      fun notes => funext withPriors_eq
    have hFound : ∀ notes ranked,
        assemble limit (ranker.admitted keyword vector graph reads.repo notes) [] ranked =
          (collect limit ((ranker.scale score).admitted keyword vector graph reads.repo notes) []
            ranked).map Hit.toResult :=
      fun notes ranked => assemble_eq_collect (admitted_eq keyword vector graph reads.repo) [] ranked
    have hAbstains : ∀ found : List (Hit ℚ),
        ranker.abstains (found.map Hit.toResult) = (ranker.scale score).abstains found :=
      abstains_eq
    have hGate : ∀ (gate : Bool) (found : List (Hit ℚ)), (if gate then [] else
        found.map Hit.toResult) = (if gate then [] else found).map Hit.toResult := by
      intro gate found
      cases gate <;> rfl
    simp only [hRank, hPriors, hFound, hAbstains, hGate, map_map, map_eq_nil_iff, ne_eq,
      decide_eq_true_eq,
      MemoryEngine.conclude, Scale.rankedFor]
    rfl

/-- Every document matches, and all scores are the same. -/
def flatRanker : Ranker :=
  ⟨fun _ => .ok [[0, 1]], ⟨fun _ _ _ => some 0, fun _ => true⟩, fun keyword vector graph notes _ =>
    let signals := buildSignals keyword vector graph (metaOf notes)
    rank (fun _ _ => 1) signals signals.length, false, 0, none⟩

/-- The result at a recall that finds something. -/
theorem recallWithStatus_via_decided : ∃ out legs via,
    globalEngine.recallWithStatus .blank flatRanker (.still decidedStore ⟨0, 0⟩) ['a'] 2 {} = .ok out ∧
    out.results ≠ [] ∧
    Answer globalEngine .blank flatRanker (.still decidedStore ⟨0, 0⟩) ['a'] 2 {} legs ∧
    globalEngine.recallVia (flatRanker.scale fun _ _ _ => 1) legs (.still decidedStore ⟨0, 0⟩) 2 {} =
      .ok via ∧
    out = ⟨via.results.map Hit.toResult, via.degraded, via.abstained, via.snapshot⟩ := by
  have hFound : (globalEngine.recallWithStatus .blank flatRanker (.still decidedStore ⟨0, 0⟩) ['a'] 2
      {}).toOption.any (fun out => !out.results.isEmpty) = true := by
    decide +kernel
  rcases hOut : globalEngine.recallWithStatus .blank flatRanker (.still decidedStore ⟨0, 0⟩) ['a'] 2 {}
    with _ | out
  · simp [hOut, Except.toOption] at hFound
  · obtain ⟨legs, via, hLegs, -, -, hVia, hEq⟩ := recallWithStatus_via (fun _ _ _ => 1) rfl hOut
    refine ⟨out, legs, via, rfl, ?_, hLegs, hVia, hEq⟩
    simpa [hOut, Except.toOption] using hFound

end Store

end RustyBrain.Engine
