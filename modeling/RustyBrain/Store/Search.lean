import RustyBrain.Store.ReviewQueue

/-!
# rusty-brain — keyword and vector search

The two retrieval channels of a recall: `keyword_search_filtered` over the full-text index
and `vector_search_filtered` over the vector table. The full-text index ranks documents as
SQLite does; here the rank is a parameter, a function of all indexed documents, the query
expression and the document. The vector table returns the nearest of the vectors it may look at,
in one fixed order, up to its cap.
-/

namespace RustyBrain.Store

open Transaction List

/-! ## Keywords -/

/-- What the full-text index holds of a memory. -/
structure FtsDoc where
  content : Text
  summary : Text
  keywords : Text
  tags : Text
  deriving DecidableEq

def MemoryRow.ftsDoc (m : MemoryRow) : FtsDoc := ⟨m.content, m.summary, m.keywords, m.tags⟩

/-- SQLite's full-text search and the character class of `char::is_alphanumeric`. The rank of a
document in an index, or `none` if it does not match; a lower rank is a better match. -/
structure Fts where
  rank : List FtsDoc → Text → FtsDoc → Option ℚ
  isAlphanumeric : Char → Bool

/-- `escape_fts5_query`: the words of the query, each as a phrase, joined by `OR`. -/
def escapeFts5Query (isAlphanumeric : Char → Bool) (query : Text) : Text :=
  let tokens := (query.splitOnP fun c => !isAlphanumeric c).filter (· ≠ [])
  if tokens = [] then ['"', '"']
  else List.intercalate [' ', 'O', 'R', ' '] (tokens.map fun t => '"' :: t ++ ['"'])

/-- The terms of `build_recall_predicate`. -/
def Db.RecallTerms (db : Db) (ns : Namespace) (f : RecallFilter) (m : MemoryRow) : Prop :=
  db.FilterTerms ns f m ∧ EligibleTerms m
  deriving Decidable

/-- A row that the tag terms of a filter can be evaluated on. -/
def TagsReadable (ns : Namespace) (f : RecallFilter) (m : MemoryRow) : Prop :=
  f.tags ≠ [] → PlainTerms ns f m → (JsonStrings.decode m.tags).isSome
  deriving Decidable

/-- `keyword_search_filtered`: the rows that match the query and the terms, best first. -/
def Db.keywordSearchFiltered (fts : Fts) (db : Db) (ns : Namespace) (query : Text) (limit : Nat)
    (f : RecallFilter) : Result (List MemoryId) := do
  f.validate
  let rank := fun m : MemoryRow => fts.rank (db.memories.map MemoryRow.ftsDoc)
    (escapeFts5Query fts.isAlphanumeric query) m.ftsDoc
  if ∀ m ∈ db.memories, (rank m).isSome → TagsReadable ns f m then
    let hits := db.memories.filter fun m => (rank m).isSome ∧ db.RecallTerms ns f m
    pure (((hits.insertionSort fun a b => (rank a).getD 0 ≤ (rank b).getD 0).take limit).map
      MemoryRow.memoryId)
  else throw (.storage "malformed JSON")

/-! ## Vectors -/

/-- The vectors of a namespace with their distances from a query, nearest first. -/
def Db.nearest (env : Env) (db : Db) (ns : Namespace) (e : Embedding) : List VectorRow :=
  (db.vectors.filter fun v => v.ns = ns.asDbString).insertionSort fun a b =>
    env.distance e a.embedding ≤ env.distance e b.embedding

/-- A vector as a search reports it. -/
def hit (env : Env) (e : Embedding) (v : VectorRow) : MemoryId × ℚ :=
  (v.memoryId, f32Round (env.distance e v.embedding))

/-- The memory of a vector passes a filter and is active. -/
def Db.VectorEligible (db : Db) (ns : Namespace) (f : RecallFilter) (id : MemoryId) : Prop :=
  ∃ m ∈ db.memories, m.memoryId = id ∧ db.RecallTerms ns f m ∧ m.archivedAt = none
  deriving Decidable

/-- The vector table refuses a query of another dimension than its own. -/
def queryMismatch (dim : Nat) (e : Embedding) : Error :=
  .storage ("Dimension mismatch for query vector for the \"embedding\" column. " ++
    s!"Expected {dim} dimensions but received {e.length}.")

/-- `vector_search_eligible`: the nearest of the vectors whose memories pass the filter. -/
def Db.vectorSearchEligible (env : Env) (db : Db) (ns : Namespace) (e : Embedding) (limit : Nat)
    (f : RecallFilter) : Result (List (MemoryId × ℚ)) := do
  f.validate
  if ∀ m ∈ db.memories, TagsReadable ns f m then
    if e.length = db.embeddingDim then
      pure ((((db.nearest env ns e).filter fun v => db.VectorEligible ns f v.memoryId).take
        (min limit 4096)).map (hit env e))
    else throw (queryMismatch db.embeddingDim e)
  else throw (.storage "malformed JSON")

/-- The probe of `vector_search` for one neighbour. -/
def Db.Probe (db : Db) (ns : Namespace) (id : MemoryId) : Prop :=
  ∃ m ∈ db.memories, m.memoryId = id ∧ m.ns = ns.asDbString ∧ m.archivedAt = none ∧ EligibleTerms m
  deriving Decidable

/-- The loop of `vector_search` over the neighbours; `none` when one of them is not eligible. -/
def Db.probeLoop (db : Db) (ns : Namespace) (limit : Nat) :
    List (MemoryId × ℚ) → List (MemoryId × ℚ) → Option (List (MemoryId × ℚ))
  | out, [] => some out
  | out, c :: rest =>
    if db.Probe ns c.1 then
      if limit ≤ (out ++ [c]).length then some (out ++ [c]) else probeLoop db ns limit (out ++ [c]) rest
    else none

/-- `vector_search`. -/
def Db.vectorSearch (env : Env) (db : Db) (ns : Namespace) (e : Embedding) (limit : Nat) :
    Result (List (MemoryId × ℚ)) :=
  if e.length ≠ db.embeddingDim then .error (.dimensionMismatch db.embeddingDim e.length)
  else if limit = 0 then .ok []
  else
    match db.probeLoop ns limit []
      (((db.nearest env ns e).take (min (max (limit * 10) limit) 4096)).map (hit env e)) with
    | some out => .ok out
    | none => db.vectorSearchEligible env ns e limit {}

/-- `vector_search_filtered`. -/
def Db.vectorSearchFiltered (env : Env) (db : Db) (ns : Namespace) (e : Embedding) (limit : Nat)
    (f : RecallFilter) : Result (List (MemoryId × ℚ)) := do
  f.validate
  if e.length ≠ db.embeddingDim then throw (.dimensionMismatch db.embeddingDim e.length)
  else if limit = 0 ∨ f.state = .archived then pure []
  else if f = {} then db.vectorSearch env ns e limit
  else db.vectorSearchEligible env ns e limit f

/-! ## The fast path -/

section

variable {env : Env} {db : Db} {ns : Namespace}

/-- The two separately written predicates accept the same memories. -/
theorem vectorEligible_default (id : MemoryId) : db.VectorEligible ns {} id ↔ db.Probe ns id := by
  -- of the default filter only the namespace and the active state are left
  have hTerms : ∀ m : MemoryRow, db.FilterTerms ns {} m ↔ m.ns = ns.asDbString ∧ m.archivedAt = none := by
    intro m
    simp [Db.FilterTerms, PlainTerms, stateTerm]
  unfold Db.VectorEligible Db.Probe Db.RecallTerms
  simp only [hTerms]
  constructor
  · rintro ⟨m, hm, hId, ⟨⟨hNs, hActive⟩, hEligible⟩, -⟩
    exact ⟨m, hm, hId, hNs, hActive, hEligible⟩
  · rintro ⟨m, hm, hId, hNs, hActive, hEligible⟩
    exact ⟨m, hm, hId, ⟨⟨hNs, hActive⟩, hEligible⟩, hActive⟩

/-- The loop has handed out the first neighbours, all of which are eligible. -/
theorem probeLoop_ready {limit : Nat} {out near hits : List (MemoryId × ℚ)} (hRoom : out.length < limit)
    (h : db.probeLoop ns limit out near = some hits) :
    hits = out ++ near.take (limit - out.length) ∧
      ∀ c ∈ near.take (limit - out.length), db.Probe ns c.1 := by
  induction near generalizing out with
  | nil =>
    cases h
    simp
  | cons c rest ih =>
    obtain ⟨k, hk⟩ : ∃ k, limit - out.length = k + 1 := ⟨limit - out.length - 1, by omega⟩
    have hNext : limit - (out ++ [c]).length = k := by
      rw [length_append, length_singleton]
      omega
    rw [hk, take_succ_cons]
    unfold Db.probeLoop at h
    split at h
    · rename_i hProbe
      split at h
      · -- the limit is reached with this neighbour
        rename_i hFull
        have hLast : k = 0 := by omega
        cases h
        rw [hLast, take_zero]
        exact ⟨rfl, fun d hd => mem_singleton.mp hd ▸ hProbe⟩
      · rename_i hMore
        obtain ⟨hHits, hAll⟩ := ih (Nat.not_le.mp hMore) h
        rw [hNext] at hHits hAll
        refine ⟨by rw [hHits, append_assoc]; rfl, fun d hd => ?_⟩
        rcases mem_cons.mp hd with rfl | hd
        · exact hProbe
        · exact hAll d hd
    · cases h

/-- Neighbours that all pass the prefilter are what the prefiltered search takes. -/
theorem take_filter_of_all {α : Type} {p : α → Bool} {xs : List α} {n : Nat}
    (h : ∀ x ∈ xs.take n, p x = true) : (xs.filter p).take n = xs.take n := by
  rw [← take_append_drop n xs, filter_append, filter_eq_self.mpr h,
    take_append_drop]
  by_cases hShort : xs.length ≤ n
  · rw [drop_eq_nil_of_le hShort, filter_nil, append_nil]
    exact take_of_length_le (by rw [length_take]; omega)
  · refine take_left' ?_
    rw [length_take]
    omega

/-- The prefiltered search with the default filter fails for nothing but the dimension. -/
theorem vectorSearchEligible_default (e : Embedding) (limit : Nat) :
    db.vectorSearchEligible env ns e limit {} =
      if e.length = db.embeddingDim then
        .ok ((((db.nearest env ns e).filter fun v => db.Probe ns v.memoryId).take
          (min limit 4096)).map (hit env e))
      else .error (queryMismatch db.embeddingDim e) := by
  have hValid : RecallFilter.validate {} = .ok () := by decide
  have hTags : ∀ m ∈ db.memories, TagsReadable ns {} m := fun m _ hTags => absurd rfl hTags
  unfold Db.vectorSearchEligible
  rw [hValid]
  show (if _ then _ else _) = _
  rw [if_pos hTags]
  simp only [vectorEligible_default]
  rfl

end

/-- **Vector search.** For a query of the store's dimension the fast path returns the list of the
prefiltered search with the default filter, whatever the table holds; both refuse another query.
Of a prefiltered `LIMIT 0`, which reads no table, nothing is said. -/
theorem vectorSearch_eq_eligible (env : Env) (db : Db) (ns : Namespace) (e : Embedding)
    (limit : Nat) :
    if e.length = db.embeddingDim then
      ∃ hits, db.vectorSearchEligible env ns e limit {} = .ok hits ∧
        db.vectorSearch env ns e limit = .ok hits
    else
      db.vectorSearch env ns e limit = .error (.dimensionMismatch db.embeddingDim e.length) ∧
        (limit = 0 ∨ db.vectorSearchEligible env ns e limit {} =
          .error (queryMismatch db.embeddingDim e)) := by
  rw [vectorSearchEligible_default]
  split
  · next hDim =>
    refine ⟨_, rfl, ?_⟩
    rw [Db.vectorSearch, if_neg (not_not.mpr hDim)]
    by_cases hZero : limit = 0
    · rw [if_pos hZero, hZero]
      rfl
    · rw [if_neg hZero]
      cases hLoop : db.probeLoop ns limit []
          (((db.nearest env ns e).take (min (max (limit * 10) limit) 4096)).map (hit env e)) with
      | none => exact (vectorSearchEligible_default e limit).trans (if_pos hDim)
      | some out =>
        obtain ⟨rfl, hAll⟩ := probeLoop_ready (show ([] : List (MemoryId × ℚ)).length < limit by
          simpa using Nat.pos_of_ne_zero hZero) hLoop
        -- the over-fetch reaches at least as far as the answer does
        have hReach : ((db.nearest env ns e).take (min (max (limit * 10) limit) 4096)).take limit =
            (db.nearest env ns e).take (min limit 4096) := by
          rw [take_take]
          congr 1
          omega
        simp only [length_nil, Nat.sub_zero, ← map_take, hReach] at hAll
        simp only [length_nil, Nat.sub_zero, ← map_take, hReach, nil_append]
        rw [take_filter_of_all]
        intro v hv
        exact decide_eq_true (hAll (hit env e v) (mem_map_of_mem hv))
  · next hDim => exact ⟨if_pos hDim, .inr rfl⟩

end RustyBrain.Store
