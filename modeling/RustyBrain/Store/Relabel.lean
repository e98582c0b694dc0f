import RustyBrain.Store.Search
import RustyBrain.Store.Stats

/-!
# rusty-brain — namespaces under other names

Reads that are scoped to a namespace compare the namespace columns of rows with one text and
do nothing else with them. Two stores that differ in what the namespaces are called therefore
answer such reads in the same way, each under its own name.

## Results

* `Mirrors.listFiltered`, `Mirrors.keywordSearchFiltered`, `Mirrors.vectorSearchFiltered`,
  `Mirrors.reviewQueue`, `Mirrors.figures` — one for each read.
-/

namespace RustyBrain.Store

open Transaction List

variable {le : MemoryRow → MemoryRow → Prop} {m : MemoryRow}

/-! ## Rows under another name -/

section

variable (f : Text ≃ Text)

def MemoryRow.relabel (m : MemoryRow) : MemoryRow := { m with ns := f m.ns }

def AnchorRow.relabel (a : AnchorRow) : AnchorRow := { a with ns := f a.ns }

def VectorRow.relabel (v : VectorRow) : VectorRow := { v with ns := f v.ns }

def ReviewRow.relabel (r : ReviewRow) : ReviewRow := { r with ns := f r.ns }

end

/-- `db'` is `db` with the namespaces renamed by `f`, as far as reads of `ns` in `db` and of
`ns'` in `db'` can tell. Of the vectors only those of the one namespace keep their order. -/
structure Mirrors (f : Text ≃ Text) (ns ns' : Namespace) (db db' : Db) : Prop where
  home : ns'.asDbString = f ns.asDbString
  memories : db'.memories = db.memories.map (MemoryRow.relabel f)
  links : db'.links = db.links
  anchors : db'.anchors = db.anchors.map (AnchorRow.relabel f)
  reviewState : db'.reviewState = db.reviewState.map (ReviewRow.relabel f)
  dim : db'.embeddingDim = db.embeddingDim
  «partition» : db'.vectors.filter (fun v => v.ns = ns'.asDbString) =
    (db.vectors.filter fun v => v.ns = ns.asDbString).map (VectorRow.relabel f)
  vector : ∀ id, db'.vectors.find? (fun v => v.memoryId = id) =
    (db.vectors.find? fun v => v.memoryId = id).map (VectorRow.relabel f)
  touched : ∀ id since, db'.TouchedSince id since ↔ db.TouchedSince id since

section Lists

variable {α β γ δ ε : Type}

/-- A traversal of a mapped list whose results are mapped. -/
theorem mapM_map_ok {l : List α} {g : α → β} {k : β → Except ε δ} {k₀ : α → Except ε γ} {φ : γ → δ}
    (h : ∀ a ∈ l, k (g a) = (k₀ a).map φ) : (l.map g).mapM k = (l.mapM k₀).map (List.map φ) := by
  induction l with
  | nil => rfl
  | cons a l ih =>
    rw [map_cons, mapM_cons, mapM_cons, h a mem_cons_self,
      ih fun x hx => h x (mem_cons_of_mem _ hx)]
    cases k₀ a with
    | error e => rfl
    | ok c => cases l.mapM k₀ <;> rfl

theorem exists_mem_map {l : List α} {g : α → β} {p : β → Prop} :
    (∃ b ∈ l.map g, p b) ↔ ∃ a ∈ l, p (g a) := by
  simp

theorem map_bind_ok (x : Except ε α) (k : α → Except ε β) (φ : β → γ) :
    (x >>= k).map φ = x >>= fun a => (k a).map φ := by
  cases x <;> rfl

end Lists

namespace Mirrors

variable {f : Text ≃ Text} {ns ns' : Namespace} {db db' : Db} (h : Mirrors f ns ns' db db')

include h

/-! ## Terms -/

theorem ns_iff (x : Text) : f x = ns'.asDbString ↔ x = ns.asDbString := by
  rw [h.home]
  exact f.apply_eq_iff_eq

variable {p q : MemoryRow → Prop}

/-- The rows that a read selects are the same ones. -/
theorem filter [DecidablePred p] [DecidablePred q]
    (hp : ∀ m ∈ db.memories, (q (m.relabel f) ↔ p m)) :
    db'.memories.filter q = (db.memories.filter p).map (MemoryRow.relabel f) := by
  rw [h.memories, filter_map]
  congr 1
  refine filter_congr fun m hm => ?_
  rw [Function.comp_apply]
  exact decide_eq_decide.mpr (hp m hm)

omit h in
/-- They come in the same order, for an order that does not look at the namespace. -/
theorem select [DecidableRel le]
    (hLe : ∀ a b, le a b ↔ le (a.relabel f) (b.relabel f)) (rows : List MemoryRow) (limit : Nat) :
    ((rows.map (MemoryRow.relabel f)).insertionSort le).take limit =
      ((rows.insertionSort le).take limit).map (MemoryRow.relabel f) := by
  rw [← map_insertionSort le le (MemoryRow.relabel f) rows fun a _ b _ => hLe a b, map_take]

theorem forall_memories (hp : ∀ m, q (m.relabel f) ↔ p m) :
    (∀ m ∈ db'.memories, q m) ↔ ∀ m ∈ db.memories, p m := by
  rw [h.memories, forall_mem_map]
  exact forall₂_congr fun m _ => hp m

theorem exists_memories (hp : ∀ m, q (m.relabel f) ↔ p m) :
    (∃ m ∈ db'.memories, q m) ↔ ∃ m ∈ db.memories, p m := by
  rw [h.memories, exists_mem_map]
  exact exists_congr fun m => and_congr_right fun _ => hp m

variable (id : MemoryId)

theorem farEnd : db'.FarEnd ns' id ↔ db.FarEnd ns id :=
  h.exists_memories fun m => and_congr_right fun _ => and_congr_right fun _ => h.ns_iff m.ns

theorem find : db'.find id = (db.find id).map (MemoryRow.relabel f) := by
  unfold Db.find
  rw [h.memories, find?_map]
  rfl

theorem listContested (m : MemoryRow) :
    db'.ListContested ns' (m.relabel f) ↔ db.ListContested ns m := by
  have hFar := h.farEnd
  unfold Db.FarEnd at hFar
  unfold Db.ListContested
  simp only [h.links, hFar]
  rfl

theorem contested : db'.Contested ns' id ↔ db.Contested ns id := by
  simp only [Db.contested_iff, h.links, h.farEnd]

omit h in
theorem stateTerm (state : MemoryState) (m : MemoryRow) :
    Store.stateTerm state (m.relabel f) ↔ Store.stateTerm state m := by
  cases state <;> exact Iff.rfl

variable (filter : RecallFilter)

theorem plainTerms (m : MemoryRow) :
    PlainTerms ns' filter (m.relabel f) ↔ PlainTerms ns filter m :=
  and_congr (h.ns_iff m.ns) (and_congr (stateTerm filter.state m) Iff.rfl)

theorem anchorTerm (filter : AnchorFilter) (m : MemoryRow) :
    db'.AnchorTerm ns' filter (m.relabel f) ↔ db.AnchorTerm ns filter m := by
  unfold Db.AnchorTerm
  rw [h.anchors, exists_mem_map]
  refine exists_congr fun a => and_congr_right fun _ => and_congr_right fun _ => ?_
  exact and_congr (h.ns_iff a.ns) Iff.rfl

theorem filterTerms (m : MemoryRow) :
    db'.FilterTerms ns' filter (m.relabel f) ↔ db.FilterTerms ns filter m := by
  refine and_congr (h.plainTerms filter m) (and_congr Iff.rfl (and_congr ?_ ?_))
  · exact forall₂_congr fun a _ => h.anchorTerm a m
  · exact forall₂_congr fun want _ => iff_congr (h.listContested m) Iff.rfl

theorem tagsReadable (m : MemoryRow) :
    TagsReadable ns' filter (m.relabel f) ↔ TagsReadable ns filter m :=
  imp_congr Iff.rfl (imp_congr (h.plainTerms filter m) Iff.rfl)

theorem recallTerms (m : MemoryRow) :
    db'.RecallTerms ns' filter (m.relabel f) ↔ db.RecallTerms ns filter m :=
  and_congr (h.filterTerms filter m) Iff.rfl

/-! ## Listing -/

/-- A row of the namespace decodes to the same note under the other name. -/
theorem rowToBareNote (hNs : ns.WellFormed) (hNs' : ns'.WellFormed) (hm : m.ns = ns.asDbString) :
    Store.rowToBareNote (m.relabel f) = (Store.rowToBareNote m).map fun n => { n with ns := ns' } := by
  have hOld : parseNamespace m.ns = .ok ns := by
    rw [parseNamespace, hm, Namespace.parseDbString_asDbString hNs]
  have hNew : parseNamespace (m.relabel f).ns = .ok ns' := by
    have hHome : (m.relabel f).ns = ns'.asDbString := (h.ns_iff m.ns).mpr hm
    rw [parseNamespace, hHome, Namespace.parseDbString_asDbString hNs']
  unfold Store.rowToBareNote
  rw [hOld, hNew]
  simp only [map_bind_ok]
  rfl

theorem loadAnchors : db'.loadAnchors id = db.loadAnchors id := by
  unfold Db.loadAnchors
  rw [h.anchors, filter_map, mapM_map]
  rfl

theorem loadLinks : db'.loadLinks id = db.loadLinks id := by
  unfold Db.loadLinks
  rw [h.links]

/-- A note differs in its namespace only. -/
theorem rowToNote (hNs : ns.WellFormed) (hNs' : ns'.WellFormed) (hm : m.ns = ns.asDbString) :
    db'.rowToNote (m.relabel f) = (db.rowToNote m).map fun n => { n with ns := ns' } := by
  unfold Db.rowToNote
  rw [h.rowToBareNote hNs hNs' hm]
  simp only [map_bind_ok, h.loadLinks, h.loadAnchors]
  cases Store.rowToBareNote m <;> rfl

/-- **Filtered listing.** -/
theorem listFiltered (hNs : ns.WellFormed) (hNs' : ns'.WellFormed) (filter : RecallFilter) (limit : Nat) :
    db'.listFiltered ns' filter limit =
      (db.listFiltered ns filter limit).map (List.map fun n => { n with ns := ns' }) := by
  have hReadable : (∀ m ∈ db'.memories, filter.tags ≠ [] → PlainTerms ns' filter m →
      (JsonStrings.decode m.tags).isSome) ↔ ∀ m ∈ db.memories, filter.tags ≠ [] →
        PlainTerms ns filter m → (JsonStrings.decode m.tags).isSome :=
    h.forall_memories (h.tagsReadable filter)
  have hRows := h.filter (p := db.ListTerms ns filter) (q := db'.ListTerms ns' filter) fun m _ =>
    and_congr (h.filterTerms filter m) Iff.rfl
  have hOrder : ∀ a b : MemoryRow, ListOrder filter.recallEligible a b ↔
      ListOrder filter.recallEligible (a.relabel f) (b.relabel f) := by
    intro a b
    cases filter.recallEligible <;> exact Iff.rfl
  unfold Db.listFiltered
  rw [map_bind_ok]
  congr 1
  funext _
  simp only [hReadable]
  split
  · rw [hRows, select hOrder, mapM_map_ok fun m hm => ?_]
    have hSel := (mem_insertionSort _).mp (mem_of_mem_take hm)
    have hTerms : db.ListTerms ns filter m := of_decide_eq_true (mem_filter.mp hSel).2
    exact h.rowToNote hNs hNs' hTerms.1.1.1
  · rfl

/-! ## Searches -/

/-- **Keyword search.** The index knows no namespaces. -/
theorem keywordSearchFiltered (fts : Fts) (query : Text) (limit : Nat) (filter : RecallFilter) :
    db'.keywordSearchFiltered fts ns' query limit filter =
      db.keywordSearchFiltered fts ns query limit filter := by
  have hIndex : db'.memories.map MemoryRow.ftsDoc = db.memories.map MemoryRow.ftsDoc := by
    rw [h.memories, map_map]
    rfl
  unfold Db.keywordSearchFiltered
  rw [hIndex]
  congr 1
  funext _
  set rank := fts.rank (db.memories.map MemoryRow.ftsDoc) (escapeFts5Query fts.isAlphanumeric query)
  have hReadable := h.forall_memories
    (p := fun m => (rank m.ftsDoc).isSome → TagsReadable ns filter m)
    (q := fun m => (rank m.ftsDoc).isSome → TagsReadable ns' filter m)
    fun m => imp_congr Iff.rfl (h.tagsReadable filter m)
  have hHits := h.filter
    (p := fun m => (rank m.ftsDoc).isSome ∧ db.RecallTerms ns filter m)
    (q := fun m => (rank m.ftsDoc).isSome ∧ db'.RecallTerms ns' filter m)
    fun m _ => and_congr Iff.rfl (h.recallTerms filter m)
  simp only [hReadable]
  split
  · rw [hHits, select (fun _ _ => Iff.rfl), map_map]
    rfl
  · rfl

variable (env : Env)

/-- The vectors of the namespace, nearest first. -/
theorem nearest (e : Embedding) :
    db'.nearest env ns' e = (db.nearest env ns e).map (VectorRow.relabel f) := by
  unfold Db.nearest
  rw [h.partition]
  exact (map_insertionSort _ _ (VectorRow.relabel f) _ fun _ _ _ _ => Iff.rfl).symm

theorem vectorEligible :
    db'.VectorEligible ns' filter id ↔ db.VectorEligible ns filter id :=
  h.exists_memories fun m => and_congr Iff.rfl (and_congr (h.recallTerms filter m) Iff.rfl)

theorem vectorSearchEligible (e : Embedding) (limit : Nat) (filter : RecallFilter) :
    db'.vectorSearchEligible env ns' e limit filter = db.vectorSearchEligible env ns e limit filter := by
  have hReadable := h.forall_memories (h.tagsReadable filter)
  unfold Db.vectorSearchEligible
  simp only [hReadable, h.dim, h.vectorEligible, h.nearest, filter_map, ← map_take, map_map]
  rfl

theorem probe : db'.Probe ns' id ↔ db.Probe ns id :=
  h.exists_memories fun m => and_congr Iff.rfl (and_congr (h.ns_iff m.ns) Iff.rfl)

/-- The induction is on the neighbours. -/
theorem probeLoop (limit : Nat) (out hits : List (MemoryId × ℚ)) :
    db'.probeLoop ns' limit out hits = db.probeLoop ns limit out hits := by
  induction hits generalizing out with
  | nil => rfl
  | cons c rest ih =>
    unfold Db.probeLoop
    simp only [h.probe, ih]

theorem vectorSearch (e : Embedding) (limit : Nat) :
    db'.vectorSearch env ns' e limit = db.vectorSearch env ns e limit := by
  unfold Db.vectorSearch
  simp only [h.dim, h.probeLoop, h.nearest, h.vectorSearchEligible, ← map_take, map_map]
  rfl

/-- **Vector search.** -/
theorem vectorSearchFiltered (e : Embedding) (limit : Nat) (filter : RecallFilter) :
    db'.vectorSearchFiltered env ns' e limit filter = db.vectorSearchFiltered env ns e limit filter := by
  unfold Db.vectorSearchFiltered
  simp only [h.dim, h.vectorSearch, h.vectorSearchEligible]

/-! ## The review queue -/

theorem snoozedKeys (now : Int) : db'.snoozedKeys ns' now = db.snoozedKeys ns now := by
  have hRows : db'.reviewState.filter (fun r => r.ns = ns'.asDbString ∧ ∃ t ∈ r.snoozeUntil, t > now) =
      (db.reviewState.filter fun r => r.ns = ns.asDbString ∧ ∃ t ∈ r.snoozeUntil, t > now).map
        (ReviewRow.relabel f) := by
    rw [h.reviewState, filter_map]
    congr 1
    refine filter_congr fun r _ => decide_eq_decide.mpr ?_
    exact and_congr (h.ns_iff r.ns) Iff.rfl
  unfold Db.snoozedKeys
  rw [hRows, map_map]
  rfl

theorem reviewItem (now : Int) (reason : ReviewReason) (ids : List MemoryId) (similarity : Option ℚ) :
    db'.reviewItem now reason ids similarity = db.reviewItem now reason ids similarity := by
  have hMember : ∀ id, db'.reviewMember id now = db.reviewMember id now := by
    intro id
    unfold Db.reviewMember
    rw [h.find]
    cases db.find id <;> rfl
  unfold Db.reviewItem
  simp only [hMember]

variable (since : Option Nat)

theorem openPairs (now : Int) :
    db'.openPairs ns' since now = db.openPairs ns since now := by
  unfold Db.openPairs Db.contradictionPairs
  simp only [h.links, h.farEnd, h.touched, h.snoozedKeys]

theorem contradictionItems (now : Int) (limit : Nat) :
    db'.contradictionItems ns' since now limit = db.contradictionItems ns since now limit := by
  unfold Db.contradictionItems
  simp only [h.openPairs, h.reviewItem]

theorem scanAnchors : db'.scanAnchors ns' since = db.scanAnchors ns since := by
  have hRows := h.filter
    (p := fun m => m.ns = ns.asDbString ∧ m.archivedAt = none ∧ ∀ s ∈ since, db.TouchedSince m.memoryId s)
    (q := fun m => m.ns = ns'.asDbString ∧ m.archivedAt = none ∧ ∀ s ∈ since, db'.TouchedSince m.memoryId s)
    fun m _ => and_congr (h.ns_iff m.ns) (and_congr Iff.rfl (forall₂_congr fun s _ => h.touched _ s))
  unfold Db.scanAnchors
  rw [hRows, select (fun _ _ => Iff.rfl), map_map]
  rfl

theorem nearDuplicates (id : MemoryId) (threshold : ℚ) (limit : Nat) :
    db'.nearDuplicates env ns' id threshold limit = db.nearDuplicates env ns id threshold limit := by
  unfold Db.nearDuplicates
  rw [h.vector]
  cases db.vectors.find? fun v => v.memoryId = id with
  | none => rfl
  | some anchor =>
    have hDuplicate : db'.asDuplicate env ns' (anchor.relabel f) threshold ∘ VectorRow.relabel f =
        db.asDuplicate env ns anchor threshold := by
      funext v
      simp only [Function.comp_apply, Db.asDuplicate, h.farEnd]
      rfl
    have hEmbedding : (anchor.relabel f).embedding = anchor.embedding := rfl
    have hNearest := h.nearest env anchor.embedding
    unfold Db.nearest at hNearest
    simp only [Option.map_some]
    rw [h.dim, hEmbedding, hNearest, ← map_take, filterMap_map, hDuplicate]

theorem scanAnchor (params : ReviewQueueParams) (now : Int) :
    db'.scanAnchor env ns' params now = db.scanAnchor env ns params now := by
  funext scan anchor
  unfold Db.scanAnchor
  simp only [h.nearDuplicates, h.snoozedKeys, h.reviewItem]

/-- The order and the terms of a tier do not read the namespace. -/
theorem singleTier [DecidableRel le]
    (hLe : ∀ a b : MemoryRow, le a b ↔ le (a.relabel f) (b.relabel f))
    [DecidablePred p] [DecidablePred q] (hp : ∀ m, q (m.relabel f) ↔ p m) (limit : Nat) :
    db'.singleTier le q limit = db.singleTier le p limit := by
  unfold Db.singleTier
  rw [h.filter fun m _ => hp m, length_map, select hLe, map_map]
  rfl

theorem single (now : Int) (reason : ReviewReason) (m : MemoryRow) :
    db'.Single ns' since now reason (m.relabel f) ↔ db.Single ns since now reason m := by
  unfold Db.Single
  rw [h.snoozedKeys]
  exact and_congr (h.ns_iff m.ns) (and_congr Iff.rfl (and_congr
    (forall₂_congr fun s _ => h.touched _ s) Iff.rfl))

/-- **The review queue**, with what its snoozes hide. -/
theorem reviewQueue (params : ReviewQueueParams) (now : DateTime) :
    db'.reviewQueue env ns' params now = db.reviewQueue env ns params now := by
  have hLow : ∀ since limit, db'.lowTier ns' since now.secs limit = db.lowTier ns since now.secs limit :=
    fun since limit => h.singleTier (fun _ _ => Iff.rfl)
      (fun m => and_congr (h.single since now.secs .lowConfidence m) Iff.rfl) limit
  have hStale : ∀ since limit,
      db'.staleTier ns' since now.secs limit = db.staleTier ns since now.secs limit :=
    fun since limit => h.singleTier (fun _ _ => Iff.rfl)
      (fun m => and_congr (h.single since now.secs .staleNeverRecalled m) Iff.rfl) limit
  unfold Db.reviewQueue
  simp only [h.openPairs, h.contradictionItems, h.scanAnchors, h.scanAnchor, hLow, hStale,
    h.reviewItem, h.snoozedKeys]

/-! ## Statistics -/

theorem rowsOf : db'.rowsOf ns' = (db.rowsOf ns).map (MemoryRow.relabel f) :=
  h.filter fun m _ => h.ns_iff m.ns

theorem contestedCount : db'.contestedCount ns' = db.contestedCount ns := by
  have hSame : db'.statsContested ns' = db.statsContested ns := by
    ext id
    rw [Db.mem_statsContested, Db.mem_statsContested]
    exact h.contested id
  unfold Db.contestedCount
  rw [hSame]

theorem passes (p : RetentionPolicy) (mode : ForgetMode) (bound : Int) (m : MemoryRow) :
    p.Passes ns' mode bound (m.relabel f) ↔ p.Passes ns mode bound m :=
  and_congr (h.ns_iff m.ns) Iff.rfl

theorem eligible (p : RetentionPolicy) (mode : ForgetMode) (bound : Int) (m : MemoryRow) :
    db'.Eligible p ns' mode bound (m.relabel f) ↔ db.Eligible p ns mode bound m :=
  -- the contested term is the one of the listing
  and_congr (h.passes p mode bound m) (and_congr Iff.rfl (not_congr (h.listContested m)))

theorem retentionEligibleCount (p : RetentionPolicy) (now : DateTime) :
    db'.retentionEligibleCount ns' p now = db.retentionEligibleCount ns p now := by
  have hReadable : ∀ bound, (∀ m ∈ db'.memories, p.Readable ns' .apply bound m) ↔
      ∀ m ∈ db.memories, p.Readable ns .apply bound m := fun bound =>
    h.forall_memories fun m => imp_congr Iff.rfl (imp_congr (h.passes p .apply bound m) Iff.rfl)
  have hCount : ∀ bound, db'.memories.countP (db'.Eligible p ns' .apply bound) =
      db.memories.countP (db.Eligible p ns .apply bound) := by
    intro bound
    rw [countP_eq_length_filter, countP_eq_length_filter,
      h.filter fun m _ => h.eligible p .apply bound m, length_map]
  unfold Db.retentionEligibleCount
  simp only [hReadable, hCount]

end Mirrors

/-- The figures of a namespace that describe its memories: without its name, the log's history
and the figures of the whole database. -/
def MemoryStats.figures (s : MemoryStats) : MemoryStats :=
  { s with ns := [], vectors := 0, dbEmbeddingModel := none, lastForgetAt := none }

/-- **Statistics**, once the feedback is the same. -/
theorem Mirrors.figures {f : Text ≃ Text} {ns ns' : Namespace} {db db' : Db}
    (h : Mirrors f ns ns' db db') (hFeedback : db'.feedbackTotals ns' = db.feedbackTotals ns)
    (windowDays : Nat) (model inputVersion : Text) (topLimit : Nat) (retention : Option RetentionPolicy)
    (now : DateTime) :
    (db'.namespaceStats ns' windowDays model inputVersion topLimit retention now).map
        MemoryStats.figures =
      (db.namespaceStats ns windowDays model inputVersion topLimit retention now).map
        MemoryStats.figures := by
  have hTop : ∀ rows, topRecalled (rows.map (MemoryRow.relabel f)) topLimit =
      topRecalled rows topLimit := by
    intro rows
    unfold topRecalled
    rw [filter_map, Mirrors.select (fun _ _ => Iff.rfl), map_map]
    rfl
  have hDays : ∀ rows since, createdPerDay (rows.map (MemoryRow.relabel f)) since =
      createdPerDay rows since := by
    intro rows since
    unfold createdPerDay
    rw [filter_map, map_map]
    rfl
  have hRetention : (retention.mapM fun p => db'.retentionEligibleCount ns' p now) =
      retention.mapM fun p => db.retentionEligibleCount ns p now := by
    simp only [h.retentionEligibleCount]
  unfold Db.namespaceStats
  simp only [map_bind_ok, h.rowsOf, h.contestedCount, hFeedback, hTop, hDays, hRetention,
    countP_map, map_map]
  rfl

end RustyBrain.Store
