import RustyBrain.Store.ListFiltered

/-!
# rusty-brain — the review queue

`review_queue`: contradicting pairs, near-duplicate pairs, memories of low confidence and
stale memories, in that order, without the items that a snooze hides.

## Results

* `contested_notions_agree` — the six notions of a contested memory are one.
-/

namespace RustyBrain.Store

open Transaction List

/-! ## Near-duplicates -/

/-- `distance_to_similarity`, on the distance as an `f32`. -/
def distanceToSimilarity (distance : ℚ) : ℚ := clampUnit (f32Round (1 - f32Round distance))

/-- The neighbours that the vector table is asked for: ten times the limit and one more
for the memory itself, at most 4096. -/
def knnBudget (limit : Nat) : Nat := min (max ((limit + 1) * 10) limit) 4096

/-- Similar memories first, then by id. -/
def MoreSimilar (a b : MemoryId × ℚ) : Prop := b.2 < a.2 ∨ (a.2 = b.2 ∧ a.1.uuid ≤ b.1.uuid)
  deriving Decidable

/-- The neighbour of a vector as a duplicate: another active memory of the namespace,
similar enough. -/
def Db.asDuplicate (env : Env) (db : Db) (ns : Namespace) (anchor : VectorRow) (threshold : ℚ)
    (v : VectorRow) : Option (MemoryId × ℚ) :=
  let similarity := distanceToSimilarity (env.distance anchor.embedding v.embedding)
  if v.memoryId ≠ anchor.memoryId ∧ db.FarEnd ns v.memoryId ∧ threshold ≤ similarity then
    some (v.memoryId, similarity)
  else none

/-- `near_duplicates`. -/
def Db.nearDuplicates (env : Env) (db : Db) (ns : Namespace) (id : MemoryId) (threshold : ℚ)
    (limit : Nat) : Result (List (MemoryId × ℚ)) :=
  match db.vectors.find? fun v => v.memoryId = id with
  | none => .ok []
  | some anchor =>
    if anchor.embedding.length ≠ db.embeddingDim then
      .error (.dimensionMismatch db.embeddingDim anchor.embedding.length)
    else
      let nearest := ((db.vectors.filter fun v => v.ns = ns.asDbString).insertionSort fun a b =>
        env.distance anchor.embedding a.embedding ≤ env.distance anchor.embedding b.embedding).take
          (knnBudget limit)
      .ok (((nearest.filterMap (db.asDuplicate env ns anchor threshold)).insertionSort
        MoreSimilar).take limit)

/-! ## Items -/

/-- `ReviewQueueParams`. -/
structure ReviewQueueParams where
  threshold : ℚ
  limit : Nat
  since : Option Nat := none
  deriving DecidableEq

/-- `ReviewPlan`, as the store makes it. -/
structure ReviewPlan where
  items : List ReviewItem
  totals : ReviewTotals
  truncated : Bool
  deriving DecidableEq

/-- `review_member`. -/
def Db.reviewMember (db : Db) (id : MemoryId) (now : Int) : Result ReviewMember :=
  match db.find id with
  | none => .error (.storage "Query returned no rows")
  | some r => .ok
      { id := id
        summary := r.summary
        importance := if r.importance < 256 then r.importance else 255
        confidence := r.confidence
        createdAt := r.createdAt
        ageDays := ageDays now r.createdAt
        lastAccessedAt := r.lastAccessedAt
        originSource := r.originSource
        originUser := r.originUser
        humanCurated := r.humanCurated }

/-- One item of the queue. -/
def Db.reviewItem (db : Db) (now : Int) (reason : ReviewReason) (ids : List MemoryId)
    (similarity : Option ℚ) : Result ReviewItem := do
  let members ← ids.mapM fun id => db.reviewMember id now
  pure ⟨reviewItemKey reason ids, reason, members, similarity⟩

/-- The keys that a snooze of the namespace hides. -/
def Db.snoozedKeys (db : Db) (ns : Namespace) (now : Int) : List String :=
  ((db.reviewState.filter fun r => r.ns = ns.asDbString ∧ ∃ t ∈ r.snoozeUntil, t > now).map
    ReviewRow.itemKey).dedup

/-- The smaller pair first. -/
def PairLe (p q : MemoryId × MemoryId) : Prop :=
  p.1.uuid < q.1.uuid ∨ (p.1.uuid = q.1.uuid ∧ p.2.uuid ≤ q.2.uuid)
  deriving Decidable

/-- The pairs of the first tier that no snooze hides, in id order. -/
def Db.openPairs (db : Db) (ns : Namespace) (since : Option Nat) (now : Int) :
    List (MemoryId × MemoryId) :=
  ((db.contradictionPairs ns since).filter fun p =>
    "contradiction:" ++ p.1.display ++ ":" ++ p.2.display ∉ db.snoozedKeys ns now).insertionSort
      PairLe

/-- The first tier: contradicting pairs. -/
def Db.contradictionItems (db : Db) (ns : Namespace) (since : Option Nat) (now : Int)
    (limit : Nat) : Result (List ReviewItem) :=
  ((db.openPairs ns since now).take limit).mapM fun p =>
    db.reviewItem now .contradiction [p.1, p.2] none

/-! ## The second tier -/

/-- `NEAR_DUP_SCAN_BUDGET` and `NEAR_DUP_PER_ANCHOR`. -/
def nearDupScanBudget : Nat := 200

@[inherit_doc nearDupScanBudget]
def nearDupPerAnchor : Nat := 8

/-- The memories that the scan starts from, oldest first. -/
def Db.scanAnchors (db : Db) (ns : Namespace) (since : Option Nat) : List MemoryId :=
  (((db.memories.filter fun m => m.ns = ns.asDbString ∧ m.archivedAt = none ∧
    ∀ s ∈ since, db.TouchedSince m.memoryId s).insertionSort MemoryRow.OldestFirst).take
      nearDupScanBudget).map MemoryRow.memoryId

/-- What the scan has found: the memories that are in a pair already, the number of pairs,
and the items. -/
structure DupScan where
  consumed : List MemoryId := []
  found : Nat := 0
  items : List ReviewItem

variable {items : List ReviewItem} {reason : ReviewReason} {scan scan' : DupScan}
  {ids : List MemoryId} {db : Db} {env : Env} {id : MemoryId} {ns : Namespace}
  {params : ReviewQueueParams}

/-- One anchor of the scan joins at most one pair: the first of its duplicates that is free
and not snoozed. -/
def Db.scanAnchor (env : Env) (db : Db) (ns : Namespace) (params : ReviewQueueParams) (now : Int)
    (scan : DupScan) (anchor : MemoryId) : Result DupScan := do
  if anchor ∈ scan.consumed then pure scan
  else
    let dups ← db.nearDuplicates env ns anchor params.threshold nearDupPerAnchor
    match dups.find? fun d => d.1 ∉ scan.consumed ∧
        reviewItemKey .nearDuplicate [anchor, d.1] ∉ db.snoozedKeys ns now with
    | none => pure scan
    | some (dup, similarity) =>
      let consumed := dup :: anchor :: scan.consumed
      if scan.items.length < params.limit then do
        let item ← db.reviewItem now .nearDuplicate [anchor, dup] (some similarity)
        pure ⟨consumed, scan.found + 1, scan.items ++ [item]⟩
      else pure ⟨consumed, scan.found + 1, scan.items⟩

/-! ## The third tier -/

/-- The rows of a tier of single memories: all of them, and the ids the limit leaves. -/
def Db.singleTier (db : Db) (le : MemoryRow → MemoryRow → Prop) [DecidableRel le]
    (p : MemoryRow → Prop) [DecidablePred p] (limit : Nat) : Nat × List MemoryId :=
  ((db.memories.filter p).length,
    (((db.memories.filter p).insertionSort le).take limit).map MemoryRow.memoryId)

/-- The terms that both tiers of single memories share. -/
def Db.Single (db : Db) (ns : Namespace) (since : Option Nat) (now : Int) (reason : ReviewReason)
    (m : MemoryRow) : Prop :=
  m.ns = ns.asDbString ∧ m.archivedAt = none ∧ (∀ s ∈ since, db.TouchedSince m.memoryId s) ∧
    reason.asStr ++ ":" ++ m.memoryId.display ∉ db.snoozedKeys ns now
  deriving Decidable

/-- Lower confidence first, then older, then by id. -/
def LeastConfident (a b : MemoryRow) : Prop :=
  a.confidence < b.confidence ∨ (a.confidence = b.confidence ∧ a.OldestFirst b)
  deriving Decidable

/-- The memories of low confidence. -/
def Db.lowTier (db : Db) (ns : Namespace) (since : Option Nat) (now : Int) (limit : Nat) :
    Nat × List MemoryId :=
  db.singleTier LeastConfident (fun m => db.Single ns since now .lowConfidence m ∧
    m.confidence < reviewLowConfidenceBound) limit

/-- The memories that were never recalled and are old. Those of low confidence are in
the tier before. -/
def Db.staleTier (db : Db) (ns : Namespace) (since : Option Nat) (now : Int) (limit : Nat) :
    Nat × List MemoryId :=
  db.singleTier MemoryRow.OldestFirst (fun m => db.Single ns since now .staleNeverRecalled m ∧
    m.accessCount = 0 ∧ m.createdAt < now - reviewStaleDays * 86400 ∧
    reviewLowConfidenceBound ≤ m.confidence) limit

/-! ## The queue -/

/-- The ranges of the parameters. -/
def ReviewQueueParams.validate (params : ReviewQueueParams) : Result Unit :=
  if params.threshold < reviewMinThreshold ∨ params.threshold > 1 then
    .error (.invalidArgument ("review threshold " ++ toString params.threshold ++
      " is out of range 0.8..=1.0"))
  else if params.limit = 0 ∨ params.limit > reviewMaxLimit then
    .error (.invalidArgument ("review limit " ++ toString params.limit ++
      " is out of range 1..=500"))
  else .ok ()

/-- `review_queue`. -/
def Db.reviewQueue (env : Env) (db : Db) (ns : Namespace) (params : ReviewQueueParams)
    (now : DateTime) : Result ReviewPlan := do
  params.validate
  let pairs := db.openPairs ns params.since now.secs
  let tier1 ← db.contradictionItems ns params.since now.secs params.limit
  let scan ← (db.scanAnchors ns params.since).foldlM (db.scanAnchor env ns params now.secs)
    { items := tier1 }
  let (lowCount, lowIds) :=
    db.lowTier ns params.since now.secs (params.limit - scan.items.length)
  let low ← lowIds.mapM fun id => db.reviewItem now.secs .lowConfidence [id] none
  let (staleCount, staleIds) := db.staleTier ns params.since now.secs
    (params.limit - (scan.items.length + low.length))
  let stale ← staleIds.mapM fun id => db.reviewItem now.secs .staleNeverRecalled [id] none
  pure
    { items := scan.items ++ low ++ stale
      totals := ⟨pairs.length, scan.found, lowCount, staleCount, (db.snoozedKeys ns now.secs).length⟩
      truncated := decide (pairs.length > tier1.length) ||
        decide (scan.found > scan.items.length - tier1.length) ||
        decide (lowCount > lowIds.length) || decide (staleCount > staleIds.length) }

/-! ## The contradiction tier lists the pairs in dispute -/

section

variable {db : Db} {ns : Namespace} {now : Int}

theorem Db.reviewMember_id {m : ReviewMember}
    (h : db.reviewMember id now = .ok m) : m.id = id := by
  unfold reviewMember at h
  split at h
  · cases h
  · cases h
    rfl

theorem Db.reviewMember_ok (now : Int) (h : db.FarEnd ns id) :
    ∃ m, db.reviewMember id now = .ok m := by
  unfold reviewMember
  cases hFind : db.find id with
  | none =>
    obtain ⟨r, hr, hId, -⟩ := h
    exact absurd (Db.mem_ids.mpr ⟨r, hr, hId⟩) (Db.find_none hFind)
  | some r => exact ⟨_, rfl⟩

/-- The members of an item are the memories it was made for. -/
theorem Db.reviewItem_members {s : Option ℚ}
    {item : ReviewItem} (h : db.reviewItem now reason ids s = .ok item) :
    item.members.map ReviewMember.id = ids ∧ item.reason = reason := by
  simp only [reviewItem, except_bind_ok] at h
  obtain ⟨members, hMembers, hEq⟩ := h
  cases hEq
  refine ⟨?_, rfl⟩
  have hEach := except_mapM_ok.mp hMembers
  clear hMembers
  induction hEach with
  | nil => rfl
  | cons hHead _ ih => rw [map_cons, ih, Db.reviewMember_id hHead]

theorem Db.openPairs_of_open (hOpen : db.snoozedKeys ns now = []) {p : MemoryId × MemoryId} :
    p ∈ db.openPairs ns none now ↔ p ∈ db.contradictionPairs ns none := by
  unfold openPairs
  rw [mem_insertionSort, mem_filter, hOpen]
  simp

theorem Db.length_openPairs_le : (db.openPairs ns none now).length ≤
    (db.contradictionPairs ns none).length := by
  unfold openPairs
  rw [length_insertionSort]
  exact length_filter_le _ _

/-- The members of the open pairs are all there, so the tier can be listed. -/
theorem Db.contradictionItems_ok (db : Db) (ns : Namespace) (now : Int) (limit : Nat) :
    ∃ items, db.contradictionItems ns none now limit = .ok items := by
  refine except_mapM_exists fun p hp => ?_
  have hIn := mem_of_mem_take hp
  unfold openPairs at hIn
  rw [mem_insertionSort, mem_filter] at hIn
  obtain ⟨hSource, hTarget, -⟩ := Db.mem_contradictionPairs.mp (.inl hIn.1)
  obtain ⟨a, ha⟩ := Db.reviewMember_ok now hSource
  obtain ⟨b, hb⟩ := Db.reviewMember_ok now hTarget
  refine ⟨_, except_bind_ok.mpr ⟨[a, b], ?_, rfl⟩⟩
  exact except_mapM_ok.mpr (.cons ha (.cons hb .nil))

/-- With no snooze and room for every pair, the tier lists each pair in dispute. -/
theorem Db.mem_contradictionItems (hOpen : db.snoozedKeys ns now = []) {limit : Nat}
    (hRoom : (db.contradictionPairs ns none).length ≤ limit)
    (hItems : db.contradictionItems ns none now limit = .ok items) {a b : MemoryId} :
    (∃ item ∈ items, item.members.map ReviewMember.id = [a, b] ∨
      item.members.map ReviewMember.id = [b, a]) ↔ db.Disputes ns a b := by
  have hAll : (db.openPairs ns none now).take limit = db.openPairs ns none now :=
    take_of_length_le (Db.length_openPairs_le.trans hRoom)
  unfold contradictionItems at hItems
  rw [hAll] at hItems
  have hListed : ∀ {x y : MemoryId}, (∃ item ∈ items, item.members.map ReviewMember.id = [x, y]) ↔
      (x, y) ∈ db.contradictionPairs ns none := by
    intro x y
    simp only [except_mapM_mem hItems, ← Db.openPairs_of_open hOpen]
    constructor
    · rintro ⟨item, ⟨p, hp, hItem⟩, hIds⟩
      rw [(Db.reviewItem_members hItem).1] at hIds
      obtain ⟨rfl, rfl⟩ : p.1 = x ∧ p.2 = y := by simpa using hIds
      exact hp
    · intro hp
      obtain ⟨item, hItem⟩ := except_mapM_each hItems hp
      exact ⟨item, ⟨_, hp, hItem⟩, (Db.reviewItem_members hItem).1⟩
  rw [← Db.mem_contradictionPairs, ← hListed, ← hListed, ← exists_or]
  refine exists_congr fun item => ?_
  rw [← and_or_left]

/-- What one anchor does to the scan: nothing, as it or each of its duplicates is taken or
hidden, or it takes a free twin. -/
theorem Db.scanAnchor_cases
    {anchor : MemoryId} (h : db.scanAnchor env ns params now scan anchor = .ok scan') :
    (scan' = scan ∧ (anchor ∈ scan.consumed ∨ ∃ dups,
      db.nearDuplicates env ns anchor params.threshold nearDupPerAnchor = .ok dups ∧
      ∀ d ∈ dups, d.1 ∉ scan.consumed →
        reviewItemKey .nearDuplicate [anchor, d.1] ∈ db.snoozedKeys ns now)) ∨
    ∃ dups d more, anchor ∉ scan.consumed ∧ d.1 ∉ scan.consumed ∧
      db.nearDuplicates env ns anchor params.threshold nearDupPerAnchor = .ok dups ∧ d ∈ dups ∧
      reviewItemKey .nearDuplicate [anchor, d.1] ∉ db.snoozedKeys ns now ∧
      scan' = ⟨d.1 :: anchor :: scan.consumed, scan.found + 1, scan.items ++ more⟩ ∧
      (scan.items.length < params.limit ∧ (∃ item, more = [item] ∧
          db.reviewItem now .nearDuplicate [anchor, d.1] (some d.2) = .ok item) ∨
        params.limit ≤ scan.items.length ∧ more = []) := by
  unfold scanAnchor at h
  by_cases hTaken : anchor ∈ scan.consumed
  · rw [if_pos hTaken] at h
    cases h
    exact .inl ⟨rfl, .inl hTaken⟩
  rw [if_neg hTaken, except_bind_ok] at h
  obtain ⟨dups, hDups, h⟩ := h
  split at h
  · rename_i hNone
    cases h
    refine .inl ⟨rfl, .inr ⟨dups, hDups, fun d hd hFree => ?_⟩⟩
    have hNot := find?_eq_none.mp hNone d hd
    rw [decide_eq_true_eq] at hNot
    exact not_not.mp fun hShown => hNot ⟨hFree, hShown⟩
  · rename_i dup similarity hFind
    have hChosen := find?_some hFind
    rw [decide_eq_true_eq] at hChosen
    have hd := mem_of_find?_eq_some hFind
    by_cases hRoom : scan.items.length < params.limit
    · rw [if_pos hRoom, except_bind_ok] at h
      obtain ⟨item, hItem, hEq⟩ := h
      cases hEq
      exact .inr ⟨dups, _, [item], hTaken, hChosen.1, hDups, hd, hChosen.2, rfl,
        .inl ⟨hRoom, item, rfl, hItem⟩⟩
    · rw [if_neg hRoom] at h
      cases h
      exact .inr ⟨dups, _, [], hTaken, hChosen.1, hDups, hd, hChosen.2, by rw [append_nil],
        .inr ⟨Nat.not_lt.mp hRoom, rfl⟩⟩

/-- The items after the first tier of a queue are of the other kinds. -/
theorem Db.scanAnchors_items {anchors : List MemoryId}
    (h : anchors.foldlM (db.scanAnchor env ns params now) scan = .ok scan') :
    ∃ more, scan'.items = scan.items ++ more ∧ ∀ item ∈ more, item.reason = .nearDuplicate := by
  refine except_foldlM_keeps (P := fun s => ∃ more, s.items = scan.items ++ more ∧
    ∀ item ∈ more, item.reason = .nearDuplicate) ?_ ⟨[], (append_nil _).symm, nofun⟩ h
  rintro anchor - s s' ⟨first, hFirst, hKind⟩ hStep
  rcases Db.scanAnchor_cases hStep with ⟨rfl, -⟩ | ⟨-, d, more, -, -, -, -, -, rfl, hMore⟩
  · exact ⟨first, hFirst, hKind⟩
  · refine ⟨first ++ more, by rw [hFirst, append_assoc], fun item hi => ?_⟩
    rcases mem_append.mp hi with hi | hi
    · exact hKind item hi
    · rcases hMore with ⟨-, new, rfl, hItem⟩ | ⟨-, rfl⟩
      · rw [mem_singleton.mp hi]
        exact (Db.reviewItem_members hItem).2
      · cases hi

/-- The items of a traversal that makes items of one kind. -/
theorem Db.reviewItems_reason
    (h : (ids.mapM fun id => db.reviewItem now reason [id] none) = .ok items) :
    ∀ item ∈ items, item.reason = reason := by
  intro item hi
  obtain ⟨id, -, hItem⟩ := (except_mapM_mem h).mp hi
  exact (Db.reviewItem_members hItem).2

/-- The contradiction items of a queue are the first tier. -/
theorem Db.reviewQueue_contradictions {t : DateTime}
    {plan : ReviewPlan} (h : db.reviewQueue env ns params t = .ok plan) :
    db.contradictionItems ns params.since t.secs params.limit =
      .ok (plan.items.filter fun item => item.reason = .contradiction) := by
  simp only [reviewQueue, except_bind_ok] at h
  obtain ⟨_, -, tier1, hTier, scan, hScan, low, hLow, stale, hStale, hEq⟩ := h
  cases hEq
  obtain ⟨more, hItems, hMore⟩ := Db.scanAnchors_items hScan
  have hTierKind : ∀ item ∈ tier1, item.reason = .contradiction := by
    intro item hi
    obtain ⟨p, -, hItem⟩ := (except_mapM_mem hTier).mp hi
    exact (Db.reviewItem_members hItem).2
  have hNone : ∀ {reason : ReviewReason} {items : List ReviewItem}, reason ≠ .contradiction →
      (∀ item ∈ items, item.reason = reason) →
        (items.filter fun item => item.reason = .contradiction) = [] := by
    intro reason items hne hAll
    refine filter_eq_nil_iff.mpr fun item hi => ?_
    rw [hAll item hi, decide_eq_true_eq]
    exact hne
  have hKeep : (tier1.filter fun item => item.reason = .contradiction) = tier1 :=
    filter_eq_self.mpr fun item hi => decide_eq_true (hTierKind item hi)
  rw [hTier, hItems, filter_append, filter_append, filter_append, hKeep,
    hNone (by decide) hMore, hNone (by decide) (Db.reviewItems_reason hLow),
    hNone (by decide) (Db.reviewItems_reason hStale)]
  simp

end

/-! ## One notion -/

/-- The memories of the active rows of the namespace that satisfy a term of a query. -/
def Db.activeWith (db : Db) (ns : Namespace) (p : MemoryRow → Prop) [DecidablePred p] :
    Finset MemoryId :=
  ((db.memories.filter fun m => m.ns = ns.asDbString ∧ m.archivedAt = none ∧ p m).map
    MemoryRow.memoryId).toFinset

/-- A contested memory is an active row of its namespace. -/
theorem Db.Contested.farEnd (h : db.Contested ns id) :
    db.FarEnd ns id := by
  obtain ⟨_, hEnd, -⟩ := h
  exact hEnd

/-- A term that holds of the contested rows selects the contested memories. -/
theorem Db.mem_activeWith {p : MemoryRow → Prop} [DecidablePred p]
    (hp : ∀ m ∈ db.memories, m.ns = ns.asDbString → m.archivedAt = none →
      (p m ↔ db.Contested ns m.memoryId)) :
    id ∈ db.activeWith ns p ↔ db.Contested ns id := by
  simp only [activeWith, mem_toFinset, mem_map, mem_filter, decide_eq_true_eq]
  constructor
  · rintro ⟨m, ⟨hm, hNs, hLive, hTerm⟩, rfl⟩
    exact (hp m hm hNs hLive).mp hTerm
  · intro h
    obtain ⟨m, hm, rfl, hLive, hNs⟩ := h.farEnd
    exact ⟨m, ⟨hm, hNs, hLive, (hp m hm hNs hLive).mpr h⟩, rfl⟩

theorem Db.mem_activeContradicts_ids :
    id ∈ db.activeContradicts ns db.ids ↔ db.Contested ns id := by
  rw [Db.mem_activeContradicts]
  refine and_iff_left_of_imp fun h => ?_
  obtain ⟨m, hm, hId, -⟩ := h.farEnd
  exact Db.mem_ids.mpr ⟨m, hm, hId⟩

/-- The filter that asks for contested memories of any state. -/
def contestedFilter : RecallFilter where
  contested := some true
  state := .all

theorem Db.filterTerms_contested {m : MemoryRow}
    (hm : m ∈ db.memories) (hNs : m.ns = ns.asDbString) (hLive : m.archivedAt = none) :
    db.FilterTerms ns contestedFilter m ↔ db.Contested ns m.memoryId := by
  have hTerm := Db.listContested_iff hm hNs
  simp [FilterTerms, PlainTerms, stateTerm, contestedFilter, hNs, hTerm, hLive]

/-- **Key result:** in every store, for every namespace, the memories that
`active_contradicts` flags among all, the active rows that the contested list filter
selects, the active rows that the retention predicate spares as contested, and the rows that
`namespace_stats` counts are the same; they are the members of the contradiction pairs of a
review queue without snoozes that has room for all of them; and `contradiction_pair_active`
holds exactly for the pairs listed there. -/
theorem contested_notions_agree (db : Db) (ns : Namespace) {now : Int}
    (hOpen : db.snoozedKeys ns now = []) {limit : Nat}
    (hRoom : (db.contradictionPairs ns none).length ≤ limit) :
    db.activeWith ns (db.FilterTerms ns contestedFilter) = db.activeContradicts ns db.ids ∧
    db.activeWith ns (db.RetentionContested ns) = db.activeContradicts ns db.ids ∧
    db.statsContested ns = db.activeContradicts ns db.ids ∧
    db.contestedCount ns = (db.activeContradicts ns db.ids).card ∧
    ∃ items, db.contradictionItems ns none now limit = .ok items ∧
      (items.flatMap fun item => item.members.map ReviewMember.id).toFinset =
        db.activeContradicts ns db.ids ∧
      (∀ a b, db.contradictionPairActive ns a b = true ↔ ∃ item ∈ items,
        item.members.map ReviewMember.id = [a, b] ∨ item.members.map ReviewMember.id = [b, a]) ∧
      ∀ env params t plan, params.since = none → t.secs = now → params.limit = limit →
        db.reviewQueue env ns params t = .ok plan →
        (plan.items.filter fun item => item.reason = .contradiction) = items := by
  have hStats : db.statsContested ns = db.activeContradicts ns db.ids := by
    ext id
    rw [Db.mem_statsContested, Db.mem_activeContradicts_ids]
  obtain ⟨items, hItems⟩ := db.contradictionItems_ok ns now limit
  refine ⟨?_, ?_, hStats, congrArg Finset.card hStats, items, hItems, ?_, fun a b => ?_, ?_⟩
  · ext id
    rw [Db.mem_activeWith fun m hm hNs hLive => Db.filterTerms_contested hm hNs hLive,
      Db.mem_activeContradicts_ids]
  · ext id
    rw [Db.mem_activeWith fun m hm hNs hLive => ?_, Db.mem_activeContradicts_ids]
    rw [Db.retentionContested_iff hm hNs, and_iff_right hLive]
  · ext id
    rw [Db.mem_activeContradicts_ids, mem_toFinset, mem_flatMap]
    constructor
    · rintro ⟨item, hItem, hMember⟩
      obtain ⟨p, -, hMade⟩ := (except_mapM_mem hItems).mp hItem
      have hIds := (Db.reviewItem_members hMade).1
      have hPair : db.Disputes ns p.1 p.2 :=
        (Db.mem_contradictionItems hOpen hRoom hItems).mp ⟨item, hItem, .inl hIds⟩
      rw [hIds, mem_pair] at hMember
      rcases hMember with rfl | rfl
      · exact ⟨_, hPair⟩
      · exact ⟨_, hPair.symm⟩
    · rintro ⟨other, hPair⟩
      obtain ⟨item, hItem, hIds | hIds⟩ :=
        (Db.mem_contradictionItems hOpen hRoom hItems).mpr hPair
      · exact ⟨item, hItem, by rw [hIds]; exact mem_cons_self⟩
      · exact ⟨item, hItem, by rw [hIds]; exact mem_cons_of_mem _ mem_cons_self⟩
  · rw [Db.contradictionPairActive_iff, Db.mem_contradictionItems hOpen hRoom hItems]
  · rintro env params t plan hSince rfl rfl hPlan
    have hTier := Db.reviewQueue_contradictions hPlan
    rw [hSince] at hTier
    exact Except.ok.inj (hTier.symm.trans hItems)

/-- Two memories that contradict each other, a third that contradicts one of them from
another namespace, and a fourth that did so before it was archived. -/
def disputedStore : Db :=
  let note (id : Nat) (ns : Namespace) := MemoryNote.new ⟨id⟩ ⟨0, 0⟩ ns ['a'] .insight 5
  let link (source target : Nat) : MemoryLink := ⟨⟨source⟩, ⟨target⟩, .contradicts, 1, [], ⟨0, 0⟩⟩
  storeAfter .blank 2
    [.insertMemory 0 (note 1 .global) none, .insertMemory 0 (note 2 .global) none,
      .insertMemory 0 (note 3 (.project ['p'])) none, .insertMemory 0 (note 4 .global) none,
      .addLink 0 (link 2 1), .addLink 0 (link 3 2), .addLink 0 (link 4 1), .archiveMemory 1 ⟨4⟩]

/-- The result at a store where two of four memories are contested. -/
theorem contested_notions_agree_disputedStore :
    disputedStore.activeContradicts .global disputedStore.ids = {⟨1⟩, ⟨2⟩} ∧
    disputedStore.contestedCount .global = 2 ∧
    ∃ items, disputedStore.contradictionItems .global none 0 5 = .ok items ∧
      (items.flatMap fun item => item.members.map ReviewMember.id).toFinset =
        disputedStore.activeContradicts .global disputedStore.ids := by
  have hOpen : disputedStore.snoozedKeys .global 0 = [] := by decide +kernel
  have hRoom : (disputedStore.contradictionPairs .global none).length ≤ 5 := by decide +kernel
  obtain ⟨-, -, -, hCount, items, hItems, hMembers, -⟩ :=
    contested_notions_agree disputedStore .global hOpen hRoom
  have hSet : disputedStore.activeContradicts .global disputedStore.ids = {⟨1⟩, ⟨2⟩} := by
    decide +kernel
  refine ⟨hSet, ?_, items, hItems, hMembers⟩
  rw [hCount, hSet]
  rfl

end RustyBrain.Store
