import RustyBrain.Store.Retention

/-!
# rusty-brain — contested memories

A memory is contested when an active memory of its namespace contradicts it, or is
contradicted by it. The store spells this relation six times, in six SQL texts with
scopes of their own. Each is translated here as it stands; the abstract relation they
are all measured against is `Db.Disputes`.

## Results

* `mem_activeContradicts`, `mem_statsContested`, `listContested_iff`,
  `retentionContested_iff`, `mem_contradictionPairs`, `contradictionPairActive_iff` — each
  of the six, in terms of `Db.Disputes`.
-/

namespace RustyBrain.Store

open List

variable {db : Db} {ns : Namespace} {a b id : MemoryId} {m : MemoryRow}

/-! ## The relation -/

/-- Two memories of the namespace, both active, are joined by a `contradicts` link in one
direction or the other. -/
def Db.Disputes (db : Db) (ns : Namespace) (a b : MemoryId) : Prop :=
  db.FarEnd ns a ∧ db.FarEnd ns b ∧ ∃ l ∈ db.links, l.linkType = .contradicts ∧
    ((l.sourceId = a ∧ l.targetId = b) ∨ (l.sourceId = b ∧ l.targetId = a))
  deriving Decidable

/-- A memory in dispute with some memory. -/
def Db.Contested (db : Db) (ns : Namespace) (id : MemoryId) : Prop := ∃ other, db.Disputes ns id other

theorem Db.Disputes.symm (h : db.Disputes ns a b) : db.Disputes ns b a := by
  obtain ⟨ha, hb, l, hl, hType, hEnds⟩ := h
  exact ⟨hb, ha, l, hl, hType, hEnds.symm⟩

/-- A `contradicts` link between two active memories of the namespace puts them in
dispute. -/
theorem Db.disputes_of_link {l : LinkRow} (hl : l ∈ db.links) (hType : l.linkType = .contradicts)
    (hSource : db.FarEnd ns l.sourceId) (hTarget : db.FarEnd ns l.targetId) :
    db.Disputes ns l.sourceId l.targetId :=
  ⟨hSource, hTarget, l, hl, hType, .inl ⟨rfl, rfl⟩⟩

/-- A contested memory is an end of a link whose ends are both active memories of the
namespace. -/
theorem Db.contested_iff :
    db.Contested ns id ↔ ∃ l ∈ db.links, l.linkType = .contradicts ∧
      db.FarEnd ns l.sourceId ∧ db.FarEnd ns l.targetId ∧ (l.sourceId = id ∨ l.targetId = id) := by
  constructor
  · rintro ⟨other, hId, hOther, l, hl, hType, ⟨rfl, rfl⟩ | ⟨rfl, rfl⟩⟩
    · exact ⟨l, hl, hType, hId, hOther, .inl rfl⟩
    · exact ⟨l, hl, hType, hOther, hId, .inr rfl⟩
  · rintro ⟨l, hl, hType, hSource, hTarget, rfl | rfl⟩
    · exact ⟨_, Db.disputes_of_link hl hType hSource hTarget⟩
    · exact ⟨_, (Db.disputes_of_link hl hType hSource hTarget).symm⟩

/-! ## `active_contradicts` -/

/-- The two halves of the `UNION` of `build_active_contradicts_query`. -/
def Db.contradictsSources (db : Db) (ns : Namespace) (ids : List MemoryId) : List MemoryId :=
  (db.links.filter fun l => l.linkType = .contradicts ∧ db.FarEnd ns l.targetId ∧
    db.FarEnd ns l.sourceId ∧ l.sourceId ∈ ids).map LinkRow.sourceId

@[inherit_doc Db.contradictsSources]
def Db.contradictsTargets (db : Db) (ns : Namespace) (ids : List MemoryId) : List MemoryId :=
  (db.links.filter fun l => l.linkType = .contradicts ∧ db.FarEnd ns l.sourceId ∧
    db.FarEnd ns l.targetId ∧ l.targetId ∈ ids).map LinkRow.targetId

/-- `active_contradicts`: the contested ones of the memories asked about. -/
def Db.activeContradicts (db : Db) (ns : Namespace) (ids : List MemoryId) : Finset MemoryId :=
  if ids = [] then ∅
  else (db.contradictsSources ns ids).toFinset ∪ (db.contradictsTargets ns ids).toFinset

theorem Db.mem_activeContradicts {ids : List MemoryId} :
    id ∈ db.activeContradicts ns ids ↔ db.Contested ns id ∧ id ∈ ids := by
  have hUnion : id ∈ (db.contradictsSources ns ids).toFinset ∪
      (db.contradictsTargets ns ids).toFinset ↔ db.Contested ns id ∧ id ∈ ids := by
    simp only [Finset.mem_union, mem_toFinset, contradictsSources, contradictsTargets,
      mem_map, mem_filter, decide_eq_true_eq, Db.contested_iff]
    constructor
    · rintro (⟨l, ⟨hl, hType, hTarget, hSource, hIn⟩, rfl⟩ | ⟨l, ⟨hl, hType, hSource, hTarget, hIn⟩, rfl⟩)
      · exact ⟨⟨l, hl, hType, hSource, hTarget, .inl rfl⟩, hIn⟩
      · exact ⟨⟨l, hl, hType, hSource, hTarget, .inr rfl⟩, hIn⟩
    · rintro ⟨⟨l, hl, hType, hSource, hTarget, rfl | rfl⟩, hIn⟩
      · exact .inl ⟨l, ⟨hl, hType, hTarget, hSource, hIn⟩, rfl⟩
      · exact .inr ⟨l, ⟨hl, hType, hSource, hTarget, hIn⟩, rfl⟩
  unfold activeContradicts
  split
  next hNil => simp [hNil]
  next => exact hUnion

/-! ## The list filter and the retention predicate -/

/-- The contested term of `build_filter_predicate`. -/
def Db.ListContested (db : Db) (ns : Namespace) (m : MemoryRow) : Prop :=
  m.archivedAt = none ∧
    ((∃ l ∈ db.links, l.linkType = .contradicts ∧ l.sourceId = m.memoryId ∧
        ∃ far ∈ db.memories, far.memoryId = l.targetId ∧ far.archivedAt = none ∧
          far.ns = ns.asDbString) ∨
     (∃ l ∈ db.links, l.linkType = .contradicts ∧ l.targetId = m.memoryId ∧
        ∃ far ∈ db.memories, far.memoryId = l.sourceId ∧ far.archivedAt = none ∧
          far.ns = ns.asDbString))
  deriving Decidable

/-- An active row of the namespace is the local end that its id names. -/
theorem Db.farEnd_of_mem (hm : m ∈ db.memories) (hLive : m.archivedAt = none)
    (hNs : m.ns = ns.asDbString) : db.FarEnd ns m.memoryId :=
  ⟨m, hm, rfl, hLive, hNs⟩

theorem Db.listContested_iff (hm : m ∈ db.memories) (hNs : m.ns = ns.asDbString) :
    db.ListContested ns m ↔ m.archivedAt = none ∧ db.Contested ns m.memoryId := by
  unfold ListContested
  refine and_congr_right fun hLive => ?_
  have hHere := Db.farEnd_of_mem hm hLive hNs
  rw [Db.contested_iff]
  constructor
  · rintro (⟨l, hl, hType, hEnd, hFar⟩ | ⟨l, hl, hType, hEnd, hFar⟩)
    · exact ⟨l, hl, hType, hEnd ▸ hHere, hFar, .inl hEnd⟩
    · exact ⟨l, hl, hType, hFar, hEnd ▸ hHere, .inr hEnd⟩
  · rintro ⟨l, hl, hType, hSource, hTarget, hEnd | hEnd⟩
    · exact .inl ⟨l, hl, hType, hEnd, hTarget⟩
    · exact .inr ⟨l, hl, hType, hEnd, hSource⟩

/-- The retention predicate has the term of the list filter. -/
theorem Db.retentionContested_iff (hm : m ∈ db.memories) (hNs : m.ns = ns.asDbString) :
    db.RetentionContested ns m ↔ m.archivedAt = none ∧ db.Contested ns m.memoryId :=
  Db.listContested_iff hm hNs

/-! ## `namespace_stats` -/

/-- The rows that the contested count of `namespace_stats` runs over. -/
def Db.statsContested (db : Db) (ns : Namespace) : Finset MemoryId :=
  ((db.links.filter fun l => l.linkType = .contradicts ∧ db.FarEnd ns l.targetId ∧
      db.FarEnd ns l.sourceId).map LinkRow.sourceId).toFinset ∪
  ((db.links.filter fun l => l.linkType = .contradicts ∧ db.FarEnd ns l.sourceId ∧
      db.FarEnd ns l.targetId).map LinkRow.targetId).toFinset

/-- The contested count of `namespace_stats`. -/
def Db.contestedCount (db : Db) (ns : Namespace) : Nat := (db.statsContested ns).card

theorem Db.mem_statsContested : id ∈ db.statsContested ns ↔ db.Contested ns id := by
  simp only [statsContested, Finset.mem_union, mem_toFinset, mem_map, mem_filter,
    decide_eq_true_eq, Db.contested_iff]
  constructor
  · rintro (⟨l, ⟨hl, hType, hTarget, hSource⟩, rfl⟩ | ⟨l, ⟨hl, hType, hSource, hTarget⟩, rfl⟩)
    · exact ⟨l, hl, hType, hSource, hTarget, .inl rfl⟩
    · exact ⟨l, hl, hType, hSource, hTarget, .inr rfl⟩
  · rintro ⟨l, hl, hType, hSource, hTarget, rfl | rfl⟩
    · exact .inl ⟨l, ⟨hl, hType, hTarget, hSource⟩, rfl⟩
    · exact .inr ⟨l, ⟨hl, hType, hSource, hTarget⟩, rfl⟩

/-! ## The contradiction tier of the review queue -/

/-- `touched_since_sql`: a log row about the memory after the cursor. -/
def Db.TouchedSince (db : Db) (id : MemoryId) (since : Nat) : Prop :=
  ∃ o ∈ db.oplog, o.memoryId = some id ∧ o.seq > since
  deriving Decidable

/-- The ends of a link, the smaller id first. -/
def LinkRow.pair (l : LinkRow) : MemoryId × MemoryId :=
  if l.sourceId.uuid < l.targetId.uuid then (l.sourceId, l.targetId) else (l.targetId, l.sourceId)

/-- `pairs_cte` of `review_queue`: the pairs in dispute, each once. -/
def Db.contradictionPairs (db : Db) (ns : Namespace) (since : Option Nat) :
    List (MemoryId × MemoryId) :=
  ((db.links.filter fun l => l.linkType = .contradicts ∧ db.FarEnd ns l.sourceId ∧
    db.FarEnd ns l.targetId ∧
    ∀ s ∈ since, db.TouchedSince l.sourceId s ∨ db.TouchedSince l.targetId s).map
      LinkRow.pair).dedup

/-- `contradiction_pair_active`. -/
def Db.contradictionPairActive (db : Db) (ns : Namespace) (a b : MemoryId) : Bool :=
  decide (0 < db.links.countP fun l => l.linkType = .contradicts ∧ db.FarEnd ns l.sourceId ∧
    db.FarEnd ns l.targetId ∧
    ((l.sourceId = a ∧ l.targetId = b) ∨ (l.sourceId = b ∧ l.targetId = a)))

theorem Db.contradictionPairActive_iff :
    db.contradictionPairActive ns a b = true ↔ db.Disputes ns a b := by
  simp only [contradictionPairActive, decide_eq_true_eq, countP_pos_iff]
  constructor
  · rintro ⟨l, hl, hType, hSource, hTarget, ⟨rfl, rfl⟩ | ⟨rfl, rfl⟩⟩
    · exact Db.disputes_of_link hl hType hSource hTarget
    · exact (Db.disputes_of_link hl hType hSource hTarget).symm
  · rintro ⟨ha, hb, l, hl, hType, ⟨rfl, rfl⟩ | ⟨rfl, rfl⟩⟩
    · exact ⟨l, hl, hType, ha, hb, .inl ⟨rfl, rfl⟩⟩
    · exact ⟨l, hl, hType, hb, ha, .inr ⟨rfl, rfl⟩⟩

/-- The pair of a link is its two ends in one order or the other. -/
theorem LinkRow.pair_eq (l : LinkRow) :
    l.pair = (l.sourceId, l.targetId) ∨ l.pair = (l.targetId, l.sourceId) := by
  unfold pair
  split
  · exact .inl rfl
  · exact .inr rfl

/-- Without a cursor the tier lists the pairs in dispute, each in one order. -/
theorem Db.mem_contradictionPairs :
    (a, b) ∈ db.contradictionPairs ns none ∨ (b, a) ∈ db.contradictionPairs ns none ↔
      db.Disputes ns a b := by
  have hOne : ∀ {x y : MemoryId}, (x, y) ∈ db.contradictionPairs ns none → db.Disputes ns x y := by
    intro x y h
    simp only [contradictionPairs, mem_dedup, mem_map, mem_filter,
      decide_eq_true_eq] at h
    obtain ⟨l, ⟨hl, hType, hSource, hTarget, -⟩, hPair⟩ := h
    have hDispute := Db.disputes_of_link hl hType hSource hTarget
    rcases l.pair_eq with hEq | hEq
    · obtain ⟨rfl, rfl⟩ := Prod.mk.inj (hEq.symm.trans hPair)
      exact hDispute
    · obtain ⟨rfl, rfl⟩ := Prod.mk.inj (hEq.symm.trans hPair)
      exact hDispute.symm
  constructor
  · rintro (h | h)
    · exact hOne h
    · exact (hOne h).symm
  · rintro ⟨ha, hb, l, hl, hType, hEnds⟩
    have hIn : l.pair ∈ db.contradictionPairs ns none := by
      simp only [contradictionPairs, mem_dedup, mem_map, mem_filter,
        decide_eq_true_eq]
      refine ⟨l, ⟨hl, hType, ?_, ?_, fun s hs => nomatch hs⟩, rfl⟩
      · rcases hEnds with ⟨rfl, -⟩ | ⟨rfl, -⟩ <;> assumption
      · rcases hEnds with ⟨-, rfl⟩ | ⟨-, rfl⟩ <;> assumption
    rcases hEnds with ⟨rfl, rfl⟩ | ⟨rfl, rfl⟩ <;> rcases l.pair_eq with hEq | hEq <;>
      rw [hEq] at hIn
    · exact .inl hIn
    · exact .inr hIn
    · exact .inr hIn
    · exact .inl hIn

end RustyBrain.Store
