import RustyBrain.Store.ReviewQueue
import RustyBrain.Types.Keys

/-!
# rusty-brain — what a review plan promises

A plan is made of four tiers that share one limit. Each tier lists its own memories, hides
what a snooze hides, and counts what it would have listed without the limit. The scan for
near-duplicates must not put a memory into two pairs, since one pass of a policy then
plans two changes of it.
-/

namespace RustyBrain

/-- The memories that an action of a policy or of a user changes. -/
def ReviewAction.touches (item : ReviewItem) : ReviewAction → List MemoryId
  | .keep bump => if bump then item.members.map ReviewMember.id else []
  | .merge => item.members.map ReviewMember.id
  | .archive id => [id]
  | .demote id => [id]
  | .snooze _ => []

/-- What a policy plans from the items of a queue: the memories of each action. -/
def ReviewPolicy.planned (policy : ReviewPolicy) (items : List ReviewItem) : List (List MemoryId) :=
  items.filterMap fun item => (policy.planAction item).map (ReviewAction.touches item)

/-- The reason that a policy looks for. -/
def ReviewPolicy.scope : ReviewPolicy → ReviewReason
  | .autoMergeDups => .nearDuplicate
  | .demoteLowConfidence => .lowConfidence

/-- The place of a reason in the queue. -/
def ReviewReason.tier : ReviewReason → Nat
  | .contradiction => 1
  | .nearDuplicate => 2
  | .lowConfidence => 3
  | .staleNeverRecalled => 4

/-- The total that a plan reports for a reason. -/
def ReviewTotals.of (totals : ReviewTotals) : ReviewReason → Nat
  | .contradiction => totals.contradictions
  | .nearDuplicate => totals.nearDuplicates
  | .lowConfidence => totals.lowConfidence
  | .staleNeverRecalled => totals.staleNeverRecalled

/-- A policy plans for the items of its reason, and changes only their members. -/
theorem ReviewPolicy.planAction_scope {policy : ReviewPolicy} {item : ReviewItem}
    {action : ReviewAction} (h : policy.planAction item = some action) :
    item.reason = policy.scope ∧
      ∀ id ∈ action.touches item, id ∈ item.members.map ReviewMember.id := by
  unfold planAction at h
  split at h
  · cases h
  · split at h
    · rename_i hReason
      split at h
      · cases h
        exact ⟨hReason, fun _ hId => hId⟩
      · cases h
    · rename_i hReason
      obtain ⟨m, hm, rfl⟩ := Option.map_eq_some_iff.mp h
      refine ⟨hReason, fun id hId => ?_⟩
      rw [List.mem_singleton.mp hId]
      exact List.mem_map_of_mem (List.mem_of_mem_head? hm)
    · cases h

/-- An item of a reason about some memories. -/
structure ReviewItem.IsFor (reason : ReviewReason) (item : ReviewItem) (ids : List MemoryId) :
    Prop where
  kind : item.reason = reason
  keyed : item.key = reviewItemKey reason ids
  members : item.members.map ReviewMember.id = ids

end RustyBrain

namespace RustyBrain.Store

open Transaction List

variable {env : Env} {db : Db} {ns : Namespace} {params : ReviewQueueParams} {now : Int}
  {item : ReviewItem} {id : MemoryId}

theorem Db.reviewItem_isFor {ids : List MemoryId} {s : Option ℚ}
    (h : db.reviewItem now reason ids s = .ok item) :
    item.IsFor reason ids := by
  have hMembers := Db.reviewItem_members h
  simp only [reviewItem, except_bind_ok] at h
  obtain ⟨members, -, hEq⟩ := h
  cases hEq
  exact ⟨rfl, rfl, hMembers.1⟩

/-! ## One tier -/

/-- What one tier of a plan lists: items of its reason about active memories of the
namespace, under different keys that no snooze hides. -/
structure IsTier (db : Db) (ns : Namespace) (now : Int) (reason : ReviewReason)
    (items : List ReviewItem) (idss : List (List MemoryId)) : Prop where
  each : List.Forall₂ (ReviewItem.IsFor reason) items idss
  keys : (idss.map (reviewItemKey reason)).Nodup
  visible : ∀ ids ∈ idss, reviewItemKey reason ids ∉ db.snoozedKeys ns now
  active : ∀ ids ∈ idss, ∀ id ∈ ids, db.FarEnd ns id

namespace IsTier

variable {reason : ReviewReason} {items : List ReviewItem} {idss : List (List MemoryId)}

section

variable (h : IsTier db ns now reason items idss)

include h

theorem length_eq : items.length = idss.length :=
  h.each.length_eq

theorem keys_eq :
    items.map ReviewItem.key = idss.map (reviewItemKey reason) := by
  have hEach := h.each
  clear h
  induction hEach with
  | nil => rfl
  | cons hItem _ ih => rw [map_cons, map_cons, hItem.keyed, ih]

theorem members_eq :
    items.map (fun item => item.members.map ReviewMember.id) = idss := by
  have hEach := h.each
  clear h
  induction hEach with
  | nil => rfl
  | cons hItem _ ih => rw [map_cons, hItem.members, ih]

/-- An item of the tier is about one of its lists of memories. -/
theorem mem (hi : item ∈ items) :
    ∃ ids ∈ idss, item.IsFor reason ids := by
  have hEach := h.each
  clear h
  induction hEach with
  | nil => cases hi
  | cons hItem _ ih =>
    rcases mem_cons.mp hi with rfl | hRest
    · exact ⟨_, mem_cons_self, hItem⟩
    · obtain ⟨ids, hIds, hFor⟩ := ih hRest
      exact ⟨ids, mem_cons_of_mem _ hIds, hFor⟩

theorem reason_eq :
    ∀ item ∈ items, item.reason = reason := by
  intro item hi
  obtain ⟨ids, -, hFor⟩ := h.mem hi
  exact hFor.kind

theorem filter_reason (r : ReviewReason) :
    (items.filter fun item => item.reason = r) = if reason = r then items else [] := by
  split
  · rename_i hSame
    exact filter_eq_self.mpr fun item hi => decide_eq_true ((h.reason_eq item hi).trans hSame)
  · rename_i hOther
    refine filter_eq_nil_iff.mpr fun item hi => ?_
    rw [h.reason_eq item hi, decide_eq_true_eq]
    exact hOther

/-- Items of different tiers have different keys. -/
theorem keys_apart {reason' : ReviewReason} {items' : List ReviewItem}
    (h' : IsTier db ns now reason' items' idss') (hOther : reason ≠ reason') {a b : ReviewItem}
    (ha : a ∈ items) (hb : b ∈ items') : a.key ≠ b.key := by
  obtain ⟨ids, -, hFor⟩ := h.mem ha
  obtain ⟨ids', -, hFor'⟩ := h'.mem hb
  rw [hFor.keyed, hFor'.keyed]
  exact fun hKeys => hOther (reviewItemKey_reason hKeys)

theorem keys_nodup :
    items.Pairwise fun a b => a.key ≠ b.key := by
  rw [← pairwise_map, h.keys_eq]
  exact h.keys

end

/-- A prefix of a tier's memories is a tier of its own items. -/
theorem of_prefix (hPrefix : idss <+: idss')
    (hEach : List.Forall₂ (ReviewItem.IsFor reason) items idss)
    (hKeys : (idss'.map (reviewItemKey reason)).Nodup)
    (hVisible : ∀ ids ∈ idss', reviewItemKey reason ids ∉ db.snoozedKeys ns now)
    (hActive : ∀ ids ∈ idss', ∀ id ∈ ids, db.FarEnd ns id) :
    IsTier db ns now reason items idss where
  each := hEach
  keys := hKeys.sublist (hPrefix.sublist.map _)
  visible ids hIds := hVisible ids (hPrefix.subset hIds)
  active ids hIds := hActive ids (hPrefix.subset hIds)

end IsTier

/-! ## The contradiction tier -/

/-- The ends of a link in the order of `pair`. -/
theorem LinkRow.pair_le (l : LinkRow) : l.pair.1.uuid ≤ l.pair.2.uuid := by
  unfold pair
  split
  · rename_i hlt
    exact hlt.le
  · rename_i hge
    exact Nat.not_lt.mp hge

variable {since : Option Nat}

/-- Every pair of the first tier is in order, active and visible. -/
theorem Db.mem_openPairs {p : MemoryId × MemoryId}
    (h : p ∈ db.openPairs ns since now) :
    p.1.uuid ≤ p.2.uuid ∧ db.FarEnd ns p.1 ∧ db.FarEnd ns p.2 ∧
      reviewItemKey .contradiction [p.1, p.2] ∉ db.snoozedKeys ns now := by
  simp only [openPairs, mem_insertionSort, mem_filter, decide_eq_true_eq,
    contradictionPairs, mem_dedup, mem_map] at h
  obtain ⟨⟨l, ⟨-, -, hSource, hTarget, -⟩, rfl⟩, hOpen⟩ := h
  have hKey : reviewItemKey .contradiction [l.pair.1, l.pair.2] =
      "contradiction:" ++ l.pair.1.display ++ ":" ++ l.pair.2.display := by
    rw [reviewItemKey_pair .contradiction l.pair_le, ← String.append_assoc, ← String.append_assoc]
    rfl
  refine ⟨l.pair_le, ?_, ?_, hKey ▸ hOpen⟩
  · rcases l.pair_eq with hEq | hEq <;> rw [hEq] <;> assumption
  · rcases l.pair_eq with hEq | hEq <;> rw [hEq] <;> assumption

theorem Db.nodup_openPairs (db : Db) (ns : Namespace) (since : Option Nat) (now : Int) :
    (db.openPairs ns since now).Nodup := by
  unfold openPairs
  rw [(perm_insertionSort _ _).nodup_iff]
  exact (nodup_dedup _).filter _

/-- Ids have 128 bits. -/
def Db.IdsFit (db : Db) : Prop := ∀ r ∈ db.memories, r.memoryId.uuid < 2 ^ 128
  deriving Decidable

theorem Db.FarEnd.fits (h : db.FarEnd ns id) (hFit : db.IdsFit) :
    id.uuid < 2 ^ 128 := by
  obtain ⟨r, hr, rfl, -⟩ := h
  exact hFit r hr

theorem Db.contradictionItems_isTier
    (hFit : db.IdsFit) (h : db.contradictionItems ns since now limit = .ok items) :
    IsTier db ns now .contradiction items
      (((db.openPairs ns since now).take limit).map fun p => [p.1, p.2]) := by
  have hEach : List.Forall₂ (ReviewItem.IsFor .contradiction) items
      (((db.openPairs ns since now).take limit).map fun p => [p.1, p.2]) := by
    rw [forall₂_map_right_iff]
    exact ((except_mapM_ok.mp h).imp fun _ _ hItem => Db.reviewItem_isFor hItem).flip
  have hFirst := take_prefix limit (db.openPairs ns since now)
  refine IsTier.of_prefix (hFirst.map _) hEach ?_ ?_ ?_
  · -- two keys are the same only when the pairs are, in one order or the other
    rw [map_map]
    refine (db.nodup_openPairs ns since now).map_on fun p hp q hq hKeys => ?_
    obtain ⟨hLe, ha, hb, -⟩ := Db.mem_openPairs hp
    obtain ⟨hLe', hc, hd, -⟩ := Db.mem_openPairs hq
    rcases reviewItemKey_pair_inj (ha.fits hFit) (hb.fits hFit) (hc.fits hFit) (hd.fits hFit) hKeys
      with ⟨hFst, hSnd⟩ | ⟨hFst, hSnd⟩
    · exact Prod.ext hFst hSnd
    · -- the other order is possible only for a memory that contradicts itself
      have hSame : p.1.uuid = p.2.uuid := by
        rw [hFst, hSnd] at hLe ⊢
        omega
      obtain hSelf : p.1 = p.2 := by
        cases hp₁ : p.1
        cases hp₂ : p.2
        rw [hp₁, hp₂] at hSame
        exact congrArg MemoryId.mk hSame
      exact Prod.ext (hSelf.trans hSnd) (hSelf.symm.trans hFst)
  · intro ids hIds
    obtain ⟨p, hp, rfl⟩ := mem_map.mp hIds
    exact (Db.mem_openPairs hp).2.2.2
  · intro ids hIds id hId
    obtain ⟨p, hp, rfl⟩ := mem_map.mp hIds
    obtain ⟨-, ha, hb, -⟩ := Db.mem_openPairs hp
    rcases mem_pair.mp hId with rfl | rfl
    · exact ha
    · exact hb

/-! ## The scan for near-duplicates -/

variable {d : MemoryId × ℚ}

/-- A near-duplicate of a memory is another active memory of the namespace with a vector
near that of the memory. -/
theorem Db.mem_nearDuplicates (h : db.nearDuplicates env ns id threshold limit = .ok dups)
    (hd : d ∈ dups) :
    ∃ anchor ∈ db.vectors, anchor.memoryId = id ∧ ∃ v ∈ db.vectors, v.ns = ns.asDbString ∧
      db.asDuplicate env ns anchor threshold v = some d := by
  unfold nearDuplicates at h
  split at h
  · cases h
    cases hd
  · rename_i anchor hFind
    have hAnchor : anchor.memoryId = id := by simpa using find?_some hFind
    split at h
    · cases h
    · cases h
      -- undo the limit, the order by similarity and the budget of the index
      have hNear := (mem_insertionSort _).mp (mem_of_mem_take hd)
      obtain ⟨v, hv, hDup⟩ := mem_filterMap.mp hNear
      have hIn := (mem_insertionSort _).mp (mem_of_mem_take hv)
      rw [mem_filter, decide_eq_true_eq] at hIn
      exact ⟨anchor, mem_of_find?_eq_some hFind, hAnchor, v, hIn.1, hIn.2, hDup⟩

theorem Db.asDuplicate_some {anchor v : VectorRow} :
    db.asDuplicate env ns anchor threshold v = some d ↔
      (v.memoryId ≠ anchor.memoryId ∧ db.FarEnd ns v.memoryId ∧
        threshold ≤ distanceToSimilarity (env.distance anchor.embedding v.embedding)) ∧
      (v.memoryId, distanceToSimilarity (env.distance anchor.embedding v.embedding)) = d := by
  simp only [asDuplicate, Option.ite_none_right_eq_some, Option.some.injEq]

/-- The twin of a memory is another active memory of the namespace. -/
theorem Db.nearDuplicates_other (h : db.nearDuplicates env ns id threshold limit = .ok dups)
    (hd : d ∈ dups) : d.1 ≠ id ∧ db.FarEnd ns d.1 := by
  obtain ⟨anchor, -, rfl, v, -, -, hDup⟩ := Db.mem_nearDuplicates h hd
  obtain ⟨⟨hOther, hActive, -⟩, rfl⟩ := Db.asDuplicate_some.mp hDup
  exact ⟨hOther, hActive⟩

/-- The memories of the pairs that the scan has found. -/
def pairedIds (pairs : List (MemoryId × MemoryId)) : List MemoryId :=
  pairs.flatMap fun p => [p.1, p.2]

theorem pairedIds_concat (pairs : List (MemoryId × MemoryId)) (p : MemoryId × MemoryId) :
    pairedIds (pairs ++ [p]) = pairedIds pairs ++ [p.1, p.2] := by
  simp [pairedIds]

/-- What the pairs found so far promise. The scan appends items while the limit leaves
room, so the items are those of a first part of the pairs. -/
structure Paired (db : Db) (ns : Namespace) (params : ReviewQueueParams) (now : Int)
    (tier1 : List ReviewItem) (scan : DupScan) (pairs : List (MemoryId × MemoryId)) : Prop where
  consumed : ∀ id, id ∈ scan.consumed ↔ id ∈ pairedIds pairs
  once : (pairedIds pairs).Nodup
  active : ∀ id ∈ pairedIds pairs, db.FarEnd ns id
  visible : ∀ p ∈ pairs, reviewItemKey .nearDuplicate [p.1, p.2] ∉ db.snoozedKeys ns now
  found : scan.found = pairs.length
  items : ∃ dups, scan.items = tier1 ++ dups ∧
    List.Forall₂ (ReviewItem.IsFor .nearDuplicate) dups
      ((pairs.take (params.limit - tier1.length)).map fun p => [p.1, p.2])

theorem Paired.init (db : Db) (ns : Namespace) (params : ReviewQueueParams) (now : Int)
    (tier1 : List ReviewItem) : Paired db ns params now tier1 { items := tier1 } [] where
  consumed _ := Iff.rfl
  once := nodup_nil
  active _ hId := nomatch hId
  visible _ hp := nomatch hp
  found := rfl
  items := ⟨[], (append_nil _).symm, by simp⟩

variable {scan scan' : DupScan} {pairs : List (MemoryId × MemoryId)} {tier1 : List ReviewItem}

/-- An anchor keeps what the pairs promise: it adds at most the pair of itself and a free
twin. -/
theorem Db.scanAnchor_paired {anchor : MemoryId}
    (hAnchor : db.FarEnd ns anchor) (hPairs : Paired db ns params now tier1 scan pairs)
    (h : db.scanAnchor env ns params now scan anchor = .ok scan') :
    ∃ pairs', Paired db ns params now tier1 scan' pairs' := by
  rcases Db.scanAnchor_cases h with ⟨rfl, -⟩ |
    ⟨_, ⟨dup, s⟩, items, hAnchorFree, hDupFree, hNear, hd, hVisible, rfl, hItems⟩
  · exact ⟨pairs, hPairs⟩
  obtain ⟨hOther, hActive⟩ := Db.nearDuplicates_other hNear hd
  dsimp only at hDupFree hVisible hItems hOther hActive ⊢
  rw [hPairs.consumed] at hAnchorFree hDupFree
  obtain ⟨dups, hSplit, hEach⟩ := hPairs.items
  have hCount : dups.length = min (params.limit - tier1.length) pairs.length := by
    rw [hEach.length_eq, length_map, length_take]
  have hTotal : scan.items.length = tier1.length + dups.length := by
    rw [hSplit, length_append]
  refine ⟨pairs ++ [(anchor, dup)], ?_, ?_, ?_, ?_, ?_, ?_⟩
  · intro id
    rw [pairedIds_concat, mem_append, ← hPairs.consumed id]
    simp only [mem_cons, not_mem_nil, or_false]
    tauto
  · rw [pairedIds_concat, nodup_append]
    refine ⟨hPairs.once, by simpa using hOther.symm, ?_⟩
    rintro id hId other hIn rfl
    rcases mem_pair.mp hIn with rfl | rfl
    · exact hAnchorFree hId
    · exact hDupFree hId
  · intro id hId
    rw [pairedIds_concat, mem_append] at hId
    rcases hId with hOld | hNew
    · exact hPairs.active id hOld
    · rcases mem_pair.mp hNew with rfl | rfl
      · exact hAnchor
      · exact hActive
  · intro p hp
    rcases mem_concat.mp hp with hOld | rfl
    · exact hPairs.visible p hOld
    · exact hVisible
  · rw [length_append, hPairs.found]
    rfl
  · -- with room every pair so far has its item; without, the item list is as long as it gets
    refine ⟨dups ++ items, by rw [hSplit, append_assoc], ?_⟩
    rcases hItems with ⟨hRoom, item, rfl, hItem⟩ | ⟨hFull, rfl⟩
    · have hAll : pairs.take (params.limit - tier1.length) = pairs :=
        take_of_length_le (by omega)
      have hAll' : (pairs ++ [(anchor, dup)]).take (params.limit - tier1.length) =
          pairs ++ [(anchor, dup)] :=
        take_of_length_le (by rw [length_append, length_singleton]; omega)
      rw [hAll] at hEach
      rw [hAll', map_append]
      exact rel_append hEach (.cons (Db.reviewItem_isFor hItem) .nil)
    · have hSame : (pairs ++ [(anchor, dup)]).take (params.limit - tier1.length) =
          pairs.take (params.limit - tier1.length) :=
        take_append_of_le_length (by omega)
      rw [hSame, append_nil]
      exact hEach

/-- The whole scan. -/
theorem Db.scanAnchors_paired {anchors : List MemoryId}
    (hAnchors : ∀ id ∈ anchors, db.FarEnd ns id)
    (hPairs : Paired db ns params now tier1 scan pairs)
    (h : anchors.foldlM (db.scanAnchor env ns params now) scan = .ok scan') :
    ∃ pairs', Paired db ns params now tier1 scan' pairs' := by
  refine except_foldlM_keeps (P := fun s => ∃ pairs, Paired db ns params now tier1 s pairs) ?_
    ⟨pairs, hPairs⟩ h
  rintro anchor ha s s' ⟨pairs, hPairs⟩ hStep
  exact Db.scanAnchor_paired (hAnchors anchor ha) hPairs hStep

/-- The scan starts from active memories only. -/
theorem Db.scanAnchors_farEnd (h : id ∈ db.scanAnchors ns since) : db.FarEnd ns id := by
  obtain ⟨r, hr, rfl⟩ := mem_map.mp h
  have hIn := (mem_insertionSort _).mp (mem_of_mem_take hr)
  rw [mem_filter, decide_eq_true_eq] at hIn
  exact ⟨r, hIn.1, rfl, hIn.2.2.1, hIn.2.1⟩

/-- The pairs that the scan lists are a tier. -/
theorem Paired.isTier {scan : DupScan} (hFit : db.IdsFit)
    (hPairs : Paired db ns params now tier1 scan pairs) {dups : List ReviewItem}
    (hEach : List.Forall₂ (ReviewItem.IsFor .nearDuplicate) dups
      ((pairs.take (params.limit - tier1.length)).map fun p => [p.1, p.2])) :
    IsTier db ns now .nearDuplicate dups
      ((pairs.take (params.limit - tier1.length)).map fun p => [p.1, p.2]) := by
  have hEnds : ∀ p ∈ pairs, p.1 ∈ pairedIds pairs ∧ p.2 ∈ pairedIds pairs := by
    intro p hp
    exact ⟨mem_flatMap.mpr ⟨p, hp, mem_cons_self⟩,
      mem_flatMap.mpr ⟨p, hp, mem_cons_of_mem _ mem_cons_self⟩⟩
  have hFits : ∀ id ∈ pairedIds pairs, id.uuid < 2 ^ 128 :=
    fun id hId => (hPairs.active id hId).fits hFit
  have hFirst := take_prefix (params.limit - tier1.length) pairs
  refine IsTier.of_prefix (hFirst.map _) hEach ?_ ?_ ?_
  · -- pairs of different memories have different keys
    have hApart : pairs.Pairwise fun p q => List.Disjoint [p.1, p.2] [q.1, q.2] :=
      (nodup_flatMap.mp hPairs.once).2
    rw [map_map, List.Nodup, pairwise_map]
    refine hApart.imp_of_mem fun {p q} hp hq hDisjoint hKeys => ?_
    rcases reviewItemKey_pair_inj (hFits _ (hEnds p hp).1) (hFits _ (hEnds p hp).2)
      (hFits _ (hEnds q hq).1) (hFits _ (hEnds q hq).2) hKeys with ⟨hSame, -⟩ | ⟨hSame, -⟩
    · exact hDisjoint mem_cons_self (hSame ▸ mem_cons_self)
    · exact hDisjoint mem_cons_self
        (hSame ▸ mem_cons_of_mem _ mem_cons_self)
  · intro ids hIds
    obtain ⟨p, hp, rfl⟩ := mem_map.mp hIds
    exact hPairs.visible p hp
  · intro ids hIds id hId
    obtain ⟨p, hp, rfl⟩ := mem_map.mp hIds
    rcases mem_pair.mp hId with rfl | rfl
    · exact hPairs.active _ (hEnds p hp).1
    · exact hPairs.active _ (hEnds p hp).2

/-! ## The tiers of single memories -/

section

variable {le : MemoryRow → MemoryRow → Prop} [DecidableRel le] {p : MemoryRow → Prop}
  [DecidablePred p] {limit : Nat}

theorem Db.nodup_singleTier (hIds : db.ids.Nodup) : (db.singleTier le p limit).2.Nodup := by
  have hRows : (((db.memories.filter p).insertionSort le).map MemoryRow.memoryId).Nodup := by
    rw [((perm_insertionSort le _).map MemoryRow.memoryId).nodup_iff]
    exact hIds.sublist (filter_sublist.map _)
  exact hRows.sublist ((take_sublist _ _).map _)

theorem Db.mem_singleTier (h : id ∈ (db.singleTier le p limit).2) :
    ∃ r ∈ db.memories, r.memoryId = id ∧ p r := by
  obtain ⟨r, hr, rfl⟩ := mem_map.mp h
  have hIn := (mem_insertionSort _).mp (mem_of_mem_take hr)
  rw [mem_filter, decide_eq_true_eq] at hIn
  exact ⟨r, hIn.1, rfl, hIn.2⟩

theorem Db.length_singleTier : (db.singleTier le p limit).2.length =
    min limit (db.singleTier le p limit).1 := by
  show (List.map _ (List.take limit _)).length = min limit (db.memories.filter p).length
  rw [length_map, length_take, length_insertionSort]

/-- The items of a tier of single memories, when its rows satisfy the shared terms. -/
theorem Db.singleTier_isTier (hIds : db.ids.Nodup) (hFit : db.IdsFit)
    (hTerms : ∀ r ∈ db.memories, p r → db.Single ns since now reason r)
    (h : ((db.singleTier le p limit).2.mapM fun id => db.reviewItem now reason [id] none) =
      .ok items) :
    IsTier db ns now reason items ((db.singleTier le p limit).2.map fun id => [id]) := by
  have hEach : List.Forall₂ (ReviewItem.IsFor reason) items
      ((db.singleTier le p limit).2.map fun id => [id]) := by
    rw [forall₂_map_right_iff]
    exact ((except_mapM_ok.mp h).imp fun _ _ hItem => Db.reviewItem_isFor hItem).flip
  have hActive : ∀ id ∈ (db.singleTier le p limit).2, db.FarEnd ns id := by
    intro id hId
    obtain ⟨r, hr, rfl, hp⟩ := Db.mem_singleTier hId
    obtain ⟨hNs, hLive, -⟩ := hTerms r hr hp
    exact ⟨r, hr, rfl, hLive, hNs⟩
  refine ⟨hEach, ?_, ?_, ?_⟩
  · rw [map_map]
    refine (Db.nodup_singleTier hIds).map_on fun a ha b hb hKeys => ?_
    exact reviewItemKey_single_inj ((hActive a ha).fits hFit) ((hActive b hb).fits hFit) hKeys
  · intro ids hIn
    obtain ⟨id, hId, rfl⟩ := mem_map.mp hIn
    obtain ⟨r, hr, rfl, hp⟩ := Db.mem_singleTier hId
    exact (hTerms r hr hp).2.2.2
  · intro ids hIn id hId
    obtain ⟨id', hId', rfl⟩ := mem_map.mp hIn
    rw [mem_singleton.mp hId]
    exact hActive id' hId'

end

/-! ## The plan -/

/-- A plan with the items and the memories of each of its tiers. -/
structure IsPlan (db : Db) (ns : Namespace) (limit : Nat) (now : Int) (plan : ReviewPlan)
    (items : ReviewReason → List ReviewItem) (idss : ReviewReason → List (List MemoryId)) :
    Prop where
  split : plan.items = items .contradiction ++ items .nearDuplicate ++ items .lowConfidence ++
    items .staleNeverRecalled
  tier : ∀ reason, IsTier db ns now reason (items reason) (idss reason)
  once : ∀ policy : ReviewPolicy, (idss policy.scope).flatten.Nodup
  room : plan.items.length ≤ limit
  honest : plan.truncated = true ↔ ∃ reason, (items reason).length < plan.totals.of reason

/-- Four values, one for each reason. -/
def byReason {α : Type} (c d l s : α) : ReviewReason → α
  | .contradiction => c
  | .nearDuplicate => d
  | .lowConfidence => l
  | .staleNeverRecalled => s

/-- A plan is its four tiers. -/
theorem Db.reviewQueue_tiers {t : DateTime} {plan : ReviewPlan} (hIds : db.ids.Nodup)
    (hFit : db.IdsFit) (h : db.reviewQueue env ns params t = .ok plan) :
    ∃ items idss, IsPlan db ns params.limit t.secs plan items idss := by
  simp only [reviewQueue, except_bind_ok] at h
  obtain ⟨_, -, tier1, hTier, scan, hScan, low, hLow, stale, hStale, hEq⟩ := h
  obtain ⟨pairs, hPairs⟩ := Db.scanAnchors_paired (fun id => Db.scanAnchors_farEnd)
    (Paired.init db ns params t.secs tier1) hScan
  obtain ⟨dups, hSplit, hEach⟩ := hPairs.items
  have hFirst := Db.contradictionItems_isTier hFit hTier
  have hDups := hPairs.isTier hFit hEach
  have hSingles := Db.singleTier_isTier hIds hFit (fun r _ hp => hp.1) hLow
  have hStales := Db.singleTier_isTier hIds hFit (fun r _ hp => hp.1) hStale
  -- how many items each tier lists
  have hFirstLength := hFirst.length_eq
  have hDupsLength := hDups.length_eq
  have hLowLength := hSingles.length_eq
  have hStaleLength := hStales.length_eq
  rw [length_map, length_take] at hFirstLength hDupsLength
  rw [length_map, Db.length_singleTier] at hLowLength hStaleLength
  have hFound := hPairs.found
  have hScanLength : scan.items.length = tier1.length + dups.length := by
    rw [hSplit, length_append]
  cases hEq
  refine ⟨byReason tier1 dups low stale,
    byReason (((db.openPairs ns params.since t.secs).take params.limit).map fun p => [p.1, p.2])
      ((pairs.take (params.limit - tier1.length)).map fun p => [p.1, p.2])
      ((db.lowTier ns params.since t.secs (params.limit - scan.items.length)).2.map fun id => [id])
      ((db.staleTier ns params.since t.secs
        (params.limit - (scan.items.length + low.length))).2.map fun id => [id]),
    ?_, ?_, ?_, ?_, ?_⟩
  · rw [hSplit]
    rfl
  · rintro (_ | _ | _ | _)
    · exact hFirst
    · exact hDups
    · exact hSingles
    · exact hStales
  · rintro (_ | _)
    · show (List.flatten (List.map _ (List.take _ pairs))).Nodup
      rw [← flatMap_def]
      exact hPairs.once.sublist ((take_sublist _ pairs).flatMap _)
    · show (List.flatten (List.map (fun id => [id]) _)).Nodup
      rw [← flatMap_def, flatMap_singleton']
      exact Db.nodup_singleTier hIds
  · simp only [length_append]
    omega
  · -- the flag compares each total with the items of its own tier
    have hDupsListed : scan.items.length - tier1.length = dups.length := by omega
    have hLowListed := hSingles.length_eq
    have hStaleListed := hStales.length_eq
    rw [length_map] at hLowListed hStaleListed
    simp only [Bool.or_eq_true, decide_eq_true_eq]
    constructor
    · rintro (((hMore | hMore) | hMore) | hMore)
      · exact ⟨.contradiction, hMore⟩
      · exact ⟨.nearDuplicate, hDupsListed ▸ hMore⟩
      · exact ⟨.lowConfidence, hLowListed ▸ hMore⟩
      · exact ⟨.staleNeverRecalled, hStaleListed ▸ hMore⟩
    · rintro ⟨_ | _ | _ | _, hMore⟩
      · exact .inl (.inl (.inl hMore))
      · exact .inl (.inl (.inr (hDupsListed ▸ hMore)))
      · exact .inl (.inr (hLowListed ▸ hMore))
      · exact .inr (hStaleListed ▸ hMore)

namespace IsPlan

variable {limit : Nat} {plan : ReviewPlan} {items : ReviewReason → List ReviewItem}
  {idss : ReviewReason → List (List MemoryId)}

section

variable (h : IsPlan db ns limit now plan items idss)

include h

/-- A relation holds along the plan if it holds within the tiers and from each tier to the
later ones. -/
theorem pairwise_items {R : ReviewItem → ReviewItem → Prop}
    (hWithin : ∀ reason, (items reason).Pairwise R)
    (hAcross : ∀ r₁ r₂ : ReviewReason, r₁.tier < r₂.tier →
      ∀ a ∈ items r₁, ∀ b ∈ items r₂, R a b) : plan.items.Pairwise R := by
  rw [h.split]
  simp only [pairwise_append, mem_append]
  refine ⟨⟨⟨hWithin _, hWithin _, hAcross _ _ (by decide)⟩, hWithin _, ?_⟩, hWithin _, ?_⟩
  · rintro a (ha | ha)
    · exact hAcross _ _ (by decide) a ha
    · exact hAcross _ _ (by decide) a ha
  · rintro a ((ha | ha) | ha)
    · exact hAcross _ _ (by decide) a ha
    · exact hAcross _ _ (by decide) a ha
    · exact hAcross _ _ (by decide) a ha

theorem mem_items (hi : item ∈ plan.items) : ∃ reason, item ∈ items reason := by
  rw [h.split] at hi
  simp only [mem_append] at hi
  rcases hi with ((hi | hi) | hi) | hi
  · exact ⟨_, hi⟩
  · exact ⟨_, hi⟩
  · exact ⟨_, hi⟩
  · exact ⟨_, hi⟩

/-- The items of a reason are the tier of that reason. -/
theorem filter_reason (reason : ReviewReason) :
    (plan.items.filter fun item => item.reason = reason) = items reason := by
  rw [h.split, filter_append, filter_append, filter_append,
    (h.tier .contradiction).filter_reason, (h.tier .nearDuplicate).filter_reason,
    (h.tier .lowConfidence).filter_reason, (h.tier .staleNeverRecalled).filter_reason]
  cases reason <;> simp

theorem keys_nodup :
    (plan.items.map ReviewItem.key).Nodup := by
  rw [List.Nodup, pairwise_map]
  refine h.pairwise_items (fun reason => (h.tier reason).keys_nodup) ?_
  intro r₁ r₂ hLater a ha b hb
  refine (h.tier r₁).keys_apart (h.tier r₂) ?_ ha hb
  rintro rfl
  exact Nat.lt_irrefl _ hLater

theorem ordered :
    plan.items.Pairwise fun a b => a.reason.tier ≤ b.reason.tier := by
  refine h.pairwise_items ?_ ?_
  · intro reason
    refine pairwise_of_forall_mem_list fun a ha b hb => ?_
    rw [(h.tier reason).reason_eq a ha, (h.tier reason).reason_eq b hb]
  · intro r₁ r₂ hLater a ha b hb
    rw [(h.tier r₁).reason_eq a ha, (h.tier r₂).reason_eq b hb]
    exact hLater.le

/-- A plan says that it is cut exactly when a tier lists fewer than it counts. -/
theorem truncated_iff :
    plan.truncated = true ↔
      ∃ reason, (plan.items.filter fun item => item.reason = reason).length <
        plan.totals.of reason := by
  rw [h.honest]
  refine exists_congr fun reason => ?_
  rw [h.filter_reason reason]

theorem visible (hi : item ∈ plan.items) :
    item.key ∉ db.snoozedKeys ns now := by
  obtain ⟨reason, hIn⟩ := h.mem_items hi
  obtain ⟨ids, hIds, hFor⟩ := (h.tier reason).mem hIn
  rw [hFor.keyed]
  exact (h.tier reason).visible ids hIds

/-- What a policy plans for two items of the queue has no memory in common: the items are of
one tier, whose memories are all different. -/
theorem planned_apart (policy : ReviewPolicy) :
    (policy.planned plan.items).Pairwise List.Disjoint := by
  rw [ReviewPolicy.planned, pairwise_filterMap]
  refine h.pairwise_items ?_ ?_
  · intro reason
    by_cases hScope : reason = policy.scope
    · subst hScope
      have hIdss := (nodup_flatten.mp (h.once policy)).2
      rw [← (h.tier policy.scope).members_eq, pairwise_map] at hIdss
      refine hIdss.imp fun {a b} hDisjoint xs hxs ys hys id hx hy => ?_
      obtain ⟨action, hAction, rfl⟩ := Option.map_eq_some_iff.mp hxs
      obtain ⟨action', hAction', rfl⟩ := Option.map_eq_some_iff.mp hys
      exact hDisjoint ((ReviewPolicy.planAction_scope hAction).2 id hx)
        ((ReviewPolicy.planAction_scope hAction').2 id hy)
    · refine pairwise_of_forall_mem_list fun a ha b _ xs hxs => ?_
      obtain ⟨action, hAction, -⟩ := Option.map_eq_some_iff.mp hxs
      have hReason := (ReviewPolicy.planAction_scope hAction).1
      rw [(h.tier reason).reason_eq a ha] at hReason
      exact absurd hReason hScope
  · intro r₁ r₂ hLater a ha b hb xs hxs ys hys
    obtain ⟨action, hAction, -⟩ := Option.map_eq_some_iff.mp hxs
    obtain ⟨action', hAction', -⟩ := Option.map_eq_some_iff.mp hys
    have hFirst := (ReviewPolicy.planAction_scope hAction).1
    have hSecond := (ReviewPolicy.planAction_scope hAction').1
    rw [(h.tier r₁).reason_eq a ha] at hFirst
    rw [(h.tier r₂).reason_eq b hb, ← hFirst] at hSecond
    rw [hSecond] at hLater
    exact absurd hLater (Nat.lt_irrefl _)

theorem planned_active (policy : ReviewPolicy) :
    ∀ ids ∈ policy.planned plan.items, ∀ id ∈ ids, db.FarEnd ns id := by
  intro ids hIds id hId
  obtain ⟨item, hi, hPlanned⟩ := mem_filterMap.mp hIds
  obtain ⟨action, hAction, rfl⟩ := Option.map_eq_some_iff.mp hPlanned
  obtain ⟨reason, hIn⟩ := h.mem_items hi
  obtain ⟨ids', hIds', hFor⟩ := (h.tier reason).mem hIn
  have hMember := (ReviewPolicy.planAction_scope hAction).2 id hId
  rw [hFor.members] at hMember
  exact (h.tier reason).active ids' hIds' id hMember

end

end IsPlan

/-- A review plan is free of conflicts and honest about what it leaves out. Ids are a primary
key and have 128 bits. -/
theorem review_plan_disjoint_and_honest (env : Env) (db : Db) (ns : Namespace)
    (params : ReviewQueueParams) (now : DateTime) (plan : ReviewPlan) (hIds : db.ids.Nodup)
    (hFit : db.IdsFit) (h : db.reviewQueue env ns params now = .ok plan) :
    (∀ policy : ReviewPolicy, (policy.planned plan.items).Pairwise List.Disjoint ∧
      ∀ ids ∈ policy.planned plan.items, ∀ id ∈ ids, db.FarEnd ns id) ∧
    (∀ item ∈ plan.items, ¬ ∃ r ∈ db.reviewState, r.ns = ns.asDbString ∧ r.itemKey = item.key ∧
      ∃ t ∈ r.snoozeUntil, t > now.secs) ∧
    (plan.items.map ReviewItem.key).Nodup ∧ plan.items.length ≤ params.limit ∧
    (plan.items.Pairwise fun a b => a.reason.tier ≤ b.reason.tier) ∧
    (plan.truncated = true ↔
      ∃ reason, (plan.items.filter fun item => item.reason = reason).length <
        plan.totals.of reason) := by
  obtain ⟨items, idss, hPlan⟩ := Db.reviewQueue_tiers hIds hFit h
  refine ⟨fun policy => ⟨hPlan.planned_apart policy, hPlan.planned_active policy⟩, ?_,
    hPlan.keys_nodup, hPlan.room, hPlan.ordered, hPlan.truncated_iff⟩
  rintro item hi ⟨r, hr, hNs, hKey, hSnoozed⟩
  refine hPlan.visible hi ?_
  rw [Db.snoozedKeys, mem_dedup, mem_map]
  exact ⟨r, mem_filter.mpr ⟨hr, decide_eq_true ⟨hNs, hSnoozed⟩⟩, hKey⟩

/-- Three memories with one vector. -/
def tripletStore : Db :=
  storeAfter .blank 2
    [.insertMemory 0 (.plain 1) (some [1, 0]), .insertMemory 0 (.plain 2) (some [1, 0]),
      .insertMemory 0 (.plain 3) (some [1, 0])]

/-- The result for a plan with one pair of three twins, two months later: with a limit of
one, the twin that is left and the stale memories do not show. -/
theorem review_plan_disjoint_and_honest_triplets : ∃ plan,
    tripletStore.reviewQueue .blank .global { threshold := 1, limit := 1 } ⟨5184000, 0⟩ = .ok plan ∧
    ReviewPolicy.autoMergeDups.planned plan.items = [[⟨1⟩, ⟨2⟩]] ∧
    plan.items.length ≤ 1 ∧ plan.truncated = true ∧
    ∃ reason, (plan.items.filter fun item => item.reason = reason).length <
      plan.totals.of reason := by
  have hOk : (tripletStore.reviewQueue .blank .global { threshold := 1, limit := 1 }
      ⟨5184000, 0⟩).toOption.map (fun plan =>
        (ReviewPolicy.autoMergeDups.planned plan.items, plan.truncated)) =
      some ([[⟨1⟩, ⟨2⟩]], true) := by
    decide +kernel
  obtain ⟨plan, hPlan, hBoth⟩ := except_toOption_map hOk
  obtain ⟨hPlanned, hTruncated⟩ := Prod.mk.inj hBoth
  obtain ⟨-, -, -, hRoom, -, hHonest⟩ := review_plan_disjoint_and_honest .blank tripletStore
    .global { threshold := 1, limit := 1 } ⟨5184000, 0⟩ plan (by decide +kernel)
    (by decide +kernel) hPlan
  exact ⟨plan, hPlan, hPlanned, hRoom, hTruncated, hHonest.mp hTruncated⟩

end RustyBrain.Store
