import RustyBrain.Store.ReviewPlan
import RustyBrain.Store.VectorIndex
import RustyBrain.Types.Rounding

/-!
# rusty-brain — what the scan for near-duplicates cannot miss

The scan of `review_queue` looks from the 200 oldest active memories, asks the vector index
for 90 neighbours of each, keeps eight, and puts a memory into one pair at most. None of the
last three bounds lets it come back without a pair when there is one to find: a neighbour that
pushed the twin out of the budget is at least as near, and a memory that is taken is taken by a
pair. Only the number of anchors can.
-/

namespace RustyBrain.Store

open Transaction List

variable {scan scan' : DupScan} {anchors : List MemoryId} {item : ReviewItem} {anchor : MemoryId}
  {env : Env} {db : Db} {ns : Namespace} {params : ReviewQueueParams} {now : Int} {threshold : ℚ}
  {a b : MemoryId}

/-- Two active memories of the namespace with stored vectors that the scan takes for similar,
seen from the first of them. -/
def Db.Twins (env : Env) (db : Db) (ns : Namespace) (threshold : ℚ) (a b : MemoryId) : Prop :=
  (a ≠ b ∧ db.FarEnd ns a ∧ db.FarEnd ns b) ∧ ∃ u ∈ db.vectors, ∃ v ∈ db.vectors,
    (u.memoryId = a ∧ v.memoryId = b) ∧
      threshold ≤ distanceToSimilarity (env.distance u.embedding v.embedding)
  deriving Decidable

/-! ## One anchor -/

/-- A nearer vector is at least as similar. -/
theorem distanceToSimilarity_anti {d e : ℚ} (h : d ≤ e) :
    distanceToSimilarity e ≤ distanceToSimilarity d :=
  clampUnit_mono (f32Round_mono (sub_le_sub_left (f32Round_mono h) 1))

/-- The vector of an active memory of the namespace is in the partition of the namespace. -/
theorem Db.Indexed.ns_eq (h : db.Indexed) (hWf : db.Wf) {v : VectorRow} (hv : v ∈ db.vectors)
    (hActive : db.FarEnd ns v.memoryId) : v.ns = ns.asDbString := by
  obtain ⟨r, hr, hId, -, hNs⟩ := h.live v hv
  obtain ⟨far, hFar, hFarId, -, hFarNs⟩ := hActive
  have hSame : r = far := inj_on_of_nodup_map hWf.ids hr hFar (hId.trans hFarId.symm)
  rw [← hNs, hSame, hFarNs]

/-- Among the first of the vectors by distance there is one other than the anchor's own that is
at most as far as a given one: the given one itself, or one that pushed it out. -/
theorem exists_nearer (env : Env) {anchor v : VectorRow} {vectors : List VectorRow} {n : Nat}
    (hNodup : (vectors.map VectorRow.memoryId).Nodup) (hv : v ∈ vectors)
    (hOther : v.memoryId ≠ anchor.memoryId) (hBudget : 2 ≤ n) :
    ∃ w ∈ (vectors.insertionSort fun a b =>
        env.distance anchor.embedding a.embedding ≤ env.distance anchor.embedding b.embedding).take n,
      w.memoryId ≠ anchor.memoryId ∧
        env.distance anchor.embedding w.embedding ≤ env.distance anchor.embedding v.embedding := by
  let le : VectorRow → VectorRow → Prop := fun a b =>
    env.distance anchor.embedding a.embedding ≤ env.distance anchor.embedding b.embedding
  let sorted := vectors.insertionSort le
  show ∃ w ∈ sorted.take n, _
  have : Std.Total le := ⟨fun a b => le_total _ _⟩
  have : IsTrans VectorRow le := ⟨fun a b c => le_trans⟩
  have hPerm : sorted.Perm vectors := perm_insertionSort le vectors
  have hSorted : sorted.Pairwise le := pairwise_insertionSort le vectors
  have hIds : (sorted.map VectorRow.memoryId).Nodup :=
    ((hPerm.map VectorRow.memoryId).nodup_iff).mpr hNodup
  have hIn : v ∈ sorted.take n ∨ v ∈ sorted.drop n := by
    rw [← mem_append, take_append_drop]
    exact hPerm.mem_iff.mpr hv
  rcases hIn with hIn | hOut
  · exact ⟨v, hIn, hOther, le_rfl⟩
  · -- what is kept is at most as far as what is dropped
    have hKept : ∀ w ∈ sorted.take n, le w v := by
      intro w hw
      have hSplit : (sorted.take n ++ sorted.drop n).Pairwise le := by
        rw [take_append_drop]
        exact hSorted
      exact (pairwise_append.mp hSplit).2.2 w hw v hOut
    have hLong : 2 ≤ (sorted.take n).length := by
      have hDropped := length_pos_of_mem hOut
      rw [length_drop] at hDropped
      rw [length_take]
      omega
    have hApart : ((sorted.take n).map VectorRow.memoryId).Nodup :=
      hIds.sublist ((take_sublist n sorted).map _)
    -- of two of them at most one is the anchor's own
    cases hTake : sorted.take n with
    | nil =>
      rw [hTake] at hLong
      exact absurd hLong (by simp)
    | cons x rest =>
      cases rest with
      | nil =>
        rw [hTake] at hLong
        exact absurd hLong (by simp)
      | cons y rest =>
        rw [hTake] at hKept hApart
        by_cases hx : x.memoryId = anchor.memoryId
        · refine ⟨y, by simp, fun hy => ?_, hKept y (by simp)⟩
          rw [map_cons, map_cons, hx, hy] at hApart
          exact (nodup_cons.mp hApart).1 mem_cons_self
        · exact ⟨x, by simp, hx, hKept x (by simp)⟩

/-- The search from an anchor with a twin comes back with some twin. -/
theorem Db.nearDuplicates_of_twin (hWf : db.Wf) (hIndexed : db.Indexed)
    (hTwins : db.Twins env ns threshold a b) {limit : Nat} (hLimit : 0 < limit)
    {dups : List (MemoryId × ℚ)} (h : db.nearDuplicates env ns a threshold limit = .ok dups) :
    dups ≠ [] := by
  obtain ⟨⟨hne, hA, hB⟩, u, hu, v, hv, ⟨rfl, rfl⟩, hSimilar⟩ := hTwins
  unfold nearDuplicates at h
  split at h
  · rename_i hNone
    exact absurd (find?_eq_none.mp hNone u hu) (by simp)
  · rename_i anchor hFind
    -- ids are unique in the index, so the anchor's vector is this one
    obtain rfl : anchor = u :=
      inj_on_of_nodup_map hIndexed.nodup (mem_of_find?_eq_some hFind) hu
        (by simpa using find?_some hFind)
    split at h
    · cases h
    · have hPart : v ∈ db.vectors.filter fun w => w.ns = ns.asDbString :=
        mem_filter.mpr ⟨hv, decide_eq_true (hIndexed.ns_eq hWf hv hB)⟩
      have hBudget : 2 ≤ knnBudget limit := by
        unfold knnBudget
        omega
      obtain ⟨w, hw, hOther, hNearer⟩ := exists_nearer env
        (hIndexed.nodup.sublist (filter_sublist.map _)) hPart hne.symm hBudget
      -- it is a neighbour that the filters of the search let through
      have hwIn := (mem_insertionSort _).mp (mem_of_mem_take hw)
      rw [mem_filter, decide_eq_true_eq] at hwIn
      obtain ⟨r, hr, hId, hLive, hNs⟩ := hIndexed.live w hwIn.1
      have hDup : db.asDuplicate env ns anchor threshold w = some (w.memoryId,
          distanceToSimilarity (env.distance anchor.embedding w.embedding)) :=
        Db.asDuplicate_some.mpr ⟨⟨hOther, ⟨r, hr, hId, hLive trivial, hNs.trans hwIn.2⟩,
          hSimilar.trans (distanceToSimilarity_anti hNearer)⟩, rfl⟩
      have hSome := mem_filterMap.mpr ⟨w, hw, hDup⟩
      cases h
      intro hNil
      have hLength := congrArg List.length hNil
      rw [length_take, length_insertionSort, length_nil] at hLength
      have := length_pos_of_mem hSome
      omega

/-! ## The scan -/

/-- What is in a pair stays in it. -/
theorem Db.scanAnchor_grows (hSome : scan.consumed ≠ [])
    (h : db.scanAnchor env ns params now scan anchor = .ok scan') : scan'.consumed ≠ [] := by
  rcases Db.scanAnchor_cases h with ⟨rfl, -⟩ | ⟨-, d, more, -, -, -, -, -, rfl, -⟩
  · exact hSome
  · exact cons_ne_nil _ _

/-- After an anchor with a twin there is a pair. -/
theorem Db.scanAnchor_takes (hWf : db.Wf) (hIndexed : db.Indexed)
    (hOpen : db.snoozedKeys ns now = []) (hTwins : db.Twins env ns params.threshold a b)
    (h : db.scanAnchor env ns params now scan a = .ok scan') : scan'.consumed ≠ [] := by
  by_cases hFree : scan.consumed = []
  · rcases Db.scanAnchor_cases h with ⟨rfl, hStuck⟩ | ⟨-, d, more, -, -, -, -, -, rfl, -⟩
    · -- nothing is taken and nothing is snoozed, so the first duplicate is free
      rw [hFree, hOpen] at hStuck
      obtain ⟨dups, hDups, hNone⟩ := hStuck.resolve_left not_mem_nil
      obtain ⟨d, hd⟩ := exists_mem_of_ne_nil dups
        (Db.nearDuplicates_of_twin hWf hIndexed hTwins (by decide) hDups)
      exact absurd (hNone d hd not_mem_nil) not_mem_nil
    · exact cons_ne_nil _ _
  · exact Db.scanAnchor_grows hFree h

/-- A scan that reaches an anchor with a twin makes a pair. -/
theorem Db.scanAnchors_takes (hWf : db.Wf) (hIndexed : db.Indexed)
    (hOpen : db.snoozedKeys ns now = []) (hTwins : db.Twins env ns params.threshold a b)
    (ha : a ∈ anchors) (h : anchors.foldlM (db.scanAnchor env ns params now) scan = .ok scan') :
    scan'.consumed ≠ [] := by
  obtain ⟨before, after, rfl⟩ := append_of_mem ha
  rw [foldlM_append, except_bind_ok] at h
  obtain ⟨mid, -, h⟩ := h
  rw [foldlM_cons, except_bind_ok] at h
  obtain ⟨taken, hTakes, hRest⟩ := h
  exact except_foldlM_keeps (P := fun s => s.consumed ≠ []) (fun _ _ _ _ => Db.scanAnchor_grows)
    (Db.scanAnchor_takes hWf hIndexed hOpen hTwins hTakes) hRest

/-- An item that an anchor adds is for it and a twin of it. -/
theorem Db.scanAnchor_twins (hAnchor : db.FarEnd ns anchor)
    (h : db.scanAnchor env ns params now scan anchor = .ok scan') (hi : item ∈ scan'.items) :
    item ∈ scan.items ∨ ∃ dup s,
      db.Twins env ns params.threshold anchor dup ∧
        db.reviewItem now .nearDuplicate [anchor, dup] s = .ok item := by
  rcases Db.scanAnchor_cases h with ⟨rfl, -⟩ | ⟨dups, d, more, -, -, hDups, hd, -, rfl, hMore⟩
  · exact .inl hi
  rcases mem_append.mp hi with hOld | hNew
  · exact .inl hOld
  rcases hMore with ⟨-, new, rfl, hItem⟩ | ⟨-, rfl⟩
  · obtain ⟨u, hu, rfl, v, hv, -, hDup⟩ := Db.mem_nearDuplicates hDups hd
    obtain ⟨⟨hOther, hActive, hSimilar⟩, rfl⟩ := Db.asDuplicate_some.mp hDup
    rw [mem_singleton.mp hNew]
    exact .inr ⟨_, _, ⟨⟨hOther.symm, hAnchor, hActive⟩, u, hu, v, hv, ⟨rfl, rfl⟩, hSimilar⟩, hItem⟩
  · cases hNew

/-- All that a scan makes are pairs of twins. -/
theorem Db.scanAnchors_twins (hAnchors : ∀ id ∈ anchors, db.FarEnd ns id)
    (h : anchors.foldlM (db.scanAnchor env ns params now) scan = .ok scan')
    (hi : item ∈ scan'.items) : item ∈ scan.items ∨ ∃ x y s,
      db.Twins env ns params.threshold x y ∧
        db.reviewItem now .nearDuplicate [x, y] s = .ok item := by
  revert hi
  refine except_foldlM_keeps (P := fun s => item ∈ s.items → item ∈ scan.items ∨ ∃ x y s,
    db.Twins env ns params.threshold x y ∧ db.reviewItem now .nearDuplicate [x, y] s = .ok item)
    ?_ .inl h
  intro anchor ha mid mid' hMid hStep hi
  rcases Db.scanAnchor_twins (hAnchors anchor ha) hStep hi with hOld | ⟨dup, s, hTwins, hItem⟩
  · exact hMid hOld
  · exact .inr ⟨anchor, dup, s, hTwins, hItem⟩

/-! ## The queue -/

/-- The number of active memories of a namespace. -/
def Db.activeCount (db : Db) (ns : Namespace) : Nat :=
  db.memories.countP fun m => m.ns = ns.asDbString ∧ m.archivedAt = none

/-- The scan of a whole namespace starts from each of its active memories if they are within
its budget. -/
theorem Db.mem_scanAnchors {id : MemoryId} (hFew : db.activeCount ns ≤ nearDupScanBudget)
    (h : db.FarEnd ns id) : id ∈ db.scanAnchors ns none := by
  obtain ⟨r, hr, rfl, hLive, hNs⟩ := h
  refine mem_map.mpr ⟨r, ?_, rfl⟩
  rw [take_of_length_le, mem_insertionSort, mem_filter, decide_eq_true_eq]
  · exact ⟨hr, hNs, hLive, nofun⟩
  · rw [length_insertionSort, ← countP_eq_length_filter]
    refine le_trans (countP_mono_left fun m _ hm => ?_) hFew
    rw [decide_eq_true_eq] at hm ⊢
    exact ⟨hm.1, hm.2.1⟩

/-- An item for memories that are not curated shows no curated member. -/
theorem Db.reviewItem_uncurated {reason : ReviewReason} {ids : List MemoryId} {s : Option ℚ}
    (hPlain : ∀ id ∈ ids, db.Uncurated id) (h : db.reviewItem now reason ids s = .ok item) :
    item.members.any ReviewMember.humanCurated = false := by
  simp only [reviewItem, except_bind_ok] at h
  obtain ⟨members, hMembers, hEq⟩ := h
  cases hEq
  refine any_eq_false.mpr fun m hm => ?_
  obtain ⟨id, hId, hMember⟩ := (except_mapM_mem hMembers).mp hm
  unfold reviewMember at hMember
  split at hMember
  · cases hMember
  · rename_i r hFind
    cases hMember
    show ¬ r.humanCurated = true
    rw [hPlain id hId r (Db.find_some hFind).1 (Db.find_some hFind).2]
    exact Bool.false_ne_true

/-- With room after the contradictions and every active memory within reach, a queue over a
store with twins lists a pair of twins right after the contradictions. -/
theorem Db.reviewQueue_pair (hWf : db.Wf) (hIndexed : db.Indexed) {t : DateTime}
    (hOpen : db.snoozedKeys ns t.secs = []) (hSince : params.since = none)
    (hRoom : (db.openPairs ns none t.secs).length < params.limit)
    (hReach : db.activeCount ns ≤ nearDupScanBudget)
    (hTwins : db.Twins env ns params.threshold a b) {plan : ReviewPlan}
    (h : db.reviewQueue env ns params t = .ok plan) :
    ∃ tier1 item rest x y s, plan.items = tier1 ++ item :: rest ∧
      (∀ i ∈ tier1, i.reason = .contradiction) ∧ db.Twins env ns params.threshold x y ∧
      db.reviewItem t.secs .nearDuplicate [x, y] s = .ok item := by
  simp only [reviewQueue, except_bind_ok, hSince] at h
  obtain ⟨_, -, tier1, hTier, scan, hScan, low, -, stale, -, hEq⟩ := h
  cases hEq
  have hKind : ∀ i ∈ tier1, i.reason = .contradiction := by
    intro i hi
    obtain ⟨p, -, hItem⟩ := (except_mapM_mem hTier).mp hi
    exact (Db.reviewItem_members hItem).2
  have hShort : tier1.length < params.limit := by
    have hLength := (except_mapM_ok.mp hTier).length_eq
    rw [length_take] at hLength
    omega
  have hAnchors : ∀ id ∈ db.scanAnchors ns none, db.FarEnd ns id := fun id => Db.scanAnchors_farEnd
  -- some memory is in a pair, so there is a pair, and it has an item
  have hTaken := Db.scanAnchors_takes hWf hIndexed hOpen hTwins
    (Db.mem_scanAnchors hReach hTwins.1.2.1) hScan
  obtain ⟨pairs, hPairs⟩ := Db.scanAnchors_paired hAnchors
    (Paired.init db ns params t.secs tier1) hScan
  obtain ⟨dups, hSplit, hEach⟩ := hPairs.items
  have hSome : 0 < dups.length := by
    obtain ⟨id, hId⟩ := exists_mem_of_ne_nil _ hTaken
    obtain ⟨p, hp, -⟩ := mem_flatMap.mp ((hPairs.consumed id).mp hId)
    have hFound := length_pos_of_mem hp
    rw [hEach.length_eq, length_map, length_take]
    omega
  obtain ⟨item, rest, rfl⟩ := exists_cons_of_length_pos hSome
  have hi : item ∈ scan.items := by
    rw [hSplit]
    exact mem_append_right _ mem_cons_self
  have hFor : item.reason = .nearDuplicate := by
    cases hList : (pairs.take (params.limit - tier1.length)).map fun p => [p.1, p.2] with
    | nil =>
      rw [hList] at hEach
      cases hEach
    | cons ids more =>
      rw [hList] at hEach
      exact (forall₂_cons.mp hEach).1.kind
  rcases Db.scanAnchors_twins hAnchors hScan hi with hOld | ⟨x, y, s, hxy, hItem⟩
  · exact absurd ((hKind item hOld).symm.trans hFor) (by decide)
  · refine ⟨tier1, item, rest ++ low ++ stale, x, y, s, ?_, hKind, hxy, hItem⟩
    show scan.items ++ low ++ stale = _
    rw [hSplit]
    simp only [append_assoc, cons_append]

end RustyBrain.Store
