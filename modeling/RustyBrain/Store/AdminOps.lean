import RustyBrain.Store.Ops

/-!
# rusty-brain — administrative operations as runs of effects

The operations of `Store/Review`, `Store/Admin` and `Store/Retention`, each shown to
be a run of the changes of `Store/Effect`.
-/

namespace RustyBrain.Store

open Transaction Relation List

variable {mode : ForgetMode} {v : VectorRow} {p : RetentionPolicy} {vectors : List VectorRow}
  {page : List MemoryRow} {rows : List MemoryRow} {plan : ForgetPlan} {db db' : Db} {ns : Namespace}
  {id : MemoryId} {now : Int} {out out' : ScrubOutcome} {u : Unit} {last m r : MemoryRow}
  {details : OplogDetails} {allow b : Bool} {cursor : Option MemoryId} {P : Permits}

/-! ## Review -/

theorem upsertReviewState_writes {key : String} {reviewedAt : Int} {snoozeUntil : Option Int} :
    Within (Writes P) (upsertReviewState ns key reviewedAt snoozeUntil) := by
  intro db u db' h
  obtain rfl := runs_modify.mp h
  exact .single (.setReviewState _)

theorem appendReviewOplog_writes {op : OplogOp} {details : Text} {now : DateTime} :
    Within (Writes P) (appendReviewOplog ns op details now) := by
  intro db u db' h
  obtain rfl := runs_insertOplogRow.mp h
  exact .single (.log ..)

section

variable {R : Db → Db → Prop} [IsPreorder Db R] {key : String} {days : Nat} {details : Text}
  {now : DateTime}
  (hState : ∀ at' until', Within R (upsertReviewState ns key at' until'))
  (hLog : Within R (appendReviewOplog ns .reviewResolve details now))

include hState hLog

/-- A resolution writes the state of its item and one row of the log. -/
theorem snoozeReviewItem_within : Within R (snoozeReviewItem ns key days details now) :=
  Within.bind (Within.require _ _) fun _ => Within.bind (Within.require _ _) fun _ =>
    Within.bind (hState _ _) fun _ => Within.bind hLog fun _ => Within.pure _

theorem recordReviewResolution_within : Within R (recordReviewResolution ns key details now) :=
  Within.bind (Within.require _ _) fun _ => Within.bind (hState _ _) fun _ => hLog

end

/-- A member that passed its checks is a current row of the namespace. -/
theorem checkMember_runs (h : Runs (checkMember ns allow id) db u db') :
    db' = db ∧ ∃ r, db.find id = some r ∧ r.ns = ns.asDbString ∧ r.Current ∧
      (r.humanCurated = true → allow = true) := by
  simp only [checkMember, runs_bind, runs_get] at h
  obtain ⟨_, _, ⟨rfl, rfl⟩, h⟩ := h
  split at h
  · exact absurd h runs_throw
  next r hFind =>
    simp only [runs_bind, runs_require] at h
    obtain ⟨_, _, ⟨hNs, rfl⟩, _, _, ⟨hCurrent, rfl⟩, hAllowed, rfl⟩ := h
    exact ⟨rfl, r, hFind, hNs, hCurrent, hAllowed⟩

/-- A member that passed its checks may be retired by this caller. -/
theorem harm_of_member (hIds : db.ids.Nodup)
    (hHarm : ∀ id, allow = true ∨ db.Uncurated id → P.harm id) (hFind : db.find id = some r)
    (hAllowed : r.humanCurated = true → allow = true) : P.harm id := by
  obtain ⟨hr, rfl⟩ := Db.find_some hFind
  apply hHarm
  cases hFlag : r.humanCurated with
  | false => exact .inr (Db.uncurated_of_mem hIds hr hFlag)
  | true => exact .inl (hAllowed hFlag)

theorem checkSimilarity_runs {env : Env} {a b : MemoryId} {minSimilarity : ℚ}
    (h : Runs (checkSimilarity env a b minSimilarity) db u db') :
    db' = db ∧ ∃ s, db.storedPairSimilarity env a b = some s ∧ minSimilarity ≤ s := by
  simp only [checkSimilarity, runs_bind, runs_get] at h
  obtain ⟨_, _, ⟨rfl, rfl⟩, h⟩ := h
  split at h
  · exact absurd h runs_throw
  next s hSim =>
    obtain ⟨hMin, rfl⟩ := runs_require.mp h
    exact ⟨rfl, s, hSim, hMin⟩

section Merge

variable {env : Env} {a b : MemoryId} {minSimilarity : ℚ} {n : MemoryNote} {e : Option Embedding}
  {details : Text} {now : DateTime}

/-- The guards of a merge only read, and each of them passed. -/
theorem reviewMerge_runs
    (h : Runs (reviewMerge env ns a b minSimilarity n e details allow now) db u db') :
    Runs (mergeWrites ns a b n e details now) db u db' ∧ (a ≠ b ∧ n.id ≠ a ∧ n.id ≠ b) ∧
      n.ns = ns ∧ (∀ id ∈ [a, b], ∃ r, db.find id = some r ∧ r.ns = ns.asDbString ∧ r.Current ∧
        (r.humanCurated = true → allow = true)) ∧
      ∃ s, db.storedPairSimilarity env a b = some s ∧ minSimilarity ≤ s := by
  simp only [reviewMerge, runs_bind, runs_require] at h
  obtain ⟨_, _, ⟨hDistinct, rfl⟩, _, _, ⟨hHome, rfl⟩, _, _, hA, _, _, hB, _, _, hSim, _, _, hValid,
    h⟩ := h
  obtain ⟨rfl, hMemberA⟩ := checkMember_runs hA
  obtain ⟨rfl, hMemberB⟩ := checkMember_runs hB
  obtain ⟨rfl, hSimilar⟩ := checkSimilarity_runs hSim
  obtain rfl := validateNote_runs hValid
  refine ⟨h, hDistinct, hHome, ?_, hSimilar⟩
  simp only [mem_cons, not_mem_nil, or_false, forall_eq_or_imp, forall_eq]
  exact ⟨hMemberA, hMemberB⟩

/-- The store once the edges of two memories were copied to a third. -/
def Db.copied (db : Db) (new a b : MemoryId) : Db :=
  let mid := db.setLinks (addLinks db.links (copiedOut new a b db))
  mid.setLinks (addLinks mid.links (copiedIn new a b mid))

/-- A merge inserts the combined memory, copies the edges to it, retires both originals and
records the resolution. -/
theorem reviewMerge_leaves
    (h : Runs (reviewMerge env ns a b minSimilarity n e details allow now) db u db') :
    ∃ d d', Runs (insertMemoryTxBody now.secs n e) db () d ∧
      Runs (upsertReviewState ns (reviewItemKey .nearDuplicate [a, b]) now.secs none)
        (((d.copied n.id a b).retired a n.id now.secs).retired b n.id now.secs) () d' ∧
      Runs (appendReviewOplog ns .reviewResolve details now) d' u db' := by
  replace h := (reviewMerge_runs h).1
  simp only [mergeWrites, runs_bind] at h
  obtain ⟨_, d₁, hBody, _, d₂, hOut, _, d₃, hIn, _, d₄, hRetireA, _, d₅, hRetireB, _, d₆, hState,
    hLog⟩ := h
  obtain ⟨-, rfl⟩ := runs_insertLinksOrIgnore.mp hOut
  obtain ⟨-, rfl⟩ := runs_insertLinksOrIgnore.mp hIn
  obtain ⟨-, -, -, rfl⟩ := supersedeInTx_runs (supersedeUnclaimedInTx_runs hRetireA)
  obtain ⟨-, -, -, rfl⟩ := supersedeInTx_runs (supersedeUnclaimedInTx_runs hRetireB)
  exact ⟨d₁, d₆, hBody, hState, hLog⟩

/-- A copy keeps the strengths, so it passes the checks as the stored link does. -/
theorem copied_check (new a b : MemoryId) :
    (∀ d, ∀ l ∈ copiedOut new a b d, ∃ k ∈ d.links, k.Check → l.Check) ∧
      ∀ d, ∀ l ∈ copiedIn new a b d, ∃ k ∈ d.links, k.Check → l.Check := by
  constructor <;> intro d l hl <;> obtain ⟨k, hk, rfl⟩ := mem_map.mp hl <;>
    exact ⟨k, mem_of_mem_filter hk, id⟩

theorem reviewMerge_writes (hIds : db.ids.Nodup)
    (hRow : P.row (noteRow n)) (hVec : ∀ v ∈ e, P.vec (noteRow n) v)
    (hHarm : ∀ id, allow = true ∨ db.Uncurated id → P.harm id)
    (h : Runs (reviewMerge env ns a b minSimilarity n e details allow now) db u db') :
    Writes P db db' := by
  obtain ⟨h, -, -, hMembers, -⟩ := reviewMerge_runs h
  simp only [mergeWrites, runs_bind] at h
  obtain ⟨_, db₁, hBody, _, db₂, hOut, _, db₃, hIn, _, db₄, hRetireA, _, db₅, hRetireB, _, db₆,
    hState, hLog⟩ := h
  have hHarmed : ∀ id ∈ [a, b], P.harm id := by
    intro id hid
    obtain ⟨r, hFind, -, -, hAllowed⟩ := hMembers id hid
    exact harm_of_member hIds hHarm hFind hAllowed
  -- insert the combined memory, copy the edges, retire both originals, record it
  exact (insertMemoryTxBody_writes hRow hVec hBody).trans <|
    (insertLinksOrIgnore_writes (copied_check n.id a b).1 _ _ _ hOut).trans <|
    (insertLinksOrIgnore_writes (copied_check n.id a b).2 _ _ _ hIn).trans <|
    (supersede_writes (hHarmed a (by simp)) _ _ _ (supersedeUnclaimedInTx_runs hRetireA)).trans <|
    (supersede_writes (hHarmed b (by simp)) _ _ _ (supersedeUnclaimedInTx_runs hRetireB)).trans <|
    (upsertReviewState_writes _ _ _ hState).trans (appendReviewOplog_writes _ _ _ hLog)

end Merge

/-! ## Namespace rename -/

theorem insertVectorRow_nodup (hNew : ∀ w ∈ vectors, w.memoryId ≠ v.memoryId)
    (hNodup : (vectors.map VectorRow.memoryId).Nodup) :
    ((vectors ++ [v]).map VectorRow.memoryId).Nodup := by
  rw [map_append, nodup_append]
  refine ⟨hNodup, nodup_singleton _, ?_⟩
  intro x hx y hy
  obtain ⟨w, hw, rfl⟩ := mem_map.mp hx
  rw [mem_map] at hy
  obtain ⟨v', hv', rfl⟩ := hy
  rw [mem_singleton.mp hv']
  exact hNew w hw

/-- The loop of the rename re-keys the vectors it was given and leaves the others. -/
theorem moveVectors_runs {new : Text} {moving : List VectorRow} {u : PUnit}
    (h : Runs (moving.forM (moveVector new)) db u db') :
    ∃ vectors, db' = db.setVectors vectors ∧
      ((db.vectors.map VectorRow.memoryId).Nodup → (vectors.map VectorRow.memoryId).Nodup) ∧
      ∀ v ∈ vectors, (v ∈ db.vectors ∧ ∀ m ∈ moving, m.memoryId ≠ v.memoryId) ∨
        ∃ m ∈ moving, v = ⟨m.memoryId, new, m.embedding⟩ := by
  induction moving generalizing db with
  | nil =>
    obtain ⟨-, rfl⟩ := runs_pure.mp h
    exact ⟨db.vectors, rfl, id, fun v hv => .inl ⟨hv, fun m hm => nomatch hm⟩⟩
  | cons m rest ih =>
    obtain ⟨_, mid, hMove, hRest⟩ := runs_bind.mp h
    obtain ⟨_, dropped, hDrop, hInsert⟩ := runs_bind.mp hMove
    obtain rfl := runs_deleteVectorRow.mp hDrop
    obtain ⟨-, hNew, rfl⟩ := runs_insertVectorRow.mp hInsert
    obtain ⟨vectors, rfl, hNodup, hSource⟩ := ih hRest
    refine ⟨vectors, rfl, fun hOld => hNodup (insertVectorRow_nodup hNew ?_), fun v hv => ?_⟩
    · exact hOld.sublist (filter_sublist.map _)
    · rcases hSource v hv with ⟨hIn, hOther⟩ | ⟨w, hw, rfl⟩
      · rcases mem_append.mp hIn with hKept | hAdded
        · -- it was there before and is not the row this turn moved
          obtain ⟨hThere, hNe⟩ := mem_filter.mp hKept
          refine .inl ⟨hThere, fun w hw => ?_⟩
          rcases mem_cons.mp hw with rfl | hw
          · exact fun hEq => of_decide_eq_true hNe hEq.symm
          · exact hOther w hw
        · exact .inr ⟨m, mem_cons_self, mem_singleton.mp hAdded⟩
      · exact .inr ⟨w, mem_cons_of_mem _ hw, rfl⟩

/-- A rename moves the rows and the keys, then the vectors one by one, and logs itself. -/
theorem renameNamespace_leaves {old new : Namespace} {now : Int} {merge : Bool}
    {moved : NamespaceRenameOutcome} (h : Runs (renameNamespace now old new merge) db moved db') :
    old.asDbString ≠ new.asDbString ∧ db.countRows old.asDbString ≠ 0 ∧ ∃ d details,
      Runs ((db.movingVectors old.asDbString).forM (moveVector new.asDbString))
        ((db.setMemories (fun m => m.ns = old.asDbString)
          fun m => { m with ns := new.asDbString }).rekeyed old.asDbString new.asDbString) ⟨⟩ d ∧
      db' = d.logged .namespaceRename none new.asDbString now details := by
  simp only [renameNamespace, runs_bind, runs_require, runs_get, runs_modify, runs_pure,
    runs_insertOplogRow] at h
  obtain ⟨_, _, ⟨hNe, rfl⟩, _, _, ⟨rfl, rfl⟩, _, _, ⟨-, rfl⟩, _, _, ⟨hSome, rfl⟩, _, _, hUpdate, _, _,
    rfl, _, d, hMove, _, _, rfl, -, rfl⟩ := h
  obtain ⟨-, -, -, rfl⟩ := runs_updateMemories.mp hUpdate
  exact ⟨hNe, hSome, d, _, hMove, rfl⟩

/-- A rename rewrites the vector table row by row. -/
theorem renameNamespace_writes (now : Int) (old new : Namespace) (merge : Bool) :
    Within (Writes P) (renameNamespace now old new merge) := by
  intro db out db' h
  obtain ⟨-, -, d, details, hMove, rfl⟩ := renameNamespace_leaves h
  obtain ⟨vectors, rfl, hNodup, hSource⟩ := moveVectors_runs hMove
  refine (ReflTransGen.single ?_).tail (.log ..)
  refine .rename old.asDbString new.asDbString vectors hNodup fun v hv => ?_
  rcases hSource v hv with ⟨hIn, hOther⟩ | ⟨m, hm, rfl⟩
  · refine ⟨v, hIn, ?_⟩
    rw [VectorRow.rekeyed, if_neg]
    intro hMoves
    exact hOther v (mem_filter.mpr ⟨hIn, decide_eq_true hMoves⟩) rfl
  · obtain ⟨hIn, hMoves⟩ := mem_filter.mp hm
    refine ⟨m, hIn, ?_⟩
    rw [VectorRow.rekeyed, if_pos (of_decide_eq_true hMoves)]

/-! ## The vector table -/

/-- An acceptance that changes anything leaves no vector and no current stamp. -/
theorem acceptEmbeddingSpaceChange_runs {dim : Nat} {model : Text}
    (h : Runs (acceptEmbeddingSpaceChange dim model) db b db') :
    (b = false ∧ db' = db) ∨ (b = true ∧ db' = (db.withSpace dim model).setMemories (fun _ => True)
      fun m => { m with embeddingInputVersion := [] }) := by
  simp only [acceptEmbeddingSpaceChange, runs_bind, runs_require, runs_get] at h
  obtain ⟨_, _, ⟨-, rfl⟩, _, _, ⟨rfl, rfl⟩, h⟩ := h
  split at h
  · obtain ⟨rfl, rfl⟩ := runs_pure.mp h
    exact .inl ⟨rfl, rfl⟩
  · simp only [runs_bind, runs_modify, runs_pure] at h
    obtain ⟨_, _, rfl, n, _, hUpdate, rfl, rfl⟩ := h
    exact .inr ⟨rfl, (runs_updateMemories.mp hUpdate).2.2.2.symm⟩

theorem acceptEmbeddingSpaceChange_writes (dim : Nat) (model : Text) :
    Within (Writes P) (acceptEmbeddingSpaceChange dim model) := by
  intro db b db' h
  rcases acceptEmbeddingSpaceChange_runs h with ⟨-, rfl⟩ | ⟨-, rfl⟩
  · exact .refl
  · exact .single (.newSpace dim model)

/-- Inserting vectors one by one appends them, each under an id of its own. -/
theorem insertVectors_runs {u : PUnit} (h : Runs (vectors.forM insertVectorRow) db u db') :
    db' = db.setVectors (db.vectors ++ vectors) ∧
      ((db.vectors.map VectorRow.memoryId).Nodup →
        ((db.vectors ++ vectors).map VectorRow.memoryId).Nodup) := by
  induction vectors generalizing db with
  | nil =>
    obtain ⟨-, rfl⟩ := runs_pure.mp h
    rw [append_nil]
    exact ⟨rfl, id⟩
  | cons v rest ih =>
    obtain ⟨_, mid, hInsert, hRest⟩ := runs_bind.mp h
    obtain ⟨-, hNew, rfl⟩ := runs_insertVectorRow.mp hInsert
    obtain ⟨rfl, hNodup⟩ := ih hRest
    rw [Db.setVectors_vectors, append_assoc] at hNodup ⊢
    refine ⟨rfl, fun hOld => hNodup (insertVectorRow_nodup hNew hOld)⟩

/-- A vector of the stash is a stored vector of a live memory. -/
theorem mem_vectorStash (hv : v ∈ db.vectorStash) :
    ∃ w ∈ db.vectors, ∃ m ∈ db.memories, m.memoryId = w.memoryId ∧ m.archivedAt = none ∧
      v = ⟨w.memoryId, m.ns, w.embedding⟩ := by
  obtain ⟨w, hw, hFound⟩ := mem_filterMap.mp hv
  obtain ⟨m, hm, rfl⟩ := Option.map_eq_some_iff.mp hFound
  have hLive := find?_some hm
  rw [decide_eq_true_eq] at hLive
  exact ⟨w, hw, m, mem_of_find?_eq_some hm, hLive.1, hLive.2, rfl⟩

/-- So does a rebuild. -/
theorem rebuildVectorTable_writes (env : Env) :
    Within (Writes P) (rebuildVectorTable env) := by
  intro db u db' h
  simp only [rebuildVectorTable, runs_bind, runs_get, runs_modify] at h
  obtain ⟨_, _, ⟨rfl, rfl⟩, n, _, hLinks, _, _, rfl, hInsert⟩ := h
  obtain ⟨rfl, hNodup⟩ := insertVectors_runs hInsert
  refine (deleteLinkRows_writes _ _ _ hLinks).tail ?_
  obtain ⟨rfl, -⟩ := runs_deleteLinkRows.mp hLinks
  exact .keepVectors db.vectorStash (hNodup nodup_nil) fun v hv => mem_vectorStash hv

/-! ## Scrub -/

section

variable {redact : Text → Text}

/-- The columns a scrub never writes. -/
theorem MemoryRow.scrubbed_sameLife (m : MemoryRow) : m.SameLife (m.scrubbed redact) := by
  unfold MemoryRow.scrubbed
  split <;> exact ⟨rfl, rfl, rfl, rfl⟩

theorem MemoryRow.scrubbed_of_unchanged (h : m.redactText redact = m) : m.scrubbed redact = m := by
  have hKeeps : ¬ m.blanksStamp redact := by
    rintro ⟨-, hChanged⟩
    rw [h] at hChanged
    exact hChanged ⟨rfl, rfl, rfl, rfl⟩
  rw [MemoryRow.scrubbed, if_neg hKeeps]
  exact h

section

variable {I : ScrubOutcome → Db → Prop}
  (hRow : ∀ {m out db out' db'}, I out db → Runs (scrubRow redact out m) db out' db' → I out' db')

include hRow

/-- What every turn of the page loop keeps is kept by the page. -/
theorem scrubPage_keeps (hI : I out db)
    (h : Runs (scrubPage redact out page) db out' db') : I out' db' := by
  induction page generalizing db out with
  | nil =>
    obtain ⟨rfl, rfl⟩ := runs_pure.mp h
    exact hI
  | cons m rest ih =>
    obtain ⟨next, mid, hTurn, hRest⟩ := runs_bind.mp h
    exact ih (hRow hI hTurn) hRest

/-- And by all pages, when counting the rows of a page as scanned keeps it too. -/
theorem scrubLoop_keeps {fuel : Nat} {cursor : Option MemoryId}
    (hScanned : ∀ {out db} n, I out db → I { out with scanned := n } db) (hI : I out db)
    (h : Runs (scrubLoop redact fuel cursor out) db out' db') : I out' db' := by
  induction fuel generalizing db cursor out with
  | zero =>
    obtain ⟨rfl, rfl⟩ := runs_pure.mp h
    exact hI
  | succ fuel ih =>
    simp only [scrubLoop, runs_bind, runs_get] at h
    obtain ⟨_, _, ⟨rfl, rfl⟩, h⟩ := h
    split at h
    · obtain ⟨rfl, rfl⟩ := runs_pure.mp h
      exact hI
    · obtain ⟨next, mid, hPage, hRest⟩ := runs_bind.mp h
      exact ih (scrubPage_keeps hRow (hScanned _ hI) hPage) hRest

end

/-- One turn of the page loop scrubs the row it was given. -/
theorem scrubRow_runs (hIds : db.ids.Nodup) (hm : m ∈ db.memories)
    (h : Runs (scrubRow redact out m) db out' db') :
    db' = db.setMemories (fun r => r.memoryId = m.memoryId) (MemoryRow.scrubbed redact) := by
  have hOnly : ∀ r ∈ db.memories, r.memoryId = m.memoryId → r = m :=
    fun r hr hId => db.row_unique hIds hr hm hId
  unfold scrubRow at h
  split at h
  next hSame =>
    obtain ⟨-, rfl⟩ := runs_pure.mp h
    -- nothing to redact, and scrubbing the row would not change it
    refine (Db.setMemories_of_fixed fun r hr hId => ?_).symm
    rw [hOnly r hr hId, MemoryRow.scrubbed_of_unchanged hSame]
  · simp only [runs_bind, runs_pure] at h
    obtain ⟨n, _, hUpdate, -, rfl⟩ := h
    obtain ⟨-, -, -, rfl⟩ := runs_updateMemories.mp hUpdate
    refine Db.setMemories_congr (fun r _ => Iff.rfl) fun r hr hId => ?_
    rw [hOnly r hr hId]
    by_cases hBlank : m.blanksStamp redact
    · simp [MemoryRow.scrubbed, MemoryRow.redactText, hBlank]
    · simp [MemoryRow.scrubbed, MemoryRow.redactText, hBlank]

/-- The page loop scrubs the rows of its page. -/
theorem scrubPage_runs (hIds : db.ids.Nodup)
    (hPage : (page.map MemoryRow.memoryId).Nodup) (hRows : ∀ m ∈ page, m ∈ db.memories)
    (h : Runs (scrubPage redact out page) db out' db') :
    db' = db.setMemories (fun r => r.memoryId ∈ page.map MemoryRow.memoryId)
      (MemoryRow.scrubbed redact) := by
  induction page generalizing db out with
  | nil =>
    obtain ⟨-, rfl⟩ := runs_pure.mp h
    exact (Db.setMemories_of_none fun r _ hr => nomatch hr).symm
  | cons m rest ih =>
    obtain ⟨next, mid, hRow, hRest⟩ := runs_bind.mp h
    obtain rfl := scrubRow_runs hIds (hRows m mem_cons_self) hRow
    obtain ⟨hFresh, hNodup⟩ := nodup_cons.mp hPage
    have hKeep : ∀ r ∈ db.memories, r.memoryId = m.memoryId →
        (r.scrubbed redact).memoryId = r.memoryId := fun r _ _ => r.scrubbed_sameLife.memoryId
    -- the rest of the page was not touched by this turn
    have hStill : ∀ r ∈ rest, r ∈ (db.setMemories (fun r => r.memoryId = m.memoryId)
        (MemoryRow.scrubbed redact)).memories := by
      intro r hr
      refine Db.mem_setMemories.mpr ⟨r, hRows r (mem_cons_of_mem _ hr), .inr ⟨?_, rfl⟩⟩
      intro hId
      exact hFresh (hId ▸ mem_map_of_mem hr)
    rw [ih (by rw [db.ids_setMemories hKeep]; exact hIds) hNodup hStill hRest,
      Db.setMemories_setMemories]
    · refine Db.setMemories_congr (fun r _ => ?_) fun _ _ _ => rfl
      rw [map_cons, mem_cons]
    · intro r hr hId
      rw [hKeep r hr hId, hId]
      exact hFresh

/-- Of rows in ascending order, the first `n` are those up to the last of them. -/
theorem mem_take_iff {n : Nat}
    (hSorted : rows.Pairwise fun a b => a.memoryId.uuid < b.memoryId.uuid)
    (hLast : (rows.take n).getLast? = some last) (hr : r ∈ rows) :
    r ∈ rows.take n ↔ r.memoryId.uuid ≤ last.memoryId.uuid := by
  obtain ⟨init, hInit⟩ := getLast?_eq_some_iff.mp hLast
  have hSplit : rows.Pairwise fun a b => a.memoryId.uuid < b.memoryId.uuid := hSorted
  rw [← take_append_drop n rows, pairwise_append] at hSplit
  obtain ⟨hTake, -, hAcross⟩ := hSplit
  constructor
  · intro hIn
    rw [hInit] at hIn hTake
    rcases mem_concat.mp hIn with hBefore | rfl
    · exact ((pairwise_append.mp hTake).2.2 r hBefore last (mem_singleton_self _)).le
    · rfl
  · intro hLe
    rw [← take_append_drop n rows] at hr
    rcases mem_append.mp hr with hIn | hOut
    · exact hIn
    · have hLt := hAcross last (mem_of_getLast? hLast) r hOut
      omega

/-- The row is above the cursor of the page loop. -/
def Above (cursor : Option MemoryId) (r : MemoryRow) : Prop :=
  ∀ c ∈ cursor, c.uuid < r.memoryId.uuid
  deriving Decidable

/-- The rows above the cursor, in id order. -/
def Db.sortedAbove (db : Db) (cursor : Option MemoryId) : List MemoryRow :=
  (db.memories.filter (Above cursor)).insertionSort fun a b => a.memoryId.uuid ≤ b.memoryId.uuid

theorem Db.mem_sortedAbove : r ∈ db.sortedAbove cursor ↔ r ∈ db.memories ∧ Above cursor r := by
  unfold Db.sortedAbove
  rw [mem_insertionSort, mem_filter, decide_eq_true_eq]

theorem Db.sortedAbove_nodup (hIds : db.ids.Nodup) (cursor : Option MemoryId) :
    ((db.sortedAbove cursor).map MemoryRow.memoryId).Nodup := by
  have hPerm : (db.sortedAbove cursor).Perm (db.memories.filter (Above cursor)) :=
    perm_insertionSort _ _
  refine (hPerm.map _).nodup_iff.mpr ?_
  exact hIds.sublist (filter_sublist.map _)

theorem Db.sortedAbove_sorted (hIds : db.ids.Nodup) (cursor : Option MemoryId) :
    (db.sortedAbove cursor).Pairwise fun a b => a.memoryId.uuid < b.memoryId.uuid := by
  have hLe : (db.sortedAbove cursor).Pairwise fun a b => a.memoryId.uuid ≤ b.memoryId.uuid :=
    pairwise_insertionSort _ _
  have hNe := pairwise_map.mp (Db.sortedAbove_nodup hIds cursor)
  refine (hLe.and hNe).imp fun {a b} h => ?_
  exact lt_of_le_of_ne h.1 fun hEq => h.2 (congrArg MemoryId.mk hEq)

/-- The rows above the cursor are those of the next page and those above its last row. -/
theorem above_iff (hIds : db.ids.Nodup) (hLast : (db.scrubSelectBatch cursor).getLast? = some last)
    (hr : r ∈ db.memories) :
    (Above cursor r ↔
      r.memoryId ∈ (db.scrubSelectBatch cursor).map MemoryRow.memoryId ∨
        Above (some last.memoryId) r) ∧
    (r.memoryId ∈ (db.scrubSelectBatch cursor).map MemoryRow.memoryId →
      ¬ Above (some last.memoryId) r) := by
  have hBatch : db.scrubSelectBatch cursor = (db.sortedAbove cursor).take scrubBatch := rfl
  have hSub : ∀ m ∈ db.scrubSelectBatch cursor, m ∈ db.memories ∧ Above cursor m :=
    fun m hm => Db.mem_sortedAbove.mp (mem_of_mem_take (hBatch ▸ hm))
  have hPage : ∀ r ∈ db.memories, Above cursor r →
      (r ∈ db.scrubSelectBatch cursor ↔ r.memoryId.uuid ≤ last.memoryId.uuid) :=
    fun r hr hAbove => mem_take_iff (Db.sortedAbove_sorted hIds cursor) (hBatch ▸ hLast)
      (Db.mem_sortedAbove.mpr ⟨hr, hAbove⟩)
  -- an id of the page is the id of a row of the page, which is the row itself
  have hIn : r.memoryId ∈ (db.scrubSelectBatch cursor).map MemoryRow.memoryId ↔
      r ∈ db.scrubSelectBatch cursor := by
    refine ⟨fun h => ?_, mem_map_of_mem⟩
    obtain ⟨m, hm, hId⟩ := mem_map.mp h
    rw [← db.row_unique hIds (hSub m hm).1 hr hId]
    exact hm
  have hAboveLast : Above (some last.memoryId) r ↔ last.memoryId.uuid < r.memoryId.uuid := by
    simp [Above]
  rw [hIn, hAboveLast]
  refine ⟨⟨fun hAbove => ?_, ?_⟩, fun hMem => ?_⟩
  · by_cases hLe : r.memoryId.uuid ≤ last.memoryId.uuid
    · exact .inl ((hPage r hr hAbove).mpr hLe)
    · exact .inr (by omega)
  · rintro (hMem | hLt)
    · exact (hSub r hMem).2
    · intro c hc
      exact ((hSub last (mem_of_getLast? hLast)).2 c hc).trans hLt
  · have hLe := (hPage r hr (hSub r hMem).2).mp hMem
    omega

/-- A narrower selection that drops a row of the list selects fewer rows. -/
theorem countP_lt_of_dropped {p q : MemoryRow → Prop} [DecidablePred p]
    [DecidablePred q] (hqp : ∀ r ∈ rows, q r → p r) (hMem : last ∈ rows) (hp : p last)
    (hq : ¬ q last) : rows.countP q < rows.countP p := by
  have hLe : ∀ rest : List MemoryRow, (∀ r ∈ rest, q r → p r) → rest.countP q ≤ rest.countP p :=
    fun rest h => countP_mono_left fun r hr hr' =>
      decide_eq_true (h r hr (of_decide_eq_true hr'))
  obtain ⟨before, after, rfl⟩ := append_of_mem hMem
  have hBefore := hLe before fun r hr => hqp r (mem_append_left _ hr)
  have hAfter := hLe after fun r hr => hqp r (mem_append_right _ (mem_cons_of_mem _ hr))
  simp only [countP_append, countP_cons, hp, hq, decide_true, decide_false]
  simp only [if_true, Bool.false_eq_true, if_false]
  omega

/-- **Key lemma:** with enough turns left for the rows above the cursor, the loop scrubs
each of them once. -/
theorem scrubLoop_runs {fuel : Nat} (hIds : db.ids.Nodup)
    (hFuel : db.memories.countP (Above cursor) < fuel)
    (h : Runs (scrubLoop redact fuel cursor out) db out' db') :
    db' = db.setMemories (Above cursor) (MemoryRow.scrubbed redact) := by
  induction fuel generalizing db cursor out with
  | zero => omega
  | succ fuel ih =>
    simp only [scrubLoop, runs_bind, runs_get] at h
    obtain ⟨_, _, ⟨rfl, rfl⟩, h⟩ := h
    split at h
    next hNone =>
      -- an empty page: nothing is above the cursor
      obtain ⟨-, rfl⟩ := runs_pure.mp h
      have hEmpty : db.sortedAbove cursor = [] := by
        have hTake : (db.sortedAbove cursor).take scrubBatch = [] :=
          getLast?_eq_none_iff.mp hNone
        simpa [scrubBatch] using hTake
      refine (Db.setMemories_of_none fun r hr hAbove => ?_).symm
      have hMem := Db.mem_sortedAbove.mpr ⟨hr, hAbove⟩
      rw [hEmpty] at hMem
      cases hMem
    next last hLast =>
      obtain ⟨next, mid, hPage, hRest⟩ := runs_bind.mp h
      have hSub : ∀ m ∈ db.scrubSelectBatch cursor, m ∈ db.memories ∧ Above cursor m :=
        fun m hm => Db.mem_sortedAbove.mp (mem_of_mem_take hm)
      have hNodup : ((db.scrubSelectBatch cursor).map MemoryRow.memoryId).Nodup :=
        (Db.sortedAbove_nodup hIds cursor).sublist ((take_sublist _ _).map _)
      have hKeep : ∀ r : MemoryRow, (r.scrubbed redact).memoryId = r.memoryId :=
        fun r => r.scrubbed_sameLife.memoryId
      obtain rfl := scrubPage_runs hIds hNodup (fun m hm => (hSub m hm).1) hPage
      have hAbove : ∀ r : MemoryRow, Above (some last.memoryId) (r.scrubbed redact) ↔
          Above (some last.memoryId) r := fun r => by unfold Above; rw [hKeep r]
      rw [ih ?_ ?_ hRest, Db.setMemories_setMemories]
      · exact Db.setMemories_congr (fun r hr => (above_iff hIds hLast hr).1.symm) fun _ _ _ => rfl
      · intro r hr hIn
        rw [hAbove r]
        exact (above_iff hIds hLast hr).2 hIn
      · rw [db.ids_setMemories fun r _ _ => hKeep r]
        exact hIds
      · -- the last row of the page is no longer above the cursor
        have hCount : (db.setMemories (fun r => r.memoryId ∈
            (db.scrubSelectBatch cursor).map MemoryRow.memoryId)
            (MemoryRow.scrubbed redact)).memories.countP (Above (some last.memoryId)) =
              db.memories.countP (Above (some last.memoryId)) := by
          rw [Db.setMemories_memories, countP_map]
          refine countP_congr fun r _ => ?_
          by_cases hIn : r.memoryId ∈ (db.scrubSelectBatch cursor).map MemoryRow.memoryId
          · simp only [Function.comp, if_pos hIn, hAbove r]
          · simp only [Function.comp, if_neg hIn]
        have hLastIn := hSub last (mem_of_getLast? hLast)
        have hFewer : db.memories.countP (Above (some last.memoryId)) <
            db.memories.countP (Above cursor) := by
          refine countP_lt_of_dropped (fun r hr hUp => ?_) hLastIn.1 hLastIn.2 ?_
          · exact (above_iff hIds hLast hr).1.mpr (.inr hUp)
          · simp [Above]
        rw [hCount]
        omega

/-- **Key result:** a scrub that succeeds has rewritten every row by its redaction, once,
and touched nothing else but the log. -/
theorem scrub_runs (hIds : db.ids.Nodup) (h : Runs (scrub redact now) db out db') :
    ∃ mid, mid = db.setMemories (fun _ => True) (MemoryRow.scrubbed redact) ∧
      (db' = mid ∨ ∃ details, db' = mid.logged .scrub none [] now details) := by
  simp only [scrub, runs_bind, runs_get] at h
  obtain ⟨_, _, ⟨rfl, rfl⟩, _, mid, hLoop, hLog⟩ := h
  have hFuel : db.memories.countP (Above none) < db.memories.length + 1 :=
    Nat.lt_succ_of_le countP_le_length
  have hMid : mid = db.setMemories (fun _ => True) (MemoryRow.scrubbed redact) := by
    rw [scrubLoop_runs hIds hFuel hLoop]
    refine Db.setMemories_congr (fun r _ => ?_) fun _ _ _ => rfl
    simp [Above]
  refine ⟨mid, hMid, ?_⟩
  split at hLog
  · simp only [runs_bind, runs_insertOplogRow, runs_pure] at hLog
    obtain ⟨_, _, rfl, -, rfl⟩ := hLog
    exact .inr ⟨_, rfl⟩
  · obtain ⟨-, rfl⟩ := runs_pure.mp hLog
    exact .inl rfl

theorem MemoryRow.scrubbed_inputKept (hLive : m.archivedAt = none) :
    m.InputKept (m.scrubbed redact) := by
  by_cases hSame : (m.redactText redact).sameInput m
  · rw [MemoryRow.scrubbed, if_neg fun hBlank => hBlank.2 hSame]
    exact .inl ⟨hSame, rfl, rfl⟩
  · rw [MemoryRow.scrubbed, if_pos ⟨hLive, hSame⟩]
    exact .inr rfl

theorem MemoryRow.scrubbed_check (h : m.Check) : (m.scrubbed redact).Check := by
  unfold MemoryRow.scrubbed
  split <;> exact h

theorem scrub_writes (hIds : db.ids.Nodup) (hHarm : ∀ id, P.harm id)
    (h : Runs (scrub redact now) db out db') : Writes P db db' := by
  have hEdit : Write P db (db.setMemories (fun _ => True) (MemoryRow.scrubbed redact)) :=
    .edit _ _ (fun r _ _ => MemoryRow.scrubbed_check) (fun r _ _ => r.scrubbed_sameLife)
      (fun r _ _ => MemoryRow.scrubbed_inputKept) fun r _ _ => .inr (hHarm _)
  obtain ⟨mid, rfl, rfl | ⟨details, rfl⟩⟩ := scrub_runs hIds h
  · exact .single hEdit
  · exact (ReflTransGen.single hEdit).tail (.log ..)

end

/-! ## Purge and sweep -/

/-- The tables just before `DELETE FROM memories`: every other table is rid of `id`. -/
def Db.stripped (db : Db) (id : MemoryId) : Db :=
  { db with
    memories := db.memories.map (MemoryRow.unpointed id)
    links := db.links.filter fun l => ¬ (l.sourceId = id ∨ l.targetId = id)
    vectors := db.vectors.filter fun v => v.memoryId ≠ id
    feedback := db.feedback.filter fun r => r.memoryId ≠ id
    oplog := db.oplog.filter fun r => r.memoryId ≠ some id }

theorem Db.ids_stripped (db : Db) (id : MemoryId) : (db.stripped id).ids = db.ids := by
  unfold Db.ids Db.stripped
  rw [List.map_map]
  exact map_congr_left fun r _ => r.unpointed_memoryId id

/-- At that point only an anchor can still hold the row. -/
theorem Db.unreferenced_stripped :
    (db.stripped id).Unreferenced id ↔ ∀ a ∈ db.anchors, a.memoryId ≠ id := by
  refine ⟨fun h => h.2.1, fun hAnchors => ⟨fun l hl => ?_, hAnchors, fun r hr _ hPtr => ?_⟩⟩
  · have hKept := (mem_filter.mp hl).2
    simpa [not_or] using hKept
  · obtain ⟨s, -, rfl⟩ := mem_map.mp hr
    exact (MemoryRow.unpointed_supersededBy.mp hPtr).2 rfl

/-- **Key lemma:** the deletes of a purge go through exactly when no anchor holds the row. -/
theorem runs_purgeRows {ns : Text} :
    Runs (purgeRows now id ns details) db u db' ↔
      (∀ r ∈ db.memories, r.supersededBy = some id → r.Check) ∧
      (id ∈ db.ids → ∀ a ∈ db.anchors, a.memoryId ≠ id) ∧
      db.purged id ns now details = db' := by
  simp only [purgeRows, clearPointers, deleteFeedbackRows, deleteOplogRows, runs_bind,
    runs_deleteLinkRows, runs_updateMemories, runs_deleteVectorRow, runs_modify, runs_pure,
    runs_deleteMemoryRow, runs_insertOplogRow]
  have hStrip : ∀ d, d = (((db.setLinks (db.links.filter fun l => ¬ (l.sourceId = id ∨
      l.targetId = id))).setMemories (fun m => m.supersededBy = some id)
        (fun m => { m with supersededBy := none })).dropVector id) →
      (d.setFeedback (d.feedback.filter fun r => r.memoryId ≠ id) d.lastFeedback).unlogged id =
        db.stripped id := by
    rintro d rfl
    simp only [Db.setLinks, Db.setMemories, Db.dropVector, Db.setVectors, Db.setFeedback,
      Db.unlogged, Db.stripped]
    rfl
  have hPurged : ((db.stripped id).removeMemory id).logged .purge (some id) ns now details =
      db.purged id ns now details := rfl
  constructor
  · rintro ⟨_, _, ⟨rfl, -⟩, _, _, ⟨_, _, ⟨hCheck, -, -, rfl⟩, -, rfl⟩, _, _, rfl, _, _, rfl, _, _, rfl,
      _, _, ⟨hFree, rfl⟩, rfl⟩
    rw [hStrip _ rfl] at hFree
    rw [hStrip _ rfl]
    refine ⟨hCheck, fun hIn => ?_, hPurged.symm⟩
    exact Db.unreferenced_stripped.mp (hFree (db.ids_stripped id ▸ hIn))
  · rintro ⟨hCheck, hAnchors, rfl⟩
    refine ⟨_, _, ⟨rfl, rfl⟩, (), _, ⟨_, _, ⟨hCheck, ?_, rfl, rfl⟩, trivial, rfl⟩, ⟨⟩, _, rfl, ⟨⟩, _,
      rfl, ⟨⟩, _, rfl, (), _, ⟨fun hIn => ?_, rfl⟩, ?_⟩
    · intro r _ _ t ht
      cases ht
    · rw [hStrip _ rfl] at hIn ⊢
      exact Db.unreferenced_stripped.mpr (hAnchors (db.ids_stripped id ▸ hIn))
    · rw [hStrip _ rfl]
      exact hPurged

/-- A purge either finds nothing to delete, or deletes an uncurated row. -/
theorem purgeMemoryForRetention_runs (h : Runs (purgeMemoryForRetention now id details) db b db') :
    (b = false ∧ db' = db ∧ ∀ r, db.find id = some r → r.humanCurated = true) ∨
    (b = true ∧ ∃ r, db.find id = some r ∧ r.humanCurated = false ∧
      (∀ a ∈ db.anchors, a.memoryId ≠ id) ∧ db' = db.purged id r.ns now details) := by
  simp only [purgeMemoryForRetention, runs_bind, runs_get] at h
  obtain ⟨_, _, ⟨rfl, rfl⟩, h⟩ := h
  split at h
  next hNone =>
    obtain ⟨rfl, rfl⟩ := runs_pure.mp h
    exact .inl ⟨rfl, rfl, by simp [hNone]⟩
  next r hFind =>
    split at h
    next hCurated =>
      obtain ⟨rfl, rfl⟩ := runs_pure.mp h
      refine .inl ⟨rfl, rfl, fun s hs => ?_⟩
      rw [← Option.some.inj (hFind.symm.trans hs)]
      exact hCurated
    next hPlain =>
      simp only [runs_bind, runs_pure] at h
      obtain ⟨_, _, hRows, rfl, rfl⟩ := h
      obtain ⟨-, hAnchors, rfl⟩ := runs_purgeRows.mp hRows
      obtain ⟨hr, rfl⟩ := Db.find_some hFind
      exact .inr ⟨rfl, r, hFind, Bool.eq_false_iff.mpr hPlain,
        hAnchors (mem_map_of_mem hr), rfl⟩

theorem purgeMemoryForRetention_effects (hIds : db.ids.Nodup)
    (hHarm : ∀ id, db.Uncurated id → P.harm id)
    (h : Runs (purgeMemoryForRetention now id details) db b db') : Effects P db db' := by
  rcases purgeMemoryForRetention_runs h with ⟨-, rfl, -⟩ | ⟨-, r, hFind, hPlain, hAnchors, rfl⟩
  · exact .refl
  · obtain ⟨hr, rfl⟩ := Db.find_some hFind
    exact .single (.purge _ _ _ _ (hHarm _ (Db.uncurated_of_mem hIds hr hPlain)) hAnchors)

/-- The rows that a sweep selects are different memories. -/
theorem Db.eligibleRows_nodup (hIds : db.ids.Nodup) (p : RetentionPolicy) (ns : Namespace)
    (mode : ForgetMode) (bound : Int) :
    ((db.eligibleRows p ns mode bound).map MemoryRow.memoryId).Nodup := by
  have hPerm : (db.eligibleRows p ns mode bound).Perm (db.memories.filter (db.Eligible p ns mode bound)) :=
    perm_insertionSort _ _
  exact (hPerm.map _).nodup_iff.mpr (hIds.sublist (filter_sublist.map _))

/-- The rows behind a plan: the selected rows up to the batch limit, oldest first. -/
theorem retentionCandidates_rows {now : DateTime}
    (h : db.retentionCandidates ns p mode now = .ok plan) :
    plan = ⟨mode, [], 0⟩ ∨ ∃ days, p.horizon mode = .ok (some days) ∧
      plan = ⟨mode, ((db.eligibleRows p ns mode (cutoff now days)).take p.batchLimit).map
        (forgetCandidate p now), (db.eligibleRows p ns mode (cutoff now days)).length⟩ := by
  simp only [Db.retentionCandidates, except_bind_ok] at h
  obtain ⟨_, -, horizon, hHorizon, h⟩ := h
  cases horizon with
  | none => exact .inl (Except.ok.inj h).symm
  | some days =>
    refine .inr ⟨days, hHorizon, ?_⟩
    simp only at h
    split at h
    · exact (Except.ok.inj h).symm
    · cases h

/-- A plan names no memory twice. -/
theorem retentionCandidates_nodup (hIds : db.ids.Nodup)
    {now : DateTime} (h : db.retentionCandidates ns p mode now = .ok plan) :
    (plan.candidates.map ForgetCandidate.id).Nodup := by
  rcases retentionCandidates_rows h with rfl | ⟨days, -, rfl⟩
  · exact nodup_nil
  · rw [List.map_map]
    exact (Db.eligibleRows_nodup hIds p ns mode _).sublist ((take_sublist _ _).map _)

/-- A sweep whose policy is enabled starts from its preview. -/
theorem planSweep_enabled (db : Db) (hValid : p.validate = .ok ()) (hEnabled : p.enabled = true)
    (ns : Namespace) (mode : ForgetMode) (now : DateTime) :
    planSweep db ns p mode now = db.retentionCandidates ns p mode now := by
  unfold planSweep
  rw [hValid, if_pos hEnabled]
  rfl

/-- The plan of a sweep is its preview. -/
theorem planSweep_ok {now : DateTime} (h : planSweep db ns p mode now = .ok plan) :
    db.retentionCandidates ns p mode now = .ok plan := by
  obtain ⟨_, -, hRest⟩ := except_bind_ok.mp h
  split at hRest
  · exact hRest
  · cases hRest

/-- One turn of the sweep, in the mode it runs in. -/
theorem sweepOne_effects {clock : Int} {c : ForgetCandidate}
    (hIds : db.ids.Nodup) (hHarm : ∀ id, db.Uncurated id → P.harm id)
    (h : Runs (sweepOne clock ns mode c) db b db') : Effects P db db' := by
  cases mode with
  | apply =>
    refine (archiveWithDetails_writes hIds (fun id hAllowed => ?_) h).effects
    exact hHarm id (hAllowed.resolve_left (by simp))
  | hard => exact purgeMemoryForRetention_effects hIds hHarm h

/-- **Key lemma:** what a sweep that goes through did. -/
theorem retentionSweepUnder_runs {f : SweepFaults} {clock : Int} {now : DateTime}
    {r : ForgetOutcome × SweepState} :
    Runs (retentionSweepUnder f clock ns p mode now) db r db' ↔
      ∃ plan, planSweep db ns p mode now = .ok plan ∧ (mode = .hard → f.arming = none) ∧
        ∃ st mid, Runs (sweepLoopUnder f.step clock ns mode plan.candidates {}) db st mid ∧
          (forgetOutcome plan (finishSweep f ns mode now plan st mid).1,
            (finishSweep f ns mode now plan st mid).1) = r ∧
          (finishSweep f ns mode now plan st mid).2 = db' := by
  have hArmed : ∀ u : Unit, (if mode = .hard then f.arming.elim (.ok ()) .error else .ok () :
      Except Error Unit) = .ok u ↔ (mode = .hard → f.arming = none) := by
    intro u
    cases mode <;> cases f.arming <;> simp
  simp only [retentionSweepUnder, runs_bind, runs_get, runs_attempt, runs_set, runs_pure, hArmed]
  constructor
  · rintro ⟨_, _, ⟨rfl, rfl⟩, plan, _, ⟨hPlan, rfl⟩, _, _, ⟨hOff, rfl⟩, st, mid, hLoop, _, _,
      ⟨rfl, rfl⟩, _, _, hEnd, hOut, rfl⟩
    exact ⟨plan, hPlan, hOff, st, _, hLoop, hOut, hEnd⟩
  · rintro ⟨plan, hPlan, hOff, st, mid, hLoop, hOut, hEnd⟩
    exact ⟨db, db, ⟨rfl, rfl⟩, plan, db, ⟨hPlan, rfl⟩, (), db, ⟨hOff, rfl⟩, st, mid, hLoop, mid, mid,
      ⟨rfl, rfl⟩, (), db', hEnd, hOut, rfl⟩

/-- Without faults the end of a sweep is its row. -/
theorem retentionSweep_runs {clock : Int} {now : DateTime} {r : ForgetOutcome × SweepState} :
    Runs (retentionSweep clock ns p mode now) db r db' ↔
      ∃ plan, planSweep db ns p mode now = .ok plan ∧
        ∃ st mid, Runs (sweepLoop clock ns mode plan.candidates {}) db st mid ∧
          (forgetOutcome plan st, st) = r ∧ sweepRow ns mode now plan st mid = db' := by
  simp [retentionSweepUnder_runs, finishSweep, SweepState.noting]

/-- The sweep stays within every preorder that its single turns and its report stay
within. -/
theorem retentionSweep_within {R : Db → Db → Prop} [IsPreorder Db R] {clock : Int}
    {now : DateTime}
    (hTurn : ∀ c, Within R (sweepOne clock ns mode c))
    (hLog : ∀ op ns at' details, Within R (insertOplogRow op none ns at' details)) :
    Within R (retentionSweep clock ns p mode now) := by
  have hLoop : ∀ cs st, Within R (sweepLoop clock ns mode cs st) := by
    intro cs
    induction cs with
    | nil => exact fun st => Within.pure st
    | cons c rest ih =>
      intro st
      refine Within.bind (Within.nested (hTurn c)) fun r => ?_
      match r with
      | .ok true => exact ih _
      | .ok false => exact ih _
      | .error e => exact Within.pure _
  intro db r db' h
  obtain ⟨plan, -, st, mid, hRun, -, hRow⟩ := retentionSweep_runs.mp h
  exact trans_of R (hLoop _ _ db st mid hRun) (hLog _ _ _ _ mid () db' (runs_insertOplogRow.mpr hRow))

end RustyBrain.Store
