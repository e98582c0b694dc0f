import RustyBrain.Store.Corpus

/-!
# rusty-brain — what the snapshot of a corpus tells apart

Every change to a corpus that shows (`Traced`) moves one of the three figures of
`corpus_snapshot`: a row that is logged under the namespace or under none raises the
generation, and lost rows lower the count. Two changes need not show. `update_vector` writes
a vector and its stamp and logs nothing. `purge_memory_for_retention` clears the pointers of
memories that the purged one had replaced, and logs under the namespace of the purged one
only; where a pointer crosses namespaces, the other namespace shows the change only if its
newest log row was about the purged memory and goes with it.

## Results

* `oplog_never_rewritten` — along a run the log is only added to.
* `constraints_never_broken` — along a run the constraints of the tables hold.
* `corpusSnapshot_discriminates_iff` — exactly when a change to a corpus changes its snapshot.
-/

namespace RustyBrain.Store

open Transaction List

variable {r : MemoryRow} {w : Watch} {vectors : List VectorRow} {log : List OplogRow}

/-! ## The three figures -/

section

variable {ns : Namespace} {db db' : Db}

/-- The generation is the number of the newest row that the snapshot counts, or zero. -/
theorem Db.generation_spec (db : Db) (ns : Namespace) :
    (∀ r ∈ db.oplog, r.Counted ns → r.seq ≤ (db.corpusSnapshot ns).generation) ∧
      ((∃ r ∈ db.oplog, r.Counted ns ∧ r.seq = (db.corpusSnapshot ns).generation) ∨
        ((db.corpusSnapshot ns).generation = 0 ∧ ∀ r ∈ db.oplog, ¬ r.Counted ns)) := by
  have hMem : ∀ s, s ∈ (db.oplog.filter fun r => r.ns = ns.asDbString ∨ r.ns = []).map OplogRow.seq ↔
      ∃ r ∈ db.oplog, r.Counted ns ∧ r.seq = s := by
    intro s
    rw [mem_map]
    refine exists_congr fun r => ?_
    rw [mem_filter, decide_eq_true_eq, and_assoc]
    rfl
  show (∀ r ∈ db.oplog, r.Counted ns → r.seq ≤ Option.getD (List.max? _) 0) ∧
    ((∃ r ∈ db.oplog, r.Counted ns ∧ r.seq = Option.getD (List.max? _) 0) ∨
      (Option.getD (List.max? _) 0 = 0 ∧ _))
  generalize (db.oplog.filter fun r => r.ns = ns.asDbString ∨ r.ns = []).map OplogRow.seq = seqs at hMem
  cases hMax : seqs.max? with
  | none =>
    have hNone : ∀ r ∈ db.oplog, ¬ r.Counted ns := by
      intro r hr hCounted
      have hIn := (hMem r.seq).mpr ⟨r, hr, hCounted, rfl⟩
      rw [max?_eq_none_iff.mp hMax] at hIn
      cases hIn
    exact ⟨fun r hr hCounted => absurd hCounted (hNone r hr), .inr ⟨rfl, hNone⟩⟩
  | some g =>
    obtain ⟨hIn, hTop⟩ := max?_eq_some_iff.mp hMax
    exact ⟨fun r hr hCounted => hTop _ ((hMem r.seq).mpr ⟨r, hr, hCounted, rfl⟩), .inl ((hMem g).mp hIn)⟩

/-- A bound of the rows that are counted bounds the generation. -/
theorem Db.generation_le {n : Nat} (h : ∀ r ∈ db.oplog, r.Counted ns → r.seq ≤ n) :
    (db.corpusSnapshot ns).generation ≤ n := by
  rcases (db.generation_spec ns).2 with ⟨r, hr, hCounted, hSeq⟩ | ⟨hZero, -⟩
  · exact hSeq ▸ h r hr hCounted
  · exact hZero ▸ Nat.zero_le n

/-- Where the rows keep their last updates, only the generation can tell. -/
theorem Db.corpusSnapshot_eq_iff
    (hUpdated : (db'.rowsOf ns).map MemoryRow.updatedAt = (db.rowsOf ns).map MemoryRow.updatedAt) :
    db'.corpusSnapshot ns = db.corpusSnapshot ns ↔
      (db'.corpusSnapshot ns).generation = (db.corpusSnapshot ns).generation := by
  have hCount := congrArg List.length hUpdated
  rw [length_map, length_map] at hCount
  constructor
  · exact congrArg CorpusSnapshot.generation
  · intro hEq
    exact CorpusSnapshot.ext hCount hEq (congrArg (fun l => (List.max? l).getD 0) hUpdated)

/-- While the log only grows, the generation never falls. -/
theorem Gains.generation_le (h : Gains log db db') :
    (db.corpusSnapshot ns).generation ≤ (db'.corpusSnapshot ns).generation := by
  refine Db.generation_le fun r hr hCounted => (db'.generation_spec ns).1 r ?_ hCounted
  rw [h.oplog]
  exact mem_append_left _ hr

theorem Db.Bounded.generation_le (h : db.Bounded) :
    (db.corpusSnapshot ns).generation ≤ db.lastSeq :=
  Db.generation_le fun r hr _ => h r hr

/-- A row that the snapshot counts raises it. -/
theorem Gains.generation_lt (h : Gains log db db') (hBounded : db.Bounded)
    {r : OplogRow} (hr : r ∈ log) (hCounted : r.Counted ns) :
    (db.corpusSnapshot ns).generation < (db'.corpusSnapshot ns).generation := by
  have hNew : r.seq ≤ (db'.corpusSnapshot ns).generation := by
    refine (db'.generation_spec ns).1 r ?_ hCounted
    rw [h.oplog]
    exact mem_append_right _ hr
  exact (hBounded.generation_le.trans_lt (h.above r hr)).trans_le hNew

/-- **Key lemma:** a change that shows changes the snapshot, or nothing that is watched. -/
theorem Traced.snapshot_ne (hBounded : db.Bounded) (h : Traced w ns db db')
    (hChanged : w.view (db'.corpus ns) ≠ w.view (db.corpus ns)) :
    db'.corpusSnapshot ns ≠ db.corpusSnapshot ns := by
  obtain ⟨log, hGains, ⟨r, hr, hCounted⟩ | hFewer | hSame⟩ := h
  · intro hEq
    have hLt := hGains.generation_lt hBounded hr hCounted
    rw [hEq] at hLt
    exact hLt.false
  · intro hEq
    have hCount : (db'.rowsOf ns).length = (db.rowsOf ns).length := congrArg CorpusSnapshot.memories hEq
    exact hFewer.ne hCount
  · exact absurd hSame hChanged

/-- While the generation stays, rows can only leave, and if none left nothing that is watched
changed. -/
theorem Traced.quiet (h : Traced w ns db db') (hBounded : db.Bounded)
    (hGen : (db'.corpusSnapshot ns).generation ≤ (db.corpusSnapshot ns).generation) :
    (db'.rowsOf ns).length ≤ (db.rowsOf ns).length ∧
      ((db'.rowsOf ns).length = (db.rowsOf ns).length →
        w.view (db'.corpus ns) = w.view (db.corpus ns)) := by
  obtain ⟨log, hGains, ⟨r, hr, hCounted⟩ | hFewer | hSame⟩ := h
  · have hRaised := hGains.generation_lt hBounded hr hCounted
    omega
  · exact ⟨hFewer.le, fun hEq => absurd hEq hFewer.ne⟩
  · exact ⟨(Watch.length_eq hSame).le, fun _ => hSame⟩

theorem Traced.generation_le (h : Traced w ns db db') :
    (db.corpusSnapshot ns).generation ≤ (db'.corpusSnapshot ns).generation := by
  obtain ⟨log, hGains, -⟩ := h
  exact hGains.generation_le

end

/-! ## A re-embedding -/

/-- The memory `id`, where it is in the namespace, already has this vector and this stamp. -/
def Db.EmbeddedAs (db : Db) (ns : Namespace) (id : MemoryId) (e : Embedding) (model version : Text) :
    Prop :=
  ∀ r ∈ db.memories, r.memoryId = id → r.ns = ns.asDbString →
    (r.embeddingModel = model ∧ r.embeddingInputVersion = version) ∧
      (∃ v ∈ db.vectors, v.memoryId = id) ∧ ∀ v ∈ db.vectors, v.memoryId = id → v.embedding = e

section Reembed

variable {env : Env} {ns : Namespace} {db db' : Db} {id : MemoryId} {e : Embedding}
  {model version : Text} {expected : BitVec 256} {u : Unit}

theorem MemoryRow.stamped_eq :
    r.stamped model version = r ↔ r.embeddingModel = model ∧ r.embeddingInputVersion = version := by
  constructor
  · intro h
    have hModel := congrArg MemoryRow.embeddingModel h
    have hVersion := congrArg MemoryRow.embeddingInputVersion h
    exact ⟨hModel.symm, hVersion.symm⟩
  · rintro ⟨rfl, rfl⟩
    rfl

/-- A re-embedding leaves every snapshot as it was: the rows keep their last update. -/
theorem updateVector_snapshot (h : Runs (updateVector env id e model version expected) db u db') :
    db'.corpusSnapshot ns = db.corpusSnapshot ns := by
  obtain ⟨r, n, vectors, -, -, -, -, -, rfl⟩ := updateVector_runs h
  have hUpdated := db.map_rowsOf_setMemories (g := MemoryRow.updatedAt)
    (p := fun m => m.memoryId = r.memoryId ∧ m.archivedAt = none) ns
    (f := MemoryRow.stamped model version) (fun _ => rfl) fun _ => rfl
  exact (Db.corpusSnapshot_eq_iff hUpdated).mpr rfl

/-- A memory that is elsewhere takes its vector and its stamp there. -/
theorem Db.Reembeds.spares (h : db.Reembeds r e vectors) :
    Spares ns (· = r.memoryId) db
      ((db.restamped r model version).setVectors vectors) := by
  have hStamped : Spares ns (· = r.memoryId) db
      (db.restamped r model version) :=
    .setMemories (fun _ _ hp => hp.1) fun _ _ hOut => hOut
  refine trans_of (Spares ns _) hStamped (.setVectors fun q hq => ?_)
  rcases h with ⟨-, rfl⟩ | ⟨-, rfl⟩
  · exact filter_rewritten fun v _ hv => ⟨hq v hv, hq _ hv⟩
  · rw [filter_append, filter_cons, hq ⟨r.memoryId, r.ns, e⟩ rfl]
    simp

/-- A memory that had that vector and that stamp keeps them. -/
theorem Db.Reembeds.same (h : db.Reembeds r e vectors)
    (hHas : ∃ v ∈ db.vectors, v.memoryId = r.memoryId)
    (hVector : ∀ v ∈ db.vectors, v.memoryId = r.memoryId → v.embedding = e) :
    vectors = db.vectors := by
  rcases h with ⟨-, rfl⟩ | ⟨hAbsent, -⟩
  · refine (map_congr_left fun v hv => ?_).trans (map_id _)
    by_cases hId : v.memoryId = r.memoryId
    · rw [VectorRow.withEmbedding, if_pos hId, ← hVector v hv hId]
      rfl
    · rw [VectorRow.withEmbedding, if_neg hId]
      rfl
  · obtain ⟨v, hv, hId⟩ := hHas
    exact absurd hId (hAbsent v hv)

/-- Afterwards every vector of the memory is the one that was written. -/
theorem Db.Reembeds.written (h : db.Reembeds r e vectors) :
    (∃ v ∈ vectors, v.memoryId = r.memoryId) ∧
      ∀ v ∈ vectors, v.memoryId = r.memoryId → v.embedding = e := by
  rcases h with ⟨⟨v, hv, hId⟩, rfl⟩ | ⟨hAbsent, rfl⟩
  · refine ⟨⟨_, mem_map_of_mem hv, ?_⟩, fun v' hv' hId' => ?_⟩
    · rw [VectorRow.withEmbedding, if_pos hId]
      exact hId
    · obtain ⟨k, -, rfl⟩ := mem_map.mp hv'
      unfold VectorRow.withEmbedding at hId' ⊢
      split
      · rfl
      · next hOther =>
        rw [if_neg hOther] at hId'
        exact absurd hId' hOther
  · refine ⟨⟨_, mem_append_right _ (mem_singleton_self _), rfl⟩, fun v hv hId => ?_⟩
    rcases mem_concat.mp hv with hOld | rfl
    · exact absurd hId (hAbsent v hOld)
    · rfl

theorem Db.mem_corpus_vectors {v : VectorRow} : v ∈ (db.corpus ns).vectors ↔
    v ∈ db.vectors ∧ v.memoryId ∈ (db.corpus ns).rows.map MemoryRow.memoryId := by
  show v ∈ List.filter _ _ ↔ _
  rw [mem_filter, decide_eq_true_eq]
  rfl

/-- Where stamping a memory of the namespace did not change the corpus, the stamp and the vector
were there before. -/
theorem embedded_of_same {d : Db} (hIds : db.ids.Nodup) (hSame : d.corpus ns = db.corpus ns)
    (hr : r ∈ db.memories) (hNs : r.ns = ns.asDbString)
    (hStamped : r.stamped model version ∈ d.memories)
    (hHas : ∃ v ∈ d.vectors, v.memoryId = r.memoryId)
    (hVector : ∀ v ∈ d.vectors, v.memoryId = r.memoryId → v.embedding = e) :
    (r.embeddingModel = model ∧ r.embeddingInputVersion = version) ∧
      (∃ v ∈ db.vectors, v.memoryId = r.memoryId) ∧
      ∀ v ∈ db.vectors, v.memoryId = r.memoryId → v.embedding = e := by
  have hRow : (r.stamped model version).unread ∈ (d.corpus ns).rows :=
    mem_map_of_mem (mem_filter.mpr ⟨hStamped, decide_eq_true hNs⟩)
  rw [hSame] at hRow
  obtain ⟨k, hk, hEq⟩ := mem_map.mp hRow
  have hId : k.unread.memoryId = (r.stamped model version).unread.memoryId :=
    congrArg MemoryRow.memoryId hEq
  obtain rfl : k = r := db.row_unique hIds (mem_filter.mp hk).1 hr hId
  have hVectors : ∀ v : VectorRow, v.memoryId = k.memoryId → (v ∈ d.vectors ↔ v ∈ db.vectors) := by
    intro v hv
    have hIn : v.memoryId ∈ (db.corpus ns).rows.map MemoryRow.memoryId :=
      Db.mem_corpus_ids.mpr ⟨k, hr, hv.symm, hNs⟩
    have hBoth : v ∈ (d.corpus ns).vectors ↔ v ∈ (db.corpus ns).vectors := by rw [hSame]
    rw [Db.mem_corpus_vectors, Db.mem_corpus_vectors, hSame] at hBoth
    exact ⟨fun h => (hBoth.mp ⟨h, hIn⟩).1, fun h => (hBoth.mpr ⟨h, hIn⟩).1⟩
  refine ⟨⟨congrArg MemoryRow.embeddingModel hEq, congrArg MemoryRow.embeddingInputVersion hEq⟩, ?_, ?_⟩
  · obtain ⟨v, hv, hvId⟩ := hHas
    exact ⟨v, (hVectors v hvId).mp hv, hvId⟩
  · exact fun v hv hvId => hVector v ((hVectors v hvId).mpr hv) hvId

/-- It changes the corpus of a namespace unless the memory is elsewhere or had that vector and
that stamp. -/
theorem updateVector_corpus_iff (hIds : db.ids.Nodup)
    (h : Runs (updateVector env id e model version expected) db u db') :
    db'.corpus ns = db.corpus ns ↔ db.EmbeddedAs ns id e model version := by
  obtain ⟨r, n, vectors, hFind, -, hLive, -, hVectors, rfl⟩ := updateVector_runs h
  obtain ⟨hr, rfl⟩ := Db.find_some hFind
  have hOnly : ∀ m ∈ db.memories, m.memoryId = r.memoryId → m = r := fun m hm hId =>
    db.row_unique hIds hm hr hId
  constructor
  · intro hSame m hm hId hNs
    obtain rfl := hOnly m hm hId
    have hStamped : m.stamped model version ∈ ((db.restamped m model version).setVectors vectors).memories :=
      Db.mem_setMemories.mpr ⟨m, hm, .inl ⟨⟨rfl, hLive⟩, rfl⟩⟩
    exact embedded_of_same hIds hSame hm hNs hStamped hVectors.written.1 hVectors.written.2
  · intro hAlready
    by_cases hNs : r.ns = ns.asDbString
    · obtain ⟨hStamp, hHas, hVector⟩ := hAlready r hr rfl hNs
      have hMemories : db.restamped r model version = db := by
        refine Db.setMemories_of_fixed fun m hm hp => ?_
        rw [hOnly m hm hp.1]
        exact MemoryRow.stamped_eq.mpr hStamp
      rw [hMemories, hVectors.same hHas hVector]
      rfl
    · refine (hVectors.spares fun m hm hId => ?_).2
      rw [hOnly m hm hId]
      exact hNs

end Reembed

/-! ## A purge -/

/-- The newest row of the log that the snapshot of `ns` counts is about the memory `id`. -/
def Db.NewestAbout (db : Db) (ns : Namespace) (id : MemoryId) : Prop :=
  ∃ r ∈ db.oplog, r.Counted ns ∧ r.memoryId = some id ∧
    ∀ x ∈ db.oplog, x.Counted ns → x.seq ≤ r.seq

/-- A memory of the namespace was replaced by the memory `id`. -/
def Db.PointsFrom (db : Db) (ns : Namespace) (id : MemoryId) : Prop :=
  ∃ r ∈ db.memories, r.ns = ns.asDbString ∧ r.supersededBy = some id

/-- Every row of the log has a number of its own, from one on. -/
def Db.Numbered (db : Db) : Prop := ∀ r ∈ db.oplog, 0 < r.seq

theorem Effect.numbered {P : Permits} {db db' : Db} (h : Effect P db db') (hNumbered : db.Numbered) :
    db'.Numbered := by
  have hAppend : ∀ {rows : List OplogRow} {x : OplogRow}, (∀ r ∈ rows, 0 < r.seq) → 0 < x.seq →
      ∀ r ∈ rows ++ [x], 0 < r.seq := by
    intro rows x hRows hx r hr
    rcases mem_concat.mp hr with hOld | rfl
    · exact hRows r hOld
    · exact hx
  cases h with
  | purge id ns now details =>
    exact hAppend (fun r hr => hNumbered r (mem_filter.mp hr).1) (Nat.succ_pos _)
  | write hWrite =>
    cases hWrite with
    | log op memoryId ns now details => exact hAppend hNumbered (Nat.succ_pos _)
    | _ => exact hNumbered

theorem Reachable.numbered {env : Env} {A : Op → Prop} {db : Db} (h : Reachable env A db) :
    db.Wf ∧ db.Numbered :=
  h.invariant nofun fun _ _ _ hWf =>
    invariant_of_steps (I := Db.Numbered) (fun _ _ => Effect.numbered) (Op.effects_all hWf.ids)

/-- No number that `db` has given out is given out again. Of the rows numbered so far, `db'` has
those that are not about a memory purged since, unchanged and in their order; and each of these
purges is in the log itself. -/
def Db.LogKept (db db' : Db) : Prop :=
  db.lastSeq ≤ db'.lastSeq ∧ ∃ purged : List MemoryId,
    (db'.oplog.filter fun r => r.seq ≤ db.lastSeq) =
      (db.oplog.filter fun r => ∀ id ∈ purged, r.memoryId ≠ some id) ∧
    ∀ id ∈ purged, ∃ r ∈ db'.oplog, r.op = .purge ∧ r.memoryId = some id ∧ db.lastSeq < r.seq

theorem Effect.logKept {P : Permits} {db d db' : Db} (h : Effect P d db') (hKept : db.LogKept d) :
    db.LogKept db' := by
  obtain ⟨hLe, purged, hRows, hLogged⟩ := hKept
  have hNew : ¬ d.lastSeq + 1 ≤ db.lastSeq := by omega
  cases h with
  | purge id ns now details =>
    refine ⟨Nat.le_succ_of_le hLe, id :: purged, ?_, fun x hx => ?_⟩
    · rw [Db.purged_oplog, filter_append, filter_comm, hRows, filter_filter]
      simp [hNew]
    · -- the purge of a memory takes the row of an earlier one with it
      by_cases hEq : x = id
      · exact ⟨_, mem_append_right _ mem_cons_self, rfl, congrArg some hEq.symm, Nat.lt_succ_of_le hLe⟩
      · obtain ⟨r, hr, hOp, hId, hSeq⟩ := hLogged x (mem_of_ne_of_mem hEq hx)
        refine ⟨r, mem_append_left _ (mem_filter.mpr ⟨hr, ?_⟩), hOp, hId, hSeq⟩
        simpa [hId] using hEq
  | write hWrite =>
    cases hWrite with
    | log op memoryId ns now details =>
      refine ⟨Nat.le_succ_of_le hLe, purged, by simpa [hNew] using hRows, fun x hx => ?_⟩
      obtain ⟨r, hr, hPurge⟩ := hLogged x hx
      exact ⟨r, mem_append_left _ hr, hPurge⟩
    | _ => exact ⟨hLe, purged, hRows, hLogged⟩

/-- Along every run the log is only added to, except for the rows about the memories whose
purges it records. -/
theorem oplog_never_rewritten (env : Env) (dim : Nat) (ops more : List Op) :
    (storeAfter env dim ops).LogKept (storeAfter env dim (ops ++ more)) := by
  induction more using List.reverseRecOn with
  | nil =>
    rw [append_nil]
    refine ⟨le_rfl, [], ?_, by simp⟩
    exact filter_congr fun r hr => by simpa using storeAfter_wf.lastSeq r hr
  | append_singleton more op ih =>
    rw [← append_assoc]
    conv => rhs; rw [storeAfter, foldl_concat]
    exact invariant_of_steps (I := (storeAfter env dim ops).LogKept) (fun _ _ => Effect.logKept)
      (Op.effects_all storeAfter_wf.ids) ih

/-- Along every run the constraints of the tables hold, and no reference dangles. -/
theorem constraints_never_broken (env : Env) (dim : Nat) (ops : List Op) :
    (storeAfter env dim ops).Wf ∧ (storeAfter env dim ops).Numbered :=
  (storeAfter_reachable (A := fun _ => True) fun _ _ => trivial).numbered

section Purge

variable {ns : Namespace} {db : Db} {x : MemoryRow} (now : Int) (details : OplogDetails)

/-- The rows of a namespace after a purge: one may be gone, and the others lose their pointers
to it. -/
theorem rowsOf_purged (id : MemoryId) (home : Text) :
    (db.purged id home now details).rowsOf ns =
      ((db.rowsOf ns).filter fun r => r.memoryId ≠ id).map (MemoryRow.unpointed id) := by
  have hHome : ∀ r : MemoryRow, (r.unpointed id).ns = r.ns := fun r => by
    unfold MemoryRow.unpointed
    split <;> rfl
  unfold Db.rowsOf
  rw [Db.purged_memories, filter_filter, filter_map, filter_filter]
  refine congrArg _ (filter_congr fun r _ => ?_)
  simp only [Function.comp, hHome, MemoryRow.unpointed_memoryId]
  exact Bool.and_comm _ _

theorem rowsOf_purged_elsewhere (hIds : db.ids.Nodup) (hx : x ∈ db.memories)
    (hNs : x.ns ≠ ns.asDbString) : (db.purged x.memoryId x.ns now details).rowsOf ns =
      (db.rowsOf ns).map (MemoryRow.unpointed x.memoryId) := by
  rw [rowsOf_purged, filter_eq_self.mpr]
  intro r hr
  obtain ⟨hMem, hHome⟩ := mem_filter.mp hr
  rw [decide_eq_true_eq]
  exact fun hId => hNs (db.row_unique hIds hMem hx hId ▸ of_decide_eq_true hHome)

/-- A purge within the namespace takes a row away from it. -/
theorem length_rowsOf_purged_lt (hx : x ∈ db.memories) (hNs : x.ns = ns.asDbString) :
    ((db.purged x.memoryId x.ns now details).rowsOf ns).length < (db.rowsOf ns).length := by
  rw [rowsOf_purged, length_map]
  refine length_filter_lt_length_iff_exists.mpr ⟨x, ?_, ?_⟩
  · exact mem_filter.mpr ⟨hx, decide_eq_true hNs⟩
  · simp

/-- The corpus of another namespace changes exactly where a pointer crosses to it. -/
theorem purged_corpus_iff (hIds : db.ids.Nodup) (hx : x ∈ db.memories) (hNs : x.ns ≠ ns.asDbString) :
    (db.purged x.memoryId x.ns now details).corpus ns = db.corpus ns ↔ ¬ db.PointsFrom ns x.memoryId := by
  have hRows := rowsOf_purged_elsewhere now details hIds hx hNs
  have hOut : x.memoryId ∉ (db.corpus ns).rows.map MemoryRow.memoryId := by
    intro hIn
    obtain ⟨r, hr, hId, hIn⟩ := Db.mem_corpus_ids.mp hIn
    exact hNs (db.row_unique hIds hr hx hId ▸ hIn)
  constructor
  · rintro hSame ⟨r, hr, hHome, hPtr⟩
    -- the pointer is in the corpus before, and no pointer to the purged memory after
    have hBefore : r.unread ∈ (db.corpus ns).rows :=
      mem_map_of_mem (mem_filter.mpr ⟨hr, decide_eq_true hHome⟩)
    rw [← hSame] at hBefore
    obtain ⟨k, hk, hEq⟩ := mem_map.mp hBefore
    rw [hRows] at hk
    obtain ⟨s, -, rfl⟩ := mem_map.mp hk
    have hCleared : (s.unpointed x.memoryId).unread.supersededBy = r.unread.supersededBy :=
      congrArg MemoryRow.supersededBy hEq
    exact (MemoryRow.unpointed_supersededBy.mp (hCleared.trans hPtr)).2 rfl
  · intro hNone
    refine Db.corpus_eq ?_ ?_ ?_
    · rw [hRows, map_map]
      refine map_congr_left fun r hr => ?_
      have hKept : r.unpointed x.memoryId = r := by
        refine if_neg fun hPtr => hNone ⟨r, ?_, ?_, hPtr⟩
        · exact (mem_filter.mp hr).1
        · exact of_decide_eq_true (mem_filter.mp hr).2
      simp only [Function.comp, hKept]
    · refine filter_dropped fun l hEnds => decide_eq_true ?_
      rintro (hEnd | hEnd)
      · exact hOut (hEnd ▸ (of_decide_eq_true hEnds).1)
      · exact hOut (hEnd ▸ (of_decide_eq_true hEnds).2)
    · exact filter_dropped fun v hIn => decide_eq_true fun hEq => hOut (hEq ▸ of_decide_eq_true hIn)

/-- The rows that a snapshot counts after a purge elsewhere: those before, but the ones about the
purged memory. -/
theorem counted_purged (hNs : x.ns ≠ ns.asDbString) (hNamed : x.ns ≠ []) {r : OplogRow}
    (hCounted : r.Counted ns) : r ∈ (db.purged x.memoryId x.ns now details).oplog ↔
      r ∈ db.oplog ∧ r.memoryId ≠ some x.memoryId := by
  rw [Db.purged_oplog, mem_append, mem_filter, decide_eq_true_eq, mem_singleton]
  constructor
  · rintro (hOld | rfl)
    · exact hOld
    · rcases hCounted with hHere | hBlank
      · exact absurd hHere hNs
      · exact absurd hBlank hNamed
  · exact .inl

/-- A purge elsewhere keeps the generation, unless the newest row goes. -/
theorem generation_purged_iff (hWf : db.Wf) (hNumbered : db.Numbered) (hNs : x.ns ≠ ns.asDbString)
    (hNamed : x.ns ≠ []) :
    ((db.purged x.memoryId x.ns now details).corpusSnapshot ns).generation =
      (db.corpusSnapshot ns).generation ↔ ¬ db.NewestAbout ns x.memoryId := by
  obtain ⟨hTop, hAt⟩ := db.generation_spec ns
  obtain ⟨hTop', hAt'⟩ := (db.purged x.memoryId x.ns now details).generation_spec ns
  have hMem : ∀ r : OplogRow, r.Counted ns → (r ∈ (db.purged x.memoryId x.ns now details).oplog ↔
      r ∈ db.oplog ∧ r.memoryId ≠ some x.memoryId) := fun r => counted_purged now details hNs hNamed
  constructor
  · rintro hEq ⟨r, hr, hCounted, hAbout, hNewest⟩
    have hGen : (db.corpusSnapshot ns).generation = r.seq := by
      rcases hAt with ⟨y, hy, hyCounted, hySeq⟩ | ⟨-, hNone⟩
      · exact le_antisymm (hySeq ▸ hNewest y hy hyCounted) (hTop r hr hCounted)
      · exact absurd hCounted (hNone r hr)
    rcases hAt' with ⟨y, hy, hyCounted, hySeq⟩ | ⟨hZero, -⟩
    · -- the row that gives the generation now has the number of the one that went
      obtain ⟨hyOld, hyOther⟩ := (hMem y hyCounted).mp hy
      have hNodup : (db.oplog.map OplogRow.seq).Nodup :=
        pairwise_map.mpr (hWf.seqs.imp fun h => h.ne)
      have hSame : y = r := inj_on_of_nodup_map hNodup hyOld hr (by rw [hySeq, hEq, hGen])
      exact hyOther (hSame ▸ hAbout)
    · have hPos := hNumbered r hr
      rw [← hGen, ← hEq, hZero] at hPos
      exact hPos.false
  · intro hNot
    apply le_antisymm
    · exact Db.generation_le fun y hy hyCounted => hTop y ((hMem y hyCounted).mp hy).1 hyCounted
    · rcases hAt with ⟨y, hy, hyCounted, hySeq⟩ | ⟨hZero, -⟩
      · have hOther : y.memoryId ≠ some x.memoryId := fun hAbout =>
          hNot ⟨y, hy, hyCounted, hAbout, fun k hk hkCounted => hySeq ▸ hTop k hk hkCounted⟩
        rw [← hySeq]
        exact hTop' y ((hMem y hyCounted).mpr ⟨hy, hOther⟩) hyCounted
      · rw [hZero]
        exact Nat.zero_le _

/-- A purge elsewhere changes the snapshot exactly when the newest row goes. -/
theorem snapshot_purged_iff (hWf : db.Wf) (hNumbered : db.Numbered) (hx : x ∈ db.memories)
    (hNs : x.ns ≠ ns.asDbString) (hNamed : x.ns ≠ []) :
    (db.purged x.memoryId x.ns now details).corpusSnapshot ns ≠ db.corpusSnapshot ns ↔
      db.NewestAbout ns x.memoryId := by
  have hRows := rowsOf_purged_elsewhere now details hWf.ids hx hNs
  have hUpdated : ((db.purged x.memoryId x.ns now details).rowsOf ns).map MemoryRow.updatedAt =
      (db.rowsOf ns).map MemoryRow.updatedAt := by
    rw [hRows, map_map]
    refine map_congr_left fun r _ => ?_
    show (MemoryRow.unpointed x.memoryId r).updatedAt = r.updatedAt
    unfold MemoryRow.unpointed
    split <;> rfl
  rw [Ne, Db.corpusSnapshot_eq_iff hUpdated, generation_purged_iff now details hWf hNumbered hNs hNamed,
    not_not]

end Purge

/-! ## Every change -/

/-- What commits in one transaction: an operation, or the purge of one memory, of which a hard
sweep is a sequence. -/
inductive Change where
  | op (op : Op)
  | purge (now : Int) (id : MemoryId) (details : OplogDetails)

def Change.body (env : Env) : Change → StoreM Unit
  | .op o => o.body env
  | .purge now id details => discard (purgeMemoryForRetention now id details)

/-- The changes a running store makes. The embedding space changes and the vector table is
rebuilt while the store is opened; a hard sweep is taken purge by purge. -/
def Change.Running : Change → Prop
  | .op (.acceptEmbeddingSpaceChange ..) => False
  | .op .rebuildVectorTable => False
  | .op (.retentionSweep _ _ _ mode _) => mode = .apply
  | _ => True

/-- The change is one that the snapshot of `ns` records, by what is stored before it: a
re-embedding of a memory that is elsewhere or has that vector already; a purge that finds no
uncurated memory elsewhere that a memory of `ns` points to, or takes the newest log row with
it; or any other. -/
def Change.Recorded (db : Db) (ns : Namespace) : Change → Prop
  | .op (.updateVector id e model version _) => db.EmbeddedAs ns id e model version
  | .purge _ id _ => ∀ x ∈ db.memories, x.memoryId = id → x.humanCurated = false →
      x.ns ≠ ns.asDbString → x.ns ≠ [] → db.PointsFrom ns id → db.NewestAbout ns id
  | _ => True

section Main

variable {env : Env} {ns : Namespace} {db db' : Db}

theorem purge_discriminates_iff (hWf : db.Wf) (hNumbered : db.Numbered) {now : Int} {id : MemoryId}
    {details : OplogDetails} {b : Bool} (h : Runs (purgeMemoryForRetention now id details) db b db') :
    (db'.corpus ns ≠ db.corpus ns → db'.corpusSnapshot ns ≠ db.corpusSnapshot ns) ↔
      (Change.purge now id details).Recorded db ns := by
  rcases purgeMemoryForRetention_runs h with ⟨-, rfl, hCurated⟩ | ⟨-, x, hFind, hPlain, -, rfl⟩
  · -- nothing was purged
    refine iff_of_true (fun hChanged => absurd rfl hChanged) fun x hx hId hPlain => ?_
    have hFlag := hCurated x (hId ▸ Db.find_of_mem hWf.ids hx)
    rw [hPlain] at hFlag
    cases hFlag
  · obtain ⟨hx, rfl⟩ := Db.find_some hFind
    have hRecorded : (Change.purge now x.memoryId details).Recorded db ns ↔ (x.ns ≠ ns.asDbString →
        x.ns ≠ [] → db.PointsFrom ns x.memoryId → db.NewestAbout ns x.memoryId) := by
      refine ⟨fun hAll => hAll x hx rfl hPlain, fun hOne y hy hId _ => ?_⟩
      rw [db.row_unique hWf.ids hy hx hId]
      exact hOne
    rw [hRecorded]
    by_cases hNs : x.ns = ns.asDbString
    · refine iff_of_true (fun _ hEq => ?_) fun hOther => absurd hNs hOther
      have hCount : ((db.purged x.memoryId x.ns now details).rowsOf ns).length = (db.rowsOf ns).length :=
        congrArg CorpusSnapshot.memories hEq
      exact (length_rowsOf_purged_lt now details hx hNs).ne hCount
    by_cases hNamed : x.ns = []
    · refine iff_of_true (fun _ hEq => ?_) fun _ hOther => absurd hNamed hOther
      -- its own row is logged under no namespace, and counts everywhere
      have hRow : db.lastSeq + 1 ≤
          ((db.purged x.memoryId x.ns now details).corpusSnapshot ns).generation := by
        refine ((db.purged x.memoryId x.ns now details).generation_spec ns).1
          ⟨db.lastSeq + 1, db.siteId, .purge, some x.memoryId, x.ns, now, details⟩ ?_ (.inr hNamed)
        exact mem_append_right _ (mem_singleton_self _)
      rw [hEq] at hRow
      have hOld : (db.corpusSnapshot ns).generation ≤ db.lastSeq := Db.Bounded.generation_le hWf.lastSeq
      omega
    · have hCorpus := purged_corpus_iff now details hWf.ids hx hNs
      have hSnapshot := snapshot_purged_iff now details hWf hNumbered hx hNs hNamed
      rw [Ne, hCorpus, not_not, hSnapshot]
      exact ⟨fun hIf _ _ => hIf, fun hIf => hIf hNs hNamed⟩

/-- **Main result:** a change to what a recall in a namespace ranks from changes the snapshot of
the namespace exactly if the change is recorded. -/
theorem corpusSnapshot_discriminates_iff {A : Op → Prop} (hReach : Reachable env A db)
    {change : Change} (hRunning : change.Running) (hRuns : Runs (change.body env) db () db') :
    (db'.corpus ns ≠ db.corpus ns → db'.corpusSnapshot ns ≠ db.corpusSnapshot ns) ↔
      change.Recorded db ns := by
  obtain ⟨hWf, hNumbered⟩ := hReach.numbered
  cases change with
  | purge now id details =>
    obtain ⟨b, hRuns⟩ := runs_discard.mp hRuns
    exact purge_discriminates_iff hWf hNumbered hRuns
  | op o =>
    have hShows : o.Shows → (db'.corpus ns ≠ db.corpus ns →
        db'.corpusSnapshot ns ≠ db.corpusSnapshot ns) := fun hOp =>
      (o.traces hOp ns db () db' hRuns hWf.ids).2.snapshot_ne hWf.lastSeq
    cases o with
    | updateVector id e model version expected =>
      have hSame : db'.corpusSnapshot ns = db.corpusSnapshot ns := updateVector_snapshot hRuns
      have hCorpus : db'.corpus ns = db.corpus ns ↔ db.EmbeddedAs ns id e model version :=
        updateVector_corpus_iff hWf.ids hRuns
      show _ ↔ db.EmbeddedAs ns id e model version
      rw [← hCorpus]
      constructor
      · intro hIf
        by_contra hChanged
        exact hIf hChanged hSame
      · exact fun hEq hChanged => absurd hEq hChanged
    | acceptEmbeddingSpaceChange => cases hRunning
    | rebuildVectorTable => cases hRunning
    | retentionSweep clock home p mode now => exact iff_of_true (hShows hRunning) trivial
    | _ => exact iff_of_true (hShows trivial) trivial

end Main

/-- A memory stored without a vector. -/
def unembeddedStore : Db :=
  storeAfter .blank 2 [.insertMemory 0 (.plain 1) none]

/-- The job that embeds it. -/
def embedIt : Op := .updateVector ⟨1⟩ [0, 1] ['m'] ['v'] 0

/-- It gives the memory a vector, by which recalls rank it, and the snapshot stays. -/
theorem reembedding_keeps_snapshot :
    Reachable .blank (fun _ => True) unembeddedStore ∧
    (commit (embedIt.body .blank) unembeddedStore).1.isOk = true ∧
    (embedIt.run .blank unembeddedStore).corpus .global ≠ unembeddedStore.corpus .global ∧
    (embedIt.run .blank unembeddedStore).corpusSnapshot .global =
      unembeddedStore.corpusSnapshot .global :=
  ⟨storeAfter_reachable fun _ _ => trivial, by decide +kernel, by decide +kernel, by decide +kernel⟩

/-- The result at an archive of that memory: the corpus changes, and the snapshot with it. -/
theorem corpusSnapshot_discriminates_iff_archived :
    ((Op.archiveMemory 1 ⟨1⟩).run .blank unembeddedStore).corpusSnapshot .global ≠
      unembeddedStore.corpusSnapshot .global := by
  have hReach : Reachable .blank (fun _ => True) unembeddedStore :=
    storeAfter_reachable fun _ _ => trivial
  have hRunning : (Change.op (.archiveMemory 1 ⟨1⟩)).Running := trivial
  have hOk : (commit ((Op.archiveMemory 1 ⟨1⟩).body .blank) unembeddedStore).1.isOk = true := by
    decide +kernel
  obtain ⟨u, hRuns⟩ := runs_of_isOk hOk
  have hChanged : ((Op.archiveMemory 1 ⟨1⟩).run .blank unembeddedStore).corpus .global ≠
      unembeddedStore.corpus .global := by decide +kernel
  exact (corpusSnapshot_discriminates_iff hReach hRunning hRuns).mpr trivial hChanged

end RustyBrain.Store
