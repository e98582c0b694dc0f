import RustyBrain.Engine.Compose
import RustyBrain.Store.System

/-!
# rusty-brain — the vector index

The vector table has no foreign key: that its rows belong to live memories, one each,
under the namespace the memory has now, is kept by every operation by hand.

## Results

* `vectorIndex_live` — every store reached by inserts of active notes, and the rest.
-/

namespace RustyBrain.Store

open Transaction Relation List

variable {vectors : List VectorRow} {model version : Text} {r : MemoryRow} {db db' : Db}
  {p : MemoryRow → Prop}

/-- One vector per memory, and each belongs to a memory of its namespace; where the inserts are
`strict`, to an active one. -/
structure Db.Indexed (db : Db) (strict : Prop := True) : Prop where
  nodup : (db.vectors.map VectorRow.memoryId).Nodup
  live : ∀ v ∈ db.vectors, ∃ r ∈ db.memories,
    r.memoryId = v.memoryId ∧ (strict → r.archivedAt = none) ∧ r.ns = v.ns

variable {strict : Prop}

/-- Vectors come only for active rows; everything else is permitted. -/
def activeVectors (strict : Prop) : Permits :=
  ⟨fun _ => True, fun _ => True, fun r _ => strict → r.archivedAt = none⟩

/-- A change that leaves the vectors and, of every row, id, namespace and archive state. -/
theorem Db.Indexed.of_kept (h : db.Indexed strict) (hVectors : db'.vectors = db.vectors)
    (hRows : ∀ r ∈ db.memories, ∃ s ∈ db'.memories,
      s.memoryId = r.memoryId ∧ s.archivedAt = r.archivedAt ∧ s.ns = r.ns) : db'.Indexed strict := by
  refine ⟨hVectors ▸ h.nodup, fun v hv => ?_⟩
  obtain ⟨r, hr, hId, hLive, hNs⟩ := h.live v (hVectors ▸ hv)
  obtain ⟨s, hs, hId', hSame, hNs'⟩ := hRows r hr
  exact ⟨s, hs, hId'.trans hId, hSame ▸ hLive, hNs'.trans hNs⟩

/-- Retiring rows of one memory together with its vector. -/
theorem Db.Indexed.retired (h : db.Indexed strict) {id : MemoryId} [DecidablePred p]
    {f : MemoryRow → MemoryRow} (hp : ∀ r ∈ db.memories, p r → r.memoryId = id) :
    ((db.setMemories p f).dropVector id).Indexed strict := by
  have hSub : ∀ v ∈ ((db.setMemories p f).dropVector id).vectors, v ∈ db.vectors ∧ v.memoryId ≠ id := by
    intro v hv
    obtain ⟨hIn, hne⟩ := mem_filter.mp hv
    exact ⟨hIn, of_decide_eq_true hne⟩
  refine ⟨h.nodup.sublist (filter_sublist.map _), fun v hv => ?_⟩
  obtain ⟨hIn, hne⟩ := hSub v hv
  obtain ⟨r, hr, hId, hLive, hNs⟩ := h.live v hIn
  -- the row of another memory is not selected
  have hStays : r ∈ (db.setMemories p f).memories :=
    Db.mem_setMemories.mpr ⟨r, hr, .inr ⟨fun hpr => hne (hId ▸ hp r hr hpr), rfl⟩⟩
  exact ⟨r, hStays, hId, hLive, hNs⟩

/-- Stamping rows keeps what the index says about them. -/
theorem mem_stamped [DecidablePred p] (hr : r ∈ db.memories) :
    ∃ s ∈ (db.setMemories p (MemoryRow.stamped model version)).memories,
      s.memoryId = r.memoryId ∧ s.archivedAt = r.archivedAt ∧ s.ns = r.ns := by
  refine ⟨_, Db.mem_setMemories_of_mem hr, ?_⟩
  split <;> exact ⟨rfl, rfl, rfl⟩

/-- Re-embedding one memory: its vector is replaced, or added if it had none. -/
theorem Db.Indexed.restamped (h : db.Indexed strict) [DecidablePred p] {e : Embedding}
    (hr : r ∈ db.memories)
    (hLive : r.archivedAt = none)
    (hVectors : vectors = db.vectors.map (VectorRow.withEmbedding r.memoryId e) ∨
      (vectors = db.vectors ++ [⟨r.memoryId, r.ns, e⟩] ∧
        ∀ v ∈ db.vectors, v.memoryId ≠ r.memoryId)) :
    ((db.setMemories p (MemoryRow.stamped model version)).setVectors vectors).Indexed strict := by
  have hOld : ∀ v ∈ db.vectors,
      ∃ s ∈ (db.setMemories p (MemoryRow.stamped model version)).memories,
        s.memoryId = v.memoryId ∧ (strict → s.archivedAt = none) ∧ s.ns = v.ns := by
    intro v hv
    obtain ⟨q, hq, hId, hActive, hNs⟩ := h.live v hv
    obtain ⟨s, hs, hId', hSame, hNs'⟩ := mem_stamped (p := p) hq
    exact ⟨s, hs, hId'.trans hId, hSame ▸ hActive, hNs'.trans hNs⟩
  have hKeys : ∀ v : VectorRow, (v.withEmbedding r.memoryId e).memoryId = v.memoryId ∧
      (v.withEmbedding r.memoryId e).ns = v.ns := by
    intro v
    unfold VectorRow.withEmbedding
    split <;> exact ⟨rfl, rfl⟩
  rcases hVectors with rfl | ⟨rfl, hNew⟩
  · refine ⟨?_, fun v hv => ?_⟩
    · rw [Db.setVectors_vectors, List.map_map]
      have hMap : (VectorRow.memoryId ∘ VectorRow.withEmbedding r.memoryId e) =
          VectorRow.memoryId := funext fun v => (hKeys v).1
      rw [hMap]
      exact h.nodup
    · obtain ⟨w, hw, rfl⟩ := mem_map.mp hv
      rw [(hKeys w).1, (hKeys w).2]
      exact hOld w hw
  · refine ⟨insertVectorRow_nodup hNew h.nodup, fun v hv => ?_⟩
    rcases mem_concat.mp hv with hIn | rfl
    · exact hOld v hIn
    · obtain ⟨s, hs, hId, hActive, hNs⟩ := mem_stamped (p := p) hr
      exact ⟨s, hs, hId, fun _ => hActive.trans hLive, hNs⟩

/-- Renaming a namespace moves memories and vectors together. -/
theorem Db.Indexed.renamed (h : db.Indexed strict) (hIds : db.ids.Nodup) {old new : Text}
    (hNodup : (db.vectors.map VectorRow.memoryId).Nodup →
      (vectors.map VectorRow.memoryId).Nodup)
    (hVectors : ∀ v ∈ vectors, ∃ w ∈ db.vectors, v = w.rekeyed db old new) :
    (((db.relabelled old new).rekeyed old new).setVectors vectors).Indexed strict := by
  refine ⟨hNodup h.nodup, fun v hv => ?_⟩
  obtain ⟨w, hw, rfl⟩ := hVectors v hv
  obtain ⟨r, hr, hId, hLive, hNs⟩ := h.live w hw
  have hMoved := Db.mem_setMemories_of_mem (p := fun m => m.ns = old)
    (f := fun m => { m with ns := new }) hr
  by_cases hOld : r.ns = old
  · have hMoves : ∃ m ∈ db.memories, m.memoryId = w.memoryId ∧ m.ns = old := ⟨r, hr, hId, hOld⟩
    rw [if_pos hOld] at hMoved
    rw [VectorRow.rekeyed, if_pos hMoves]
    exact ⟨_, hMoved, hId, hLive, rfl⟩
  · have hStays : ¬ ∃ m ∈ db.memories, m.memoryId = w.memoryId ∧ m.ns = old := by
      rintro ⟨m, hm, hmId, hmNs⟩
      exact hOld (db.row_unique hIds hr hm (hId.trans hmId.symm) ▸ hmNs)
    rw [if_neg hOld] at hMoved
    rw [VectorRow.rekeyed, if_neg hStays]
    exact ⟨r, hMoved, hId, hLive, hNs⟩

theorem Write.indexed {P : Permits} (hVec : ∀ r e, P.vec r e → strict → r.archivedAt = none)
    (hWrite : Write P db db') (hWf : db.Wf) (h : db.Indexed strict) : db'.Indexed strict := by
  cases hWrite with
  | addMemory r =>
    exact h.of_kept rfl fun s hs => ⟨s, mem_append_left _ hs, rfl, rfl, rfl⟩
  | edit p f _ hLife =>
    refine h.of_kept rfl fun r hr => ⟨_, Db.mem_setMemories_of_mem hr, ?_⟩
    by_cases hp : p r
    · rw [if_pos hp]
      have hSame := hLife r hr hp
      exact ⟨hSame.memoryId, hSame.archivedAt, hSame.ns⟩
    · rw [if_neg hp]
      exact ⟨rfl, rfl, rfl⟩
  | archive id p now hp => exact h.retired fun r hr hpr => (hp r hr hpr).1
  | supersede old new now => exact h.retired fun r _ hTakes => hTakes.1
  | addVector r e hr hNew hPermitted =>
    refine ⟨insertVectorRow_nodup hNew h.nodup, fun v hv => ?_⟩
    rcases mem_concat.mp hv with hOld | rfl
    · exact h.live v hOld
    · exact ⟨r, hr, rfl, hVec r e hPermitted, rfl⟩
  | restamp r e model version vectors hr hLive _ hVectors =>
    exact h.restamped hr hLive hVectors
  | rename old new vectors hNodup hVectors => exact h.renamed hWf.ids hNodup hVectors
  | newSpace dim model => exact ⟨nodup_nil, fun v hv => nomatch hv⟩
  | keepVectors vectors hNodup hVectors =>
    refine ⟨hNodup, fun v hv => ?_⟩
    obtain ⟨w, -, m, hm, hId, hLive, rfl⟩ := hVectors v hv
    exact ⟨m, hm, hId, fun _ => hLive, rfl⟩
  | _ => exact h.of_kept rfl fun s hs => ⟨s, hs, rfl, rfl, rfl⟩

/-- One effect keeps the index in step. -/
theorem Effect.indexed {P : Permits} (hVec : ∀ r e, P.vec r e → strict → r.archivedAt = none)
    (hEffect : Effect P db db') (hWf : db.Wf) (h : db.Indexed strict) : db'.Indexed strict := by
  cases hEffect with
  | write hWrite => exact hWrite.indexed hVec hWf h
  | purge id ns now details =>
    refine ⟨h.nodup.sublist (filter_sublist.map _), fun v hv => ?_⟩
    rw [Db.purged_vectors, mem_filter, decide_eq_true_eq] at hv
    obtain ⟨r, hr, hId, hLive, hNs⟩ := h.live v hv.1
    have hThere : r.unpointed id ∈ (db.purged id ns now details).memories :=
      Db.mem_purged.mpr ⟨r, hr, hId ▸ hv.2, rfl⟩
    refine ⟨_, hThere, ?_, ?_, ?_⟩
    · rw [MemoryRow.unpointed_memoryId, hId]
    · rwa [MemoryRow.unpointed_archivedAt]
    · rw [MemoryRow.unpointed_ns, hNs]

/-! ## Every reachable store -/

/-- The operations of callers who bring a vector only with an active note. -/
def VectorsForActive (op : Op) : Prop :=
  ∀ n e, op.inserted = some (n, some e) → n.archivedAt = none

instance : DecidablePred VectorsForActive := fun op =>
  decidable_of_iff (∀ p ∈ op.inserted, p.2.isSome = true → p.1.archivedAt = none)
    ⟨fun h n e hInserted => h (n, some e) hInserted rfl, fun h p hInserted hSome => by
      obtain ⟨e, he⟩ := Option.isSome_iff_exists.mp hSome
      exact h p.1 e (he ▸ hInserted)⟩

/-- Notes that `compose_note` made are active. -/
theorem vectorsForActive_of_composed {op : Op}
    (h : ∀ n e, op.inserted = some (n, e) → ∃ (engine : Engine.MemoryEngine) (id : MemoryId)
      (clock : DateTime) (input : Engine.RememberInput),
      engine.composeNote id clock input = .ok (n, e)) : VectorsForActive op := by
  intro n e hInserted
  obtain ⟨engine, id, clock, input, hComposed⟩ := h n (some e) hInserted
  exact (Engine.composeNote_fresh hComposed).1.1

theorem Op.run_indexed {env : Env} {op : Op} (hActive : strict → VectorsForActive op) (hWf : db.Wf)
    (h : db.Indexed strict) : (op.run env db).Indexed strict := by
  have hRun : Effects (activeVectors strict) db (op.run env db) := by
    refine op.effects hWf.ids (fun n e hInserted => ⟨trivial, fun v hv => ?_⟩) ?_ fun _ => trivial
    · obtain rfl := Option.mem_def.mp hv
      intro hStrict
      have hNone := hActive hStrict n v hInserted
      show (noteRow n).archivedAt = none
      simp [noteRow, hNone]
    · cases op with
      | updateVector => exact fun _ _ _ _ hLive _ _ => hLive
      | _ => trivial
  exact (hRun.invariant hWf (fun _ _ hEffect => hEffect.indexed fun _ _ hLive => hLive) h).2

theorem Reachable.indexed {env : Env} {A : Op → Prop} (hReach : Reachable env A db)
    (hActive : ∀ op, A op → strict → VectorsForActive op) : db.Indexed strict :=
  (hReach.invariant (fun _ _ _ => ⟨nodup_nil, nofun⟩) fun op _ hOp => Op.run_indexed (hActive op hOp)).2

/-- **Key result:** in every store that operations with active notes lead to, a memory has at
most one vector, the memory of a vector is there, active and in the vector's namespace,
and the memory of an anchor is there and in the anchor's namespace. -/
theorem vectorIndex_live {env : Env} {db : Db} (hReach : Reachable env VectorsForActive db) :
    (db.vectors.map VectorRow.memoryId).Nodup ∧
    (∀ v ∈ db.vectors, ∃ r, db.find v.memoryId = some r ∧ r.archivedAt = none ∧ r.ns = v.ns) ∧
    (∀ a ∈ db.anchors, ∃ r, db.find a.memoryId = some r ∧ r.ns = a.ns) := by
  have hWf := hReach.wf
  have hIndexed : db.Indexed := hReach.indexed fun _ hOp _ => hOp
  refine ⟨hIndexed.nodup, fun v hv => ?_, fun a ha => ?_⟩
  · obtain ⟨r, hr, hId, hLive, hNs⟩ := hIndexed.live v hv
    exact ⟨r, hId ▸ Db.find_of_mem hWf.ids hr, hLive trivial, hNs⟩
  · obtain ⟨-, -, r, hr, hId, hNs⟩ := hWf.anchors a ha
    exact ⟨r, hId ▸ Db.find_of_mem hWf.ids hr, hNs⟩

/-- One memory with a vector and a file anchor, moved to another namespace. -/
def movedStore : Db :=
  storeAfter .blank 2
    [.insertMemory 0 { MemoryNote.plain 1 with
        anchors := [⟨.file, ['f'], none, none⟩] } (some [0, 1]),
      .renameNamespace 1 .global (.project ['p']) false]

/-- The result at a store with a vector and an anchor. -/
theorem vectorIndex_live_movedStore :
    movedStore.vectors = [⟨⟨1⟩, Namespace.asDbString (.project ['p']), [0, 1]⟩] ∧
    movedStore.anchors.length = 1 ∧
    (∀ a ∈ movedStore.anchors, ∃ r, movedStore.find a.memoryId = some r ∧ r.ns = a.ns) := by
  have hReach : Reachable .blank VectorsForActive movedStore :=
    storeAfter_reachable (by decide +kernel)
  exact ⟨by decide +kernel, by decide +kernel, (vectorIndex_live hReach).2.2⟩

/-- One archived memory, inserted with a vector. -/
def archivedStore : Db :=
  storeAfter .blank 2
    [.insertMemory 0 { MemoryNote.plain 1 with
        archivedAt := some ⟨0, 0⟩ } (some [0, 1])]

/-- An insert checks no archive time: a note that is archived already is indexed too. -/
theorem vectorIndex_archivedStore :
    Reachable .blank (fun _ => True) archivedStore ∧
    ¬ ∀ v ∈ archivedStore.vectors, ∃ r, archivedStore.find v.memoryId = some r ∧
      r.archivedAt = none ∧ r.ns = v.ns := by
  refine ⟨storeAfter_reachable fun _ _ => trivial, fun h => ?_⟩
  have hVectors : archivedStore.vectors.map VectorRow.memoryId = [⟨1⟩] := by decide +kernel
  have hArchived : (archivedStore.find ⟨1⟩).map MemoryRow.archivedAt = some (some 0) := by
    decide +kernel
  obtain ⟨v, hv, hId⟩ := mem_map.mp (hVectors ▸ mem_singleton_self (⟨1⟩ : MemoryId))
  -- the row of the vector would have to be both active and archived
  obtain ⟨r, hFind, hLive, -⟩ := h v hv
  rw [hId] at hFind
  rw [hFind, Option.map_some, hLive] at hArchived
  cases hArchived

end RustyBrain.Store
