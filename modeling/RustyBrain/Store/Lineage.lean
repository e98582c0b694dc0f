import RustyBrain.Engine.Compose
import RustyBrain.Lib.Lineage
import RustyBrain.Store.System

/-!
# rusty-brain — the supersede lineage

`superseded_by` as a graph on memories: in every store that operations with freshly
composed notes lead to it has no cycle, its edges start at archived rows and end at
rows that exist, and an edge, once there, only goes away with the memory it points at.

## Results

* `Op.retains` — one operation keeps the pointers of archived rows.
* `lineage_sound` — every reachable store, and every operation on it.
-/

namespace RustyBrain.Store

open Transaction Relation Lineage List

variable {db db' : Db} {P : Permits} {env : Env} {op : Op}

/-! ## Soundness of one state -/

/-- The row of `a` names `b` as its successor. -/
def Db.Points (db : Db) (a b : MemoryId) : Prop :=
  ∃ r ∈ db.memories, r.memoryId = a ∧ r.supersededBy = some b

/-- The lineage has no cycle, and every superseded row is archived. -/
structure Db.Sound (db : Db) : Prop where
  acyclic : Acyclic db.Points
  archived : ∀ r ∈ db.memories, r.supersededBy ≠ none → r.archivedAt ≠ none

/-- Only current rows are inserted; everything else is permitted. -/
def freshRows : Permits := ⟨MemoryRow.Current, fun _ => True, fun _ _ => True⟩

/-- A change after which every pointer was there before keeps the lineage sound. -/
theorem Db.Sound.of_kept (h : db.Sound)
    (hKept : ∀ s ∈ db'.memories, s.supersededBy = none ∨ ∃ r ∈ db.memories,
      s.memoryId = r.memoryId ∧ s.supersededBy = r.supersededBy ∧
      (r.archivedAt ≠ none → s.archivedAt ≠ none)) : db'.Sound := by
  constructor
  · refine h.acyclic.mono ?_
    rintro a b ⟨s, hs, rfl, hPtr⟩
    rcases hKept s hs with hNone | ⟨r, hr, hId, hSame, -⟩
    · rw [hNone] at hPtr
      cases hPtr
    · exact ⟨r, hr, hId.symm, hSame.symm.trans hPtr⟩
  · intro s hs hPtr
    rcases hKept s hs with hNone | ⟨r, hr, -, hSame, hArchived⟩
    · exact absurd hNone hPtr
    · exact hArchived (h.archived r hr (hSame ▸ hPtr))

/-- An update of rows that keeps ids and pointers and revives nothing. -/
theorem Db.Sound.setMemories (h : db.Sound) {p : MemoryRow → Prop} [DecidablePred p]
    {f : MemoryRow → MemoryRow} (hf : ∀ r ∈ db.memories, p r → (f r).memoryId = r.memoryId ∧
      (f r).supersededBy = r.supersededBy ∧ (r.archivedAt ≠ none → (f r).archivedAt ≠ none)) :
    (db.setMemories p f).Sound := by
  refine h.of_kept fun s hs => .inr ?_
  obtain ⟨r, hr, ⟨hp, rfl⟩ | ⟨-, rfl⟩⟩ := Db.mem_setMemories.mp hs
  · exact ⟨r, hr, hf r hr hp⟩
  · exact ⟨s, hr, rfl, rfl, id⟩

/-- A change to other tables. -/
theorem Db.Sound.of_memories (h : db.Sound) (hSame : db'.memories = db.memories) : db'.Sound :=
  h.of_kept fun s hs => .inr ⟨s, hSame ▸ hs, rfl, rfl, id⟩

/-- **Key lemma:** setting a pointer on a current row, towards another current row. -/
theorem Db.Sound.superseded (h : db.Sound) (hIds : db.ids.Nodup) {old new : MemoryId} (now : Int)
    (hne : old ≠ new) (hNew : ∃ r ∈ db.memories, r.memoryId = new ∧ r.Current) :
    (db.setMemories (Takes old) (MemoryRow.superseded new now)).Sound := by
  constructor
  · refine h.acyclic.insert hne ?_ ?_
    · -- the replacement is current: it points nowhere
      rintro z ⟨s, hs, hId, hPtr⟩
      obtain ⟨r, hr, rfl, hCurrent⟩ := hNew
      rw [db.row_unique hIds hs hr hId, hCurrent.2] at hPtr
      cases hPtr
    · rintro a b ⟨s, hs, rfl, hPtr⟩
      obtain ⟨r, hr, ⟨hTakes, rfl⟩ | ⟨-, rfl⟩⟩ := Db.mem_setMemories.mp hs
      · exact .inr ⟨hTakes.1, (Option.some.inj hPtr).symm⟩
      · exact .inl ⟨s, hr, rfl, hPtr⟩
  · intro s hs hPtr
    obtain ⟨r, hr, ⟨-, rfl⟩ | ⟨-, rfl⟩⟩ := Db.mem_setMemories.mp hs
    · simp
    · exact h.archived s hr hPtr

theorem Write.sound (hRows : ∀ r, P.row r → r.Current) (hWrite : Write P db db') (hWf : db.Wf)
    (h : db.Sound) : db'.Sound := by
  cases hWrite with
  | addMemory r hRow =>
    refine h.of_kept fun s hs => ?_
    rcases mem_append.mp hs with hOld | hAdded
    · exact .inr ⟨s, hOld, rfl, rfl, id⟩
    · rw [mem_singleton.mp hAdded]
      exact .inl (hRows r hRow).2
  | edit p f _ hLife =>
    refine h.setMemories fun r hr hp => ?_
    have hSame := hLife r hr hp
    exact ⟨hSame.memoryId, hSame.supersededBy, fun hArchived => hSame.archivedAt ▸ hArchived⟩
  | archive id p now =>
    have hRows : (db.setMemories p (MemoryRow.archived now)).Sound :=
      h.setMemories fun r _ _ => ⟨rfl, rfl, fun _ => by simp⟩
    exact hRows.of_memories rfl
  | supersede old new now hne hNew =>
    exact (h.superseded hWf.ids now hne hNew).of_memories rfl
  | restamp r e model version vectors =>
    have hRows : (db.restamped r model version).Sound :=
      h.setMemories fun r _ _ => ⟨rfl, rfl, id⟩
    exact hRows.of_memories rfl
  | rename old new vectors =>
    have hRows : (db.relabelled old new).Sound :=
      h.setMemories fun r _ _ => ⟨rfl, rfl, id⟩
    exact hRows.of_memories rfl
  | newSpace dim model =>
    have hSpace : (db.withSpace dim model).Sound := h.of_memories rfl
    exact hSpace.setMemories fun r _ _ => ⟨rfl, rfl, id⟩
  | _ => exact h.of_memories rfl

/-- One effect keeps the lineage sound: a pointer is only set on a current row, towards a current
row. -/
theorem Effect.sound (hRows : ∀ r, P.row r → r.Current) (hEffect : Effect P db db') (hWf : db.Wf)
    (h : db.Sound) : db'.Sound := by
  cases hEffect with
  | write hWrite => exact hWrite.sound hRows hWf h
  | purge id ns now details =>
    -- pointers are cleared or stay, and no row is new
    refine h.of_kept fun s hs => ?_
    obtain ⟨r, hr, -, rfl⟩ := Db.mem_purged.mp hs
    by_cases hPtr : r.supersededBy = some id
    · exact .inl (by simp [MemoryRow.unpointed, hPtr])
    · refine .inr ⟨r, hr, r.unpointed_memoryId id, ?_, ?_⟩
      · simp [MemoryRow.unpointed, hPtr]
      · rw [MemoryRow.unpointed_archivedAt]
        exact fun hArchived => hArchived

/-! ## Pointers over one operation -/

/-- Every archived row is still there, archived, with the pointer it had. -/
def Retains (db db' : Db) : Prop :=
  ∀ r ∈ db.memories, r.archivedAt ≠ none → ∃ s ∈ db'.memories,
    s.memoryId = r.memoryId ∧ s.archivedAt ≠ none ∧ s.supersededBy = r.supersededBy

theorem Write.retains (hWrite : Write P db db') : Retains db db' := by
  -- an update touches archived rows only where it keeps id, archive state and pointer
  have hUpdate : ∀ (p : MemoryRow → Prop) [DecidablePred p] (f : MemoryRow → MemoryRow),
      (∀ r ∈ db.memories, p r → r.archivedAt ≠ none → (f r).memoryId = r.memoryId ∧
        (f r).archivedAt ≠ none ∧ (f r).supersededBy = r.supersededBy) →
      ∀ r ∈ db.memories, r.archivedAt ≠ none → ∃ s ∈ (db.setMemories p f).memories,
        s.memoryId = r.memoryId ∧ s.archivedAt ≠ none ∧ s.supersededBy = r.supersededBy := by
    intro p _ f hf r hr hArchived
    refine ⟨_, Db.mem_setMemories_of_mem hr, ?_⟩
    by_cases hp : p r
    · rw [if_pos hp]
      exact hf r hr hp hArchived
    · rw [if_neg hp]
      exact ⟨rfl, hArchived, rfl⟩
  cases hWrite with
  | addMemory r =>
    exact fun s hs hArchived => ⟨s, mem_append_left _ hs, rfl, hArchived, rfl⟩
  | edit p f _ hLife =>
    refine hUpdate p f fun r hr hp hArchived => ?_
    have hSame := hLife r hr hp
    exact ⟨hSame.memoryId, hSame.archivedAt ▸ hArchived, hSame.supersededBy⟩
  | archive id p now hp =>
    exact hUpdate p _ fun r hr hpr hArchived => absurd (hp r hr hpr).2 hArchived
  | supersede old new now =>
    exact hUpdate (Takes old) _ fun r _ hTakes hArchived => absurd hTakes.2.2 hArchived
  | restamp r e model version vectors =>
    exact hUpdate _ _ fun s _ hp hArchived => absurd hp.2 hArchived
  | rename old new vectors | newSpace dim model =>
    exact hUpdate _ _ fun r _ _ hArchived => ⟨rfl, hArchived, rfl⟩
  | _ => exact fun s hs hArchived => ⟨s, hs, rfl, hArchived, rfl⟩

theorem Writes.retains (h : Writes P db db') : Retains db db' := by
  induction h with
  | refl => exact fun r hr hArchived => ⟨r, hr, rfl, hArchived, rfl⟩
  | tail _ hLast ih =>
    intro r hr hArchived
    obtain ⟨s, hs, hId, hStill, hPtr⟩ := ih r hr hArchived
    obtain ⟨t, ht, hId', hStill', hPtr'⟩ := hLast.retains s hs hStill
    exact ⟨t, ht, hId'.trans hId, hStill', hPtr'.trans hPtr⟩

/-- The pointer after a change that may have purged its target. -/
def PointerKept (db' : Db) (r s : MemoryRow) : Prop :=
  (r.archivedAt ≠ none → s.archivedAt ≠ none) ∧
  (s.supersededBy = r.supersededBy ∨
    (s.supersededBy = none ∧ ∃ t, r.supersededBy = some t ∧ t ∉ db'.ids))

/-- Rows only go away, and those that stay keep their pointers. -/
def Shrinks (db db' : Db) : Prop :=
  (∀ id ∈ db'.ids, id ∈ db.ids) ∧
  ∀ s ∈ db'.memories, ∃ r ∈ db.memories, r.memoryId = s.memoryId ∧ PointerKept db' r s

instance : IsPreorder Db Shrinks where
  refl := fun db => ⟨fun _ h => h, fun s hs => ⟨s, hs, rfl, id, .inl rfl⟩⟩
  trans := by
    rintro a b c ⟨hIds, hRows⟩ ⟨hIds', hRows'⟩
    refine ⟨fun id h => hIds id (hIds' id h), fun u hu => ?_⟩
    obtain ⟨s, hs, hId', hStill', hPtr'⟩ := hRows' u hu
    obtain ⟨r, hr, hId, hStill, hPtr⟩ := hRows s hs
    refine ⟨r, hr, hId.trans hId', fun h => hStill' (hStill h), ?_⟩
    -- a pointer cleared in either half was cleared with its target
    rcases hPtr' with hSame' | ⟨hNone', t, ht, hGone'⟩
    · rcases hPtr with hSame | ⟨hNone, t, ht, hGone⟩
      · exact .inl (hSame'.trans hSame)
      · exact .inr ⟨hSame'.trans hNone, t, ht, fun hIn => hGone (hIds' t hIn)⟩
    · rcases hPtr with hSame | ⟨hNone, -⟩
      · exact .inr ⟨hNone', t, hSame.symm.trans ht, hGone'⟩
      · rw [hNone] at ht
        cases ht

theorem Shrinks.of_memories (h : db'.memories = db.memories) : Shrinks db db' := by
  have hIds : db'.ids = db.ids := congrArg (List.map MemoryRow.memoryId) h
  exact ⟨fun id hid => hIds ▸ hid, fun s hs => ⟨s, h ▸ hs, rfl, id, .inl rfl⟩⟩

theorem sweepOne_shrinks (clock : Int) (ns : Namespace) (mode : ForgetMode)
    (c : ForgetCandidate) : Within Shrinks (sweepOne clock ns mode c) := by
  intro db b db' h
  cases mode with
  | apply =>
    rcases archiveWithDetails_runs h with ⟨-, -, rfl⟩ | ⟨-, -, rfl⟩
    · refine trans_of Shrinks ?_ (Shrinks.of_memories (Db.appended_memories ..))
      refine ⟨fun id hid => ?_, fun s hs => ?_⟩
      · have hIds := db.ids_setMemories (p := Archives c.id true (some ns))
          (f := MemoryRow.archived clock) fun _ _ _ => rfl
        exact hIds ▸ hid
      · obtain ⟨r, hr, ⟨-, rfl⟩ | ⟨-, rfl⟩⟩ := Db.mem_setMemories.mp hs
        · exact ⟨r, hr, rfl, fun _ => by simp, .inl rfl⟩
        · exact ⟨s, hr, rfl, id, .inl rfl⟩
    · exact refl db'
  | hard =>
    rcases purgeMemoryForRetention_runs h with ⟨-, rfl, -⟩ | ⟨-, r, -, -, -, rfl⟩
    · exact refl db'
    · refine ⟨fun id hid => (Db.mem_ids_purged.mp hid).1, fun s hs => ?_⟩
      obtain ⟨t, ht, -, rfl⟩ := Db.mem_purged.mp hs
      refine ⟨t, ht, (t.unpointed_memoryId c.id).symm, ?_, ?_⟩
      · rw [MemoryRow.unpointed_archivedAt]
        exact id
      · by_cases hPtr : t.supersededBy = some c.id
        · refine .inr ⟨by simp [MemoryRow.unpointed, hPtr], c.id, hPtr, fun hIn => ?_⟩
          exact (Db.mem_ids_purged.mp hIn).2 rfl
        · exact .inl (by simp [MemoryRow.unpointed, hPtr])

/-- **Key lemma:** after an operation, an archived row that is still there is archived and
points where it pointed, unless the operation purged what it pointed at. -/
theorem Op.retains (hWf : db.Wf) {r s : MemoryRow} (hr : r ∈ db.memories)
    (hArchived : r.archivedAt ≠ none) (hs : s ∈ (op.run env db).memories)
    (hId : s.memoryId = r.memoryId) : PointerKept (op.run env db) r s := by
  have hWf' : (op.run env db).Wf := Op.run_wf hWf
  unfold Op.run at hs hWf' ⊢
  rcases commit_cases (op.body env) db with ⟨u, db', hRun, hEq⟩ | ⟨e, hEq⟩
  · rw [hEq] at hs hWf' ⊢
    cases hSweep : op.isSweep with
    | false =>
      have hWrites : Writes .all db db' := by
        refine op.writes hWf.ids hSweep (fun _ _ _ => ⟨trivial, fun _ _ => trivial⟩) ?_
          (fun _ _ => trivial) hRun
        exact Op.stampPermitted fun _ _ => trivial
      obtain ⟨t, ht, hSame, hStill, hPtr⟩ := hWrites.retains r hr hArchived
      rw [db'.row_unique hWf'.ids hs ht (hId.trans hSame.symm)]
      exact ⟨fun _ => hStill, .inl hPtr⟩
    | true =>
      cases op with
      | retentionSweep clock ns p mode now =>
        obtain ⟨out, hRun⟩ := runs_discard.mp hRun
        have hShrinks : Shrinks db db' := by
          refine retentionSweep_within (sweepOne_shrinks clock ns mode) ?_ db out db' hRun
          intro o n a d b u b' h
          obtain rfl := runs_insertOplogRow.mp h
          exact Shrinks.of_memories rfl
        obtain ⟨t, ht, hSame, hKept⟩ := hShrinks.2 s hs
        rw [db.row_unique hWf.ids hr ht (hId.symm.trans hSame.symm)]
        exact hKept
      | _ => cases hSweep
  · rw [hEq] at hs ⊢
    rw [db.row_unique hWf.ids hs hr hId]
    exact ⟨id, .inl rfl⟩

/-! ## Every run -/

/-- The operations of callers who insert only fresh notes, as `compose_note` makes them. -/
def InsertsFresh (op : Op) : Prop := ∀ n e, op.inserted = some (n, e) → n.Fresh

theorem InsertsFresh.permitted (h : InsertsFresh op) : op.InsertsPermitted freshRows := by
  intro n e hInserted
  obtain ⟨hActive, hFirst⟩ := h n e hInserted
  exact ⟨⟨by simp [noteRow, hActive], hFirst⟩, fun _ _ => trivial⟩

theorem Op.run_sound (hFresh : InsertsFresh op) (hWf : db.Wf) (h : db.Sound) :
    (op.run env db).Sound := by
  have hRun : Effects freshRows db (op.run env db) := by
    refine op.effects hWf.ids hFresh.permitted ?_ fun _ => trivial
    exact Op.stampPermitted fun _ _ => trivial
  exact (hRun.invariant hWf (fun _ _ hEffect => hEffect.sound fun _ hRow => hRow) h).2

/-- A step of a run in which the memory `id` is there before and after. -/
def StepWith (env : Env) (id : MemoryId) (db db' : Db) : Prop :=
  Step env InsertsFresh db db' ∧ id ∈ db'.ids

/-- Over a run in which its row stays, a pointer stays or becomes null. -/
theorem run_retains {id : MemoryId} (hRun : ReflTransGen (StepWith env id) db db') (hWf : db.Wf)
    {r : MemoryRow} (hr : r ∈ db.memories) (hId : r.memoryId = id)
    (hArchived : r.archivedAt ≠ none) :
    db'.Wf ∧ ∃ s ∈ db'.memories, s.memoryId = id ∧ s.archivedAt ≠ none ∧
      (s.supersededBy = r.supersededBy ∨ s.supersededBy = none) := by
  induction hRun with
  | refl => exact ⟨hWf, r, hr, hId, hArchived, .inl rfl⟩
  | tail _ hLast ih =>
    obtain ⟨hMid, s, hs, hsId, hStill, hPtr⟩ := ih
    obtain ⟨⟨op, -, rfl⟩, hIn⟩ := hLast
    obtain ⟨t, ht, htId⟩ := Db.mem_ids.mp hIn
    obtain ⟨hStill', hPtr'⟩ := Op.retains hMid hs hStill ht (htId.trans hsId.symm)
    refine ⟨Op.run_wf hMid, t, ht, htId, hStill' hStill, ?_⟩
    rcases hPtr' with hSame | ⟨hNone, -⟩
    · rw [hSame]
      exact hPtr
    · exact .inr hNone

/-- **Key result:** in every store that operations with fresh notes lead to, the lineage is
acyclic, superseded rows are archived and pointers name rows that exist. An operation
keeps every pointer of a row that stays, or clears it with the row it named; and over a
whole run in which a superseded row stays, its pointer is never another one. -/
theorem lineage_sound {env : Env} {db : Db} (hReach : Reachable env InsertsFresh db) :
    Acyclic db.Points ∧
    (∀ r ∈ db.memories, r.supersededBy ≠ none → r.archivedAt ≠ none) ∧
    (∀ r ∈ db.memories, ∀ t, r.supersededBy = some t → ∃ s ∈ db.memories, s.memoryId = t) ∧
    (∀ r ∈ db.memories, ∀ t, r.supersededBy = some t →
      (∀ op, InsertsFresh op → ∀ s ∈ (op.run env db).memories, s.memoryId = r.memoryId →
        s.supersededBy = some t ∨
          (s.supersededBy = none ∧ t ∈ db.ids ∧ t ∉ (op.run env db).ids)) ∧
      ∀ db', ReflTransGen (StepWith env r.memoryId) db db' →
        ∀ s ∈ db'.memories, s.memoryId = r.memoryId →
          s.supersededBy = some t ∨ s.supersededBy = none) := by
  have hWf := hReach.wf
  have hSound : db.Sound := by
    refine (hReach.invariant (fun _ _ _ => ⟨fun x hPath => ?_, fun _ h => nomatch h⟩)
      fun _ _ => Op.run_sound).2
    obtain ⟨z, ⟨r, hr, -⟩, -⟩ := TransGen.head'_iff.mp hPath
    cases hr
  refine ⟨hSound.acyclic, hSound.archived, fun r hr t ht => ?_, fun r hr t ht => ?_⟩
  · exact Db.mem_ids.mp (hWf.pointers r hr t ht)
  · have hArchived : r.archivedAt ≠ none := hSound.archived r hr (by simp [ht])
    refine ⟨fun op _ s hs hId => ?_, fun db' hRun s hs hId => ?_⟩
    · rcases (Op.retains hWf hr hArchived hs hId).2 with hSame | ⟨hNone, t', ht', hGone⟩
      · exact .inl (hSame.trans ht)
      · obtain rfl := Option.some.inj (ht.symm.trans ht')
        exact .inr ⟨hNone, hWf.pointers r hr t ht, hGone⟩
    · obtain ⟨hWf', u, hu, huId, -, hPtr⟩ := run_retains hRun hWf hr rfl hArchived
      rw [db'.row_unique hWf'.ids hs hu (hId.trans huId.symm)]
      rw [ht] at hPtr
      exact hPtr

/-- Two memories, the second of which replaced the first. -/
def replacedStore : Db :=
  storeAfter .blank 2
    [.insertMemory 0 (.plain 1) none,
      .insertMemory 1 (.new ⟨2⟩ ⟨1, 0⟩ .global ['b'] .insight 5) none, .supersede 2 ⟨1⟩ ⟨2⟩]

theorem replacedStore_reachable : Reachable .blank InsertsFresh replacedStore := by
  refine storeAfter_reachable fun op hop n e hInserted => ?_
  simp only [mem_cons, not_mem_nil, or_false] at hop
  rcases hop with rfl | rfl | rfl
  · cases hInserted
    exact ⟨rfl, rfl⟩
  · cases hInserted
    exact ⟨rfl, rfl⟩
  · cases hInserted

/-- The result at a store with one edge. -/
theorem lineage_sound_replacedStore :
    (∃ r ∈ replacedStore.memories, r.memoryId = ⟨1⟩ ∧ r.supersededBy = some ⟨2⟩) ∧
      Acyclic replacedStore.Points :=
  ⟨by decide +kernel, (lineage_sound replacedStore_reachable).1⟩

end RustyBrain.Store
