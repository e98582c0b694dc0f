import RustyBrain.Store.System

/-!
# rusty-brain — curated memories and unattended operations

Maintenance, automatic merging and retention run without a person. Each checks the
curation of a row inside the transaction that would change it, so that whatever
happened since the operation was planned, a row that is curated when it runs is left
alone.

## Results

* `unattended_spares_curated` — every unattended operation, at any point of any run,
  leaves every curated row alone.
-/

namespace RustyBrain.Store

open Transaction Relation

/-! ## The frame of a run of effects -/

/-- The row is still there, active or archived as it was, with the columns its author
set; its pointer is the one it had, or null. -/
structure MemoryRow.Untouched (r s : MemoryRow) : Prop where
  memoryId : s.memoryId = r.memoryId
  authored : r.SameAuthored s
  archivedAt : s.archivedAt = r.archivedAt
  supersededBy : s.supersededBy = r.supersededBy ∨ s.supersededBy = none

theorem MemoryRow.Untouched.refl (r : MemoryRow) : r.Untouched r :=
  ⟨rfl, ⟨rfl, rfl, rfl, rfl, rfl⟩, rfl, .inl rfl⟩

theorem MemoryRow.Untouched.trans {r s t : MemoryRow} (h₁ : r.Untouched s) (h₂ : s.Untouched t) :
    r.Untouched t where
  memoryId := h₂.memoryId.trans h₁.memoryId
  authored :=
    { humanCurated := h₂.authored.humanCurated.trans h₁.authored.humanCurated
      content := h₂.authored.content.trans h₁.authored.content
      importance := h₂.authored.importance.trans h₁.authored.importance
      baseImportance := h₂.authored.baseImportance.trans h₁.authored.baseImportance
      confidence := h₂.authored.confidence.trans h₁.authored.confidence }
  archivedAt := h₂.archivedAt.trans h₁.archivedAt
  supersededBy := by
    rcases h₂.supersededBy with hSame | hNone
    · rw [hSame]
      exact h₁.supersededBy
    · exact .inr hNone

/-- The memories that `safe` selects are untouched between `db` and `db'`. -/
def Spared (safe : MemoryRow → Prop) (db db' : Db) : Prop :=
  ∀ r ∈ db.memories, safe r → ∃ s ∈ db'.memories, r.Untouched s

section Frame

variable {P : Permits} {db db' : Db}

/-- An update that leaves the rows alone that may not be harmed. -/
theorem spared_setMemories {p : MemoryRow → Prop} [DecidablePred p] {f : MemoryRow → MemoryRow}
    (hf : ∀ r ∈ db.memories, p r → ¬ P.harm r.memoryId → r.Untouched (f r)) :
    Spared (fun r => ¬ P.harm r.memoryId) db (db.setMemories p f) := by
  intro r hr hSafe
  refine ⟨_, Db.mem_setMemories_of_mem hr, ?_⟩
  by_cases hp : p r
  · rw [if_pos hp]
    exact hf r hr hp hSafe
  · rw [if_neg hp]
    exact .refl r

theorem Write.spared (hWrite : Write P db db') :
    Spared (fun r => ¬ P.harm r.memoryId) db db' := by
  cases hWrite with
  | addMemory r => exact fun s hs _ => ⟨s, List.mem_append_left _ hs, .refl s⟩
  | edit p f _ hLife _ hHarm =>
    refine spared_setMemories fun r hr hp hSafe => ?_
    have hSame := hLife r hr hp
    exact ⟨hSame.memoryId, (hHarm r hr hp).resolve_right hSafe, hSame.archivedAt,
      .inl hSame.supersededBy⟩
  | archive id p now _ hHarm =>
    exact spared_setMemories (f := MemoryRow.archived now) fun r hr hp hSafe =>
      absurd (hHarm r hr hp) hSafe
  | supersede old new now _ _ hHarm =>
    refine spared_setMemories (f := MemoryRow.superseded new now) fun r _ hTakes hSafe => ?_
    rw [hTakes.1] at hSafe
    exact absurd hHarm hSafe
  | restamp r e model version vectors =>
    exact spared_setMemories (p := fun m => m.memoryId = r.memoryId ∧ m.archivedAt = none)
      (f := MemoryRow.stamped model version) fun r _ _ _ =>
        ⟨rfl, ⟨rfl, rfl, rfl, rfl, rfl⟩, rfl, .inl rfl⟩
  | rename old new vectors =>
    exact spared_setMemories (p := fun m => m.ns = old) (f := fun m => { m with ns := new })
      fun r _ _ _ => ⟨rfl, ⟨rfl, rfl, rfl, rfl, rfl⟩, rfl, .inl rfl⟩
  | newSpace dim model =>
    exact spared_setMemories (p := fun _ => True)
      (f := fun m => { m with embeddingInputVersion := [] })
      fun r _ _ _ => ⟨rfl, ⟨rfl, rfl, rfl, rfl, rfl⟩, rfl, .inl rfl⟩
  | _ => exact fun s hs _ => ⟨s, hs, .refl s⟩

theorem MemoryRow.untouched_unpointed (id : MemoryId) (r : MemoryRow) :
    r.Untouched (r.unpointed id) := by
  unfold MemoryRow.unpointed
  split
  · exact ⟨rfl, ⟨rfl, rfl, rfl, rfl, rfl⟩, rfl, .inr rfl⟩
  · exact .refl r

/-- An effect leaves the memories alone that it has no permission for. -/
theorem Effect.spared (hEffect : Effect P db db') :
    Spared (fun r => ¬ P.harm r.memoryId) db db' := by
  cases hEffect with
  | write hWrite => exact hWrite.spared
  | purge id ns now details hHarm =>
    intro r hr hSafe
    refine ⟨r.unpointed id, Db.mem_purged.mpr ⟨r, hr, ?_, rfl⟩, r.untouched_unpointed id⟩
    rintro rfl
    exact hSafe hHarm

theorem Effects.spared (h : Effects P db db') :
    Spared (fun r => ¬ P.harm r.memoryId) db db' := by
  induction h with
  | refl => exact fun r hr _ => ⟨r, hr, .refl r⟩
  | tail _ hLast ih =>
    intro r hr hSafe
    obtain ⟨s, hs, hKept⟩ := ih r hr hSafe
    have hSafe' : ¬ P.harm s.memoryId := by
      rw [hKept.memoryId]
      exact hSafe
    obtain ⟨t, ht, hKept'⟩ := hLast.spared s hs hSafe'
    exact ⟨t, ht, hKept.trans hKept'⟩

end Frame

/-! ## Curated rows -/

/-- Every curated row of `db` is untouched in `db'`. -/
abbrev SparesCurated : Db → Db → Prop := Spared fun r => r.humanCurated = true

/-- What an unattended operation that begins in `db` may harm. -/
def uncuratedOf (db : Db) : Permits := ⟨fun _ => True, db.Uncurated, fun _ _ => True⟩

theorem Effects.sparesCurated {db db' : Db} (h : Effects (uncuratedOf db) db db') :
    SparesCurated db db' := by
  intro r hr hCurated
  refine h.spared r hr fun hPlain => ?_
  rw [hPlain r hr rfl] at hCurated
  cases hCurated

/-- Distinct ids stay distinct and curated rows untouched: the preorder a sweep stays
within. -/
def CarefulWith (db db' : Db) : Prop := db.ids.Nodup → db'.ids.Nodup ∧ SparesCurated db db'

instance : IsPreorder Db CarefulWith where
  refl := fun _ hIds => ⟨hIds, fun r hr _ => ⟨r, hr, .refl r⟩⟩
  trans := by
    intro a b c h₁ h₂ hIds
    obtain ⟨hIds₁, hSpares₁⟩ := h₁ hIds
    obtain ⟨hIds₂, hSpares₂⟩ := h₂ hIds₁
    refine ⟨hIds₂, fun r hr hCurated => ?_⟩
    obtain ⟨s, hs, hKept⟩ := hSpares₁ r hr hCurated
    obtain ⟨t, ht, hKept'⟩ := hSpares₂ s hs (hKept.authored.humanCurated.trans hCurated)
    exact ⟨t, ht, hKept.trans hKept'⟩

/-- Each turn of a sweep looks at the curation its candidate has then. -/
theorem sweepOne_careful (clock : Int) (ns : Namespace) (mode : ForgetMode)
    (c : ForgetCandidate) : Within CarefulWith (sweepOne clock ns mode c) := by
  intro db b db' h hIds
  have hRun : Effects (uncuratedOf db) db db' := sweepOne_effects hIds (fun _ hPlain => hPlain) h
  exact ⟨hRun.ids_nodup hIds, hRun.sparesCurated⟩

theorem Op.sparesCurated {env : Env} {op : Op} {db : Db} (hIds : db.ids.Nodup)
    (hUnattended : op.unattended = true) : SparesCurated db (op.run env db) := by
  unfold Op.run
  rcases commit_cases (op.body env) db with ⟨u, db', hRun, hEq⟩ | ⟨e, hEq⟩
  · rw [hEq]
    cases hSweep : op.isSweep with
    | false =>
      have hWrites : Writes (uncuratedOf db) db db' := by
        refine op.writes hIds hSweep (fun _ _ _ => ⟨trivial, fun _ _ => trivial⟩)
          (Op.stampPermitted fun _ _ => trivial) (fun id hAllowed => ?_) hRun
        rw [hUnattended] at hAllowed
        exact hAllowed.resolve_left (by simp)
      exact hWrites.effects.sparesCurated
    | true =>
      cases op with
      | retentionSweep clock ns p mode now =>
        obtain ⟨out, hRun⟩ := runs_discard.mp hRun
        refine (retentionSweep_within (sweepOne_careful clock ns mode) ?_ db out db' hRun hIds).2
        intro o n a d b u b' h hIds
        obtain rfl := runs_insertOplogRow.mp h
        exact ⟨hIds, fun r hr _ => ⟨r, hr, .refl r⟩⟩
      | _ => cases hSweep
  · rw [hEq]
    exact fun r hr _ => ⟨r, hr, .refl r⟩

/-- **Key result:** from any store whose ids are distinct, at any point of any run of
operations, an unattended operation neither deletes, archives nor supersedes a row that
is curated at that point, nor changes its content, importance, base importance or
confidence. -/
theorem unattended_spares_curated {env : Env} {db₀ db : Db} (hIds : db₀.ids.Nodup)
    (hRun : ReflTransGen (Step env fun _ => True) db₀ db) {op : Op}
    (hUnattended : op.unattended = true) {r : MemoryRow} (hr : r ∈ db.memories)
    (hCurated : r.humanCurated = true) :
    ∃ s ∈ (op.run env db).memories, s.memoryId = r.memoryId ∧ s.content = r.content ∧
      s.importance = r.importance ∧ s.baseImportance = r.baseImportance ∧
      s.confidence = r.confidence ∧ s.archivedAt = r.archivedAt ∧
      (s.supersededBy = r.supersededBy ∨ s.supersededBy = none) := by
  have hNow : db.ids.Nodup := by
    refine invariant_of_steps (I := fun d => d.ids.Nodup) (fun d d' hStep hd => ?_) hRun hIds
    obtain ⟨o, -, rfl⟩ := hStep
    exact (Op.effects_all hd).ids_nodup hd
  obtain ⟨s, hs, hKept⟩ := Op.sparesCurated hNow hUnattended r hr hCurated
  exact ⟨s, hs, hKept.memoryId, hKept.authored.content, hKept.authored.importance,
    hKept.authored.baseImportance, hKept.authored.confidence, hKept.archivedAt,
    hKept.supersededBy⟩

/-- A curated memory and an old, unimportant one beside it. -/
def curatedStore : Db :=
  storeAfter .blank 2
    [.insertMemory 0 { MemoryNote.new ⟨1⟩ ⟨0, 0⟩ .global ['a'] .insight 1 with humanCurated := true }
        none,
      .insertMemory 0 (.new ⟨2⟩ ⟨0, 0⟩ .global ['b'] .insight 1) none]

/-- The hard sweep that purges the other memory and not the curated one. -/
def hardSweep : Op :=
  .retentionSweep 0 .global { enabled := true, maxAgeDays := some 1 } .hard ⟨200000, 0⟩

/-- The result at a hard sweep that does purge something. -/
theorem unattended_spares_curated_hardSweep :
    (hardSweep.run .blank curatedStore).ids = [⟨1⟩] ∧
    ∃ s ∈ (hardSweep.run .blank curatedStore).memories, s.memoryId = ⟨1⟩ ∧ s.content = ['a'] := by
  refine ⟨by decide +kernel, ?_⟩
  have hIds : curatedStore.ids.Nodup := by decide +kernel
  have hRow : ∃ r ∈ curatedStore.memories, r.memoryId = ⟨1⟩ ∧ r.content = ['a'] ∧
      r.humanCurated = true := by decide +kernel
  obtain ⟨r, hr, hId, hContent, hCurated⟩ := hRow
  have hUnattended : hardSweep.unattended = true := rfl
  have hStart : ReflTransGen (Step .blank fun _ => True) curatedStore curatedStore := .refl
  obtain ⟨s, hs, hId', hContent', -⟩ :=
    unattended_spares_curated hIds hStart hUnattended hr hCurated
  exact ⟨s, hs, hId'.trans hId, hContent'.trans hContent⟩

end RustyBrain.Store
