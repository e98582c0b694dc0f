import RustyBrain.Store.Traversal

/-!
# rusty-brain — what the store's operations do to the texts of memories

The text columns of a memory, the marks that say where the texts came from, and the two
values an author sets with them. Almost every operation of the store leaves all of them as
they are: an insert brings the wording of its note, `update_memory` and `scrub` rewrite
texts, and recalibration rewrites the importance.
-/

namespace RustyBrain.Store

open Transaction List

variable {op : Op}

/-- Every wording of the later store is `new` or was there before. -/
def Worded (new : Wording → Prop) (db db' : Db) : Prop :=
  ∀ s ∈ db'.memories, new s.wording ∨ ∃ r ∈ db.memories, r.wording = s.wording

instance (new : Wording → Prop) : IsPreorder Db (Worded new) where
  refl := fun _ s hs => .inr ⟨s, hs, rfl⟩
  trans := by
    intro a b c h₁ h₂ t ht
    rcases h₂ t ht with hNew | ⟨s, hs, hSame⟩
    · exact .inl hNew
    · rw [← hSame]
      exact h₁ s hs

section Statements

variable {new : Wording → Prop} {db db' : Db}

/-- A change to other tables. -/
theorem worded_of_same (h : db'.memories = db.memories) : Worded new db db' := by
  intro s hs
  rw [h] at hs
  exact .inr ⟨s, hs, rfl⟩

theorem worded_addMemory {r : MemoryRow} (h : new r.wording) : Worded new db (db.addMemory r) := by
  intro s hs
  rcases mem_concat.mp hs with hOld | rfl
  · exact .inr ⟨s, hOld, rfl⟩
  · exact .inl h

/-- Rewriting rows in columns that are no wording. -/
theorem worded_setMemories {p : MemoryRow → Prop} [DecidablePred p] {f : MemoryRow → MemoryRow}
    (hf : ∀ r, (f r).wording = r.wording) : Worded new db (db.setMemories p f) := by
  intro s hs
  obtain ⟨r, hr, rfl⟩ := mem_map.mp hs
  refine .inr ⟨r, hr, ?_⟩
  split
  · exact (hf r).symm
  · rfl

end Statements

/-! ## Operations -/

/-- The wording of the note that an operation inserts. -/
def Op.Brings (op : Op) (w : Wording) : Prop :=
  ∃ n e, op.inserted = some (n, e) ∧ w = (noteRow n).wording

/-- What the statements of an operation that rewrites nothing do to wordings. -/
theorem Op.frames_worded (h : op.rewords = false) : Frames (Worded op.Brings) op where
  addMemory := fun _ n e hn => worded_addMemory ⟨n, e, hn, rfl⟩
  setMemories := fun _ _ _ _ hf => worded_setMemories (hf h)
  setVectors := fun _ _ _ => worded_of_same rfl
  others := fun _ _ hMemories _ _ => worded_of_same hMemories
  newSpace := fun _ _ _ _ => worded_of_same rfl
  purged := by
    -- a purge takes rows away, and pointers of the rows it leaves
    intro db id ns now details s hs
    obtain ⟨m, hm, rfl⟩ := mem_map.mp (mem_filter.mp hs).1
    refine .inr ⟨m, hm, ?_⟩
    unfold MemoryRow.unpointed
    split <;> rfl

/-- An operation that rewrites nothing brings at most the wording of the note it inserts. -/
theorem Op.worded (env : Env) (h : op.rewords = false) :
    Within (Worded op.Brings) (op.body env) := (Op.frames_worded h).within env

/-- What a committed operation that rewrites nothing leaves. -/
theorem Op.run_worded (env : Env) (h : op.rewords = false) (db : Db) :
    Worded op.Brings db (op.run env db) := commit_within (Op.worded env h) db

/-- What holds of every wording, and of the note that such an operation inserts, it keeps. -/
theorem Op.run_wordings {I : Wording → Prop} {env : Env} {db : Db} (h : op.rewords = false)
    (hNew : ∀ n e, op.inserted = some (n, e) → I (noteRow n).wording)
    (hOld : ∀ r ∈ db.memories, I r.wording) : ∀ r ∈ (op.run env db).memories, I r.wording := by
  intro s hs
  rcases Op.run_worded env h db s hs with ⟨n, e, hInserted, hSame⟩ | ⟨r, hr, hSame⟩
  · exact hSame ▸ hNew n e hInserted
  · exact hSame ▸ hOld r hr

/-- An update leaves each row, or rewrites it when it is a row of the updated memory. -/
theorem updateMemory_rows {now : Int} {id : MemoryId} {u : MemoryUpdates} {db db' : Db} {x : Unit}
    (h : Runs (updateMemory now id u) db x db') :
    ∀ s ∈ db'.memories, s ∈ db.memories ∨
      ∃ r ∈ db.memories, r.memoryId = id ∧ s = MemoryUpdates.applyTo u now r := by
  rcases updateMemory_runs h with ⟨-, rfl⟩ | rfl
  · exact fun s hs => .inl hs
  · intro s hs
    rw [Db.appended_memories] at hs
    obtain ⟨r, hr, rfl⟩ := mem_map.mp hs
    by_cases hId : r.memoryId = id
    · rw [if_pos hId]
      exact .inr ⟨r, hr, hId, rfl⟩
    · rw [if_neg hId]
      exact .inl hr

end RustyBrain.Store
