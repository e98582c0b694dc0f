import RustyBrain.Store.Traversal

/-!
# rusty-brain — the embedding space of a store

The markers of `meta`, the dimension of the vector table and the vectors themselves are
separate pieces of state. Only `accept_embedding_space_change` writes the markers, and it
empties the vector table in the same transaction. Every other operation leaves them, moves
vectors around at most, and stores a new one only if it has the dimension of the table.
-/

namespace RustyBrain.Store

open Transaction

variable {op : Op}

/-- The space is the same, and every vector was there before or is a new one of the
dimension. -/
structure Spaced (new : Embedding → Prop) (db db' : Db) : Prop where
  space : db'.space = db.space
  vectors : ∀ v ∈ db'.vectors, (∃ w ∈ db.vectors, w.embedding = v.embedding) ∨
    (new v.embedding ∧ v.embedding.length = db.embeddingDim)

theorem Spaced.dim {new : Embedding → Prop} {db db' : Db} (h : Spaced new db db') :
    db'.embeddingDim = db.embeddingDim := congrArg Prod.fst h.space

instance (new : Embedding → Prop) : IsPreorder Db (Spaced new) where
  refl := fun _ => ⟨rfl, fun v hv => .inl ⟨v, hv, rfl⟩⟩
  trans := by
    intro a b c h₁ h₂
    refine ⟨h₂.space.trans h₁.space, fun v hv => ?_⟩
    rcases h₂.vectors v hv with ⟨w, hw, hSame⟩ | ⟨hNew, hLength⟩
    · rw [← hSame]
      exact h₁.vectors w hw
    · exact .inr ⟨hNew, hLength.trans h₁.dim⟩

section Statements

variable {new : Embedding → Prop} {db db' : Db}

/-- A change that brings no vector. -/
theorem spaced_of_mem (hSpace : db'.space = db.space) (hVectors : ∀ v ∈ db'.vectors, v ∈ db.vectors) :
    Spaced new db db' := ⟨hSpace, fun v hv => .inl ⟨v, hVectors v hv, rfl⟩⟩

/-- A change to other tables. -/
theorem spaced_of_same (hSpace : db'.space = db.space) (hVectors : db'.vectors = db.vectors) :
    Spaced new db db' := spaced_of_mem hSpace fun _ hv => hVectors ▸ hv

end Statements

/-- What the statements of an operation that stays in the space do to it. -/
theorem Op.frames_spaced (h : op.staysInSpace = true) :
    Frames (Spaced (· ∈ op.embedding)) op where
  addMemory := fun _ _ _ _ => spaced_of_same rfl rfl
  setMemories := fun _ _ _ _ _ => spaced_of_same rfl rfl
  setVectors := fun _ _ hVectors => ⟨rfl, hVectors⟩
  others := fun _ _ _ hVectors hSpace => spaced_of_same hSpace hVectors
  newSpace := fun _ _ _ hLeaves => nomatch h.symm.trans hLeaves
  purged := fun _ _ _ _ _ => spaced_of_mem rfl fun _ hv => List.mem_of_mem_filter hv

/-- **Key lemma:** an operation that stays in the space stores no vectors but those it was
given, and those only in the dimension of the table. -/
theorem Op.spaced (env : Env) (h : op.staysInSpace = true) :
    Within (Spaced (· ∈ op.embedding)) (op.body env) := (Op.frames_spaced h).within env

/-- What a committed operation that stays in the space leaves. -/
theorem Op.run_spaced (env : Env) (h : op.staysInSpace = true) (db : Db) :
    Spaced (· ∈ op.embedding) db (op.run env db) := commit_within (Op.spaced env h) db

end RustyBrain.Store
