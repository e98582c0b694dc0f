import RustyBrain.Store.Admin
import RustyBrain.Store.Retention
import RustyBrain.Store.Review

/-!
# rusty-brain — what a store operation can do

Every write operation of the store is a sequence of a few kinds of change to the
tables. `Write` lists them, each with the facts that hold when the code makes it;
`Effect` adds the hard purge. The operations are shown to be runs of effects once,
in the next module, and every invariant of the store is then a case analysis over
the constructors here, not over the operations.

What differs between callers is a parameter: which rows an insert may bring, which
memories may be retired or rewritten, and which vectors may be stored for a row.
-/

namespace RustyBrain.Store

open List
open Relation (ReflTransGen)

/-! ## Permissions -/

/-- What the callers of a run of operations may do. -/
structure Permits where
  /-- the rows an insert may add -/
  row : MemoryRow → Prop
  /-- the memories whose rows may be archived, superseded, purged, or rewritten in the
  columns an author sets -/
  harm : MemoryId → Prop
  /-- the vectors that may be stored for a row -/
  vec : MemoryRow → Embedding → Prop

variable {q : MemoryRow → Prop} {P : Permits} {s : MemoryRow} {p : MemoryRow → Prop}
  {f : MemoryRow → MemoryRow} {r : MemoryRow} {db db' : Db}

/-! ## How one row may change -/

namespace MemoryRow

/-- Identity, namespace, archive state and pointer are unchanged. -/
structure SameLife (r s : MemoryRow) : Prop where
  memoryId : s.memoryId = r.memoryId
  ns : s.ns = r.ns
  archivedAt : s.archivedAt = r.archivedAt
  supersededBy : s.supersededBy = r.supersededBy

/-- The columns an author sets and maintenance must respect are unchanged. -/
structure SameAuthored (r s : MemoryRow) : Prop where
  humanCurated : s.humanCurated = r.humanCurated
  content : s.content = r.content
  importance : s.importance = r.importance
  baseImportance : s.baseImportance = r.baseImportance
  confidence : s.confidence = r.confidence

/-- The inputs of the embedding and the stamp are unchanged, or the stamp is blank. -/
def InputKept (r s : MemoryRow) : Prop :=
  (s.sameInput r ∧ s.embeddingModel = r.embeddingModel ∧
    s.embeddingInputVersion = r.embeddingInputVersion) ∨ s.embeddingInputVersion = []

/-- The row once archived. -/
@[simps]
def archived (now : Int) (r : MemoryRow) : MemoryRow :=
  { r with archivedAt := some now, updatedAt := now }

/-- The row once superseded by `new`. -/
@[simps]
def superseded (new : MemoryId) (now : Int) (r : MemoryRow) : MemoryRow :=
  { r with supersededBy := some new, archivedAt := some now, updatedAt := now }

/-- The row once its vector was written for a model and an input version. -/
@[simps]
def stamped (model version : Text) (r : MemoryRow) : MemoryRow :=
  { r with embeddingModel := model, embeddingInputVersion := version }

end MemoryRow

/-- The rows once the vector of an active one was written. -/
abbrev Db.restamped (db : Db) (r : MemoryRow) (model version : Text) : Db :=
  db.setMemories (fun m => m.memoryId = r.memoryId ∧ m.archivedAt = none)
    (MemoryRow.stamped model version)

/-- The rows of a namespace under another name. -/
abbrev Db.relabelled (db : Db) (old new : Text) : Db :=
  db.setMemories (fun m => m.ns = old) (fun m => { m with ns := new })

/-- No row of `id` is curated. -/
def Db.Uncurated (db : Db) (id : MemoryId) : Prop :=
  ∀ r ∈ db.memories, r.memoryId = id → r.humanCurated = false

/-- The row `supersede` takes: current at that moment. -/
def Takes (id : MemoryId) (r : MemoryRow) : Prop :=
  r.memoryId = id ∧ r.supersededBy = none ∧ r.archivedAt = none
  deriving Decidable

/-- A vector row once the memories of the namespace `old` were renamed. -/
def VectorRow.rekeyed (db : Db) (old new : Text) (v : VectorRow) : VectorRow :=
  if ∃ m ∈ db.memories, m.memoryId = v.memoryId ∧ m.ns = old then { v with ns := new } else v

/-! ## Changes to the tables -/

/-- One change to the tables that is not a purge. -/
inductive Write (P : Permits) (db : Db) : Db → Prop
  | addMemory (r : MemoryRow) (hRow : P.row r) (hCheck : r.Check) (hNew : r.memoryId ∉ db.ids)
      (hPtr : ∀ t ∈ r.supersededBy, t ∈ db.ids ∨ t = r.memoryId) :
      Write P db (db.addMemory r)
  | edit (p : MemoryRow → Prop) [DecidablePred p] (f : MemoryRow → MemoryRow)
      (hCheck : ∀ r ∈ db.memories, p r → r.Check → (f r).Check)
      (hLife : ∀ r ∈ db.memories, p r → r.SameLife (f r))
      (hInput : ∀ r ∈ db.memories, p r → r.archivedAt = none → r.InputKept (f r))
      (hHarm : ∀ r ∈ db.memories, p r → r.SameAuthored (f r) ∨ P.harm r.memoryId) :
      Write P db (db.setMemories p f)
  | archive (id : MemoryId) (p : MemoryRow → Prop) [DecidablePred p] (now : Int)
      (hp : ∀ r ∈ db.memories, p r → r.memoryId = id ∧ r.archivedAt = none)
      (hHarm : ∀ r ∈ db.memories, p r → P.harm r.memoryId) :
      Write P db ((db.setMemories p (MemoryRow.archived now)).dropVector id)
  | supersede (old new : MemoryId) (now : Int) (hne : old ≠ new)
      (hNew : ∃ r ∈ db.memories, r.memoryId = new ∧ r.Current) (hHarm : P.harm old) :
      Write P db ((db.setMemories (Takes old) (MemoryRow.superseded new now)).dropVector old)
  | setLinks (links : List LinkRow)
      (hEnds : ∀ l ∈ links, db.HasEnds l ∨
        ∃ k ∈ db.links, k.sourceId = l.sourceId ∧ k.targetId = l.targetId)
      (hCheck : ∀ l ∈ links, l.Check ∨ ∃ k ∈ db.links, k.Check → l.Check) :
      Write P db (db.setLinks links)
  | addVector (r : MemoryRow) (e : Embedding) (hr : r ∈ db.memories)
      (hNew : ∀ v ∈ db.vectors, v.memoryId ≠ r.memoryId) (hVec : P.vec r e) :
      Write P db (db.setVectors (db.vectors ++ [⟨r.memoryId, r.ns, e⟩]))
  | restamp (r : MemoryRow) (e : Embedding) (model version : Text) (vectors : List VectorRow)
      (hr : r ∈ db.memories) (hLive : r.archivedAt = none)
      (hVec : P.vec (r.stamped model version) e)
      (hVectors : vectors = db.vectors.map (VectorRow.withEmbedding r.memoryId e) ∨
        (vectors = db.vectors ++ [⟨r.memoryId, r.ns, e⟩] ∧
          ∀ v ∈ db.vectors, v.memoryId ≠ r.memoryId)) :
      Write P db ((db.restamped r model version).setVectors vectors)
  | addAnchor (a : AnchorRow) (hCheck : a.Check)
      (hOwner : ∃ r ∈ db.memories, r.memoryId = a.memoryId ∧ r.ns = a.ns)
      (hNorm : ∀ v ∈ a.path.or a.ref, normalizeAnchorValue a.kind v = v) :
      Write P db (db.addAnchor a)
  | setFeedback (feedback : List FeedbackRow) (last : Nat) :
      Write P db (db.setFeedback feedback last)
  | setReviewState (rows : List ReviewRow) : Write P db (db.setReviewState rows)
  | log (op : OplogOp) (memoryId : Option MemoryId) (ns : Text) (now : Int)
      (details : OplogDetails) : Write P db (db.logged op memoryId ns now details)
  | rename (old new : Text) (vectors : List VectorRow)
      (hNodup : (db.vectors.map VectorRow.memoryId).Nodup →
        (vectors.map VectorRow.memoryId).Nodup)
      (hVectors : ∀ v ∈ vectors, ∃ w ∈ db.vectors, v = w.rekeyed db old new) :
      Write P db (((db.relabelled old new).rekeyed
        old new).setVectors vectors)
  | newSpace (dim : Nat) (model : Text) :
      Write P db ((db.withSpace dim model).setMemories (fun _ => True)
        (fun m => { m with embeddingInputVersion := [] }))
  | keepVectors (vectors : List VectorRow) (hNodup : (vectors.map VectorRow.memoryId).Nodup)
      (hVectors : ∀ v ∈ vectors, ∃ w ∈ db.vectors, ∃ m ∈ db.memories,
        m.memoryId = w.memoryId ∧ m.archivedAt = none ∧ v = ⟨w.memoryId, m.ns, w.embedding⟩) :
      Write P db (db.setVectors vectors)

/-- The row once a pointer to `id` is cleared. -/
def MemoryRow.unpointed (id : MemoryId) (r : MemoryRow) : MemoryRow :=
  if r.supersededBy = some id then { r with supersededBy := none } else r

/-- The tables after the purge of a memory. -/
@[simps]
def Db.purged (db : Db) (id : MemoryId) (ns : Text) (now : Int) (details : OplogDetails) : Db :=
  { db with
    memories := (db.memories.map (MemoryRow.unpointed id)).filter fun r => r.memoryId ≠ id
    links := db.links.filter fun l => ¬ (l.sourceId = id ∨ l.targetId = id)
    vectors := db.vectors.filter fun v => v.memoryId ≠ id
    feedback := db.feedback.filter fun r => r.memoryId ≠ id
    oplog := (db.oplog.filter fun r => r.memoryId ≠ some id) ++
      [⟨db.lastSeq + 1, db.siteId, .purge, some id, ns, now, details⟩]
    lastSeq := db.lastSeq + 1 }

/-- One change to the tables: a write, or the purge of a memory that no anchor holds. -/
inductive Effect (P : Permits) (db : Db) : Db → Prop
  | write {db' : Db} (h : Write P db db') : Effect P db db'
  | purge (id : MemoryId) (ns : Text) (now : Int) (details : OplogDetails) (hHarm : P.harm id)
      (hAnchors : ∀ a ∈ db.anchors, a.memoryId ≠ id) :
      Effect P db (db.purged id ns now details)

/-- A run of writes. -/
abbrev Writes (P : Permits) : Db → Db → Prop := ReflTransGen (Write P)

/-- A run of effects. -/
abbrev Effects (P : Permits) : Db → Db → Prop := ReflTransGen (Effect P)

theorem Writes.effects (h : Writes P db db') : Effects P db db' :=
  ReflTransGen.mono (fun _ _ hw => Effect.write hw) db db' h

/-! ## The tables after a purge -/

@[simp]
theorem MemoryRow.unpointed_memoryId (id : MemoryId) (r : MemoryRow) :
    (r.unpointed id).memoryId = r.memoryId := by
  unfold unpointed
  split <;> rfl

@[simp]
theorem MemoryRow.unpointed_ns (id : MemoryId) (r : MemoryRow) : (r.unpointed id).ns = r.ns := by
  unfold unpointed
  split <;> rfl

@[simp]
theorem MemoryRow.unpointed_archivedAt (id : MemoryId) (r : MemoryRow) :
    (r.unpointed id).archivedAt = r.archivedAt := by
  unfold unpointed
  split <;> rfl

theorem MemoryRow.unpointed_check {id : MemoryId} (h : r.Check) : (r.unpointed id).Check := by
  unfold unpointed
  split <;> exact h

/-- A pointer that is left pointed elsewhere before. -/
theorem MemoryRow.unpointed_supersededBy {id t : MemoryId} :
    (r.unpointed id).supersededBy = some t ↔ r.supersededBy = some t ∧ t ≠ id := by
  unfold unpointed
  split
  next hPtr =>
    constructor
    · intro h
      cases h
    · rintro ⟨ht, hne⟩
      exact absurd (Option.some.inj (ht.symm.trans hPtr)) hne
  next hOther =>
    refine ⟨fun h => ⟨h, ?_⟩, And.left⟩
    rintro rfl
    exact hOther h

section Purged

variable {db : Db} {id : MemoryId} {ns : Text} {now : Int} {details : OplogDetails}

/-- A purge takes the row, and clears the pointers to it in the others. -/
theorem Db.mem_purged : r ∈ (db.purged id ns now details).memories ↔
    ∃ s ∈ db.memories, s.memoryId ≠ id ∧ r = s.unpointed id := by
  rw [Db.purged_memories, mem_filter, mem_map, decide_eq_true_eq]
  constructor
  · rintro ⟨⟨s, hs, rfl⟩, hne⟩
    exact ⟨s, hs, s.unpointed_memoryId id ▸ hne, rfl⟩
  · rintro ⟨s, hs, hne, rfl⟩
    exact ⟨⟨s, hs, rfl⟩, (s.unpointed_memoryId id).symm ▸ hne⟩

theorem Db.ids_purged : (db.purged id ns now details).ids = db.ids.filter fun t => t ≠ id := by
  unfold Db.ids
  rw [Db.purged_memories, filter_map, map_map, filter_map]
  congr 1
  · exact funext fun r => r.unpointed_memoryId id
  · refine filter_congr fun r _ => ?_
    simp

theorem Db.mem_ids_purged {t : MemoryId} :
    t ∈ (db.purged id ns now details).ids ↔ t ∈ db.ids ∧ t ≠ id := by
  rw [Db.ids_purged, mem_filter, decide_eq_true_eq]

end Purged

/-! ## Rows of a table with distinct ids -/

/-- An id names one row. -/
theorem Db.row_unique (hIds : db.ids.Nodup) (hr : r ∈ db.memories)
    (hs : s ∈ db.memories) (h : r.memoryId = s.memoryId) : r = s :=
  inj_on_of_nodup_map hIds hr hs h

theorem Db.find_of_mem (hIds : db.ids.Nodup) (hr : r ∈ db.memories) :
    db.find r.memoryId = some r := by
  cases hFind : db.find r.memoryId with
  | none => exact absurd (mem_map_of_mem hr) (Db.find_none hFind)
  | some s =>
    obtain ⟨hs, hId⟩ := Db.find_some hFind
    rw [db.row_unique hIds hs hr hId]

theorem Db.uncurated_of_mem (hIds : db.ids.Nodup) (hr : r ∈ db.memories)
    (hFlag : r.humanCurated = false) : db.Uncurated r.memoryId := by
  intro s hs hId
  rw [db.row_unique hIds hs hr hId]
  exact hFlag

/-! ## Rows after an update -/

/-- An update that leaves every row it selects as it was does nothing. -/
theorem Db.setMemories_of_fixed [DecidablePred p] (h : ∀ r ∈ db.memories, p r → f r = r) :
    db.setMemories p f = db := by
  have hMap : (db.memories.map fun r => if p r then f r else r) = db.memories := by
    refine (map_congr_left fun r hr => ?_).trans (map_id' _)
    by_cases hp : p r
    · rw [if_pos hp, h r hr hp]
    · rw [if_neg hp]
  unfold setMemories
  rw [hMap]

theorem Db.setMemories_of_none [DecidablePred p] (h : ∀ r ∈ db.memories, ¬ p r) :
    db.setMemories p f = db :=
  Db.setMemories_of_fixed fun r hr hp => absurd hp (h r hr)

theorem Db.setMemories_congr [DecidablePred p] [DecidablePred q]
    {g : MemoryRow → MemoryRow} (hpq : ∀ r ∈ db.memories, p r ↔ q r)
    (hfg : ∀ r ∈ db.memories, p r → f r = g r) : db.setMemories p f = db.setMemories q g := by
  have hMap : (db.memories.map fun r => if p r then f r else r) =
      db.memories.map fun r => if q r then g r else r := by
    refine map_congr_left fun r hr => ?_
    by_cases hp : p r
    · rw [if_pos hp, if_pos ((hpq r hr).mp hp), hfg r hr hp]
    · rw [if_neg hp, if_neg fun hq => hp ((hpq r hr).mpr hq)]
  unfold setMemories
  rw [hMap]

/-- Two updates that never touch the same row are one update. -/
theorem Db.setMemories_setMemories [DecidablePred p]
    [DecidablePred q] (h : ∀ r ∈ db.memories, p r → ¬ q (f r)) :
    (db.setMemories p f).setMemories q f = db.setMemories (fun r => p r ∨ q r) f := by
  have hMap : ((db.memories.map fun r => if p r then f r else r).map
      fun r => if q r then f r else r) = db.memories.map fun r => if p r ∨ q r then f r else r := by
    rw [map_map]
    refine map_congr_left fun r hr => ?_
    by_cases hp : p r
    · simp [hp, h r hr hp]
    · simp [hp]
  unfold setMemories
  rw [hMap]

/-- An update that keeps ids keeps the list of ids. -/
theorem Db.ids_setMemories (db : Db) [DecidablePred p]
    (hId : ∀ r ∈ db.memories, p r → (f r).memoryId = r.memoryId) :
    (db.setMemories p f).ids = db.ids := by
  unfold ids
  rw [setMemories_memories, map_map]
  refine map_congr_left fun r hr => ?_
  by_cases hp : p r
  · simp [hp, hId r hr hp]
  · simp [hp]

/-- One effect keeps the ids of `memories` distinct. -/
theorem Effect.ids_nodup (h : Effect P db db') (hIds : db.ids.Nodup) :
    db'.ids.Nodup := by
  cases h with
  | purge id ns now details =>
    rw [Db.ids_purged]
    exact hIds.filter _
  | write hWrite =>
    cases hWrite with
    | addMemory r _ _ hNew =>
      have hAdded : (db.addMemory r).ids = db.ids ++ [r.memoryId] := map_append
      rw [hAdded]
      exact hIds.append (nodup_singleton _) (disjoint_singleton.mpr hNew)
    | edit p f _ hLife =>
      rw [db.ids_setMemories fun r hr hp => (hLife r hr hp).memoryId]
      exact hIds
    | archive id p now =>
      have hSame := db.ids_setMemories (p := p) (f := MemoryRow.archived now) fun _ _ _ => rfl
      exact hSame.symm ▸ hIds
    | supersede old new now =>
      have hSame := db.ids_setMemories (p := Takes old) (f := MemoryRow.superseded new now)
        fun _ _ _ => rfl
      exact hSame.symm ▸ hIds
    | restamp r e model version vectors =>
      have hSame := db.ids_setMemories
        (p := fun m => m.memoryId = r.memoryId ∧ m.archivedAt = none)
        (f := MemoryRow.stamped model version) fun _ _ _ => rfl
      exact hSame.symm ▸ hIds
    | rename old new vectors =>
      have hSame := db.ids_setMemories (p := fun m => m.ns = old)
        (f := fun m => { m with ns := new }) fun _ _ _ => rfl
      exact hSame.symm ▸ hIds
    | newSpace dim model =>
      have hSame := (db.withSpace dim model).ids_setMemories (p := fun _ => True)
        (f := fun m => { m with embeddingInputVersion := [] }) fun _ _ _ => rfl
      exact hSame.symm ▸ hIds
    | _ => exact hIds

/-- No effect adds a row under an id in use. -/
theorem Effects.ids_nodup (h : Effects P db db') (hIds : db.ids.Nodup) :
    db'.ids.Nodup :=
  Transaction.invariant_of_steps (I := fun d => d.ids.Nodup) (fun _ _ => Effect.ids_nodup) h hIds

theorem Db.mem_setMemories [DecidablePred p] :
    s ∈ (db.setMemories p f).memories ↔
      ∃ r ∈ db.memories, (p r ∧ s = f r) ∨ (¬ p r ∧ s = r) := by
  simp only [setMemories_memories, mem_map]
  refine exists_congr fun r => and_congr_right fun _ => ?_
  by_cases hp : p r
  · simp [hp, eq_comm]
  · simp [hp, eq_comm]

theorem Db.forall_setMemories (db : Db) [DecidablePred p] {Q : MemoryRow → Prop}
    (hOld : ∀ r ∈ db.memories, Q r) (hNew : ∀ r ∈ db.memories, p r → Q r → Q (f r)) :
    ∀ r ∈ (db.setMemories p f).memories, Q r := by
  intro s hs
  obtain ⟨r, hr, ⟨hp, rfl⟩ | ⟨-, rfl⟩⟩ := Db.mem_setMemories.mp hs
  · exact hNew r hr hp (hOld r hr)
  · exact hOld s hr

theorem Db.mem_setMemories_of_mem [DecidablePred p] (hr : r ∈ db.memories) :
    (if p r then f r else r) ∈ (db.setMemories p f).memories :=
  mem_map_of_mem hr

/-- Rewriting rows without touching their ids rewrites the row that an id names. -/
theorem find_map_row (g : MemoryRow → MemoryRow) (id : MemoryId) {rows : List MemoryRow}
    (hId : ∀ r ∈ rows, (g r).memoryId = r.memoryId) :
    (rows.map g).find? (fun r => r.memoryId = id) =
      (rows.find? fun r => r.memoryId = id).map g := by
  induction rows with
  | nil => rfl
  | cons r rest ih =>
    have hHead : (g r).memoryId = r.memoryId := hId r mem_cons_self
    rw [map_cons, find?_cons, find?_cons, hHead]
    by_cases hr : r.memoryId = id
    · simp [hr]
    · simpa [hr] using ih fun s hs => hId s (mem_cons_of_mem _ hs)

/-- An update in place is found where the row was. -/
theorem Db.find_setMemories (db : Db) [DecidablePred p]
    (hId : ∀ r ∈ db.memories, p r → (f r).memoryId = r.memoryId) (id : MemoryId) :
    (db.setMemories p f).find id = (db.find id).map fun r => if p r then f r else r := by
  refine find_map_row _ id fun r hr => ?_
  by_cases hp : p r
  · rw [if_pos hp, hId r hr hp]
  · rw [if_neg hp]

end RustyBrain.Store
