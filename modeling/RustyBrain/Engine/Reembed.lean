import RustyBrain.Store.VectorIndex

/-!
# rusty-brain — re-embedding

`MemoryEngine::reembed` reads stale rows, embeds each of them outside the writer and
hands the vector to `update_vector` together with a fingerprint of the inputs it read.
Between the three moments anything may be written.

## Model

A pass is the loop of `reembed` with the note it holds; a world is a store with the
passes that are under way. Passes take their turns between store operations in any
order.

## Results

* `Turn.sound` — one turn keeps every current stamp truthful.
* `reembed_truthful` — so no interleaving leaves a wrong vector under a current stamp.
-/

namespace RustyBrain.Engine

open Store Transaction Relation List

variable {db db' : Db} {e : Embedding} {n : MemoryNote} {r : MemoryRow}

/-! ## Stale rows -/

/-- `memories_for_reembed`: the oldest active rows with another stamp. -/
def memoriesForReembed (db : Db) (model inputVersion : Text) (limit : Nat) :
    Result (List MemoryNote) :=
  (((db.memories.filter fun m => m.archivedAt = none ∧
      (m.embeddingModel ≠ model ∨ m.embeddingInputVersion ≠ inputVersion)).insertionSort
        MemoryRow.OldestFirst).take limit).mapM db.rowToNote

/-- A note that is handed out is a decoded row of the store. -/
theorem memoriesForReembed_decodes {model inputVersion : Text} {limit : Nat}
    {notes : List MemoryNote} (h : memoriesForReembed db model inputVersion limit = .ok notes)
    (hn : n ∈ notes) : ∃ r ∈ db.memories, Decodes r n := by
  obtain ⟨r, hr, hRow⟩ := (except_mapM_mem h).mp hn
  have hIn := mem_of_mem_take hr
  rw [mem_insertionSort] at hIn
  exact ⟨r, mem_of_mem_filter hIn, Db.rowToNote_decodes hRow⟩

/-! ## The pass -/

/-- The vector of a document: the last one the embedder returns. -/
def MemoryEngine.vectorOf (engine : MemoryEngine) (input : Text) : Option Embedding :=
  match engine.embed input with
  | .ok vectors => vectors.getLast?
  | .error _ => none

/-- One run of `reembed` under way: the candidates still to visit, the note that was
embedded and not yet written, and the counters. -/
structure Pass where
  candidates : List MemoryNote
  embedded : Option (MemoryNote × Embedding) := none
  scanned : Nat := 0
  changed : Nat := 0
  skipped : Nat := 0

/-- Embed the next candidate. Without a vector it is skipped. -/
def Pass.embed (engine : MemoryEngine) (p : Pass) : Pass :=
  match p.embedded, p.candidates with
  | none, n :: rest =>
    match engine.vectorOf (inputOf n) with
    | some e => { p with candidates := rest, embedded := some (n, e), scanned := p.scanned + 1 }
    | none => { p with candidates := rest, scanned := p.scanned + 1, skipped := p.skipped + 1 }
  | _, _ => p

/-- The write of an embedded note: its vector, the stamp of the engine, and the
fingerprint of the inputs that were read. -/
def MemoryEngine.vectorWrite (engine : MemoryEngine) (env : Env) (n : MemoryNote) (e : Embedding) : Op :=
  .updateVector n.id e engine.modelId embeddingInputVersion (env.fingerprint n)

/-- Write the note that was embedded. A failed write is skipped and left to a later run. -/
def Pass.write (engine : MemoryEngine) (env : Env) (db : Db) (p : Pass) : Db × Pass :=
  match p.embedded with
  | none => (db, p)
  | some (n, e) =>
    match commit ((engine.vectorWrite env n e).body env) db with
    | (.ok _, db') => (db', { p with embedded := none, changed := p.changed + 1 })
    | (.error _, db') => (db', { p with embedded := none, skipped := p.skipped + 1 })

/-! ## Interleavings -/

/-- A store with the passes under way. -/
structure World where
  db : Db
  passes : List Pass := []

/-- Two engines over one store embed alike: they share the embedder. -/
def MemoryEngine.SameEmbedder (a b : MemoryEngine) : Prop :=
  a.modelId = b.modelId ∧ a.embed = b.embed

/-- The operations that run beside the passes: anything but writes of vectors, and of
inserts those of notes composed with the same embedder. -/
def Beside (engine : MemoryEngine) (op : Op) : Prop :=
  (∀ id e model version expected, op ≠ .updateVector id e model version expected) ∧
  ∀ n e, op.inserted = some (n, e) → ∃ other id clock input,
    MemoryEngine.SameEmbedder other engine ∧ other.composeNote id clock input = .ok (n, e)

/-- The inputs of an embedding that a machine can hold, and whose bytes are in `H`. -/
def Hashable (H : Set (List UInt8)) (content : Text) (keywords tags : List Text) (context : Text) :
    Prop :=
  Addressable content keywords tags context ∧ fingerprintBytes content keywords tags context ∈ H

/-- The inputs of every row of the store are hashable. -/
def Hashes (H : Set (List UInt8)) (db : Db) : Prop :=
  ∀ r ∈ db.memories, ∀ keywords tags, JsonStrings.decode r.keywords = some keywords →
    JsonStrings.decode r.tags = some tags → Hashable H r.content keywords tags r.context

/-- One turn of somebody in the world: a store operation, the start of a pass, or a
pass that embeds or writes. Every text that is ever hashed is in `H`. -/
inductive Turn (engine : MemoryEngine) (env : Env) (H : Set (List UInt8)) : World → World → Prop
  | operate {db : Db} {passes : List Pass} (op : Op) (hOp : Beside engine op)
      (hHash : Hashes H (op.run env db)) :
      Turn engine env H ⟨db, passes⟩ ⟨op.run env db, passes⟩
  | start {db : Db} {passes : List Pass} (limit : Nat) (notes : List MemoryNote)
      (hRead : memoriesForReembed db engine.modelId embeddingInputVersion limit = .ok notes) :
      Turn engine env H ⟨db, passes⟩ ⟨db, ⟨notes, none, 0, 0, 0⟩ :: passes⟩
  | embed {db : Db} {before after : List Pass} (p : Pass) :
      Turn engine env H ⟨db, before ++ p :: after⟩ ⟨db, before ++ p.embed engine :: after⟩
  | write {db : Db} {before after : List Pass} (p : Pass)
      (hHash : Hashes H (p.write engine env db).1) :
      Turn engine env H ⟨db, before ++ p :: after⟩
        ⟨(p.write engine env db).1, before ++ (p.write engine env db).2 :: after⟩

/-! ## What one turn keeps -/

section

variable (engine : MemoryEngine)

/-- The row carries the stamp of the engine. -/
def MemoryEngine.Stamps (r : MemoryRow) : Prop :=
  r.embeddingModel = engine.modelId ∧ r.embeddingInputVersion = embeddingInputVersion

/-- The vector is that of the row's own content, keywords, tags and context. -/
def MemoryEngine.Embeds (r : MemoryRow) (e : Embedding) : Prop :=
  ∃ keywords tags, JsonStrings.decode r.keywords = some keywords ∧
    JsonStrings.decode r.tags = some tags ∧
    engine.vectorOf (embeddingInput r.content keywords tags r.context) = some e

/-- A vector under a current stamp is the one of its row. -/
def MemoryEngine.Truthful (db : Db) : Prop :=
  ∀ v ∈ db.vectors, ∀ r ∈ db.memories, r.memoryId = v.memoryId → r.archivedAt = none →
    engine.Stamps r → engine.Embeds r v.embedding

/-- Vectors come for active rows, and under the current stamp only the right ones. -/
def MemoryEngine.truthfulVectors : Permits :=
  ⟨fun _ => True, fun _ => True, fun r e => r.archivedAt = none ∧ (engine.Stamps r → engine.Embeds r e)⟩

variable {engine}

/-- A row whose inputs were kept: if it carries the stamp now, it did before, and its
vector is right if it was. -/
theorem MemoryEngine.Embeds.kept {s : MemoryRow} (hKept : r.InputKept s) (hStamp : engine.Stamps s)
    (h : engine.Stamps r → engine.Embeds r e) : engine.Embeds s e := by
  rcases hKept with ⟨⟨hContent, hContext, hKeywords, hTags⟩, hModel, hVersion⟩ | hBlank
  · obtain ⟨kw, tags, hKw, hTg, hVec⟩ := h ⟨hModel ▸ hStamp.1, hVersion ▸ hStamp.2⟩
    exact ⟨kw, tags, hKeywords ▸ hKw, hTags ▸ hTg, hContent ▸ hContext ▸ hVec⟩
  · exact nomatch hBlank.symm.trans hStamp.2

/-- A change that brings no vectors and keeps the inputs of the active rows. -/
theorem MemoryEngine.Truthful.of_kept (h : engine.Truthful db)
    (hVectors : ∀ v ∈ db'.vectors, ∃ w ∈ db.vectors, v.memoryId = w.memoryId ∧
      v.embedding = w.embedding)
    (hRows : ∀ s ∈ db'.memories, s.archivedAt = none → ∃ r ∈ db.memories,
      r.memoryId = s.memoryId ∧ r.archivedAt = none ∧ r.InputKept s) : engine.Truthful db' := by
  intro v hv s hs hId hLive hStamp
  obtain ⟨w, hw, hwId, hwVec⟩ := hVectors v hv
  obtain ⟨r, hr, hrId, hrLive, hKept⟩ := hRows s hs hLive
  rw [hwVec]
  refine .kept hKept hStamp (h w hw r hr ?_ hrLive)
  rw [hrId, hId, hwId]

theorem inputKept_refl (r : MemoryRow) : r.InputKept r := .inl ⟨⟨rfl, rfl, rfl, rfl⟩, rfl, rfl⟩

/-- Retiring rows: those that stay active are as they were. -/
theorem MemoryEngine.Truthful.retired (h : engine.Truthful db) {id : MemoryId}
    {p : MemoryRow → Prop} [DecidablePred p] {f : MemoryRow → MemoryRow}
    (hf : ∀ r, (f r).archivedAt ≠ none) : engine.Truthful ((db.setMemories p f).dropVector id) := by
  refine h.of_kept (fun v hv => ⟨v, mem_of_mem_filter hv, rfl, rfl⟩) fun s hs hLive => ?_
  obtain ⟨r, hr, ⟨-, rfl⟩ | ⟨-, rfl⟩⟩ := Db.mem_setMemories.mp hs
  · exact absurd hLive (hf r)
  · exact ⟨s, hr, rfl, hLive, inputKept_refl s⟩

/-- Re-embedding one row: its new vector is right, the other rows keep theirs. -/
theorem MemoryEngine.Truthful.restamped (h : engine.Truthful db) (hIds : db.ids.Nodup)
    {model version : Text} {vectors : List VectorRow} (hr : r ∈ db.memories)
    (hVec : engine.Stamps (r.stamped model version) →
      engine.Embeds (r.stamped model version) e)
    (hVectors : ∀ v ∈ vectors, (v.memoryId = r.memoryId ∧ v.embedding = e) ∨
      (v.memoryId ≠ r.memoryId ∧ v ∈ db.vectors)) :
    engine.Truthful ((db.restamped r model version).setVectors vectors) := by
  intro v hv s hs hId hLive hStamp
  obtain ⟨q, hq, ⟨⟨hqId, -⟩, rfl⟩ | ⟨hOther, rfl⟩⟩ := Db.mem_setMemories.mp hs
  · -- the row that was written: its vector is the new one
    obtain rfl := db.row_unique hIds hq hr hqId
    rcases hVectors v hv with ⟨-, rfl⟩ | ⟨hne, -⟩
    · exact hVec hStamp
    · exact absurd hId.symm hne
  · rcases hVectors v hv with ⟨hvId, -⟩ | ⟨-, hOld⟩
    · exact absurd ⟨hId.trans hvId, hLive⟩ hOther
    · exact h v hOld s hq hId hLive hStamp

theorem write_truthful (hWrite : Write engine.truthfulVectors db db') (hIds : db.ids.Nodup)
    (hIndexed : db.Indexed) (h : engine.Truthful db) : engine.Truthful db' := by
  have hSame : ∀ s ∈ db.memories, s.archivedAt = none → ∃ r ∈ db.memories,
      r.memoryId = s.memoryId ∧ r.archivedAt = none ∧ r.InputKept s :=
    fun s hs hLive => ⟨s, hs, rfl, hLive, inputKept_refl s⟩
  cases hWrite with
  | addMemory r _ _ hNew =>
    -- no vector can be waiting for an id that is new
    intro v hv s hs hId hLive hStamp
    rcases mem_concat.mp hs with hOld | rfl
    · exact h v hv s hOld hId hLive hStamp
    · obtain ⟨q, hq, hqId, -⟩ := hIndexed.live v hv
      exact absurd (Db.mem_ids.mpr ⟨q, hq, hqId.trans hId.symm⟩) hNew
  | edit p f _ hLife hInput =>
    refine h.of_kept (fun v hv => ⟨v, hv, rfl, rfl⟩) fun s hs hLive => ?_
    obtain ⟨r, hr, ⟨hp, rfl⟩ | ⟨-, rfl⟩⟩ := Db.mem_setMemories.mp hs
    · have hLive' : r.archivedAt = none := (hLife r hr hp).archivedAt ▸ hLive
      exact ⟨r, hr, (hLife r hr hp).memoryId.symm, hLive', hInput r hr hp hLive'⟩
    · exact hSame s hr hLive
  | archive id p now | supersede old new now => exact h.retired fun r hNone => nomatch hNone
  | addVector r e hr hNew hPermitted =>
    intro v hv s hs hId hLive hStamp
    rcases mem_concat.mp hv with hOld | rfl
    · exact h v hOld s hs hId hLive hStamp
    · rw [db.row_unique hIds hs hr hId] at hStamp ⊢
      exact hPermitted.2 hStamp
  | restamp r e model version vectors hr _ hPermitted hVectors =>
    refine h.restamped hIds hr hPermitted.2 fun v hv => ?_
    rcases hVectors with rfl | ⟨rfl, hNew⟩
    · obtain ⟨w, hw, rfl⟩ := mem_map.mp hv
      unfold VectorRow.withEmbedding
      split
      next hId => exact .inl ⟨hId, rfl⟩
      next hne => exact .inr ⟨hne, hw⟩
    · rcases mem_concat.mp hv with hOld | rfl
      · exact .inr ⟨hNew v hOld, hOld⟩
      · exact .inl ⟨rfl, rfl⟩
  | rename old new vectors _ hVectors =>
    refine h.of_kept (fun v hv => ?_) fun s hs hLive => ?_
    · obtain ⟨w, hw, rfl⟩ := hVectors v hv
      refine ⟨w, hw, ?_⟩
      unfold VectorRow.rekeyed
      split <;> exact ⟨rfl, rfl⟩
    · obtain ⟨r, hr, ⟨-, rfl⟩ | ⟨-, rfl⟩⟩ := Db.mem_setMemories.mp hs
      · exact ⟨r, hr, rfl, hLive, inputKept_refl r⟩
      · exact hSame s hr hLive
  | newSpace dim model => exact fun v hv => nomatch hv
  | keepVectors vectors _ hVectors =>
    refine h.of_kept (fun v hv => ?_) hSame
    obtain ⟨w, hw, m, -, -, -, rfl⟩ := hVectors v hv
    exact ⟨w, hw, rfl, rfl⟩
  | _ => exact h.of_kept (fun v hv => ⟨v, hv, rfl, rfl⟩) hSame

theorem effect_truthful (hEffect : Effect engine.truthfulVectors db db') (hIds : db.ids.Nodup)
    (hIndexed : db.Indexed) (h : engine.Truthful db) : engine.Truthful db' := by
  cases hEffect with
  | write hWrite => exact write_truthful hWrite hIds hIndexed h
  | purge id ns now details =>
    refine h.of_kept (fun v hv => ⟨v, mem_of_mem_filter hv, rfl, rfl⟩) fun s hs hLive => ?_
    obtain ⟨r, hr, -, rfl⟩ := Db.mem_purged.mp hs
    refine ⟨r, hr, (r.unpointed_memoryId id).symm, r.unpointed_archivedAt id ▸ hLive, ?_⟩
    unfold MemoryRow.unpointed
    split <;> exact inputKept_refl r

/-- What holds of the tables beside re-embedding passes. -/
structure MemoryEngine.Keeps (engine : MemoryEngine) (db : Db) : Prop where
  wf : db.Wf
  indexed : db.Indexed
  truthful : engine.Truthful db

theorem MemoryEngine.Keeps.run {env : Env} {op : Op} (h : engine.Keeps db)
    (hInserts : op.InsertsPermitted engine.truthfulVectors)
    (hStamp : op.StampPermitted engine.truthfulVectors env db) : engine.Keeps (op.run env db) := by
  have hRun := op.effects h.wf.ids hInserts hStamp fun _ => trivial
  refine invariant_of_steps (I := engine.Keeps) (fun d d' hEffect hd => ?_) hRun h
  have hVec : ∀ r e, engine.truthfulVectors.vec r e → True → r.archivedAt = none := fun _ _ hv _ => hv.1
  exact ⟨hEffect.wf hd.wf, hEffect.indexed hVec hd.wf hd.indexed,
    effect_truthful hEffect hd.wf.ids hd.indexed hd.truthful⟩

theorem vectorOf_of_embed {input : Text} {vectors : List Embedding}
    (hEmbed : engine.embed input = .ok vectors) (hLast : vectors.getLast? = some e) :
    engine.vectorOf input = some e := by
  rw [MemoryEngine.vectorOf, hEmbed]
  exact hLast

/-- What a composed note brings is right for it. -/
theorem Beside.insertsPermitted {op : Op} (h : Beside engine op) :
    op.InsertsPermitted engine.truthfulVectors := by
  intro n e hInserted
  obtain ⟨other, id, clock, input, ⟨-, hEmbed⟩, hComposed⟩ := h.2 n e hInserted
  refine ⟨trivial, fun v hv => ⟨?_, fun _ => ?_⟩⟩
  · show n.archivedAt.map DateTime.secs = none
    rw [(composeNote_fresh hComposed).1.1, Option.map_none]
  · obtain ⟨-, -, hVector⟩ := composeNote_stamped hComposed
    obtain ⟨vectors, hOk, hLast⟩ := hVector v hv
    exact ⟨n.keywords, n.tags, JsonStrings.decode_encode _, JsonStrings.decode_encode _,
      vectorOf_of_embed (hEmbed ▸ hOk) hLast⟩

end

/-! ## Passes -/

section

variable {engine : MemoryEngine} {env : Env} {H : Set (List UInt8)}

/-- The inputs of a note are hashable. -/
def HashableNote (H : Set (List UInt8)) (n : MemoryNote) : Prop :=
  Hashable H n.content n.keywords n.tags n.context

/-- What a pass holds was hashable when it was read, and its vector is that of the note
it was made for. -/
structure Pass.Sound (engine : MemoryEngine) (H : Set (List UInt8)) (p : Pass) : Prop where
  candidates : ∀ n ∈ p.candidates, HashableNote H n
  embedded : ∀ n e, p.embedded = some (n, e) →
    HashableNote H n ∧ engine.vectorOf (inputOf n) = some e

theorem hashableNote_of_decodes (hHash : Hashes H db) (hr : r ∈ db.memories)
    (hDecodes : Decodes r n) : HashableNote H n := by
  unfold HashableNote
  rw [hDecodes.content, hDecodes.context]
  exact hHash r hr _ _ hDecodes.keywords hDecodes.tags

theorem Pass.Sound.embed {p : Pass} (h : p.Sound engine H) : (p.embed engine).Sound engine H := by
  unfold Pass.embed
  split
  next n rest _ hCandidates =>
    have hHead : HashableNote H n := h.candidates n (hCandidates ▸ mem_cons_self)
    have hRest : ∀ m ∈ rest, HashableNote H m :=
      fun m hm => h.candidates m (hCandidates ▸ mem_cons_of_mem _ hm)
    split
    next e hVector =>
      refine ⟨hRest, fun m v hEq => ?_⟩
      cases hEq
      exact ⟨hHead, hVector⟩
    next => exact ⟨hRest, h.embedded⟩
  next => exact h

/-- **Key lemma:** with no collisions, a fingerprint that still matches means the row has
the inputs that were embedded. -/
theorem vectorWrite_stampPermitted (hInj : Set.InjOn env.sha256 H) (hHash : Hashes H db)
    (hNote : HashableNote H n) (hVector : engine.vectorOf (inputOf n) = some e) :
    (engine.vectorWrite env n e).StampPermitted engine.truthfulVectors env db := by
  intro r m hFind hDecodes hLive hPrint
  have hRow : HashableNote H m := hashableNote_of_decodes hHash (Db.find_some hFind).1 hDecodes
  have hBytes := hInj hRow.2 hNote.2 hPrint
  obtain ⟨hContent, hKeywords, hTags, hContext⟩ := fingerprintBytes_inj hRow.1 hNote.1 hBytes
  refine ⟨hLive, fun _ => ⟨m.keywords, m.tags, hDecodes.keywords, hDecodes.tags, ?_⟩⟩
  show engine.vectorOf (embeddingInput r.content m.keywords m.tags r.context) = some e
  rw [← hDecodes.content, ← hDecodes.context, hContent, hKeywords, hTags, hContext]
  exact hVector

/-- Writing what a pass embedded, whether it succeeds or not. -/
theorem Pass.write_keeps (hInj : Set.InjOn env.sha256 H) {p : Pass} (hPass : p.Sound engine H)
    (hHash : Hashes H db) (h : engine.Keeps db) :
    engine.Keeps (p.write engine env db).1 ∧ (p.write engine env db).2.Sound engine H := by
  have hDone : ∀ changed skipped : Nat,
      (⟨p.candidates, none, p.scanned, changed, skipped⟩ : Pass).Sound engine H :=
    fun _ _ => ⟨hPass.candidates, fun _ _ hEq => nomatch hEq⟩
  unfold Pass.write
  split
  next => exact ⟨h, hPass⟩
  next n e hEmbedded =>
    obtain ⟨hNote, hVector⟩ := hPass.embedded n e hEmbedded
    have hRun : engine.Keeps ((engine.vectorWrite env n e).run env db) :=
      h.run (fun _ _ hInserted => nomatch hInserted)
        (vectorWrite_stampPermitted hInj hHash hNote hVector)
    unfold Op.run at hRun
    split
    next hCommit =>
      rw [hCommit] at hRun
      exact ⟨hRun, hDone _ _⟩
    next hCommit =>
      rw [hCommit] at hRun
      exact ⟨hRun, hDone _ _⟩

/-- What holds of every world: the tables are in order and so is every pass. -/
structure World.Sound (engine : MemoryEngine) (H : Set (List UInt8)) (w : World) : Prop where
  keeps : engine.Keeps w.db
  hashes : Hashes H w.db
  passes : ∀ p ∈ w.passes, p.Sound engine H

/-- One pass among others takes a turn. -/
theorem forall_mem_replace {α : Type} {Q : α → Prop} {before after : List α} {p q : α}
    (h : ∀ x ∈ before ++ p :: after, Q x) (hq : Q q) : ∀ x ∈ before ++ q :: after, Q x := by
  simp only [mem_append, mem_cons] at h ⊢
  rintro x (hx | rfl | hx)
  · exact h x (.inl hx)
  · exact hq
  · exact h x (.inr (.inr hx))

/-- **Step lemma:** one turn keeps the world sound. -/
theorem Turn.sound (hInj : Set.InjOn env.sha256 H) {w w' : World} (hTurn : Turn engine env H w w')
    (h : w.Sound engine H) : w'.Sound engine H := by
  cases hTurn with
  | @operate db passes op hOp hHash =>
    refine ⟨h.keeps.run hOp.insertsPermitted ?_, hHash, h.passes⟩
    cases op with
    | updateVector id e model version expected => exact absurd rfl (hOp.1 id e model version expected)
    | _ => trivial
  | @start db passes limit notes hRead =>
    refine ⟨h.keeps, h.hashes, fun p hp => ?_⟩
    rcases mem_cons.mp hp with rfl | hOld
    · refine ⟨fun n hn => ?_, fun _ _ hEq => nomatch hEq⟩
      obtain ⟨r, hr, hDecodes⟩ := memoriesForReembed_decodes hRead hn
      exact hashableNote_of_decodes h.hashes hr hDecodes
    · exact h.passes p hOld
  | embed p =>
    have hPass : p.Sound engine H := h.passes p (mem_append_right _ mem_cons_self)
    exact ⟨h.keeps, h.hashes, forall_mem_replace h.passes hPass.embed⟩
  | write p hHash =>
    have hPass : p.Sound engine H := h.passes p (mem_append_right _ mem_cons_self)
    obtain ⟨hKeeps, hLeft⟩ := Pass.write_keeps hInj hPass h.hashes h.keeps
    exact ⟨hKeeps, hHash, forall_mem_replace h.passes hLeft⟩

/-- The worlds that any interleaving of turns leads to from an empty store. -/
def Interleaved (engine : MemoryEngine) (env : Env) (H : Set (List UInt8)) (w : World) : Prop :=
  ∃ siteId dim model, ReflTransGen (Turn engine env H) ⟨Db.init siteId dim model, []⟩ w

theorem Interleaved.sound (hInj : Set.InjOn env.sha256 H) {w : World}
    (h : Interleaved engine env H w) : w.Sound engine H := by
  obtain ⟨siteId, dim, model, hRun⟩ := h
  refine invariant_of_steps (I := World.Sound engine H) (fun _ _ => Turn.sound hInj) hRun ?_
  exact ⟨⟨Db.init_wf siteId dim model, ⟨nodup_nil, fun _ hv => nomatch hv⟩,
    fun _ hv => nomatch hv⟩, (fun _ hr => nomatch hr), fun _ hp => nomatch hp⟩

/-- **Key result:** whatever ran between the read, the embedding and the write of any pass,
a vector of an active row with the current stamp is the vector of the row's own input, and
it is the row's only one. -/
theorem reembed_truthful (hInj : Set.InjOn env.sha256 H) {w : World}
    (h : Interleaved engine env H w) {r : MemoryRow} (hr : r ∈ w.db.memories)
    (hLive : r.archivedAt = none) (hStamp : engine.Stamps r) {v : VectorRow}
    (hv : v ∈ w.db.vectors) (hId : r.memoryId = v.memoryId) :
    engine.Embeds r v.embedding ∧ ∀ v' ∈ w.db.vectors, r.memoryId = v'.memoryId → v' = v := by
  have hSound := (h.sound hInj).keeps
  refine ⟨hSound.truthful v hv r hr hId hLive hStamp, fun v' hv' hId' => ?_⟩
  exact inj_on_of_nodup_map hSound.indexed.nodup hv' hv (hId'.symm.trans hId)

end

/-! ## A lost race -/

/-- An engine whose vectors hold the length of the document. -/
def lengthEngine : MemoryEngine where
  ns := .global
  isAlphanumeric := Char.isAlphanum
  toLowercase := id
  enrich := none
  modelId := ['m']
  embed := fun input => .ok [[BitVec.ofNat 32 input.length]]

/-- The contents that the memory of the race has one after the other. -/
def raceContents : List Text := [['a'], ['b', 'b'], ['c', 'c', 'c']]

/-- The fingerprint bytes of the three contents. -/
def raceBytes : List (List UInt8) := raceContents.map fun c => fingerprintBytes c [] [] []

/-- SHA-256 on the bytes of the race. -/
def raceSha256 (bytes : List UInt8) : BitVec 256 :=
  if bytes = fingerprintBytes ['a'] [] [] [] then
    0xbdd2fabaaa311a7d468d43b25902df9a4f135ac1047a85379aac93a20bb4381b
  else if bytes = fingerprintBytes ['b', 'b'] [] [] [] then
    0x65e4a5d783624c85179b3b8448cf5f35f85342db25594abc28a2377177181794
  else
    0xf87c79c330dcb0b49ae3fe2d12128ec1807c2bf55f82cc9c0516447aef46a0b0

def raceEnv : Env := { Env.blank with sha256 := raceSha256 }

def raceInput : RememberInput where
  content := ['a']
  memoryType := .insight
  importance := 5

def raceInsert : Op :=
  .insertMemory 0 (lengthEngine.noteFor ⟨1⟩ ⟨0, 0⟩ raceInput) (some [1])

def raceUpdate (now : Int) (content : Text) : Op :=
  .updateMemory now ⟨1⟩ { content := some content }

/-- The pass that starts at a store. -/
def passAt (db : Db) : Pass where
  candidates :=
    match memoriesForReembed db lengthEngine.modelId embeddingInputVersion 10 with
    | .ok notes => notes
    | .error _ => []

/-- The store once the first pass has read the second content. -/
def storeRead : Db := storeAfter raceEnv 1 [raceInsert, raceUpdate 1 ['b', 'b']]

/-- The store once the content changed under that pass. -/
def storeMoved : Db := (raceUpdate 2 ['c', 'c', 'c']).run raceEnv storeRead

/-- The first pass writes too late; the second reads the new content and writes. -/
def lateWrite : Db × Pass := ((passAt storeRead).embed lengthEngine).write lengthEngine raceEnv storeMoved

def secondWrite : Db × Pass := ((passAt lateWrite.1).embed lengthEngine).write lengthEngine raceEnv lateWrite.1

theorem raceSha256_injOn : Set.InjOn raceEnv.sha256 { b | b ∈ raceBytes } := by
  have hAll : ∀ x ∈ raceBytes, ∀ y ∈ raceBytes, raceSha256 x = raceSha256 y → x = y := by
    decide +kernel
  exact fun x hx y hy => hAll x hx y hy

/-- A store whose rows hold the contents of the race and nothing else to embed. -/
theorem race_hashes (h : ∀ r ∈ db.memories, r.content ∈ raceContents ∧
    r.keywords = jsonArray [] ∧ r.tags = jsonArray [] ∧ r.context = []) :
    Hashes { b | b ∈ raceBytes } db := by
  intro r hr keywords tags hKeywords hTags
  obtain ⟨hContent, hKw, hTg, hContext⟩ := h r hr
  rw [hKw, jsonArray, JsonStrings.decode_encode, Option.some.injEq] at hKeywords
  rw [hTg, jsonArray, JsonStrings.decode_encode, Option.some.injEq] at hTags
  rw [← hKeywords, ← hTags, hContext]
  refine ⟨?_, mem_map.mpr ⟨r.content, hContent, rfl⟩⟩
  revert hContent
  generalize r.content = c
  simp only [raceContents, mem_cons, not_mem_nil, or_false]
  rintro (rfl | rfl | rfl) <;> simp [Addressable, Framing.Fits] <;> decide

theorem raceUpdate_beside (now : Int) (content : Text) : Beside lengthEngine (raceUpdate now content) :=
  ⟨(fun _ _ _ _ _ hEq => nomatch hEq), fun _ _ hInserted => nomatch hInserted⟩

theorem raceInsert_beside : Beside lengthEngine raceInsert := by
  refine ⟨(fun _ _ _ _ _ hEq => nomatch hEq), fun n e hInserted => ?_⟩
  cases hInserted
  exact ⟨lengthEngine, ⟨1⟩, ⟨0, 0⟩, raceInput, ⟨rfl, rfl⟩, by decide +kernel⟩

/-- A turn over the inputs of the race. -/
abbrev RaceTurn := Turn lengthEngine raceEnv { b | b ∈ raceBytes }

/-- The race is an interleaving: insert, update, read, update, late write, second pass. -/
theorem race_interleaved : Interleaved lengthEngine raceEnv { b | b ∈ raceBytes }
    ⟨secondWrite.1, [secondWrite.2, lateWrite.2]⟩ := by
  have hInsert : RaceTurn ⟨Db.init [] 1 none, []⟩
      ⟨storeAfter raceEnv 1 [raceInsert], []⟩ :=
    .operate raceInsert raceInsert_beside (race_hashes (by decide +kernel))
  have hUpdate : RaceTurn ⟨storeAfter raceEnv 1 [raceInsert], []⟩ ⟨storeRead, []⟩ :=
    .operate _ (raceUpdate_beside 1 ['b', 'b']) (race_hashes (by decide +kernel))
  have hRead : RaceTurn ⟨storeRead, []⟩ ⟨storeRead, [passAt storeRead]⟩ :=
    .start 10 _ (by decide +kernel)
  -- the content changes between the read of the pass and its write
  have hMove : RaceTurn ⟨storeRead, [passAt storeRead]⟩ ⟨storeMoved, [passAt storeRead]⟩ :=
    .operate _ (raceUpdate_beside 2 ['c', 'c', 'c']) (race_hashes (by decide +kernel))
  have hLate : RaceTurn
      ⟨storeMoved, [(passAt storeRead).embed lengthEngine]⟩ ⟨lateWrite.1, [lateWrite.2]⟩ :=
    @Turn.write _ _ _ _ [] [] _ (race_hashes (by decide +kernel))
  have hAgain : RaceTurn ⟨lateWrite.1, [lateWrite.2]⟩
      ⟨lateWrite.1, [passAt lateWrite.1, lateWrite.2]⟩ := .start 10 _ (by decide +kernel)
  have hSecond : RaceTurn
      ⟨lateWrite.1, [(passAt lateWrite.1).embed lengthEngine, lateWrite.2]⟩
      ⟨secondWrite.1, [secondWrite.2, lateWrite.2]⟩ :=
    @Turn.write _ _ _ _ [] _ _ (race_hashes (by decide +kernel))
  refine ⟨[], 1, none, ?_⟩
  exact ((((((((ReflTransGen.single hInsert).tail hUpdate).tail hRead).tail hMove).tail
    (@Turn.embed _ _ _ _ [] [] _)).tail hLate).tail hAgain).tail
      (@Turn.embed _ _ _ _ [] _ _)).tail hSecond

/-- The result at the end of the race: the late write was refused, the second one put the
vector of the third content under the current stamp. -/
theorem reembed_truthful_race :
    lateWrite.1.vectors.map VectorRow.embedding = [[1]] ∧ lateWrite.2.skipped = 1 ∧
    secondWrite.1.vectors.map VectorRow.embedding = [[3]] ∧ secondWrite.2.changed = 1 ∧
    ∃ r ∈ secondWrite.1.memories, ∃ v ∈ secondWrite.1.vectors,
      lengthEngine.Stamps r ∧ lengthEngine.Embeds r v.embedding := by
  refine ⟨by decide +kernel, by decide +kernel, by decide +kernel, by decide +kernel, ?_⟩
  have hFacts : ∃ r ∈ secondWrite.1.memories, ∃ v ∈ secondWrite.1.vectors, r.archivedAt = none ∧
      (r.embeddingModel = lengthEngine.modelId ∧
        r.embeddingInputVersion = embeddingInputVersion) ∧ r.memoryId = v.memoryId := by
    decide +kernel
  obtain ⟨r, hr, v, hv, hLive, hStamp, hId⟩ := hFacts
  exact ⟨r, hr, v, hv, hStamp,
    (reembed_truthful raceSha256_injOn race_interleaved hr hLive hStamp hv hId).1⟩

end RustyBrain.Engine
