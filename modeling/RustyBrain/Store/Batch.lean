import RustyBrain.Engine.Recall
import RustyBrain.Lib.Batch
import RustyBrain.Lib.Recursive

/-!
# rusty-brain — batched reads

`get_many` fetches the rows of the distinct ids it was asked for by one query per chunk, then the
links and the anchors of all the notes it found by further chunked queries, and hands the notes
out in the order of the request. The size of the chunks, `IN_LIST_CHUNK`, is a parameter.

No query for `memories` has an order; the order of the table stands for whatever SQLite chooses.
-/

namespace RustyBrain.Store

open Batch Transaction List

variable {notes : List MemoryNote}

/-- `ORDER BY source_id, target_id, link_type`. -/
def LinkRow.BatchLe (a b : LinkRow) : Prop :=
  a.sourceId.uuid < b.sourceId.uuid ∨ (a.sourceId.uuid = b.sourceId.uuid ∧ a.Le b)
  deriving Decidable

instance : Std.Total LinkRow.BatchLe := by
  constructor
  intro a b
  unfold LinkRow.BatchLe LinkRow.Le
  omega

instance : IsTrans LinkRow LinkRow.BatchLe := by
  constructor
  intro a b c hab hbc
  unfold LinkRow.BatchLe LinkRow.Le at *
  omega

/-- The query of `load_links_batch` for one chunk. -/
def Db.linkRowsIn (db : Db) (chunk : List MemoryId) : List LinkRow :=
  (db.links.filter fun l => l.sourceId ∈ chunk).insertionSort LinkRow.BatchLe

/-- The query of `load_anchors_batch` for one chunk. -/
def Db.anchorRowsIn (db : Db) (chunk : List MemoryId) : List AnchorRow :=
  db.anchors.filter fun a => a.memoryId ∈ chunk

/-- `load_links_batch`. An id without an entry has an empty list. -/
def Db.loadLinksBatch (size : Nat) (db : Db) (ids : List MemoryId) :
    Result (MemoryId → List MemoryLink) :=
  regroup LinkRow.sourceId decodeLink (fun _ => []) (batch size db.linkRowsIn ids)

/-- `load_anchors_batch`. -/
def Db.loadAnchorsBatch (size : Nat) (db : Db) (ids : List MemoryId) :
    Result (MemoryId → List MemoryAnchor) :=
  regroup AnchorRow.memoryId decodeAnchor (fun _ => []) (batch size db.anchorRowsIn ids)

/-- The loop of `attach_relations`, which takes the relations of an id out of the maps. -/
def attachLoop (links : MemoryId → List MemoryLink) (anchors : MemoryId → List MemoryAnchor) :
    List MemoryNote → List MemoryNote
  | [] => []
  | n :: rest =>
    { n with links := links n.id, anchors := anchors n.id } ::
      attachLoop (Function.update links n.id []) (Function.update anchors n.id []) rest

/-- `attach_relations`. -/
def Db.attachRelations (size : Nat) (db : Db) (notes : List MemoryNote) :
    Result (List MemoryNote) :=
  if notes.isEmpty then .ok []
  else do
    let links ← db.loadLinksBatch size (notes.map MemoryNote.id)
    let anchors ← db.loadAnchorsBatch size (notes.map MemoryNote.id)
    pure (attachLoop links anchors notes)

/-- The query of `get_many` for one chunk. -/
def Db.rowsIn (db : Db) (ns : Namespace) (chunk : List MemoryId) : List MemoryRow :=
  (db.rowsOf ns).filter fun m => m.memoryId ∈ chunk

/-- `get_many`. Of two notes with one id the map by id would keep the later. -/
def Db.getManyBatched (size : Nat) (db : Db) (ns : Namespace) (ids : List MemoryId) :
    Result (List MemoryNote) :=
  if ids.isEmpty then .ok []
  else do
    let found ← (batch size (db.rowsIn ns) ids.eraseDups).mapM rowToBareNote
    let notes ← db.attachRelations size found
    pure (ids.filterMap fun id => notes.reverse.find? fun n => n.id = id)

/-! ## Relations -/

section

variable {db : Db} {size : Nat} {ids : List MemoryId}

theorem filter_linkRowsIn (chunk : List MemoryId) (id : MemoryId) :
    (db.linkRowsIn chunk).filter (fun l => l.sourceId = id) =
      if id ∈ chunk then (db.links.filter fun l => l.sourceId = id).insertionSort LinkRow.Le
      else [] := by
  unfold Db.linkRowsIn
  rw [filter_insertionSort, filter_chunk]
  split
  · -- among links of one source the two orders are the same
    have hOrder := map_insertionSort LinkRow.BatchLe LinkRow.Le (fun l => l)
      (db.links.filter fun l => l.sourceId = id) fun a ha b hb => by
        have hSame : a.sourceId = b.sourceId := by
          rw [of_decide_eq_true (mem_filter.mp ha).2, of_decide_eq_true (mem_filter.mp hb).2]
        simp [LinkRow.BatchLe, hSame]
    simpa using hOrder
  · rfl

/-- What a batch for distinct ids has: for each id the rows of its own query, decoded. -/
theorem regroup_batch_ok_iff {ρ β : Type} {key : ρ → MemoryId} {decode : ρ → Result β}
    {query : List MemoryId → List ρ} {alone : MemoryId → List ρ} {out : MemoryId → List β}
    (hIds : ids.Nodup) (hQuery : ∀ chunk id, (query chunk).filter (fun r => key r = id) =
      if id ∈ chunk then alone id else []) :
    regroup key decode (fun _ => []) (batch size query ids) = .ok out ↔
      (∀ id ∈ ids, (alone id).mapM decode = .ok (out id)) ∧ ∀ id, id ∉ ids → out id = [] := by
  rw [regroup_ok_iff]
  simp only [filter_batch size hIds hQuery, nil_append]
  constructor
  · intro h
    refine ⟨fun id hId => ?_, fun id hId => ?_⟩
    · obtain ⟨values, hValues, hOut⟩ := h id
      rwa [if_pos hId, ← hOut] at hValues
    · obtain ⟨values, hValues, hOut⟩ := h id
      rw [if_neg hId] at hValues
      rw [hOut]
      exact (Except.ok.inj hValues).symm
  · rintro ⟨hEach, hElse⟩ id
    refine ⟨out id, ?_, rfl⟩
    by_cases hId : id ∈ ids
    · rw [if_pos hId]
      exact hEach id hId
    · rw [if_neg hId, hElse id hId]
      rfl

/-- A batch has the links of each id. -/
theorem loadLinksBatch_ok_iff (hIds : ids.Nodup) {out : MemoryId → List MemoryLink} :
    db.loadLinksBatch size ids = .ok out ↔
      (∀ id ∈ ids, db.loadLinks id = .ok (out id)) ∧ ∀ id, id ∉ ids → out id = [] :=
  regroup_batch_ok_iff hIds filter_linkRowsIn

/-- A batch has the anchors of each id. -/
theorem loadAnchorsBatch_ok_iff (hIds : ids.Nodup) {out : MemoryId → List MemoryAnchor} :
    db.loadAnchorsBatch size ids = .ok out ↔
      (∀ id ∈ ids, db.loadAnchors id = .ok (out id)) ∧ ∀ id, id ∉ ids → out id = [] :=
  regroup_batch_ok_iff hIds (filter_chunk db.anchors)

/-- Distinct notes each get the relations of their id. -/
theorem attachLoop_eq {links : MemoryId → List MemoryLink} {anchors : MemoryId → List MemoryAnchor}
    (hIds : (notes.map MemoryNote.id).Nodup) :
    attachLoop links anchors notes =
      notes.map fun n => { n with links := links n.id, anchors := anchors n.id } := by
  induction notes generalizing links anchors with
  | nil => rfl
  | cons n rest ih =>
    rw [map_cons, nodup_cons] at hIds
    rw [attachLoop, ih hIds.2, map_cons]
    congr 1
    refine map_congr_left fun m hm => ?_
    -- what was taken out belongs to no later note
    have hOther : m.id ≠ n.id := fun hSame => hIds.1 (hSame ▸ mem_map_of_mem hm)
    rw [Function.update_of_ne hOther, Function.update_of_ne hOther]

/-- The relations of one note. -/
def Db.attach (db : Db) (n : MemoryNote) : Result MemoryNote := do
  let links ← db.loadLinks n.id
  let anchors ← db.loadAnchors n.id
  pure { n with links := links, anchors := anchors }

/-- Attaching the relations of distinct notes in one go is attaching them to each. -/
theorem attachRelations_ok_iff {notes out : List MemoryNote}
    (hIds : (notes.map MemoryNote.id).Nodup) :
    db.attachRelations size notes = .ok out ↔ notes.mapM db.attach = .ok out := by
  have hSplit : db.attachRelations size notes = .ok out ↔ ∃ links anchors,
      db.loadLinksBatch size (notes.map MemoryNote.id) = .ok links ∧
      db.loadAnchorsBatch size (notes.map MemoryNote.id) = .ok anchors ∧
      out = notes.map fun n => { n with links := links n.id, anchors := anchors n.id } := by
    unfold Db.attachRelations
    cases notes with
    | nil => simp [Db.loadLinksBatch, Db.loadAnchorsBatch, batch, chunks, chunksFrom, regroup, eq_comm]
    | cons n rest =>
      rw [isEmpty_cons, if_neg Bool.false_ne_true]
      simp only [except_bind_ok, attachLoop_eq hIds]
      constructor
      · rintro ⟨links, hLinks, anchors, hAnchors, hOut⟩
        exact ⟨links, anchors, hLinks, hAnchors, (Except.ok.inj hOut).symm⟩
      · rintro ⟨links, anchors, hLinks, hAnchors, rfl⟩
        exact ⟨links, hLinks, anchors, hAnchors, rfl⟩
  rw [hSplit]
  simp only [loadLinksBatch_ok_iff hIds, loadAnchorsBatch_ok_iff hIds]
  constructor
  · rintro ⟨links, anchors, ⟨hLinks, -⟩, ⟨hAnchors, -⟩, rfl⟩
    rw [except_mapM_ok, forall₂_map_right_iff, forall₂_same]
    intro n hn
    have hId : n.id ∈ notes.map MemoryNote.id := mem_map_of_mem hn
    simp only [Db.attach, hLinks n.id hId, hAnchors n.id hId]
    rfl
  · intro hEach
    -- the maps of the batch are those of the single loads
    let links id := if id ∈ notes.map MemoryNote.id then (db.loadLinks id).toOption.getD [] else []
    let anchors id :=
      if id ∈ notes.map MemoryNote.id then (db.loadAnchors id).toOption.getD [] else []
    have hLoads : ∀ n ∈ notes, db.loadLinks n.id = .ok (links n.id) ∧
        db.loadAnchors n.id = .ok (anchors n.id) := by
      intro n hn
      have hId : n.id ∈ notes.map MemoryNote.id := mem_map_of_mem hn
      obtain ⟨m, hm⟩ := except_mapM_each hEach hn
      simp only [Db.attach, except_bind_ok] at hm
      obtain ⟨ls, hLinks, as, hAnchors, -⟩ := hm
      simp only [links, anchors, if_pos hId, hLinks, hAnchors]
      exact ⟨rfl, rfl⟩
    refine ⟨links, anchors, ⟨?_, fun id hId => if_neg hId⟩, ⟨?_, fun id hId => if_neg hId⟩, ?_⟩
    · intro id hId
      obtain ⟨n, hn, rfl⟩ := mem_map.mp hId
      exact (hLoads n hn).1
    · intro id hId
      obtain ⟨n, hn, rfl⟩ := mem_map.mp hId
      exact (hLoads n hn).2
    · refine Except.ok.inj (hEach.symm.trans (except_mapM_ok.mpr ?_))
      rw [forall₂_map_right_iff, forall₂_same]
      intro n hn
      simp only [Db.attach, hLoads n hn]
      rfl

end

/-! ## Notes -/

/-- What reading one id alone gives of a namespace. -/
def Db.readAlone (db : Db) (ns : Namespace) (id : MemoryId) : Option MemoryNote :=
  match db.getMemory id with
  | .ok (some n) => if n.ns.asDbString = ns.asDbString then some n else none
  | _ => none

/-- A row of the namespace, if the id has one, can be read. -/
def Db.Readable (db : Db) (ns : Namespace) (id : MemoryId) : Prop :=
  ∀ r, db.find id = some r → r.ns = ns.asDbString → ∃ n, db.getMemory id = .ok (some n)

section

variable {db : Db} {ns : Namespace} {ids : List MemoryId} {rows : List MemoryRow}

theorem Db.getMemory_row (hIds : db.ids.Nodup) {r : MemoryRow} (hr : r ∈ db.memories)
    {n : MemoryNote} : db.getMemory r.memoryId = .ok (some n) ↔ db.rowToNote r = .ok n := by
  unfold Db.getMemory
  rw [Db.find_of_mem hIds hr]
  cases hNote : db.rowToNote r <;> simp [hNote, Except.map]

/-- Notes that are read from the rows of the namespace are handed out as single reads hand them
out. -/
theorem emit_eq (hIds : db.ids.Nodup)
    (hRows : ∀ r, r ∈ rows ↔ r ∈ db.rowsOf ns ∧ r.memoryId ∈ ids)
    (hNotes : ∀ n, n ∈ notes ↔ ∃ r ∈ rows, db.rowToNote r = .ok n) :
    (ids.filterMap fun id => notes.find? fun n => n.id = id) = ids.filterMap (db.readAlone ns) := by
  refine filterMap_congr fun id hId => ?_
  cases hFind : notes.find? fun n => n.id = id with
  | some n =>
    obtain ⟨r, hr, hNote⟩ := (hNotes n).mp (mem_of_find?_eq_some hFind)
    obtain ⟨hMem, hNs⟩ := mem_filter.mp ((hRows r).mp hr).1
    have hDecodes := Db.rowToNote_decodes hNote
    have hSame : r.memoryId = id :=
      hDecodes.id.symm.trans (by simpa using find?_some hFind)
    subst hSame
    have hText : n.ns.asDbString = ns.asDbString :=
      (Namespace.asDbString_of_parse hDecodes.ns).symm.trans (of_decide_eq_true hNs)
    rw [Db.readAlone, (Db.getMemory_row hIds hMem).mpr hNote]
    exact (if_pos hText).symm
  | none =>
    unfold Db.readAlone
    split
    · rename_i n hRead
      split
      · rename_i hText
        -- a note of the namespace would have been among the rows
        rcases Db.getMemory_ok hRead with ⟨hNone, -⟩ | ⟨r, m, hSome, hRow, hNote, hDecodes⟩
        · cases hNone
        · cases hSome
          obtain ⟨hMem, hSame⟩ := Db.find_some hRow
          have hNs : r.ns = ns.asDbString := (Namespace.asDbString_of_parse hDecodes.ns).trans hText
          have hr : r ∈ rows := (hRows r).mpr
            ⟨mem_filter.mpr ⟨hMem, decide_eq_true hNs⟩, hSame ▸ hId⟩
          have hOut := find?_eq_none.mp hFind n ((hNotes n).mpr ⟨r, hr, hNote⟩)
          exact absurd (decide_eq_true (hDecodes.id.trans hSame)) hOut
      · rfl
    · rfl

/-- Decoding keeps the ids. -/
theorem mapM_rowToBareNote_ids {found : List MemoryNote} (h : rows.mapM rowToBareNote = .ok found) :
    found.map MemoryNote.id = rows.map MemoryRow.memoryId := by
  have hEach := except_mapM_ok.mp h
  clear h
  induction hEach with
  | nil => rfl
  | cons hHead _ ih => rw [map_cons, map_cons, ih, (rowToBareNote_decodes hHead).id]

/-- The rows of the namespace decode iff each of the ids can be read. -/
theorem rows_decode_iff (hIds : db.ids.Nodup)
    (hRows : ∀ r, r ∈ rows ↔ r ∈ db.rowsOf ns ∧ r.memoryId ∈ ids) :
    (∃ notes, rows.mapM db.rowToNote = .ok notes) ↔ ∀ id ∈ ids, db.Readable ns id := by
  constructor
  · rintro ⟨notes, hNotes⟩ id hId r hFind hNs
    obtain ⟨hMem, rfl⟩ := Db.find_some hFind
    obtain ⟨n, hn⟩ := except_mapM_each hNotes
      ((hRows r).mpr ⟨mem_filter.mpr ⟨hMem, decide_eq_true hNs⟩, hId⟩)
    exact ⟨n, (Db.getMemory_row hIds hMem).mpr hn⟩
  · intro hEach
    refine except_mapM_exists fun r hr => ?_
    obtain ⟨hOf, hId⟩ := (hRows r).mp hr
    obtain ⟨hMem, hNs⟩ := mem_filter.mp hOf
    obtain ⟨n, hn⟩ := hEach _ hId r (Db.find_of_mem hIds hMem) (of_decide_eq_true hNs)
    exact ⟨n, (Db.getMemory_row hIds hMem).mp hn⟩

/-- A fetch without batches is the single reads. -/
theorem getMany_ok_iff (hIds : db.ids.Nodup) {out : List MemoryNote} :
    db.getMany ns ids = .ok out ↔
      (∀ id ∈ ids, db.Readable ns id) ∧ out = ids.filterMap (db.readAlone ns) := by
  have hRows : ∀ r, r ∈ (db.memories.filter fun m => m.ns = ns.asDbString ∧ m.memoryId ∈ ids) ↔
      r ∈ db.rowsOf ns ∧ r.memoryId ∈ ids := by
    intro r
    simp [Db.rowsOf, and_assoc]
  rw [← rows_decode_iff hIds hRows]
  simp only [Db.getMany, except_bind_ok]
  constructor
  · rintro ⟨notes, hNotes, hOut⟩
    refine ⟨⟨notes, hNotes⟩, (Except.ok.inj hOut).symm.trans ?_⟩
    exact emit_eq hIds hRows fun n => except_mapM_mem hNotes
  · rintro ⟨⟨notes, hNotes⟩, rfl⟩
    exact ⟨notes, hNotes, congrArg Except.ok (emit_eq hIds hRows fun n => except_mapM_mem hNotes)⟩

/-- **Key lemma:** the batches of a fetch, whatever their size, are one fetch. -/
theorem getManyBatched_iff (size : Nat) (hIds : db.ids.Nodup) {out : List MemoryNote} :
    db.getManyBatched size ns ids = .ok out ↔ db.getMany ns ids = .ok out := by
  rw [getMany_ok_iff hIds]
  unfold Db.getManyBatched
  split
  · rename_i hEmpty
    obtain rfl := isEmpty_iff.mp hEmpty
    simp [eq_comm]
  · set rows := batch size (db.rowsIn ns) ids.eraseDups
    have hDistinct := Recursive.eraseDups_nodup ids
    have hOf : ((db.rowsOf ns).map MemoryRow.memoryId).Nodup :=
      hIds.sublist ((filter_sublist).map MemoryRow.memoryId)
    have hNodup := batch_nodup size hDistinct hOf
    have hRows : ∀ r, r ∈ rows ↔ r ∈ db.rowsOf ns ∧ r.memoryId ∈ ids := by
      intro r
      rw [← mem_eraseDups (l := ids)]
      exact mem_batch_iff
    -- the two passes of the code over the rows are one
    have hPasses : ∀ notes, (∃ found, rows.mapM rowToBareNote = .ok found ∧
        db.attachRelations size found = .ok notes) ↔ rows.mapM db.rowToNote = .ok notes := by
      intro notes
      refine Iff.trans (exists_congr fun found => and_congr_right fun hFound => ?_) mapM_mapM_ok_iff
      refine attachRelations_ok_iff ?_
      rw [mapM_rowToBareNote_ids hFound]
      exact hNodup
    -- what is emitted is the last of the notes of an id, and there is only one
    have hEmit : ∀ {notes : List MemoryNote}, rows.mapM db.rowToNote = .ok notes →
        (ids.filterMap fun id => notes.reverse.find? fun n => n.id = id) =
          ids.filterMap (db.readAlone ns) := by
      intro notes hNotes
      refine emit_eq hIds hRows fun n => ?_
      rw [mem_reverse]
      exact except_mapM_mem hNotes
    rw [← rows_decode_iff hIds hRows]
    simp only [except_bind_ok]
    constructor
    · rintro ⟨found, hFound, notes, hAttached, hOut⟩
      have hNotes := (hPasses notes).mp ⟨found, hFound, hAttached⟩
      exact ⟨⟨notes, hNotes⟩, (Except.ok.inj hOut).symm.trans (hEmit hNotes)⟩
    · rintro ⟨⟨notes, hNotes⟩, rfl⟩
      obtain ⟨found, hFound, hAttached⟩ := (hPasses notes).mpr hNotes
      exact ⟨found, hFound, notes, hAttached, congrArg Except.ok (hEmit hNotes)⟩

end

/-- Batched reads are single reads, whatever the size of the chunks: `get_many` returns iff each
of the ids that has a row in the namespace can be read alone, and then what it returns is the
single reads of the namespace in the order of the request, repetitions included. -/
theorem getManyBatched_eq_single (size : Nat) (db : Db) (hIds : db.ids.Nodup) (ns : Namespace)
    (ids : List MemoryId) (out : List MemoryNote) :
    db.getManyBatched size ns ids = .ok out ↔
      (∀ id ∈ ids, db.Readable ns id) ∧ out = ids.filterMap (db.readAlone ns) :=
  (getManyBatched_iff size hIds).trans (getMany_ok_iff hIds)

/-- Two memories of the global namespace, one linked to the other. -/
def linkedPair : Db :=
  storeAfter .blank 2
    [.insertMemory 0 (.plain 1) none,
      .insertMemory 0 (.new ⟨2⟩ ⟨0, 0⟩ .global ['b'] .insight 5) none,
      .addLink 0 ⟨⟨2⟩, ⟨1⟩, .references, 1, [], ⟨0, 0⟩⟩]

/-- Five requests for two memories in chunks of one. -/
theorem getManyBatched_eq_single_pair : ∃ out,
    linkedPair.getManyBatched 1 .global [⟨2⟩, ⟨9⟩, ⟨1⟩, ⟨2⟩, ⟨2⟩] = .ok out ∧
      out.map (fun n => (n.id, n.links.length)) = [(⟨2⟩, 1), (⟨1⟩, 0), (⟨2⟩, 1), (⟨2⟩, 1)] ∧
      out = [⟨2⟩, ⟨9⟩, ⟨1⟩, ⟨2⟩, ⟨2⟩].filterMap (linkedPair.readAlone .global) := by
  have hRun : (linkedPair.getManyBatched 1 .global [⟨2⟩, ⟨9⟩, ⟨1⟩, ⟨2⟩, ⟨2⟩]).toOption.map
      (fun out => out.map fun n => (n.id, n.links.length)) =
        some [(⟨2⟩, 1), (⟨1⟩, 0), (⟨2⟩, 1), (⟨2⟩, 1)] := by
    decide +kernel
  obtain ⟨out, hOut, hIds⟩ := except_toOption_map hRun
  have hSingle := (getManyBatched_eq_single 1 linkedPair (by decide +kernel) .global _ out).mp hOut
  exact ⟨out, hOut, hIds, hSingle.2⟩

end RustyBrain.Store
