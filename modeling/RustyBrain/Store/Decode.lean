import RustyBrain.Lib.JsonStrings
import RustyBrain.Store.Statement

/-!
# rusty-brain — decoding rows to notes

`row_to_bare_note` and the relations a note is handed out with. Decoding fails
closed: a stored text that is not a JSON array of strings, a namespace that does not
parse or a second out of `chrono`'s range is an error, never a default.
-/

namespace RustyBrain.Store

open Transaction List

variable {r : MemoryRow} {id : MemoryId} {db : Db} {n : MemoryNote}

/-! ## Columns -/

/-- `json_array`: the text of a list column. -/
def jsonArray (xs : List Text) : Text := JsonStrings.encode xs

/-- `parse_json_array`. -/
def parseJsonArray (s : Text) : Result (List Text) :=
  match JsonStrings.decode s with
  | some xs => .ok xs
  | none => .error (.serialization "expected a JSON array of strings")

/-- When a list column reads back. -/
theorem parseJsonArray_ok_iff {s : Text} {xs : List Text} :
    parseJsonArray s = .ok xs ↔ JsonStrings.decode s = some xs := by
  unfold parseJsonArray
  cases JsonStrings.decode s <;> simp

/-- `from_ts`. -/
def fromTs (secs : Int) : Result DateTime :=
  match DateTime.fromTs secs with
  | some t => .ok t
  | none => .error (.storage s!"timestamp {secs} out of range")

/-- `from_opt_ts`. -/
def fromOptTs : Option Int → Result (Option DateTime)
  | none => .ok none
  | some secs => (fromTs secs).map some

/-- `Namespace::parse_db_string`, with its error. -/
def parseNamespace (s : Text) : Result Namespace :=
  match Namespace.parseDbString s with
  | some ns => .ok ns
  | none => .error (.invalidNamespace s)

/-! ## Rows of `memories` -/

/-- `row_to_bare_note`: a row as a note without its links and anchors. -/
def rowToBareNote (r : MemoryRow) : Result MemoryNote := do
  let ns ← parseNamespace r.ns
  let createdAt ← fromTs r.createdAt
  let updatedAt ← fromTs r.updatedAt
  let keywords ← parseJsonArray r.keywords
  let tags ← parseJsonArray r.tags
  let relatedFiles ← parseJsonArray r.relatedFiles
  let lastAccessedAt ← fromOptTs r.lastAccessedAt
  let archivedAt ← fromOptTs r.archivedAt
  pure
    { id := r.memoryId
      ns := ns
      createdAt := createdAt
      updatedAt := updatedAt
      content := r.content
      summary := r.summary
      keywords := keywords
      tags := tags
      humanCurated := r.humanCurated
      context := r.context
      memoryType := r.memoryType
      importance := r.importance
      confidence := r.confidence
      relatedFiles := relatedFiles
      accessCount := r.accessCount
      lastAccessedAt := lastAccessedAt
      archivedAt := archivedAt
      supersededBy := r.supersededBy
      embeddingModel := r.embeddingModel
      embeddingInputVersion := r.embeddingInputVersion
      originUser := r.originUser
      originHost := r.originHost
      originAgent := r.originAgent
      originSource := r.originSource
      originChannel := r.originChannel
      legacyUnknown := r.legacyUnknown
      sessionId := r.sessionId
      trustClass := r.trustClass }

/-- What a decoded row and its note agree on. -/
structure Decodes (r : MemoryRow) (n : MemoryNote) : Prop where
  ns : Namespace.parseDbString r.ns = some n.ns
  createdAt : n.createdAt = ⟨r.createdAt, 0⟩
  keywords : JsonStrings.decode r.keywords = some n.keywords
  tags : JsonStrings.decode r.tags = some n.tags
  lastAccessedAt : n.lastAccessedAt = r.lastAccessedAt.map fun s => ⟨s, 0⟩
  archivedAt : n.archivedAt = r.archivedAt.map fun s => ⟨s, 0⟩
  id : n.id = r.memoryId
  content : n.content = r.content
  context : n.context = r.context
  memoryType : n.memoryType = r.memoryType
  importance : n.importance = r.importance
  confidence : n.confidence = r.confidence
  supersededBy : n.supersededBy = r.supersededBy
  humanCurated : n.humanCurated = r.humanCurated
  trustClass : n.trustClass = r.trustClass
  originUser : n.originUser = r.originUser
  originHost : n.originHost = r.originHost
  originAgent : n.originAgent = r.originAgent
  originSource : n.originSource = r.originSource
  originChannel : n.originChannel = r.originChannel
  legacyUnknown : n.legacyUnknown = r.legacyUnknown

theorem fromTs_ok {secs : Int} {t : DateTime} (h : fromTs secs = .ok t) : t = ⟨secs, 0⟩ := by
  unfold fromTs at h
  split at h
  · next t' hTs =>
    cases h
    exact DateTime.fromTs_eq_some hTs
  · cases h

theorem fromOptTs_ok {secs : Option Int} {t : Option DateTime} (h : fromOptTs secs = .ok t) :
    t = secs.map fun s => ⟨s, 0⟩ := by
  cases secs with
  | none =>
    cases h
    rfl
  | some s =>
    cases hTs : fromTs s with
    | error e => simp [fromOptTs, hTs, Except.map] at h
    | ok t' =>
      simp only [fromOptTs, hTs, Except.map, Except.ok.injEq] at h
      rw [← h, fromTs_ok hTs, Option.map_some]

/-- A row that decodes decodes to a note that agrees with it. -/
theorem rowToBareNote_decodes (h : rowToBareNote r = .ok n) :
    Decodes r n := by
  simp only [rowToBareNote, except_bind_ok] at h
  obtain ⟨ns, hNs, ca, hCa, ua, -, kw, hKw, tg, hTg, rf, -, la, hLa, aa, hAa, h⟩ := h
  cases h
  unfold parseNamespace at hNs
  split at hNs
  · next ns' hParse =>
    cases hNs
    exact
      { ns := hParse
        createdAt := fromTs_ok hCa
        keywords := parseJsonArray_ok_iff.mp hKw
        tags := parseJsonArray_ok_iff.mp hTg
        lastAccessedAt := fromOptTs_ok hLa
        archivedAt := fromOptTs_ok hAa
        id := rfl, content := rfl, context := rfl, memoryType := rfl, importance := rfl
        confidence := rfl, supersededBy := rfl, humanCurated := rfl, trustClass := rfl
        originUser := rfl, originHost := rfl, originAgent := rfl, originSource := rfl
        originChannel := rfl, legacyUnknown := rfl }
  · cases hNs

/-! ## Relations and lookups -/

/-- The order of the stored texts of link types. -/
def LinkRow.typeRank (l : LinkRow) : Nat :=
  match l.linkType with
  | .contradicts => 0
  | .extends => 1
  | .implements => 2
  | .references => 3
  | .supersedes => 4

/-- `ORDER BY target_id, link_type`, among links of one source. -/
def LinkRow.Le (a b : LinkRow) : Prop :=
  a.targetId.uuid < b.targetId.uuid ∨
    (a.targetId.uuid = b.targetId.uuid ∧ a.typeRank ≤ b.typeRank)
  deriving Decidable

/-- One row of `load_links_batch`. -/
def decodeLink (l : LinkRow) : Result MemoryLink := do
  let createdAt ← fromTs l.createdAt
  pure ⟨l.sourceId, l.targetId, l.linkType, l.strength, l.reason, createdAt⟩

/-- `load_links_batch` for one id. -/
def Db.loadLinks (db : Db) (id : MemoryId) : Result (List MemoryLink) :=
  ((db.links.filter fun l => l.sourceId = id).insertionSort LinkRow.Le).mapM decodeLink

/-- `decode_anchor`. -/
def decodeAnchor (a : AnchorRow) : Result MemoryAnchor :=
  match a.path.or a.ref with
  | some value => .ok ⟨a.kind, value, a.startLine, a.endLine⟩
  | none => .error (.storage "memory_anchors row carries neither path nor ref")

/-- `load_anchors_batch` for one id, in row-id order. -/
def Db.loadAnchors (db : Db) (id : MemoryId) : Result (List MemoryAnchor) :=
  (db.anchors.filter fun a => a.memoryId = id).mapM decodeAnchor

/-- `row_to_note`: a row as a note with its outgoing links and its anchors. -/
def Db.rowToNote (db : Db) (r : MemoryRow) : Result MemoryNote := do
  let note ← rowToBareNote r
  let links ← db.loadLinks note.id
  let anchors ← db.loadAnchors note.id
  pure { note with links := links, anchors := anchors }

/-- `get_memory`. -/
def Db.getMemory (db : Db) (id : MemoryId) : Result (Option MemoryNote) :=
  match db.find id with
  | some r => (db.rowToNote r).map some
  | none => .ok none

theorem Db.find_some (h : db.find id = some r) :
    r ∈ db.memories ∧ r.memoryId = id := by
  refine ⟨mem_of_find?_eq_some h, ?_⟩
  simpa using find?_some h

theorem Db.find_none (h : db.find id = none) : id ∉ db.ids := by
  simp only [Db.ids, mem_map, not_exists, not_and]
  intro r hr
  simpa using find?_eq_none.mp h r hr

theorem Db.rowToNote_decodes (h : db.rowToNote r = .ok n) : Decodes r n := by
  simp only [rowToNote, except_bind_ok] at h
  obtain ⟨bare, hBare, links, -, anchors, -, h⟩ := h
  cases h
  -- links and anchors are not columns of the row
  obtain ⟨h1, h2, h3, h4, h5, h6, h7, h8, h9, h10, h11, h12, h13, h14, h15, h16, h17, h18, h19,
    h20, h21⟩ := rowToBareNote_decodes hBare
  exact ⟨h1, h2, h3, h4, h5, h6, h7, h8, h9, h10, h11, h12, h13, h14, h15, h16, h17, h18, h19,
    h20, h21⟩

/-- What `get_memory` hands out is the decoded row of that id. -/
theorem Db.getMemory_ok {n : Option MemoryNote} (h : db.getMemory id = .ok n) :
    (n = none ∧ id ∉ db.ids) ∨
      ∃ r note, n = some note ∧ db.find id = some r ∧ db.rowToNote r = .ok note ∧
        Decodes r note := by
  unfold getMemory at h
  split at h
  · next r hFind =>
    cases hNote : db.rowToNote r with
    | error e => simp [hNote, Except.map] at h
    | ok note =>
      simp only [hNote, Except.map, Except.ok.injEq] at h
      exact .inr ⟨r, note, h.symm, hFind, hNote, rowToNote_decodes hNote⟩
  · next hFind =>
    cases h
    exact .inl ⟨rfl, find_none hFind⟩

end RustyBrain.Store
