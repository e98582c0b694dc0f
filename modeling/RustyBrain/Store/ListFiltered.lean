import RustyBrain.Store.Contested
import RustyBrain.Store.System
import RustyBrain.Types.Query

/-!
# rusty-brain — filtered listing

`list_filtered` resolves a recall filter in SQL, on stored columns: whole seconds, JSON
text, normalised anchors. `RecallFilter::matches` decides the same filter on a note in
memory. The two are written independently.

## Results

* `listTerms_iff_matches` — on a row that decodes, the SQL terms and `matches` agree.
* `listFiltered_matches` — so the listing is the first rows that match, for a filter that
  SQLite has room for; `listFiltered_crowdedFilter` is a valid one that fails.
-/

namespace RustyBrain.Store

open Transaction List

variable {b : MemoryAnchor} {a : AnchorRow}

/-! ## The predicate -/

/-- The lower bound of `since` in whole seconds. Stored times have none smaller, so a
fractional bound is rounded up. -/
def sinceBound (since : DateTime) : Int := since.secs + if since.subsecNanos > 0 then 1 else 0

/-- The archive state that a filter asks for. -/
def stateTerm : MemoryState → MemoryRow → Prop
  | .active, m => m.archivedAt = none
  | .archived, m => m.archivedAt ≠ none
  | .all, _ => True

instance : (s : MemoryState) → DecidablePred (stateTerm s)
  | .active, _ => inferInstanceAs (Decidable (_ = _))
  | .archived, _ => inferInstanceAs (Decidable (_ ≠ _))
  | .all, _ => inferInstanceAs (Decidable True)

/-- The terms of `build_filter_predicate` before the tags: those on plain columns. -/
def PlainTerms (ns : Namespace) (f : RecallFilter) (m : MemoryRow) : Prop :=
  m.ns = ns.asDbString ∧ stateTerm f.state m ∧
  (∀ lo ∈ f.minImportance, m.importance ≥ lo) ∧ (∀ hi ∈ f.maxImportance, m.importance ≤ hi) ∧
  (∀ lo ∈ f.minConfidence, m.confidence ≥ lo) ∧ (∀ hi ∈ f.maxConfidence, m.confidence ≤ hi) ∧
  (∀ since ∈ f.since, m.createdAt ≥ sinceBound since) ∧
  (∀ last ∈ f.«until», m.createdAt ≤ last.secs) ∧
  (f.types ≠ [] → m.memoryType ∈ f.types) ∧
  (f.sources ≠ [] → ∃ s ∈ m.originSource, s ∈ f.sources) ∧
  (f.trustClasses ≠ [] → m.trustClass ∈ f.trustClasses)
  deriving Decidable

/-- The tags of a row as `json_each` reads them. -/
def tagsOf (m : MemoryRow) : List Text := (JsonStrings.decode m.tags).getD []

/-- The semi-join of one anchor filter: an anchor row of the namespace with the value in
the column of its kind. -/
def Db.AnchorTerm (db : Db) (ns : Namespace) (f : AnchorFilter) (m : MemoryRow) : Prop :=
  ∃ a ∈ db.anchors, a.memoryId = m.memoryId ∧ a.ns = ns.asDbString ∧ a.kind = f.kind ∧
    (if f.kind = .file then a.path else a.ref) = some (normalizeAnchorValue f.kind f.value)
  deriving Decidable

/-- `build_filter_predicate`. -/
def Db.FilterTerms (db : Db) (ns : Namespace) (f : RecallFilter) (m : MemoryRow) : Prop :=
  PlainTerms ns f m ∧ (∀ t ∈ f.tags, t ∈ tagsOf m) ∧ (∀ a ∈ f.anchors, db.AnchorTerm ns a m) ∧
    ∀ want ∈ f.contested, (db.ListContested ns m ↔ want = true)
  deriving Decidable

/-- `RECALL_NOT_QUARANTINED_SQL` and the confidence floor. -/
def EligibleTerms (m : MemoryRow) : Prop :=
  m.legacyUnknown = false ∧ m.originChannel ≠ some .http ∧
  (m.originChannel ≠ none ∨ m.originSource ≠ some ['h', 't', 't', 'p']) ∧
  m.confidence ≥ recallMinEligibleConfidence
  deriving Decidable

/-! ## The listing -/

/-- Newer first, then by id. -/
def NewestFirst (a b : MemoryRow) : Prop :=
  b.createdAt < a.createdAt ∨ (a.createdAt = b.createdAt ∧ a.memoryId.uuid ≤ b.memoryId.uuid)
  deriving Decidable

/-- The order of the listing: newest first, and for recall the important ones before. -/
def ListOrder : Bool → MemoryRow → MemoryRow → Prop
  | true, a, b => b.importance < a.importance ∨ (a.importance = b.importance ∧ NewestFirst a b)
  | false, a, b => NewestFirst a b

instance : (recallEligible : Bool) → DecidableRel (ListOrder recallEligible)
  | true, _, _ => inferInstanceAs (Decidable (_ ∨ _ ∧ _))
  | false, _, _ => inferInstanceAs (Decidable (NewestFirst _ _))

/-- The rows that the query of `build_list_filtered_query` selects. -/
def Db.ListTerms (db : Db) (ns : Namespace) (f : RecallFilter) (m : MemoryRow) : Prop :=
  db.FilterTerms ns f m ∧ (f.recallEligible = true → EligibleTerms m)
  deriving Decidable

/-- The terms that the query joins with `AND`: one for each tag and anchor, four for recall. -/
def termCount (f : RecallFilter) : Nat :=
  1 + [f.state != .all, f.minImportance.isSome, f.maxImportance.isSome, f.minConfidence.isSome,
    f.maxConfidence.isSome, f.since.isSome, f.«until».isSome, !f.types.isEmpty, !f.sources.isEmpty,
    !f.trustClasses.isEmpty, f.contested.isSome].count true +
  f.tags.length + f.anchors.length + if f.recallEligible then 4 else 0

/-- The variables that the query binds: the namespace, the limit, the bounds, every listed value,
and three for an anchor. -/
def variableCount (f : RecallFilter) : Nat :=
  2 + [f.minImportance.isSome, f.maxImportance.isSome, f.minConfidence.isSome,
    f.maxConfidence.isSome, f.since.isSome, f.«until».isSome, f.contested.isSome,
    f.recallEligible].count true +
  f.types.length + f.sources.length + f.trustClasses.length + f.tags.length + 3 * f.anchors.length

/-- The filter is validated, and SQLite prepares its query. A chain of `AND` is as deep as it
has terms, and the depth is limited to 1000; the terms themselves take up to twenty of it. -/
def prepareFilter (f : RecallFilter) (maxTerms : Nat := 980) : Result Unit := do
  f.validate
  if termCount f ≤ maxTerms then
    if variableCount f ≤ 32766 then pure ()
    else .error (.storage "variable number must be between ?1 and ?32766")
  else .error (.storage "Expression tree is too large (maximum depth 1000)")

/-- `list_filtered`. The tag terms fail on a text that is not JSON; they are evaluated on
every row that passes the terms before them. -/
def Db.listFiltered (db : Db) (ns : Namespace) (f : RecallFilter) (limit : Nat)
    (maxTerms : Nat := 980) : Result (List MemoryNote) := do
  prepareFilter f maxTerms
  if ∀ m ∈ db.memories, f.tags ≠ [] → PlainTerms ns f m → (JsonStrings.decode m.tags).isSome then
    (((db.memories.filter (db.ListTerms ns f)).insertionSort (ListOrder f.recallEligible)).take
      limit).mapM db.rowToNote
  else .error (.storage "malformed JSON")

/-! ## What the listing is for -/

/-- The row's note matches the filter, and the memory is contested as asked. -/
def Db.Matches (db : Db) (ns : Namespace) (f : RecallFilter) (m : MemoryRow) : Prop :=
  m.ns = ns.asDbString ∧ (∃ n ∈ (db.rowToNote m).toOption, f.matches n = true) ∧
    ∀ want ∈ f.contested, (m.memoryId ∈ db.activeContradicts ns db.ids ↔ want = true)
  deriving Decidable

/-- The first rows that match, in the order of the listing. -/
def Db.firstMatching (db : Db) (ns : Namespace) (f : RecallFilter) (limit : Nat) :
    List MemoryRow :=
  ((db.memories.filter (db.Matches ns f)).insertionSort (ListOrder f.recallEligible)).take limit

/-! ## The two predicates agree -/

section

/-- Rounding a lower bound up is exact against whole seconds. -/
theorem since_le_iff (since : DateTime) (secs : Int) :
    since ≤ (⟨secs, 0⟩ : DateTime) ↔ secs ≥ sinceBound since := by
  show (since.secs < secs ∨ (since.secs = secs ∧ since.subsecNanos ≤ 0)) ↔ _
  unfold sinceBound
  split <;> omega

/-- Rounding an upper bound down is exact against whole seconds. -/
theorem le_until_iff (last : DateTime) (secs : Int) :
    (⟨secs, 0⟩ : DateTime) ≤ last ↔ secs ≤ last.secs := by
  show (secs < last.secs ∨ (secs = last.secs ∧ 0 ≤ last.subsecNanos)) ↔ _
  omega

variable {db : Db} {ns : Namespace} {f : RecallFilter} {m : MemoryRow} {n : MemoryNote}

theorem stateTerm_iff (hDecodes : Decodes m n) (s : MemoryState) :
    stateTerm s m ↔ s.admitsArchived n.archivedAt.isSome = true := by
  have hSome : n.archivedAt.isSome = m.archivedAt.isSome := by
    rw [hDecodes.archivedAt, Option.isSome_map]
  rw [hSome]
  cases s <;> cases hArchived : m.archivedAt <;>
    simp [stateTerm, MemoryState.admitsArchived, hArchived]

theorem eligibleTerms_iff (hDecodes : Decodes m n) :
    EligibleTerms m ↔ n.isQuarantined = false ∧ recallMinEligibleConfidence ≤ n.confidence := by
  unfold EligibleTerms MemoryNote.isQuarantined
  rw [← hDecodes.legacyUnknown, ← hDecodes.originChannel, ← hDecodes.originSource,
    ← hDecodes.confidence]
  cases n.originChannel with
  | none => simp [and_assoc]
  | some c => cases c <;> simp

/-- The value of a stored anchor stands in the column of its kind, normalised. -/
theorem decodeAnchor_value (hCheck : a.Check)
    (hNorm : ∀ v ∈ a.path.or a.ref, normalizeAnchorValue a.kind v = v)
    (h : decodeAnchor a = .ok b) :
    b.kind = a.kind ∧ (if a.kind = .file then a.path else a.ref) = some b.value ∧
      normalizeAnchorValue b.kind b.value = b.value := by
  obtain ⟨hColumns, -⟩ := hCheck
  unfold decodeAnchor at h
  rcases hColumns with ⟨hFile, hPath, hRef⟩ | ⟨hFile, hRef, hPath, -, -⟩
  · obtain ⟨v, hv⟩ := Option.isSome_iff_exists.mp hPath
    rw [hv, hRef] at h hNorm
    cases h
    rw [if_pos hFile]
    exact ⟨rfl, hv, hNorm v rfl⟩
  · obtain ⟨v, hv⟩ := Option.isSome_iff_exists.mp hRef
    rw [hv, hPath] at h hNorm
    cases h
    rw [if_neg hFile]
    exact ⟨rfl, hv, hNorm v rfl⟩

/-- The anchors of a note are the decoded rows of its memory. -/
theorem mem_anchors_iff (hNote : db.rowToNote m = .ok n) :
    b ∈ n.anchors ↔ ∃ a ∈ db.anchors, a.memoryId = m.memoryId ∧ decodeAnchor a = .ok b := by
  simp only [Db.rowToNote, except_bind_ok] at hNote
  obtain ⟨bare, hBare, links, -, anchors, hAnchors, hEq⟩ := hNote
  cases hEq
  rw [(rowToBareNote_decodes hBare).id] at hAnchors
  rw [except_mapM_mem hAnchors]
  simp only [mem_filter, decide_eq_true_eq, and_assoc]

/-- A stored anchor always decodes. -/
theorem decodeAnchor_ok (hCheck : a.Check) : ∃ b, decodeAnchor a = .ok b := by
  unfold decodeAnchor
  rcases hCheck.1 with ⟨-, hPath, -⟩ | ⟨-, hRef, hPath, -, -⟩
  · obtain ⟨v, hv⟩ := Option.isSome_iff_exists.mp hPath
    exact ⟨_, by rw [hv]; rfl⟩
  · obtain ⟨v, hv⟩ := Option.isSome_iff_exists.mp hRef
    exact ⟨_, by rw [hv, hPath]; rfl⟩

/-- The semi-join on stored anchors and the comparison of normalised values agree. -/
theorem anchorTerm_iff (hWf : db.Wf) (hm : m ∈ db.memories) (hNs : m.ns = ns.asDbString)
    (hNote : db.rowToNote m = .ok n) (g : AnchorFilter) :
    db.AnchorTerm ns g m ↔ ∃ b ∈ n.anchors, g.matchesAnchor b = true := by
  unfold Db.AnchorTerm AnchorFilter.matchesAnchor
  simp only [mem_anchors_iff hNote, decide_eq_true_eq]
  constructor
  · rintro ⟨a, ha, hId, -, hKind, hColumn⟩
    obtain ⟨hCheck, hNorm, -⟩ := hWf.anchors a ha
    obtain ⟨b, hb⟩ := decodeAnchor_ok hCheck
    obtain ⟨hKind', hColumn', hNorm'⟩ := decodeAnchor_value hCheck hNorm hb
    rw [hKind, hColumn] at hColumn'
    exact ⟨b, ⟨a, ha, hId, hb⟩, hKind.symm.trans hKind'.symm,
      (Option.some.inj hColumn').trans hNorm'.symm⟩
  · rintro ⟨b, ⟨a, ha, hId, hb⟩, hKind, hValue⟩
    obtain ⟨hCheck, hNorm, r, hr, hOwner, hOwnerNs⟩ := hWf.anchors a ha
    obtain ⟨hKind', hColumn', hNorm'⟩ := decodeAnchor_value hCheck hNorm hb
    -- the anchor carries the namespace of its memory
    have hRow : r = m := db.row_unique hWf.ids hr hm (hOwner.trans hId)
    refine ⟨a, ha, hId, hOwnerNs.symm.trans (hRow ▸ hNs), hKind'.symm.trans hKind.symm, ?_⟩
    rw [hValue, hNorm', hKind, hKind']
    exact hColumn'

/-- **Key lemma:** on a row that decodes, the terms of the query hold exactly when the note
matches and the memory is contested as asked. -/
theorem listTerms_iff_matches (hWf : db.Wf) (hm : m ∈ db.memories) (hNs : m.ns = ns.asDbString)
    (hNote : db.rowToNote m = .ok n) :
    db.ListTerms ns f m ↔ f.matches n = true ∧
      ∀ want ∈ f.contested, (m.memoryId ∈ db.activeContradicts ns db.ids ↔ want = true) := by
  have hDecodes := Db.rowToNote_decodes hNote
  have hTags : tagsOf m = n.tags := by rw [tagsOf, hDecodes.tags, Option.getD_some]
  have hContested : db.ListContested ns m ↔ m.memoryId ∈ db.activeContradicts ns db.ids := by
    have hIn : m.memoryId ∈ db.ids := mem_map_of_mem hm
    rw [Db.listContested_iff hm hNs, Db.mem_activeContradicts, and_iff_left hIn]
    refine and_iff_right_of_imp ?_
    rintro ⟨_, ⟨r, hr, hId, hLive, -⟩, -⟩
    exact db.row_unique hWf.ids hr hm hId ▸ hLive
  -- the plain terms are dimensions of the filter
  unfold Db.ListTerms Db.FilterTerms PlainTerms
  rw [stateTerm_iff hDecodes, eligibleTerms_iff hDecodes, RecallFilter.matches_iff, hTags,
    hDecodes.importance, hDecodes.confidence, hDecodes.createdAt, hDecodes.memoryType,
    hDecodes.originSource, hDecodes.trustClass]
  simp only [since_le_iff, le_until_iff, hNs, true_and, ge_iff_le, anchorTerm_iff hWf hm hNs hNote,
    hContested]
  tauto

end

/-- The tags of a row that decodes are JSON. -/
theorem decode_isSome {db : Db} {m : MemoryRow} {n : MemoryNote} (h : db.rowToNote m = .ok n) :
    (JsonStrings.decode m.tags).isSome := by
  rw [(Db.rowToNote_decodes h).tags]
  rfl

/-- A valid filter that SQLite has room for is prepared. -/
theorem prepareFilter_ok {f : RecallFilter} {maxTerms : Nat} (hValid : f.validate = .ok ())
    (hTerms : termCount f ≤ maxTerms) (hVariables : variableCount f ≤ 32766) :
    prepareFilter f maxTerms = .ok () := by
  unfold prepareFilter
  rw [hValid, if_pos hTerms, if_pos hVariables]
  rfl

/-- **Key result:** for a filter that passes validation and that SQLite has room for, in a
reachable store whose rows of the namespace decode, the listing succeeds and is the notes of
the first rows that match, in the order of the listing. -/
theorem listFiltered_matches {env : Env} {db : Db} (hReach : Reachable env (fun _ => True) db)
    {ns : Namespace} {f : RecallFilter} {limit maxTerms : Nat} (hValid : f.validate = .ok ())
    (hTerms : termCount f ≤ maxTerms) (hVariables : variableCount f ≤ 32766)
    (hRows : ∀ m ∈ db.memories, m.ns = ns.asDbString → ∃ n, db.rowToNote m = .ok n) :
    ∃ notes, db.listFiltered ns f limit maxTerms = .ok notes ∧
      List.Forall₂ (fun m n => db.rowToNote m = .ok n) (db.firstMatching ns f limit) notes := by
  have hSame : db.memories.filter (db.ListTerms ns f) = db.memories.filter (db.Matches ns f) := by
    refine filter_congr fun m hm => decide_eq_decide.mpr ?_
    by_cases hNs : m.ns = ns.asDbString
    · obtain ⟨n, hNote⟩ := hRows m hm hNs
      rw [listTerms_iff_matches hReach.wf hm hNs hNote, Db.Matches, hNote]
      simp [hNs, Except.toOption]
    · exact iff_of_false (fun h => hNs h.1.1.1) fun h => hNs h.1
  have hReadable : ∀ m ∈ db.memories, f.tags ≠ [] → PlainTerms ns f m →
      (JsonStrings.decode m.tags).isSome := by
    intro m hm _ hPlain
    obtain ⟨n, hNote⟩ := hRows m hm hPlain.1
    exact decode_isSome hNote
  -- every row that is listed decodes
  have hListed : ∀ m ∈ db.firstMatching ns f limit, ∃ n, db.rowToNote m = .ok n := by
    intro m hm
    have hIn := mem_of_mem_take hm
    rw [mem_insertionSort, mem_filter, decide_eq_true_eq] at hIn
    exact hRows m hIn.1 hIn.2.1
  obtain ⟨notes, hNotes⟩ := except_mapM_exists hListed
  refine ⟨notes, ?_, except_mapM_ok.mp hNotes⟩
  simp only [Db.listFiltered, prepareFilter_ok hValid hTerms hVariables, hSame]
  rw [except_bind_ok]
  exact ⟨(), rfl, (if_pos hReadable).trans hNotes⟩

/-- A tagged memory anchored to a file, created at a second. -/
def listedNote (id : Nat) (secs : Int) : MemoryNote :=
  { MemoryNote.new ⟨id⟩ ⟨secs, 0⟩ .global ['a'] .insight 5 with
    tags := [['t'], ['u']]
    anchors := [⟨.file, ['f'], none, none⟩] }

/-- Two such memories, a second apart. -/
def listedStore : Db :=
  storeAfter .blank 2
    [.insertMemory 10 (listedNote 1 10) none, .insertMemory 11 (listedNote 2 11) none]

/-- The uncontested ones with the tag and the file, since half a second after the first. -/
def listedFilter : RecallFilter where
  tags := [['t']]
  since := some ⟨10, 500000000⟩
  contested := some false
  anchors := [⟨.file, ['.', '/', 'f']⟩]

/-- The result at a filter that lists one of the two. -/
theorem listFiltered_matches_listedStore :
    listedFilter.validate = .ok () ∧
    (listedStore.firstMatching .global listedFilter 5).map MemoryRow.memoryId = [⟨2⟩] ∧
    ∃ notes, listedStore.listFiltered .global listedFilter 5 = .ok notes ∧
      List.Forall₂ (fun m n => listedStore.rowToNote m = .ok n)
        (listedStore.firstMatching .global listedFilter 5) notes := by
  have hValid : listedFilter.validate = .ok () := by decide +kernel
  have hReach : Reachable .blank (fun _ => True) listedStore :=
    storeAfter_reachable fun _ _ => trivial
  have hRead : ∀ m ∈ listedStore.memories, (listedStore.rowToNote m).isOk = true := by
    decide +kernel
  exact ⟨hValid, by decide +kernel,
    listFiltered_matches hReach hValid (by decide) (by decide) fun m hm _ =>
      except_isOk (hRead m hm)⟩

/-- A thousand tags. -/
def crowdedFilter : RecallFilter where
  tags := replicate 1000 ['t']

/-- A valid filter, a store that can be read, and the listing fails. -/
theorem listFiltered_crowdedFilter :
    crowdedFilter.validate = .ok () ∧ (∀ m ∈ listedStore.memories, (listedStore.rowToNote m).isOk) ∧
    listedStore.listFiltered .global crowdedFilter 5 =
      .error (.storage "Expression tree is too large (maximum depth 1000)") := by
  have hValid : crowdedFilter.validate = .ok () := by decide +kernel
  refine ⟨hValid, by decide +kernel, ?_⟩
  have hDeep : ¬ termCount crowdedFilter ≤ 980 := by decide +kernel
  unfold Db.listFiltered prepareFilter
  rw [hValid, if_neg hDeep]
  rfl

end RustyBrain.Store
