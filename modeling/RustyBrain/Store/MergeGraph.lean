import RustyBrain.Store.MergeGuards
import RustyBrain.Store.Oplog

/-!
# rusty-brain — what a merge leaves of the graph

`review_merge` replaces two memories by a combined one in six steps over four tables. Its
edges are the note's own, and those of the originals with the combined memory in their
place: two statements copy them, and skip what is already there.

## Results

* `reviewMerge_merged` — a merge that succeeded, as a whole.
-/

namespace RustyBrain.Store

open Transaction List

/-! ## Edges as triples -/

/-- An edge by its primary key: source, target and type. -/
abbrev Edge := MemoryId × MemoryId × LinkType

variable {links new : List LinkRow} {l : LinkRow} {k : Edge} {d₁ d₂ : Db}

/-- The edges at a memory, apart from those of the supersede machinery. -/
def Db.edgesAt (db : Db) (id : MemoryId) : Set Edge :=
  {k | ∃ l ∈ db.links, l.key = k ∧ l.linkType ≠ .supersedes ∧ (l.sourceId = id ∨ l.targetId = id)}

/-- The edges that a note brings along. -/
def ownEdges (n : MemoryNote) : Set Edge :=
  {k | ∃ l ∈ n.links, (linkRow l).key = k ∧ l.linkType ≠ .supersedes}

/-- The edges between one of two memories and a third, with another memory in the place of
the two. -/
def Db.inheritedEdges (db : Db) (a b new : MemoryId) : Set Edge :=
  {k | ∃ l ∈ db.links, l.linkType ≠ .supersedes ∧
    (l.sourceId ∈ [a, b] ∧ l.targetId ∉ [a, b] ∧ k = (new, l.targetId, l.linkType) ∨
      l.targetId ∈ [a, b] ∧ l.sourceId ∉ [a, b] ∧ k = (l.sourceId, new, l.linkType))}

/-- What is there stays. -/
theorem mem_addLinks_of_mem (h : l ∈ links) :
    l ∈ addLinks links new := by
  induction new generalizing links with
  | nil => exact h
  | cons k rest ih =>
    unfold addLinks
    split
    · exact ih (mem_append_left _ h)
    · exact ih h

/-- `INSERT OR IGNORE` adds exactly the keys that are missing. -/
theorem addLinks_keys :
    (∃ l ∈ addLinks links new, l.key = k) ↔ (∃ l ∈ links, l.key = k) ∨ ∃ l ∈ new, l.key = k := by
  induction new generalizing links with
  | nil => simp [addLinks]
  | cons first rest ih =>
    unfold addLinks
    split
    · rw [ih]
      simp only [mem_append, mem_cons, not_mem_nil, or_false, or_and_right,
        exists_or, exists_eq_left]
      exact or_assoc
    · -- the key is taken, so it was among the old ones
      rename_i hTaken
      push Not at hTaken
      obtain ⟨taken, hIn, hKey⟩ := hTaken
      rw [ih]
      simp only [mem_cons, or_and_right, exists_or, exists_eq_left]
      constructor
      · rintro (hOld | hRest)
        · exact .inl hOld
        · exact .inr (.inr hRest)
      · rintro (hOld | hFirst | hRest)
        · exact .inl hOld
        · exact .inl ⟨taken, hIn, hKey.trans hFirst⟩
        · exact .inr hRest

/-! ## The copies -/

section

variable {db d : Db} {a b : MemoryId} {n : MemoryNote}

/-- What the insert of a note leaves of the links: the old ones, none of which is at the new
memory, and those of the note, which start at it. -/
structure NoteLinked (db d : Db) (n : MemoryNote) : Prop where
  links : d.links = db.links ++ n.links.map linkRow
  fresh : ∀ l ∈ db.links, l.sourceId ≠ n.id ∧ l.targetId ≠ n.id
  own : ∀ l ∈ n.links, l.sourceId = n.id

section

variable (h : NoteLinked db d n)

include h

theorem NoteLinked.cases (hl : l ∈ d.links) :
    (l ∈ db.links ∧ l.sourceId ≠ n.id ∧ l.targetId ≠ n.id) ∨
      (l ∈ n.links.map linkRow ∧ l.sourceId = n.id) := by
  rw [h.links] at hl
  rcases mem_append.mp hl with hOld | hOwn
  · exact .inl ⟨hOld, h.fresh l hOld⟩
  · obtain ⟨m, hm, rfl⟩ := mem_map.mp hOwn
    exact .inr ⟨hOwn, h.own m hm⟩

/-- The first copy takes the edges that left an original. -/
theorem NoteLinked.copiedOut_keys (ha : n.id ≠ a) (hb : n.id ≠ b) :
    (∃ l ∈ copiedOut n.id a b d, l.key = k) ↔ ∃ l ∈ db.links, l.linkType ≠ .supersedes ∧
      l.sourceId ∈ [a, b] ∧ l.targetId ∉ [a, b] ∧ k = (n.id, l.targetId, l.linkType) := by
  constructor
  · rintro ⟨_, hCopy, rfl⟩
    obtain ⟨l, hl, rfl⟩ := mem_map.mp hCopy
    rw [mem_filter, decide_eq_true_eq] at hl
    obtain ⟨hIn, hSource, ⟨-, hNotA, hNotB⟩, hType⟩ := hl
    rcases h.cases hIn with ⟨hOld, -, -⟩ | ⟨-, hOwn⟩
    · refine ⟨l, hOld, hType, mem_pair.mpr hSource, ?_, rfl⟩
      exact fun hTarget => (mem_pair.mp hTarget).elim hNotA hNotB
    · -- an edge of the note starts at the combined memory, which is neither original
      rcases hSource with hSource | hSource
      · exact absurd (hOwn.symm.trans hSource) ha
      · exact absurd (hOwn.symm.trans hSource) hb
  · rintro ⟨l, hOld, hType, hSource, hTarget, rfl⟩
    refine ⟨{ l with sourceId := n.id }, mem_map.mpr ⟨l, mem_filter.mpr ⟨?_, ?_⟩, rfl⟩, rfl⟩
    · rw [h.links]
      exact mem_append_left _ hOld
    · rw [decide_eq_true_eq]
      refine ⟨mem_pair.mp hSource, ⟨(h.fresh l hOld).2, ?_, ?_⟩, hType⟩
      · exact fun hEq => hTarget (mem_pair.mpr (.inl hEq))
      · exact fun hEq => hTarget (mem_pair.mpr (.inr hEq))

/-- The second copy takes the edges that reached an original. The first one added only edges
that start at the combined memory, so it has no part in it. -/
theorem NoteLinked.copiedIn_keys {d₁ : Db}
    (hLinks : d₁.links = addLinks d.links (copiedOut n.id a b d)) :
    (∃ l ∈ copiedIn n.id a b d₁, l.key = k) ↔ ∃ l ∈ db.links, l.linkType ≠ .supersedes ∧
      l.targetId ∈ [a, b] ∧ l.sourceId ∉ [a, b] ∧ k = (l.sourceId, n.id, l.linkType) := by
  constructor
  · rintro ⟨_, hCopy, rfl⟩
    obtain ⟨l, hl, rfl⟩ := mem_map.mp hCopy
    rw [mem_filter, decide_eq_true_eq, hLinks] at hl
    obtain ⟨hIn, hTarget, ⟨hNotNew, hNotA, hNotB⟩, hType⟩ := hl
    have hOld : l ∈ db.links := by
      rcases mem_addLinks hIn with hBefore | hCopied
      · rcases h.cases hBefore with ⟨hOld, -, -⟩ | ⟨-, hOwn⟩
        · exact hOld
        · exact absurd hOwn hNotNew
      · obtain ⟨m, -, rfl⟩ := mem_map.mp hCopied
        exact absurd rfl hNotNew
    refine ⟨l, hOld, hType, mem_pair.mpr hTarget, ?_, rfl⟩
    exact fun hSource => (mem_pair.mp hSource).elim hNotA hNotB
  · rintro ⟨l, hOld, hType, hTarget, hSource, rfl⟩
    refine ⟨{ l with targetId := n.id }, mem_map.mpr ⟨l, mem_filter.mpr ⟨?_, ?_⟩, rfl⟩, rfl⟩
    · rw [hLinks, h.links]
      exact mem_addLinks_of_mem (mem_append_left _ hOld)
    · rw [decide_eq_true_eq]
      refine ⟨mem_pair.mp hTarget, ⟨(h.fresh l hOld).1, ?_, ?_⟩, hType⟩
      · exact fun hEq => hSource (mem_pair.mpr (.inl hEq))
      · exact fun hEq => hSource (mem_pair.mpr (.inr hEq))

/-- After both copies the edges at the combined memory are its own and the inherited ones. -/
theorem NoteLinked.edgesAt_eq (ha : n.id ≠ a) (hb : n.id ≠ b)
    (h₁ : d₁.links = addLinks d.links (copiedOut n.id a b d))
    (h₂ : d₂.links = addLinks d₁.links (copiedIn n.id a b d₁)) :
    d₂.edgesAt n.id = ownEdges n ∪ db.inheritedEdges a b n.id := by
  have hKeys : ∀ k, (∃ l ∈ d₂.links, l.key = k) ↔
      ((∃ l ∈ d.links, l.key = k) ∨ ∃ l ∈ copiedOut n.id a b d, l.key = k) ∨
        ∃ l ∈ copiedIn n.id a b d₁, l.key = k := by
    intro k
    rw [h₂, addLinks_keys, h₁, addLinks_keys]
  -- what makes an edge one of these can be read off its key
  have hAt : ∀ k : Edge, k ∈ d₂.edgesAt n.id ↔
      (∃ l ∈ d₂.links, l.key = k) ∧ k.2.2 ≠ .supersedes ∧ (k.1 = n.id ∨ k.2.1 = n.id) := by
    intro k
    constructor
    · rintro ⟨l, hl, rfl, hType, hEnd⟩
      exact ⟨⟨l, hl, rfl⟩, hType, hEnd⟩
    · rintro ⟨⟨l, hl, rfl⟩, hType, hEnd⟩
      exact ⟨l, hl, rfl, hType, hEnd⟩
  ext k
  rw [hAt, hKeys, h.copiedOut_keys ha hb, h.copiedIn_keys h₁, Set.mem_union]
  constructor
  · rintro ⟨(hBefore | hOut) | hIn, hType, hEnd⟩
    · obtain ⟨l, hl, rfl⟩ := hBefore
      rcases h.cases hl with ⟨-, hSource, hTarget⟩ | ⟨hOwn, -⟩
      · exact absurd hEnd (not_or.mpr ⟨hSource, hTarget⟩)
      · obtain ⟨m, hm, rfl⟩ := mem_map.mp hOwn
        exact .inl ⟨m, hm, rfl, hType⟩
    · obtain ⟨l, hl, hKind, hRest⟩ := hOut
      exact .inr ⟨l, hl, hKind, .inl hRest⟩
    · obtain ⟨l, hl, hKind, hRest⟩ := hIn
      exact .inr ⟨l, hl, hKind, .inr hRest⟩
  · rintro (⟨m, hm, rfl, hType⟩ | ⟨l, hl, hKind, hOut | hIn⟩)
    · refine ⟨.inl (.inl ⟨linkRow m, ?_, rfl⟩), hType, .inl (h.own m hm)⟩
      rw [h.links]
      exact mem_append_right _ (mem_map_of_mem hm)
    · refine ⟨.inl (.inr ⟨l, hl, hKind, hOut⟩), ?_, .inl ?_⟩
      · rw [hOut.2.2]
        exact hKind
      · rw [hOut.2.2]
    · refine ⟨.inr ⟨l, hl, hKind, hIn⟩, ?_, .inr ?_⟩
      · rw [hIn.2.2]
        exact hKind
      · rw [hIn.2.2]

/-- Neither copy makes a self-link. -/
theorem NoteLinked.copied_noSelf (h₁ : d₁.links = addLinks d.links (copiedOut n.id a b d))
    (h₂ : d₂.links = addLinks d₁.links (copiedIn n.id a b d₁)) (hl : l ∈ d₂.links)
    (hNew : l ∉ db.links) (hForeign : l ∉ n.links.map linkRow) : l.sourceId ≠ l.targetId := by
  rw [h₂] at hl
  rcases mem_addLinks hl with hl | hIn
  · rw [h₁] at hl
    rcases mem_addLinks hl with hBefore | hOut
    · rcases h.cases hBefore with ⟨hOld, -⟩ | ⟨hOwn, -⟩
      · exact absurd hOld hNew
      · exact absurd hOwn hForeign
    · obtain ⟨m, hm, rfl⟩ := mem_map.mp hOut
      rw [mem_filter, decide_eq_true_eq] at hm
      exact fun hSelf => hm.2.2.1.1 hSelf.symm
  · obtain ⟨m, hm, rfl⟩ := mem_map.mp hIn
    rw [mem_filter, decide_eq_true_eq] at hm
    exact hm.2.2.1.1

end

end

/-! ## The supersedes -/

theorem Db.retired_links (db : Db) (old new : MemoryId) (now : Int) :
    (db.retired old new now).links = db.links := by
  unfold Db.retired Db.appended
  split <;> rfl

theorem Db.retired_vectors (db : Db) (old new : MemoryId) (now : Int) :
    (db.retired old new now).vectors = db.vectors.filter fun v => v.memoryId ≠ old :=
  Db.appended_vectors ..

/-- A memory that was replaced: archived, pointing to its replacement, and out of the index. -/
structure Db.Replaced (db : Db) (id new : MemoryId) : Prop where
  row : ∃ r, db.find id = some r ∧ r.archivedAt ≠ none ∧ r.supersededBy = some new
  vectors : ∀ v ∈ db.vectors, v.memoryId ≠ id

theorem Db.Replaced.of_same {db db' : Db} {id new : MemoryId} (h : db.Replaced id new)
    (hMemories : db'.memories = db.memories) (hVectors : db'.vectors = db.vectors) :
    db'.Replaced id new := by
  refine ⟨?_, hVectors ▸ h.vectors⟩
  unfold Db.find
  rw [hMemories]
  exact h.row

/-- Taking a current memory replaces it. -/
theorem Db.retired_replaced {db : Db} {id : MemoryId} {r : MemoryRow} (hFind : db.find id = some r)
    (hCurrent : r.Current) (new : MemoryId) (now : Int) :
    (db.retired id new now).Replaced id new := by
  refine ⟨⟨r.superseded new now, ?_, ?_, rfl⟩, ?_⟩
  · rw [Db.find_retired, hFind, Option.map_some, if_pos (takes_of_current hFind hCurrent).2]
  · exact Option.some_ne_none now
  · intro v hv
    rw [Db.retired_vectors, mem_filter, decide_eq_true_eq] at hv
    exact hv.2

/-- What was replaced stays so: its row is not current any more. -/
theorem Db.Replaced.retired {db : Db} {id new : MemoryId} (h : db.Replaced id new)
    (old other : MemoryId) (now : Int) : (db.retired old other now).Replaced id new := by
  obtain ⟨r, hFind, hArchived, hPtr⟩ := h.row
  refine ⟨⟨r, ?_, hArchived, hPtr⟩, fun v hv => ?_⟩
  · rw [Db.find_retired, hFind, Option.map_some, if_neg fun hTakes => hArchived hTakes.2.2]
  · rw [Db.retired_vectors] at hv
    exact h.vectors v (mem_of_mem_filter hv)

/-! ## The merge -/

section

variable {env : Env} {ns : Namespace} {a b : MemoryId} {minSimilarity : ℚ} {n : MemoryNote}
  {e : Option Embedding} {details : Text} {allow : Bool} {now : DateTime} {db db' : Db}

/-- What a merge makes of the store. -/
structure Merged (a b : MemoryId) (n : MemoryNote) (db db' : Db) : Prop where
  first : db'.Replaced a n.id
  second : db'.Replaced b n.id
  edges : db'.edgesAt n.id = ownEdges n ∪ db.inheritedEdges a b n.id
  noSelf : ∀ l ∈ db'.links, l ∉ db.links → l ∉ n.links.map linkRow → l.sourceId ≠ l.targetId
  kept : ∀ l ∈ db.links, l ∈ db'.links

/-- The rows that record the resolution leave the rest of the store. -/
theorem resolution_recorded {key : String} {d d₁ d₂ : Db} {u v : Unit}
    (hState : Runs (upsertReviewState ns key now.secs none) d u d₁)
    (hLog : Runs (appendReviewOplog ns .reviewResolve details now) d₁ v d₂) :
    d₂.memories = d.memories ∧ d₂.vectors = d.vectors ∧ d₂.links = d.links := by
  rw [← runs_insertOplogRow.mp hLog, ← runs_modify.mp hState]
  exact ⟨rfl, rfl, rfl⟩

/-- A merge that succeeds replaces both originals and joins their edges. -/
theorem reviewMerge_merged (hWf : db.Wf) (hOwn : ∀ l ∈ n.links, l.sourceId = n.id) {u : Unit}
    (h : Runs (reviewMerge env ns a b minSimilarity n e details allow now) db u db') :
    Merged a b n db db' := by
  have hGuards := reviewMerge_guards h
  obtain ⟨hneAB, hneA, hneB⟩ := hGuards.distinct
  obtain ⟨ra, hFindA, -, hCurrentA, -⟩ := hGuards.members a mem_cons_self
  obtain ⟨rb, hFindB, -, hCurrentB, -⟩ :=
    hGuards.members b (mem_cons_of_mem _ mem_cons_self)
  obtain ⟨d₁, d', hBody, hState, hLog⟩ := reviewMerge_leaves h
  -- the graph after the insert and the two copies
  have hLinked : NoteLinked db d₁ n := by
    refine ⟨(insertMemoryTxBody_adds hBody).links, fun l hl => ?_, hOwn⟩
    obtain ⟨hSource, hTarget⟩ := hWf.links l hl
    exact ⟨fun hEq => hGuards.room.newId (hEq ▸ hSource),
      fun hEq => hGuards.room.newId (hEq ▸ hTarget)⟩
  have hRows₃ : (d₁.copied n.id a b).memories = db.memories ++ [noteRow n] :=
    (insertMemoryTxBody_adds hBody).memories
  -- both originals are still current when they are taken
  have hFind₃ : ∀ {id : MemoryId} {r : MemoryRow}, db.find id = some r →
      (d₁.copied n.id a b).find id = some r := by
    intro id r hFind
    unfold Db.find at hFind ⊢
    rw [hRows₃, find?_append, hFind]
    rfl
  have hFirst := (Db.retired_replaced (hFind₃ hFindA) hCurrentA n.id now.secs).retired b n.id now.secs
  have hFindB₄ : ((d₁.copied n.id a b).retired a n.id now.secs).find b = some rb := by
    rw [Db.find_retired, hFind₃ hFindB, Option.map_some, if_neg]
    exact fun hTakes => hneAB (hTakes.1.symm.trans (Db.find_some hFindB).2)
  have hSecond := Db.retired_replaced hFindB₄ hCurrentB n.id now.secs
  -- the two rows of the audit trail are in tables of their own
  obtain ⟨hMemories, hVectors, hLinks⟩ := resolution_recorded hState hLog
  rw [Db.retired_links, Db.retired_links] at hLinks
  refine ⟨hFirst.of_same hMemories hVectors, hSecond.of_same hMemories hVectors, ?_, ?_, ?_⟩
  · rw [Db.edgesAt, hLinks]
    exact hLinked.edgesAt_eq hneA hneB rfl rfl
  · intro l hl
    rw [hLinks] at hl
    exact hLinked.copied_noSelf rfl rfl hl
  · intro l hl
    rw [hLinks]
    refine mem_addLinks_of_mem (mem_addLinks_of_mem ?_)
    rw [hLinked.links]
    exact mem_append_left _ hl

/-- A merge is all or nothing and keeps the graph. A store keeps its foreign keys, and the
links of a note start at it: that is how the loader reads them back. -/
theorem review_merge_keeps_graph (hWf : db.Wf) (hOwn : ∀ l ∈ n.links, l.sourceId = n.id) :
    (∀ err db', commit (reviewMerge env ns a b minSimilarity n e details allow now) db =
      (.error err, db') → db' = db) ∧
    ∀ db', commit (reviewMerge env ns a b minSimilarity n e details allow now) db = (.ok (), db') →
      (∀ id ∈ [a, b],
        (∃ r, db.find id = some r ∧ r.ns = ns.asDbString ∧ r.archivedAt = none ∧
          r.supersededBy = none) ∧
        (∃ r, db'.find id = some r ∧ r.archivedAt ≠ none ∧ r.supersededBy = some n.id) ∧
        ∀ v ∈ db'.vectors, v.memoryId ≠ id) ∧
      db'.edgesAt n.id = ownEdges n ∪ db.inheritedEdges a b n.id ∧
      (∀ l ∈ db'.links, l ∉ db.links → l ∉ n.links.map linkRow → l.sourceId ≠ l.targetId) ∧
      ∀ l ∈ db.links, l ∈ db'.links := by
  rcases commit_cases (reviewMerge env ns a b minSimilarity n e details allow now) db with
    ⟨_, after, hRuns, hCommit⟩ | ⟨err, hCommit⟩
  · constructor
    · intro err db' hEq
      rw [hCommit] at hEq
      cases hEq
    · intro db' hEq
      obtain rfl : after = db' := congrArg Prod.snd (hCommit.symm.trans hEq)
      have hGuards := reviewMerge_guards hRuns
      have hMerged := reviewMerge_merged hWf hOwn hRuns
      refine ⟨fun id hId => ?_, hMerged.edges, hMerged.noSelf, hMerged.kept⟩
      obtain ⟨r, hFind, hNs, hCurrent, -⟩ := hGuards.members id hId
      refine ⟨⟨r, hFind, hNs, hCurrent⟩, ?_⟩
      rcases mem_pair.mp hId with rfl | rfl
      · exact ⟨hMerged.first.row, hMerged.first.vectors⟩
      · exact ⟨hMerged.second.row, hMerged.second.vectors⟩
  · constructor
    · intro err' db' hEq
      exact (congrArg Prod.snd (hCommit.symm.trans hEq)).symm
    · intro db' hEq
      rw [hCommit] at hEq
      cases hEq

end

/-- Two twins and a third memory, with edges between the twins and to and from the third. -/
def linkedTwins : Db :=
  let link (source target : Nat) (kind : LinkType) : MemoryLink :=
    ⟨⟨source⟩, ⟨target⟩, kind, 1, [], ⟨0, 0⟩⟩
  storeAfter .blank 2
    [.insertMemory 0 (.plain 1) (some [1, 0]), .insertMemory 0 (.plain 2) (some [1, 0]),
      .insertMemory 0 (.plain 3) none, .addLink 0 (link 1 2 .extends), .addLink 0 (link 1 3 .extends),
      .addLink 0 (link 2 3 .extends), .addLink 0 (link 3 2 .references)]

/-- The combined memory of the twins, with a link of its own to the third memory. -/
def combinedTwins : MemoryNote :=
  { MemoryNote.new ⟨4⟩ ⟨1, 0⟩ .global ['b'] .insight 5 with
    links := [⟨⟨4⟩, ⟨3⟩, .extends, 1, [], ⟨1, 0⟩⟩] }

/-- The twins merged into a note. -/
def mergeTwins (n : MemoryNote) : Except Error Unit × Db :=
  commit (reviewMerge { Env.blank with similarity := fun _ _ => some 1 } .global ⟨1⟩ ⟨2⟩ 1 n none []
    false ⟨1, 0⟩) linkedTwins

/-- The result for a merge whose copies meet each other and the note's own link. -/
theorem review_merge_keeps_graph_twins : ∃ db',
    mergeTwins combinedTwins = (.ok (), db') ∧
    db'.edgesAt ⟨4⟩ = ownEdges combinedTwins ∪ linkedTwins.inheritedEdges ⟨1⟩ ⟨2⟩ ⟨4⟩ ∧
    (db'.links.map LinkRow.key).count (⟨4⟩, ⟨3⟩, .extends) = 1 ∧
    ∀ l ∈ linkedTwins.links, l ∈ db'.links := by
  have hWf : linkedTwins.Wf := storeAfter_wf
  have hOk : (mergeTwins combinedTwins).1.isOk = true := by decide +kernel
  have hCount : ((mergeTwins combinedTwins).2.links.map LinkRow.key).count (⟨4⟩, ⟨3⟩, .extends) = 1 := by
    decide +kernel
  rcases hCommit : mergeTwins combinedTwins with ⟨_ | ⟨⟩, db'⟩
  · rw [hCommit] at hOk
    cases hOk
  · rw [hCommit] at hCount
    obtain ⟨-, hEdges, -, hKept⟩ :=
      (review_merge_keeps_graph hWf (by decide)).2 db' hCommit
    exact ⟨db', rfl, hEdges, hCount, hKept⟩

/-- A combined memory whose own link starts at one of the twins. -/
def strayTwins : MemoryNote :=
  { combinedTwins with links := [⟨⟨1⟩, ⟨3⟩, .contradicts, 1, [], ⟨1, 0⟩⟩] }

/-- The link is inserted with the note, and then copied as if the twin had had it: the
combined memory gets an edge that is neither its own nor inherited. -/
theorem review_merge_copies_stray_link :
    (mergeTwins strayTwins).1.isOk = true ∧
    (⟨4⟩, ⟨3⟩, .contradicts) ∈ (mergeTwins strayTwins).2.edgesAt ⟨4⟩ ∧
    (⟨4⟩, ⟨3⟩, .contradicts) ∉ ownEdges strayTwins ∪ linkedTwins.inheritedEdges ⟨1⟩ ⟨2⟩ ⟨4⟩ := by
  have hCopied : ∃ l ∈ (mergeTwins strayTwins).2.links, l.key = (⟨4⟩, ⟨3⟩, .contradicts) ∧
      l.linkType ≠ .supersedes ∧ (l.sourceId = ⟨4⟩ ∨ l.targetId = ⟨4⟩) := by
    decide +kernel
  have hOwn : ∀ l ∈ strayTwins.links, (linkRow l).key ≠ (⟨4⟩, ⟨3⟩, .contradicts) := by decide
  have hNone : ∀ l ∈ linkedTwins.links, l.linkType ≠ .contradicts := by decide +kernel
  refine ⟨by decide +kernel, hCopied, ?_⟩
  rintro (⟨l, hl, hKey, -⟩ | ⟨l, hl, -, ⟨-, -, hKey⟩ | ⟨-, -, hKey⟩⟩)
  -- the note's own link has another source, and no twin contradicted anything
  · exact hOwn l hl hKey
  all_goals exact hNone l hl (congrArg (·.2.2) hKey).symm

end RustyBrain.Store
