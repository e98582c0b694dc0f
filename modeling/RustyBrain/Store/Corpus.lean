import RustyBrain.Store.Oplog
import RustyBrain.Store.Stats

/-!
# rusty-brain — the snapshot of a corpus

`corpus_snapshot` gives three figures of a namespace: how many rows it has, the last number
of its log, and its last update. A reader takes them for a fingerprint of everything that a
recall in the namespace ranks from: two reads that see the same figures are taken to have
seen the same memories.

`Db.corpus` is what the fingerprint stands for. The log only grows (a purge apart), so the
figures tell two corpora apart as soon as every change to a corpus is logged under its
namespace, or takes rows away from it. `Traced` says that of a change, and each operation is
shown to be traced, with two exceptions: a vector written by a re-embedding is not logged,
and a purge clears pointers of memories in namespaces it does not log under.
-/

namespace RustyBrain.Store

open Transaction List

variable {links : List LinkRow} {log : List OplogRow} {S : MemoryId → Prop} {new : List LinkRow}
  {f : MemoryRow → MemoryRow} {p : MemoryRow → Prop}
  {redact : Text → Text} {n : Nat} {details : OplogDetails}

/-! ## What a recall ranks from -/

/-- The row without its access counters. -/
@[simps]
def MemoryRow.unread (r : MemoryRow) : MemoryRow :=
  { r with accessCount := 0, lastAccessedAt := none }

/-- What a recall in one namespace ranks from: its rows without their access counters, the
links between its memories, and their vectors. -/
structure Corpus where
  rows : List MemoryRow
  links : List LinkRow
  vectors : List VectorRow
  deriving DecidableEq

/-- The corpus with these rows, out of the links and the vectors of a store. -/
def corpusOf (rows : List MemoryRow) (links : List LinkRow) (vectors : List VectorRow) : Corpus where
  rows := rows
  links := links.filter fun l =>
    l.sourceId ∈ rows.map MemoryRow.memoryId ∧ l.targetId ∈ rows.map MemoryRow.memoryId
  vectors := vectors.filter fun v => v.memoryId ∈ rows.map MemoryRow.memoryId

/-- The corpus of a namespace. -/
def Db.corpus (db : Db) (ns : Namespace) : Corpus :=
  corpusOf ((db.rowsOf ns).map MemoryRow.unread) db.links db.vectors

section Corpus

variable {db db' : Db} {ns : Namespace} {id : MemoryId}

/-- The corpus is read off three tables. -/
theorem Db.corpus_congr (hMemories : db'.memories = db.memories) (hLinks : db'.links = db.links)
    (hVectors : db'.vectors = db.vectors) : db'.corpus ns = db.corpus ns := by
  unfold Db.corpus Db.rowsOf
  rw [hMemories, hLinks, hVectors]

/-- The memories of the corpus are those with a row in the namespace. -/
theorem Db.mem_corpus_ids : id ∈ (db.corpus ns).rows.map MemoryRow.memoryId ↔
    ∃ r ∈ db.memories, r.memoryId = id ∧ r.ns = ns.asDbString := by
  have hRows : (db.corpus ns).rows.map MemoryRow.memoryId =
      (db.rowsOf ns).map MemoryRow.memoryId := map_map
  rw [hRows, mem_map]
  constructor
  · rintro ⟨r, hr, hId⟩
    obtain ⟨hMem, hNs⟩ := mem_filter.mp hr
    exact ⟨r, hMem, hId, of_decide_eq_true hNs⟩
  · rintro ⟨r, hr, hId, hNs⟩
    exact ⟨r, mem_filter.mpr ⟨hr, decide_eq_true hNs⟩, hId⟩

theorem Db.length_corpus_rows : (db.corpus ns).rows.length = (db.rowsOf ns).length :=
  length_map _

/-- Two stores have one corpus if its rows agree and so do the links and the vectors of its
memories. -/
theorem Db.corpus_eq (hRows : (db'.rowsOf ns).map MemoryRow.unread = (db.rowsOf ns).map MemoryRow.unread)
    (hLinks : db'.links.filter (fun l => l.sourceId ∈ (db.corpus ns).rows.map MemoryRow.memoryId ∧
        l.targetId ∈ (db.corpus ns).rows.map MemoryRow.memoryId) =
      db.links.filter fun l => l.sourceId ∈ (db.corpus ns).rows.map MemoryRow.memoryId ∧
        l.targetId ∈ (db.corpus ns).rows.map MemoryRow.memoryId)
    (hVectors : db'.vectors.filter (fun v => v.memoryId ∈ (db.corpus ns).rows.map MemoryRow.memoryId) =
      db.vectors.filter fun v => v.memoryId ∈ (db.corpus ns).rows.map MemoryRow.memoryId) :
    db'.corpus ns = db.corpus ns := by
  unfold Db.corpus
  rw [hRows]
  unfold corpusOf
  rw [Corpus.mk.injEq]
  exact ⟨rfl, hLinks, hVectors⟩

end Corpus

/-! ## Changes that show -/

/-- A row of the log that the snapshot of `ns` counts. -/
def OplogRow.Counted (ns : Namespace) (r : OplogRow) : Prop := r.ns = ns.asDbString ∨ r.ns = []
  deriving Decidable

/-- The part of a corpus that a reader watches; it has as many rows as the corpus. -/
structure Watch where
  view : Corpus → Corpus
  length : ∀ c, (view c).rows.length = c.rows.length

/-- A reader that watches all of it. -/
def Watch.all : Watch := ⟨id, fun _ => rfl⟩

/-- The log grew, and the snapshot shows it if what is watched of the corpus changed: a row
that it counts was added to the log, or the namespace lost rows. -/
def Traced (w : Watch) (ns : Namespace) (db db' : Db) : Prop :=
  ∃ log, Gains log db db' ∧ ((∃ r ∈ log, r.Counted ns) ∨
    (db'.rowsOf ns).length < (db.rowsOf ns).length ∨
    w.view (db'.corpus ns) = w.view (db.corpus ns))

section Traced

variable {w : Watch} {ns : Namespace} {db db' : Db}

/-- A watched part that did not change has as many rows as before. -/
theorem Watch.length_eq (h : w.view (db'.corpus ns) = w.view (db.corpus ns)) :
    (db'.rowsOf ns).length = (db.rowsOf ns).length := by
  have hRows := congrArg (fun c => c.rows.length) h
  rw [w.length, w.length] at hRows
  rwa [Db.length_corpus_rows, Db.length_corpus_rows] at hRows

instance : IsPreorder Db (Traced w ns) where
  refl := fun _ => ⟨[], .nil rfl rfl, .inr (.inr rfl)⟩
  trans := by
    rintro a b c ⟨log, hGains, hShows⟩ ⟨log', hGains', hShows'⟩
    refine ⟨log ++ log', hGains.trans hGains', ?_⟩
    rcases hShows with ⟨r, hr, hCounted⟩ | hFewer | hSame
    · exact .inl ⟨r, mem_append_left _ hr, hCounted⟩
    · rcases hShows' with ⟨r, hr, hCounted⟩ | hFewer' | hSame'
      · exact .inl ⟨r, mem_append_right _ hr, hCounted⟩
      · exact .inr (.inl (hFewer'.trans hFewer))
      · exact .inr (.inl (Watch.length_eq hSame' ▸ hFewer))
    · rcases hShows' with ⟨r, hr, hCounted⟩ | hFewer' | hSame'
      · exact .inl ⟨r, mem_append_right _ hr, hCounted⟩
      · exact .inr (.inl (Watch.length_eq hSame ▸ hFewer'))
      · exact .inr (.inr (hSame'.trans hSame))

/-- What shows to a reader of the whole corpus shows to every reader. -/
theorem Traced.weaken (h : Traced .all ns db db') : Traced w ns db db' := by
  obtain ⟨log, hGains, hCounted | hFewer | hSame⟩ := h
  · exact ⟨log, hGains, .inl hCounted⟩
  · exact ⟨log, hGains, .inr (.inl hFewer)⟩
  · have hCorpus : db'.corpus ns = db.corpus ns := hSame
    exact ⟨log, hGains, .inr (.inr (congrArg w.view hCorpus))⟩

end Traced

/-! ## Changes to other namespaces -/

/-- No row of a memory in `S` is in the namespace. -/
def Db.Away (db : Db) (ns : Namespace) (S : MemoryId → Prop) : Prop :=
  ∀ r ∈ db.memories, S r.memoryId → r.ns ≠ ns.asDbString

/-- As long as the memories in `S` are in other namespaces, they stay there and the corpus of
`ns` stays as it is. -/
def Spares (ns : Namespace) (S : MemoryId → Prop) (db db' : Db) : Prop :=
  db.Away ns S → db'.Away ns S ∧ db'.corpus ns = db.corpus ns

instance (ns : Namespace) (S : MemoryId → Prop) : IsPreorder Db (Spares ns S) where
  refl := fun _ h => ⟨h, rfl⟩
  trans := fun _ _ _ h h' hAway =>
    have hMid := h hAway
    have hEnd := h' hMid.1
    ⟨hEnd.1, hEnd.2.trans hMid.2⟩

section Spares

variable {ns : Namespace} {S : MemoryId → Prop} {db db' : Db} {id : MemoryId}

/-- A memory that is away is not in the corpus. -/
theorem Db.Away.not_mem (h : db.Away ns S) (hId : S id) :
    id ∉ (db.corpus ns).rows.map MemoryRow.memoryId := by
  intro hIn
  obtain ⟨r, hr, rfl, hNs⟩ := Db.mem_corpus_ids.mp hIn
  exact h r hr hId hNs

theorem Spares.of_same (hMemories : db'.memories = db.memories) (hLinks : db'.links = db.links)
    (hVectors : db'.vectors = db.vectors) : Spares ns S db db' := by
  intro hAway
  refine ⟨?_, Db.corpus_congr hMemories hLinks hVectors⟩
  unfold Db.Away
  rw [hMemories]
  exact hAway

/-- Rows that are added elsewhere. -/
theorem Spares.addMemory {r : MemoryRow} (hNs : r.ns ≠ ns.asDbString) :
    Spares ns S db (db.addMemory r) := by
  intro hAway
  have hRows : (db.addMemory r).rowsOf ns = db.rowsOf ns := by
    have hOut : [r].filter (fun m => m.ns = ns.asDbString) = [] := by simp [hNs]
    show (db.memories ++ [r]).filter _ = _
    rw [filter_append, hOut, append_nil]
    rfl
  refine ⟨fun m hm hS => ?_, Db.corpus_eq (congrArg _ hRows) rfl rfl⟩
  rcases mem_concat.mp hm with hOld | rfl
  · exact hAway m hOld hS
  · exact hNs

/-- Rewriting rows that a filter drops before and after does not show behind it. -/
theorem filter_rewritten {α : Type} {rows : List α} {p : α → Prop} [DecidablePred p] {q : α → Bool}
    {f : α → α} (h : ∀ r ∈ rows, p r → q r = false ∧ q (f r) = false) :
    (rows.map fun r => if p r then f r else r).filter q = rows.filter q := by
  induction rows with
  | nil => rfl
  | cons r rest ih =>
    have hRest := ih fun m hm => h m (mem_cons_of_mem _ hm)
    rw [map_cons, filter_cons, filter_cons, hRest]
    by_cases hTaken : p r
    · obtain ⟨hBefore, hAfter⟩ := h r mem_cons_self hTaken
      simp only [if_pos hTaken, hBefore, hAfter, Bool.false_eq_true, if_false]
    · simp only [if_neg hTaken]

/-- Nor does dropping rows that it drops as well. -/
theorem filter_dropped {α : Type} {rows : List α} {p q : α → Bool} (h : ∀ r, q r = true → p r = true) :
    (rows.filter p).filter q = rows.filter q := by
  rw [filter_filter]
  refine filter_congr fun r _ => ?_
  cases hq : q r with
  | false => rfl
  | true => exact h r hq

/-- Rows of `S` that are rewritten and stay elsewhere. -/
theorem Spares.setMemories [DecidablePred p] (hp : ∀ r ∈ db.memories, p r → S r.memoryId)
    (hNs : ∀ r, p r → r.ns ≠ ns.asDbString → (f r).ns ≠ ns.asDbString) :
    Spares ns S db (db.setMemories p f) := by
  intro hAway
  have hOut : ∀ r ∈ db.memories, p r → ¬ r.ns = ns.asDbString ∧ ¬ (f r).ns = ns.asDbString := by
    intro r hr hTaken
    have hBefore := hAway r hr (hp r hr hTaken)
    exact ⟨hBefore, hNs r hTaken hBefore⟩
  constructor
  · intro m hm hS
    obtain ⟨r, hr, ⟨hTaken, rfl⟩ | ⟨-, rfl⟩⟩ := Db.mem_setMemories.mp hm
    · exact (hOut r hr hTaken).2
    · exact hAway m hr hS
  · refine Db.corpus_eq (congrArg _ (filter_rewritten fun r hr hTaken => ?_)) rfl rfl
    exact ⟨decide_eq_false (hOut r hr hTaken).1, decide_eq_false (hOut r hr hTaken).2⟩

/-- Links with an end in `S`, added, removed or changed. -/
theorem Spares.setLinks
    (h : ∀ q : LinkRow → Bool, (∀ l, S l.sourceId ∨ S l.targetId → q l = false) →
      links.filter q = db.links.filter q) : Spares ns S db (db.setLinks links) := by
  intro hAway
  refine ⟨hAway, Db.corpus_eq rfl (h _ fun l hEnd => decide_eq_false ?_) rfl⟩
  rintro ⟨hSource, hTarget⟩
  rcases hEnd with hS | hS
  · exact hAway.not_mem hS hSource
  · exact hAway.not_mem hS hTarget

/-- Vectors of memories in `S`, added, removed or changed. -/
theorem Spares.setVectors {vectors : List VectorRow}
    (h : ∀ q : VectorRow → Bool, (∀ v, S v.memoryId → q v = false) →
      vectors.filter q = db.vectors.filter q) : Spares ns S db (db.setVectors vectors) := by
  intro hAway
  refine ⟨hAway, Db.corpus_eq rfl rfl (h _ fun v hS => decide_eq_false ?_)⟩
  exact hAway.not_mem hS

theorem Spares.dropVector (hId : S id) : Spares ns S db (db.dropVector id) := by
  refine Spares.setVectors fun q hq => filter_dropped fun v hIn => decide_eq_true fun hv => ?_
  rw [hq v (hv ▸ hId)] at hIn
  cases hIn

theorem Spares.addVector {v : VectorRow} (hId : S v.memoryId) :
    Spares ns S db (db.setVectors (db.vectors ++ [v])) := by
  refine Spares.setVectors fun q hq => ?_
  rw [filter_append, filter_cons, hq v hId]
  simp

theorem Spares.appended (op : OplogOp) (now : Int) (details : OplogDetails) :
    Spares ns S db (db.appended op id now details) := by
  unfold Db.appended
  split <;> exact .of_same rfl rfl rfl

/-! ### Statements -/

theorem spares_insertLinkRow {e : Error} {l : LinkRow} (hSource : S l.sourceId) :
    Within (Spares ns S) (insertLinkRow e l) := by
  intro db u db' h
  obtain ⟨-, -, -, rfl⟩ := runs_insertLinkRow.mp h
  refine .setLinks fun q hq => ?_
  rw [filter_append, filter_cons, hq l (.inl hSource)]
  simp

theorem spares_insertVectorRow {v : VectorRow} (hId : S v.memoryId) :
    Within (Spares ns S) (insertVectorRow v) := by
  intro db u db' h
  obtain ⟨-, -, rfl⟩ := runs_insertVectorRow.mp h
  exact .addVector hId

theorem spares_appendOplog (op : OplogOp) (id : MemoryId) (now : Int) (details : OplogDetails) :
    Within (Spares ns S) (appendOplog op id now details) := by
  intro db u db' h
  obtain rfl := runs_appendOplog.mp h
  exact .appended op now details

end Spares

/-! ## Operations that show -/

/-- From distinct ids, what was done to the corpus of `ns` shows. -/
def Traces (ns : Namespace) (db db' : Db) : Prop :=
  db.ids.Nodup → db'.ids.Nodup ∧ Traced .all ns db db'

instance (ns : Namespace) : IsPreorder Db (Traces ns) where
  refl := fun db hIds => ⟨hIds, refl_of (Traced .all ns) db⟩
  trans := fun _ _ _ h h' hIds =>
    have hMid := h hIds
    have hEnd := h' hMid.1
    ⟨hEnd.1, trans_of (Traced .all ns) hMid.2 hEnd.2⟩

/-- The ids of the rows, each with the namespace of its row. -/
def Db.homes (db : Db) : List (MemoryId × Text) := db.memories.map fun r => (r.memoryId, r.ns)

section Traces

variable {ns : Namespace} {db db' d : Db} {id : MemoryId} {now : Int}

theorem Db.ids_of_homes (h : d.homes = db.homes) : d.ids = db.ids := by
  have hIds : ∀ x : Db, x.ids = x.homes.map Prod.fst := fun x => by
    unfold Db.ids Db.homes
    rw [map_map]
    rfl
  rw [hIds, hIds, h]

theorem Db.homes_setMemories [DecidablePred p] (hId : ∀ r, (f r).memoryId = r.memoryId)
    (hNs : ∀ r, (f r).ns = r.ns) : (db.setMemories p f).homes = db.homes := by
  unfold Db.homes
  rw [Db.setMemories_memories, map_map]
  refine map_congr_left fun r _ => ?_
  by_cases hp : p r
  · simp only [Function.comp, if_pos hp, hId, hNs]
  · simp only [Function.comp, if_neg hp]

/-- A change that touches nothing of the corpora, and the log by rows of any kind. -/
theorem Traced.of_corpus (hGains : Gains log db db')
    (hCorpus : db'.corpus ns = db.corpus ns) : Traced .all ns db db' :=
  ⟨log, hGains, .inr (.inr hCorpus)⟩

/-- **Key lemma:** a change to one memory, its vector and its links that is logged under the
namespace of the memory shows. -/
theorem Traces.logged (hSpares : Spares ns (· = id) db d) (hHomes : d.homes = db.homes)
    (hOplog : d.oplog = db.oplog) (hSeq : d.lastSeq = db.lastSeq) (op : OplogOp)
    (details : OplogDetails) : Traces ns db (d.appended op id now details) := by
  intro hIds
  have hNodup : d.ids.Nodup := Db.ids_of_homes hHomes ▸ hIds
  have hQuiet : Gains [] db d := .nil hOplog hSeq
  -- the row of `db` with this id, and the one of `d`, are in one namespace
  have hHome : ∀ r ∈ db.memories, r.memoryId = id → ∃ m, d.find id = some m ∧ m.ns = r.ns := by
    intro r hr hId
    have hPair : (r.memoryId, r.ns) ∈ d.homes := hHomes ▸ mem_map_of_mem hr
    obtain ⟨m, hm, hEq⟩ := mem_map.mp hPair
    obtain ⟨hmId, hmNs⟩ := Prod.mk.inj hEq
    exact ⟨m, hId ▸ hmId ▸ Db.find_of_mem hNodup hm, hmNs⟩
  refine ⟨?_, ?_⟩
  · have hSame : (d.appended op id now details).ids = d.ids := by
      unfold Db.ids
      rw [Db.appended_memories]
    rwa [hSame]
  cases hFind : d.find id with
  | none =>
    have hUnlogged : d.appended op id now details = d := by
      unfold Db.appended
      rw [hFind]
    rw [hUnlogged]
    have hAway : db.Away ns (· = id) := by
      intro r hr hId
      obtain ⟨m, hm, -⟩ := hHome r hr hId
      rw [hFind] at hm
      cases hm
    exact .of_corpus hQuiet (hSpares hAway).2
  | some m =>
    obtain ⟨row, hAbout, hGains⟩ := Db.appended_gains hFind op now details
    by_cases hNs : m.ns = ns.asDbString
    · exact ⟨_, hQuiet.trans hGains, .inl ⟨row, mem_singleton_self _, .inl (hAbout.ns.trans hNs)⟩⟩
    · have hAway : db.Away ns (· = id) := by
        intro r hr hId hIn
        obtain ⟨m', hm', hEq⟩ := hHome r hr hId
        rw [hFind] at hm'
        cases hm'
        exact hNs (hEq.trans hIn)
      have hCorpus : (d.appended op id now details).corpus ns = d.corpus ns := by
        unfold Db.appended
        rw [hFind]
        rfl
      exact .of_corpus (hQuiet.trans hGains) (hCorpus.trans (hSpares hAway).2)

/-- A change that leaves the rows, the links and the vectors alone. -/
theorem Traces.of_same (hGains : Gains log db db')
    (hMemories : db'.memories = db.memories) (hLinks : db'.links = db.links)
    (hVectors : db'.vectors = db.vectors) : Traces ns db db' := by
  intro hIds
  refine ⟨?_, .of_corpus hGains (Db.corpus_congr hMemories hLinks hVectors)⟩
  unfold Db.ids
  rwa [hMemories]

/-- A rewrite of the row of one memory that is logged. -/
theorem Traces.rewritten [DecidablePred p] (hp : ∀ r, p r → r.memoryId = id)
    (hId : ∀ r, (f r).memoryId = r.memoryId) (hNs : ∀ r, (f r).ns = r.ns) (op : OplogOp)
    (details : OplogDetails) : Traces ns db ((db.setMemories p f).appended op id now details) :=
  .logged (.setMemories (fun r _ => hp r) fun r _ hOut => hNs r ▸ hOut)
    (Db.homes_setMemories hId hNs) rfl rfl op details

/-- A rewrite that takes the vector of the memory with it. -/
theorem Traces.retired [DecidablePred p] (hp : ∀ r, p r → r.memoryId = id)
    (hId : ∀ r, (f r).memoryId = r.memoryId) (hNs : ∀ r, (f r).ns = r.ns) (op : OplogOp)
    (details : OplogDetails) :
    Traces ns db (((db.setMemories p f).dropVector id).appended op id now details) := by
  have hRewrite : Spares ns (· = id) db (db.setMemories p f) :=
    .setMemories (fun r _ => hp r) fun r _ hOut => hNs r ▸ hOut
  have hHomes : ((db.setMemories p f).dropVector id).homes = db.homes := Db.homes_setMemories hId hNs
  exact .logged (trans_of (Spares ns _) hRewrite (.dropVector rfl)) hHomes rfl rfl op details

/-- The log row that is written only when a statement touched something. -/
theorem runs_thenLog {op : OplogOp} {u : Unit}
    (h : Runs (if n > 0 then appendOplog op id now details else pure ()) d u db') :
    db' = if n > 0 then d.appended op id now details else d := by
  split at h
  · next hPos =>
    rw [if_pos hPos]
    exact (runs_appendOplog.mp h).symm
  · next hZero =>
    rw [if_neg hZero]
    exact (runs_pure.mp h).2.symm

theorem updateMemory_traces (now : Int) (id : MemoryId) (u : MemoryUpdates) :
    Within (Traces ns) (updateMemory now id u) := by
  intro db v db' h
  rcases updateMemory_runs h with ⟨-, rfl⟩ | rfl
  · exact refl_of (Traces ns) db'
  · exact .rewritten (f := MemoryUpdates.applyTo u now) (fun _ hr => hr) (fun _ => rfl)
      (fun _ => rfl) .update .empty

theorem setUncurated_traces {home : Namespace} {op : OplogOp}
    (hId : ∀ r, (f r).memoryId = r.memoryId) (hNs : ∀ r, (f r).ns = r.ns) :
    Within (Traces ns) (setUncurated now home id f op details) := by
  intro db b db' h
  rcases setUncurated_runs h with ⟨-, -, rfl⟩ | ⟨-, -, rfl⟩
  · exact .rewritten (fun _ hr => hr.1) hId hNs op details
  · exact refl_of (Traces ns) db'

theorem archiveWithDetails_traces {protect : Bool} {home : Option Namespace} :
    Within (Traces ns) (archiveWithDetails now id details protect home) := by
  intro db b db' h
  rcases archiveWithDetails_runs h with ⟨-, -, rfl⟩ | ⟨-, -, rfl⟩
  · exact Traces.retired (p := Archives id protect home) (f := MemoryRow.archived now)
      (fun _ hr => hr.1) (fun _ => rfl) (fun _ => rfl) .archive details
  · exact refl_of (Traces ns) db'

theorem Db.retired_traces (db : Db) (old new : MemoryId) (now : Int) :
    Traces ns db (db.retired old new now) :=
  Traces.retired (p := Takes old) (f := MemoryRow.superseded new now) (fun _ hr => hr.1)
    (fun _ => rfl) (fun _ => rfl) .supersede (.newId new)

theorem supersedeInTx_traces (old new : MemoryId) : Within (Traces ns) (supersedeInTx old new now) := by
  intro db u db' h
  obtain ⟨-, -, -, rfl⟩ := supersedeInTx_runs h
  exact db.retired_traces old new now

/-- A link is logged under the namespace of its source. -/
theorem linkThenLog_traces (e : Error) (l : LinkRow) (details : OplogDetails) :
    Within (Traces ns) (do insertLinkRow e l; appendOplog .link l.sourceId now details) := by
  intro db u db' h
  obtain ⟨_, d, hRow, hLog⟩ := runs_bind.mp h
  have hSpares : Spares ns (· = l.sourceId) db d :=
    spares_insertLinkRow (S := (· = l.sourceId)) rfl db _ d hRow
  obtain ⟨-, -, -, rfl⟩ := runs_insertLinkRow.mp hRow
  obtain rfl := runs_appendOplog.mp hLog
  exact .logged hSpares rfl rfl rfl .link details

/-- A change to the links from one memory, logged when it touched one. -/
theorem Traces.relinked (ns : Namespace) (id : MemoryId) {p : LinkRow → Prop} [DecidablePred p]
    (hCount : db.links.countP p = n)
    (hNone : (∀ l ∈ db.links, ¬ p l) → links = db.links)
    (hOthers : ∀ q : LinkRow → Bool, (∀ l : LinkRow, l.sourceId = id → q l = false) →
      links.filter q = db.links.filter q) (op : OplogOp) (now : Int) (details : OplogDetails) :
    Traces ns db (if n > 0 then (db.setLinks links).appended op id now details
      else db.setLinks links) := by
  split
  · exact .logged (.setLinks fun q hq => hOthers q fun l hl => hq l (.inl hl)) rfl rfl rfl op details
  · next hZero =>
    have hSame : links = db.links := by
      refine hNone fun l hl hp => hZero ?_
      rw [← hCount]
      exact countP_pos_iff.mpr ⟨l, hl, decide_eq_true hp⟩
    rw [hSame]
    exact refl_of (Traces ns) db

theorem deleteLink_traces (source target : MemoryId) (linkType : LinkType) :
    Within (Traces ns) (deleteLink now source target linkType) := by
  intro db u db' h
  obtain ⟨n, d, hDelete, hLog⟩ := runs_bind.mp h
  obtain ⟨rfl, hCount⟩ := runs_deleteLinkRows.mp hDelete
  rw [runs_thenLog hLog]
  refine .relinked ns source hCount (fun hNone => ?_) (fun q hq => ?_) .unlink now _
  · exact filter_eq_self.mpr fun l hl => decide_eq_true (hNone l hl)
  · refine filter_dropped fun l hIn => decide_eq_true fun hl => ?_
    rw [hq l hl.1] at hIn
    cases hIn

theorem setLinkStrength_traces (source target : MemoryId) (linkType : LinkType) (strength : ℚ) :
    Within (Traces ns) (setLinkStrength now source target linkType strength) := by
  intro db u db' h
  obtain ⟨n, d, hUpdate, hLog⟩ := runs_bind.mp h
  obtain ⟨-, rfl, hCount⟩ := runs_updateLinkStrength.mp hUpdate
  rw [runs_thenLog hLog]
  refine .relinked ns source hCount (fun hNone => ?_) (fun q hq => ?_) .setLinkStrength now _
  · exact (map_congr_left fun l hl => if_neg (hNone l hl)).trans (map_id _)
  · exact filter_rewritten fun l _ hl => ⟨hq l hl.1, hq _ hl.1⟩

/-- Feedback nudges the confidence of one memory and logs it. -/
theorem recordFeedback_traces (id : MemoryId) (kind : FeedbackKind) (principal : Option Text) :
    Within (Traces ns) (recordFeedback now id kind principal) := by
  intro db q db' h
  obtain ⟨r, n, _, d, -, hUpdate, hRow, rfl⟩ := recordFeedback_runs h
  obtain ⟨-, -, -, rfl⟩ := runs_updateMemories.mp hUpdate
  obtain rfl := runs_modify.mp hRow
  have hRewrite : Spares ns (· = id) db (db.setMemories (fun m => m.memoryId = id)
      fun m => { m with confidence := q }) :=
    .setMemories (fun _ _ hr => hr) fun _ _ hOut => hOut
  refine .logged (trans_of (Spares ns _) hRewrite (.of_same ?_ ?_ ?_)) ?_ ?_ ?_ _ _
  case refine_4 => exact Db.homes_setMemories (fun _ => rfl) fun _ => rfl
  all_goals rfl

/-- A rewrite within the namespaces shows only where it changes what is read off the rows. -/
theorem Db.map_rowsOf_setMemories {β : Type} (db : Db) (ns : Namespace) [DecidablePred p]
    {g : MemoryRow → β} (hNs : ∀ r, (f r).ns = r.ns) (hg : ∀ r, g (f r) = g r) :
    ((db.setMemories p f).rowsOf ns).map g = (db.rowsOf ns).map g := by
  unfold Db.rowsOf
  rw [Db.setMemories_memories]
  induction db.memories with
  | nil => rfl
  | cons r rest ih =>
    have hHead : (if p r then f r else r).ns = r.ns ∧ g (if p r then f r else r) = g r := by
      split
      · exact ⟨hNs r, hg r⟩
      · exact ⟨rfl, rfl⟩
    rw [map_cons, filter_cons, filter_cons, hHead.1]
    split
    · rw [map_cons, map_cons, ih, hHead.2]
    · exact ih

/-- Counting accesses touches nothing that is ranked from. -/
theorem updateAccesses_traces [DecidablePred p] (hf : ∀ r, (f r).unread = r.unread) :
    Within (Traces ns) (updateMemories p f) := by
  intro db n db' h hIds
  obtain ⟨-, -, -, rfl⟩ := runs_updateMemories.mp h
  have hId : ∀ r, (f r).memoryId = r.memoryId := fun r => by
    have hEq := congrArg MemoryRow.memoryId (hf r)
    exact hEq
  have hNs : ∀ r, (f r).ns = r.ns := fun r => by
    have hEq := congrArg MemoryRow.ns (hf r)
    exact hEq
  have hRows := db.map_rowsOf_setMemories (p := p) (g := MemoryRow.unread) ns hNs hf
  refine ⟨?_, .of_corpus (.nil rfl rfl) (Db.corpus_eq hRows rfl rfl)⟩
  rw [Db.ids_of_homes (Db.homes_setMemories hId hNs)]
  exact hIds

/-- An insert into another namespace spares the corpus, and its links show where they start. -/
theorem insertMemoryTxBody_traces (n : MemoryNote) (e : Option Embedding) :
    Within (Traces ns) (insertMemoryTxBody now n e) := by
  intro db u db' h hIds
  have hWrites : Writes .all db db' := insertMemoryTxBody_writes trivial (fun _ _ => trivial) h
  refine ⟨hWrites.effects.ids_nodup hIds, ?_⟩
  by_cases hNs : n.ns.asDbString = ns.asDbString
  · obtain ⟨r, links, hAbout, hGains, -⟩ := insertMemoryTxBody_gains h
    exact ⟨_, hGains, .inl ⟨r, mem_cons_self, .inl (hAbout.ns.trans hNs)⟩⟩
  · simp only [insertMemoryTxBody, runs_bind] at h
    obtain ⟨_, d₁, hMem, _, d₂, hLog, _, d₃, hAnchors, _, d₄, hVector, hLinks⟩ := h
    obtain ⟨-, hNew, -, rfl⟩ := runs_insertMemoryRow.mp hMem
    -- up to the links only the new memory is touched, and it is in another namespace
    have hFirst : Spares ns (· = n.id) db d₄ := by
      refine trans_of (Spares ns _) (.addMemory (r := noteRow n) hNs) ?_
      refine trans_of (Spares ns _) (spares_appendOplog _ _ _ _ _ _ _ hLog) ?_
      refine trans_of (Spares ns _) (Within.forM (fun a _ x v y hRun => ?_) _ _ _ hAnchors) ?_
      · obtain ⟨-, -, rfl⟩ := runs_insertAnchorRow.mp hRun
        exact .of_same rfl rfl rfl
      · cases e with
        | none => exact Within.pure (R := Spares ns _) _ _ _ _ hVector
        | some v => exact spares_insertVectorRow (S := (· = n.id)) rfl _ _ _ hVector
    have hAbsent : db.Away ns (· = n.id) := fun r hr hId =>
      (hNew (mem_map.mpr ⟨r, hr, hId⟩)).elim
    have hQuiet : Gained (fun _ => True) db d₄ := by
      have hAdded : Gained (fun _ => True) db (db.addMemory (noteRow n)) := .of_same rfl rfl
      refine trans_of (Gained _) hAdded ?_
      refine trans_of (Gained _) (gained_appendOplog (fun _ _ _ => trivial) _ _ _ _ _ hLog) ?_
      refine trans_of (Gained _) (Within.forM (fun a _ => gained_insertAnchorRow _) _ _ _ hAnchors) ?_
      cases e with
      | none => exact Within.pure (R := Gained _) _ _ _ _ hVector
      | some v => exact gained_insertVectorRow _ _ _ _ hVector
    obtain ⟨log, hGains, -⟩ := hQuiet
    have hInserted : Traced .all ns db d₄ := .of_corpus hGains (hFirst hAbsent).2
    have hKept : Links n d₄ db' := Within.forM (fun l hl => insertNoteLink_links hl) _ _ _ hLinks
    have hNodup : d₄.ids.Nodup := by
      have hSame : d₄.ids = db'.ids := congrArg (List.map MemoryRow.memoryId) hKept.1.symm
      rw [hSame]
      exact hWrites.effects.ids_nodup hIds
    have hLinked : Traces ns d₄ db' :=
      Within.forM (fun l _ => linkThenLog_traces _ (linkRow l) _) _ _ _ hLinks
    exact trans_of (Traced .all ns) hInserted (hLinked hNodup).2

/-- Edges that are skipped when their key is taken: those that are added all have an end in
`S`. -/
theorem filter_addLinks {q : LinkRow → Bool} (links : List LinkRow)
    (hNew : ∀ l ∈ new, q l = false) : (addLinks links new).filter q = links.filter q := by
  induction new generalizing links with
  | nil => rfl
  | cons l rest ih =>
    have hRest : ∀ l ∈ rest, q l = false := fun k hk => hNew k (mem_cons_of_mem _ hk)
    unfold addLinks
    split
    · rw [ih _ hRest, filter_append, filter_cons, hNew l mem_cons_self]
      simp
    · exact ih _ hRest

theorem spares_addLinks (hNew : ∀ l ∈ new, S l.sourceId ∨ S l.targetId) :
    Spares ns S db (db.setLinks (addLinks db.links new)) :=
  .setLinks fun _ hq => filter_addLinks _ fun l hl => hq l (hNew l hl)

theorem insertOplogRow_traces (op : OplogOp) (memoryId : Option MemoryId) (home : Text)
    (details : OplogDetails) : Within (Traces ns) (insertOplogRow op memoryId home now details) := by
  intro db u db' h
  obtain rfl := runs_insertOplogRow.mp h
  exact .of_same (db.logged_gains ..) rfl rfl rfl

theorem upsertReviewState_traces (home : Namespace) (key : String) (reviewedAt : Int)
    (snoozeUntil : Option Int) :
    Within (Traces ns) (upsertReviewState home key reviewedAt snoozeUntil) := by
  intro db u db' h
  obtain rfl := runs_modify.mp h
  exact .of_same (.nil rfl rfl) rfl rfl rfl

/-- The combined memory of a merge and the edges that move to it. Where the memory is in the
namespace, its own insert shows; elsewhere every new edge has an end outside the corpus. -/
theorem combined_traces {n : MemoryNote} {e : Option Embedding} {u : Unit}
    (hBody : Runs (insertMemoryTxBody now n e) db u d) (a b : MemoryId) :
    Traces ns db (d.copied n.id a b) := by
  intro hIds
  obtain ⟨hNodup, hInserted⟩ := (insertMemoryTxBody_traces n e db u d hBody : Traces ns db d) hIds
  have hSpares : Spares ns (· = n.id) d (d.copied n.id a b) := by
    refine trans_of (Spares ns _) (spares_addLinks fun l hl => .inl ?_)
      (spares_addLinks fun l hl => .inr ?_)
    · obtain ⟨k, -, rfl⟩ := mem_map.mp hl
      rfl
    · obtain ⟨k, -, rfl⟩ := mem_map.mp hl
      rfl
  have hLinks : Gains [] d (d.copied n.id a b) := .nil rfl rfl
  refine ⟨hNodup, ?_⟩
  by_cases hNs : n.ns.asDbString = ns.asDbString
  · obtain ⟨r, links, hAbout, hGains, -⟩ := insertMemoryTxBody_gains hBody
    exact ⟨_, hGains.trans hLinks,
      .inl ⟨r, mem_append_left _ mem_cons_self, .inl (hAbout.ns.trans hNs)⟩⟩
  · have hRow : noteRow n ∈ d.memories := by
      rw [(insertMemoryTxBody_adds hBody).memories]
      exact mem_append_right _ (mem_singleton_self _)
    have hAway : d.Away ns (· = n.id) := by
      intro r hr hId
      rw [d.row_unique hNodup hr hRow hId]
      exact hNs
    exact trans_of (Traced .all ns) hInserted (.of_corpus hLinks (hSpares hAway).2)

theorem reviewMerge_traces {env : Env} (home : Namespace) (a b : MemoryId) (minSimilarity : ℚ)
    (n : MemoryNote) (e : Option Embedding) (details : Text) (allow : Bool) (at' : DateTime) :
    Within (Traces ns) (reviewMerge env home a b minSimilarity n e details allow at') := by
  intro db u db' h
  obtain ⟨d, d', hBody, hState, hLog⟩ := reviewMerge_leaves h
  refine trans_of (Traces ns) (combined_traces hBody a b) ?_
  refine trans_of (Traces ns) (Db.retired_traces _ a n.id at'.secs) ?_
  refine trans_of (Traces ns) (Db.retired_traces _ b n.id at'.secs) ?_
  exact trans_of (Traces ns) (upsertReviewState_traces _ _ _ _ _ _ _ hState)
    (insertOplogRow_traces _ _ _ _ _ _ _ hLog)

/-- The vectors of a rename move one by one, and nothing else does. -/
theorem moveVectors_spares (ns : Namespace) {new : Text} {moving : List VectorRow} {u : PUnit}
    (hS : ∀ v ∈ moving, S v.memoryId) (h : Runs (moving.forM (moveVector new)) db u d) :
    Spares ns S db d ∧ d.memories = db.memories ∧ Gains [] db d := by
  have hSpares : Within (Spares ns S) (moving.forM (moveVector new)) := by
    refine Within.forM fun v hv => Within.bind (fun x w y hDrop => ?_) fun _ =>
      spares_insertVectorRow (hS v hv)
    obtain rfl := runs_deleteVectorRow.mp hDrop
    exact .dropVector (hS v hv)
  refine ⟨hSpares db u d h, ?_⟩
  obtain ⟨vectors, rfl, -⟩ := moveVectors_runs h
  exact ⟨rfl, .nil rfl rfl⟩

/-- After a rename the old namespace has no rows, where it had some. -/
theorem rowsOf_renamed {old : Namespace} {new : Text} (hNe : old.asDbString ≠ new)
    (hSome : db.countRows old.asDbString ≠ 0)
    (hMemories : d.memories = (db.setMemories (fun m => m.ns = old.asDbString)
      fun m => { m with ns := new }).memories) :
    (d.rowsOf old).length < (db.rowsOf old).length := by
  have hNone : d.rowsOf old = [] := by
    unfold Db.rowsOf
    rw [hMemories]
    refine filter_eq_nil_iff.mpr fun r hr => ?_
    rw [decide_eq_true_eq]
    obtain ⟨m, -, ⟨-, rfl⟩ | ⟨hOut, rfl⟩⟩ := Db.mem_setMemories.mp hr
    · exact hNe.symm
    · exact hOut
  have hCount : (db.rowsOf old).length = db.countRows old.asDbString :=
    (countP_eq_length_filter).symm
  rw [hNone, hCount]
  exact Nat.pos_of_ne_zero hSome

/-- The rows of the renamed namespace go away, the target logs the move, and any third
namespace is spared. -/
theorem renameNamespace_traces (old new : Namespace) (merge : Bool) :
    Within (Traces ns) (renameNamespace now old new merge) := by
  intro db out db' h hIds
  have hWrites : Writes .all db db' := renameNamespace_writes now old new merge db out db' h
  refine ⟨hWrites.effects.ids_nodup hIds, ?_⟩
  obtain ⟨hNe, hSome, d, details, hMove, rfl⟩ := renameNamespace_leaves h
  let S : MemoryId → Prop := fun id => ∃ m ∈ db.memories, m.memoryId = id ∧ m.ns = old.asDbString
  have hMoving : ∀ v ∈ db.movingVectors old.asDbString, S v.memoryId := fun v hv =>
    of_decide_eq_true (mem_filter.mp hv).2
  obtain ⟨hMoved, hMemories, hQuiet⟩ := moveVectors_spares ns hMoving hMove
  have hFirst : Gains [] db ((db.setMemories (fun m => m.ns = old.asDbString)
      fun m => { m with ns := new.asDbString }).rekeyed old.asDbString new.asDbString) := .nil rfl rfl
  have hLogged := (hFirst.trans hQuiet).trans
    (d.logged_gains .namespaceRename none new.asDbString now details)
  by_cases hNew : new.asDbString = ns.asDbString
  · exact ⟨_, hLogged, .inl ⟨_, mem_singleton_self _, .inl hNew⟩⟩
  by_cases hOld : old.asDbString = ns.asDbString
  · refine ⟨_, hLogged, .inr (.inl ?_)⟩
    have hFewer := rowsOf_renamed hNe hSome hMemories
    unfold Db.rowsOf at hFewer ⊢
    rwa [hOld] at hFewer
  · -- the rows that move are in neither namespace
    have hAway : db.Away ns S := by
      rintro r hr ⟨m, hm, hId, hHome⟩
      rw [db.row_unique hIds hr hm hId.symm, hHome]
      exact hOld
    have hRewrite : Spares ns S db (db.setMemories (fun m => m.ns = old.asDbString)
        fun m => { m with ns := new.asDbString }) :=
      .setMemories (fun r hr hp => ⟨r, hr, rfl, hp⟩) fun _ _ _ => hNew
    have hRekeyed : Spares ns S db d :=
      trans_of (Spares ns S) (trans_of (Spares ns S) hRewrite (.of_same rfl rfl rfl)) hMoved
    exact .of_corpus hLogged (hRekeyed hAway).2

/-! ### Scrub -/

/-- A scrub that changed anything logs it under no namespace, where every snapshot counts it. -/
theorem scrub_traces : Within (Traces ns) (scrub redact now) := by
  intro db out db' h hIds
  have hWrites : Writes .all db db' := scrub_writes hIds (fun _ => trivial) h
  refine ⟨hWrites.effects.ids_nodup hIds, ?_⟩
  simp only [scrub, runs_bind, runs_get] at h
  obtain ⟨_, _, ⟨rfl, rfl⟩, found, mid, hLoop, hLog⟩ := h
  -- until it logs, nothing has changed while no row is counted as redacted
  obtain ⟨hQuiet, hSame⟩ : Gains [] db mid ∧ (found.redacted = 0 → mid = db) := by
    refine scrubLoop_keeps (I := fun out d => Gains [] db d ∧ (out.redacted = 0 → d = db)) ?_
      (fun _ h => h) ⟨.nil rfl rfl, fun _ => rfl⟩ hLoop
    intro m out d out' d' hI hTurn
    unfold scrubRow at hTurn
    split at hTurn
    · obtain ⟨rfl, rfl⟩ := runs_pure.mp hTurn
      exact hI
    · simp only [runs_bind, runs_pure] at hTurn
      obtain ⟨n, _, hUpdate, rfl, rfl⟩ := hTurn
      obtain ⟨-, -, -, rfl⟩ := runs_updateMemories.mp hUpdate
      exact ⟨hI.1.trans (.nil rfl rfl), by simp⟩
  split at hLog
  · simp only [runs_bind, runs_insertOplogRow, runs_pure] at hLog
    obtain ⟨_, _, rfl, -, rfl⟩ := hLog
    exact ⟨_, hQuiet.trans (mid.logged_gains ..), .inl ⟨_, mem_singleton_self _, .inr rfl⟩⟩
  · next hNone =>
    obtain ⟨-, rfl⟩ := runs_pure.mp hLog
    rw [hSame (Nat.eq_zero_of_not_pos hNone)]
    exact refl_of (Traced .all ns) db

end Traces

/-! ## Every operation that shows -/

/-- The operations whose changes to a corpus always show: all but the vector of a re-embedding,
the change of the embedding space and the rebuild of the vector table, and the hard sweep. -/
def Op.Shows : Op → Prop
  | .updateVector .. => False
  | .acceptEmbeddingSpaceChange .. => False
  | .rebuildVectorTable => False
  | .retentionSweep _ _ _ mode _ => mode = .apply
  | _ => True

/-- **Key result:** whatever another operation does to the corpus of a namespace shows. -/
theorem Op.traces {env : Env} {op : Op} (hOp : op.Shows) (ns : Namespace) :
    Within (Traces ns) (op.body env) := by
  cases op with
  | insertMemory now n e => exact Within.bind (Within.of_read validateNote_runs) fun _ => insertMemoryTxBody_traces n e
  | supersede now old new => exact supersedeInTx_traces old new
  | insertSupersedingMemory now n e old allow =>
    exact .discard (insertSupersedingMemory_within (insertMemoryTxBody_traces n e)
      (supersedeInTx_traces old n.id))
  | supersedeDuplicate now home old new => exact .discard (supersedeDuplicate_within supersedeInTx_traces)
  | updateMemory now id u => exact updateMemory_traces now id u
  | archiveMemory now id => exact Within.bind archiveWithDetails_traces fun _ => Within.pure _
  | archiveUnattended now home id => exact .discard archiveWithDetails_traces
  | setRecalibratedImportance now home id importance | setConfidence now home id confidence =>
    exact .discard (Within.bind (Within.attempt _) fun _ =>
      setUncurated_traces (fun _ => rfl) fun _ => rfl)
  | addLink now l => exact linkThenLog_traces _ (linkRow l) _
  | deleteLink now source target linkType => exact deleteLink_traces source target linkType
  | setLinkStrength now source target linkType strength =>
    exact setLinkStrength_traces source target linkType strength
  | recordAccesses now ids => exact Within.bind (updateAccesses_traces fun _ => rfl) fun _ => Within.pure _
  | recordAccessBumps bumps =>
    exact Within.forM fun _ _ => Within.bind (updateAccesses_traces fun _ => rfl) fun _ => Within.pure _
  | recordFeedback now id kind principal => exact .discard (recordFeedback_traces id kind principal)
  | snoozeReviewItem home key days details now =>
    exact .discard (snoozeReviewItem_within (upsertReviewState_traces _ _)
      (insertOplogRow_traces _ _ _ _))
  | recordReviewResolution home key details now =>
    exact recordReviewResolution_within (upsertReviewState_traces _ _) (insertOplogRow_traces _ _ _ _)
  | recordReviewSweep home details now => exact insertOplogRow_traces _ _ _ _
  | reviewMerge home a b minSimilarity n e details allow now =>
    exact reviewMerge_traces home a b minSimilarity n e details allow now
  | renameNamespace now old new merge => exact .discard (renameNamespace_traces old new merge)
  | scrub now => exact .discard scrub_traces
  | retentionSweep clock home p mode now =>
    obtain rfl : mode = .apply := hOp
    -- each memory that is archived is logged
    exact .discard (retentionSweep_within (fun _ => archiveWithDetails_traces) fun op home _ details =>
      insertOplogRow_traces op none home details)
  | updateVector => cases hOp
  | acceptEmbeddingSpaceChange => cases hOp
  | rebuildVectorTable => cases hOp

end RustyBrain.Store
