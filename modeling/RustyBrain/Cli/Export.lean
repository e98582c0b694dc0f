import RustyBrain.Proto.Client
import RustyBrain.Store.ListFiltered
import RustyBrain.Store.MergeGuards

/-!
# rusty-brain — the snapshot of an export

`fetch_memories` asks the daemon for a list of a hundred thousand memories, filters what
comes back by type and tags, and calls the snapshot possibly truncated when that many came.
The daemon answers with a thousand at most. The module follows the request through the
client, the wire, the dispatch and the store's query.

What the wire does with a response is a parameter: a response over the frame limit, or a
lost connection, is an error of the client. The `contested` flag that a listing stamps on
its notes is no field of a note here.
-/

namespace RustyBrain.Cli

open Store Proto List
open Transaction

variable {notes : List MemoryNote} {m : MemoryRow} {a b : MemoryRow}

/-! ## The request, from end to end -/

/-- `MAX_LIMIT` of the daemon. -/
def MAX_LIMIT : Nat := 1000

/-- `EXPORT_LIST_LIMIT`. -/
def EXPORT_LIST_LIMIT : Nat := 100000

/-- `MemoryEngine::list`. -/
def engineList (db : Db) (ns : Namespace) (filter : RecallFilter) (limit : Nat) :
    Result (List MemoryNote) := do
  filter.validate
  db.listFiltered ns filter limit

/-- The arm of `dispatch` for a list request. -/
def dispatchList (db : Db) (ns : Namespace) (minImportance : Option Nat) (limit : Nat)
    (filter : RecallFilter) : Result (List MemoryNote) :=
  engineList db ns (filter.foldListLegacy minImportance) (min limit MAX_LIMIT)

/-- What the wire makes of the daemon's response: the notes it listed, or an error. -/
structure Wire where
  carry : Result (List MemoryNote) → Except ClientError (List MemoryNote)
  /-- What arrives as a listing was sent as one. -/
  carry_ok : ∀ {response notes}, carry response = .ok notes → response = .ok notes

/-- `Client::list_filtered`, for a filter without anchors, which any daemon takes. -/
def clientListFiltered (wire : Wire) (db : Db) (ns : Namespace) (filter : RecallFilter)
    (limit : Nat) : Except ClientError (List MemoryNote) :=
  let split := filter.splitListLegacy
  wire.carry (dispatchList db ns split.1 limit split.2)

/-- `Client::list`. -/
def clientList (wire : Wire) (db : Db) (ns : Namespace) (minImportance : Option Nat)
    (limit : Nat) : Except ClientError (List MemoryNote) :=
  clientListFiltered wire db ns (RecallFilter.foldListLegacy {} minImportance) limit

structure ExportFilters where
  memoryType : Option MemoryType := none
  tags : List Text := []
  minImportance : Option Nat := none

/-- The part of the filter that the client applies. -/
def ExportFilters.accepts (filters : ExportFilters) (n : MemoryNote) : Bool :=
  filters.memoryType.all (n.memoryType = ·) && filters.tags.all (· ∈ n.tags)

structure ExportSnapshot where
  memories : List MemoryNote
  maybeTruncated : Bool

/-- `sort_memories_by_id`. -/
def sortMemoriesById (memories : List MemoryNote) : List MemoryNote :=
  memories.insertionSort fun a b => a.id.uuid ≤ b.id.uuid

/-- `fetch_memories`. -/
def fetchMemories (wire : Wire) (db : Db) (ns : Namespace) (filters : ExportFilters) :
    Except ClientError ExportSnapshot := do
  let memories ← clientList wire db ns filters.minImportance EXPORT_LIST_LIMIT
  pure
    { memories := sortMemoriesById (memories.filter filters.accepts)
      maybeTruncated := memories.length = EXPORT_LIST_LIMIT }

/-! ## What an export is for -/

/-- An active memory of the namespace with the minimum importance. -/
def InScope (ns : Namespace) (filters : ExportFilters) (m : MemoryRow) : Prop :=
  m.ns = ns.asDbString ∧ m.archivedAt = none ∧ ∀ lo ∈ filters.minImportance, lo ≤ m.importance
  deriving Decidable

/-- The memory of a row, if the filter wants it. -/
def wantedNote (db : Db) (filters : ExportFilters) (m : MemoryRow) : Option MemoryNote :=
  (db.rowToNote m).toOption.filter filters.accepts

/-- The active memories of the namespace that satisfy the filter. -/
def wanted (db : Db) (ns : Namespace) (filters : ExportFilters) : List MemoryNote :=
  (db.memories.filter (InScope ns filters)).filterMap (wantedNote db filters)

/-- How many memories a listing puts before this one. -/
def listedBefore (db : Db) (ns : Namespace) (filters : ExportFilters) (m : MemoryRow) : Nat :=
  (db.memories.filter fun r => InScope ns filters r ∧ NewestFirst r m ∧ r ≠ m).length

/-! ## The first elements of a sorted list -/

/-- In a list sorted without ties, an element is among the first `k` when fewer than `k`
others come before it. -/
theorem mem_take_iff_rank {α : Type*} [DecidableEq α] {R : α → α → Prop} [DecidableRel R]
    {l : List α} (hSorted : l.Pairwise R) (hNodup : l.Nodup)
    (hAnti : ∀ a ∈ l, ∀ b ∈ l, R a b → R b a → a = b) {x : α} (hx : x ∈ l) (k : Nat) :
    x ∈ l.take k ↔ (l.filter fun y => R y x ∧ y ≠ x).length < k := by
  induction l generalizing k with
  | nil => cases hx
  | cons a l ih =>
    rw [pairwise_cons] at hSorted
    rw [nodup_cons] at hNodup
    by_cases hEq : x = a
    · -- nothing comes before the head
      subst hEq
      have hNone : (x :: l).filter (fun y => R y x ∧ y ≠ x) = [] := by
        rw [filter_eq_nil_iff]
        intro y hy hBefore
        rw [decide_eq_true_eq] at hBefore
        rcases mem_cons.mp hy with rfl | hMem
        · exact hBefore.2 rfl
        · exact hBefore.2 (hAnti y hy x hx hBefore.1 (hSorted.1 y hMem))
      rw [hNone]
      cases k with
      | zero => simp
      | succ k => simp
    · have hMem : x ∈ l := (mem_cons.mp hx).resolve_left hEq
      have hHead : R a x ∧ a ≠ x := ⟨hSorted.1 x hMem, fun h => hEq h.symm⟩
      have hTail := ih hSorted.2 hNodup.2
        (fun b hb c hc => hAnti b (mem_cons_of_mem _ hb) c (mem_cons_of_mem _ hc)) hMem
      have hPos : decide (R a x ∧ a ≠ x) = true := decide_eq_true hHead
      rw [filter_cons, if_pos hPos, length_cons]
      cases k with
      | zero => simp
      | succ k =>
        rw [take_succ_cons, mem_cons, or_iff_right hEq, hTail k]
        omega

/-! ## What the daemon lists for an export -/

section

variable {db : Db} {ns : Namespace} {filters : ExportFilters} {wire : Wire}

/-- The rows that the daemon has to list, in its order. -/
def listing (db : Db) (ns : Namespace) (filters : ExportFilters) : List MemoryRow :=
  (db.memories.filter (InScope ns filters)).insertionSort (ListOrder false)

theorem filter_listTerms :
    db.memories.filter
        (db.ListTerms ns (RecallFilter.foldListLegacy {} filters.minImportance)) =
      db.memories.filter (InScope ns filters) := by
  refine filter_congr fun m _ => decide_eq_decide.mpr ?_
  simp [Db.ListTerms, Db.FilterTerms, PlainTerms, InScope, stateTerm, RecallFilter.foldListLegacy]

/-- A list request of an export is answered with the first rows of the listing. -/
theorem clientList_ok {limit : Nat}
    (h : clientList wire db ns filters.minImportance limit = .ok notes) :
    List.Forall₂ (fun m n => db.rowToNote m = .ok n)
      ((listing db ns filters).take (min limit MAX_LIMIT)) notes := by
  have hSent := wire.carry_ok h
  unfold dispatchList engineList at hSent
  rw [RecallFilter.foldListLegacy_splitListLegacy] at hSent
  obtain ⟨⟨⟩, _, hSent⟩ := except_bind_ok.mp hSent
  obtain ⟨⟨⟩, _, hSent⟩ := except_bind_ok.mp hSent
  split at hSent
  next =>
    rw [filter_listTerms] at hSent
    exact except_mapM_ok.mp hSent
  next => cases hSent

/-- Two rows of the store that a listing does not order are one. -/
theorem newestFirst_antisymm (hIds : db.ids.Nodup) (ha : a ∈ db.memories)
    (hb : b ∈ db.memories) (hab : NewestFirst a b) (hba : NewestFirst b a) : a = b := by
  refine db.row_unique hIds ha hb ?_
  have hUuid : a.memoryId.uuid = b.memoryId.uuid := by
    unfold NewestFirst at hab hba
    omega
  cases hA : a.memoryId
  cases hB : b.memoryId
  rw [hA, hB] at hUuid
  exact congrArg MemoryId.mk hUuid

theorem mem_listing :
    m ∈ listing db ns filters ↔ m ∈ db.memories ∧ InScope ns filters m := by
  rw [listing, mem_insertionSort, mem_filter, decide_eq_true_eq]

theorem listing_sorted : (listing db ns filters).Pairwise NewestFirst := by
  have : Std.Total (ListOrder false) := by
    refine ⟨fun a b => ?_⟩
    show NewestFirst a b ∨ NewestFirst b a
    unfold NewestFirst
    omega
  have : IsTrans MemoryRow (ListOrder false) := by
    refine ⟨fun a b c hab hbc => ?_⟩
    change NewestFirst a b at hab
    change NewestFirst b c at hbc
    show NewestFirst a c
    unfold NewestFirst at *
    omega
  have hSorted : (listing db ns filters).Pairwise (ListOrder false) :=
    pairwise_insertionSort _ _
  exact hSorted

theorem memories_nodup (hIds : db.ids.Nodup) : db.memories.Nodup :=
  List.Nodup.of_map _ hIds

theorem listing_nodup (hIds : db.ids.Nodup) : (listing db ns filters).Nodup :=
  (perm_insertionSort _ _).nodup_iff.mpr ((memories_nodup hIds).filter _)

/-- A memory is listed when fewer than the limit come before it. -/
theorem mem_listing_take (hIds : db.ids.Nodup) (hm : m ∈ db.memories)
    (hScope : InScope ns filters m) (limit : Nat) :
    m ∈ (listing db ns filters).take limit ↔ listedBefore db ns filters m < limit := by
  have hAnti : ∀ a ∈ listing db ns filters, ∀ b ∈ listing db ns filters,
      NewestFirst a b → NewestFirst b a → a = b := by
    intro a ha b hb
    exact newestFirst_antisymm hIds (mem_listing.mp ha).1 (mem_listing.mp hb).1
  rw [mem_take_iff_rank listing_sorted (listing_nodup hIds) hAnti (mem_listing.mpr ⟨hm, hScope⟩)]
  have hCount : ((listing db ns filters).filter fun r => NewestFirst r m ∧ r ≠ m).length =
      listedBefore db ns filters m := by
    have hPerm := (perm_insertionSort (ListOrder false)
      (db.memories.filter (InScope ns filters))).filter fun r => NewestFirst r m ∧ r ≠ m
    rw [listing, hPerm.length_eq, filter_filter, listedBefore]
    congr 1
    refine filter_congr fun r _ => ?_
    rw [Bool.eq_iff_iff]
    simp only [Bool.and_eq_true, decide_eq_true_eq]
    tauto
  rw [hCount]

/-! ## The snapshot -/

/-- The client keeps, of the notes that arrived, those the filter wants. -/
theorem filter_accepts_eq {rows : List MemoryRow}
    (h : List.Forall₂ (fun m n => db.rowToNote m = .ok n) rows notes) :
    notes.filter filters.accepts = rows.filterMap (wantedNote db filters) := by
  induction h with
  | nil => rfl
  | @cons m n rows notes hm _ ih =>
    have hWanted : wantedNote db filters m = if filters.accepts n then some n else none := by
      rw [wantedNote, hm]
      rfl
    rw [filterMap_cons, hWanted, ← ih]
    by_cases hn : filters.accepts n = true
    · rw [filter_cons_of_pos hn, if_pos hn]
    · rw [filter_cons_of_neg hn, if_neg hn]

/-- What an export fetched: the wanted ones of the first thousand rows, and never a sign of
more. -/
theorem fetchMemories_ok {snapshot : ExportSnapshot}
    (h : fetchMemories wire db ns filters = .ok snapshot) :
    snapshot.maybeTruncated = false ∧
      snapshot.memories.Perm
        (((listing db ns filters).take MAX_LIMIT).filterMap (wantedNote db filters)) := by
  obtain ⟨notes, hNotes, h⟩ := except_bind_ok.mp h
  cases h
  have hRows := clientList_ok hNotes
  have hMin : min EXPORT_LIST_LIMIT MAX_LIMIT = MAX_LIMIT := by decide
  rw [hMin] at hRows
  constructor
  · -- the daemon's limit is below the one the client compares with
    have hLength : notes.length ≤ MAX_LIMIT := by
      rw [← hRows.length_eq]
      exact length_take_le _ _
    have hLess : MAX_LIMIT < EXPORT_LIST_LIMIT := by decide
    exact decide_eq_false (by omega)
  · rw [← filter_accepts_eq hRows]
    exact perm_insertionSort _ _

/-- A wanted memory is the note of one row of the store. -/
theorem wantedNote_inj (hIds : db.ids.Nodup) {n : MemoryNote}
    (ha : a ∈ db.memories) (hb : b ∈ db.memories) (hna : wantedNote db filters a = some n)
    (hnb : wantedNote db filters b = some n) : a = b := by
  have hId {m : MemoryRow} (hn : wantedNote db filters m = some n) : n.id = m.memoryId := by
    obtain ⟨hNote, _⟩ := Option.filter_eq_some_iff.mp hn
    cases hRow : db.rowToNote m with
    | error e =>
      rw [hRow] at hNote
      cases hNote
    | ok n' =>
      rw [hRow] at hNote
      cases hNote
      exact (Db.rowToNote_decodes hRow).id
  exact db.row_unique hIds ha hb ((hId hna).symm.trans (hId hnb))

theorem wanted_perm_listing :
    (wanted db ns filters).Perm ((listing db ns filters).filterMap (wantedNote db filters)) :=
  ((perm_insertionSort _ _).filterMap _).symm

/-- An export says that it may be truncated, or it is complete, exactly when fewer than a
thousand memories are listed before each one it should contain. -/
theorem export_complete_iff (hWf : db.Wf) {wire : Wire} {snapshot : ExportSnapshot}
    (h : fetchMemories wire db ns filters = .ok snapshot) :
    (snapshot.maybeTruncated = true ∨ snapshot.memories.Perm (wanted db ns filters)) ↔
      ∀ m ∈ db.memories, InScope ns filters m → (wantedNote db filters m).isSome = true →
        listedBefore db ns filters m < 1000 := by
  obtain ⟨hNever, hFetched⟩ := fetchMemories_ok h
  rw [hNever, or_iff_right (Bool.false_ne_true)]
  constructor
  · intro hPerm m hm hScope hWanted
    obtain ⟨n, hn⟩ := Option.isSome_iff_exists.mp hWanted
    rw [← mem_listing_take hWf.ids hm hScope]
    -- the note of a wanted memory arrived, and only its own row gives that note
    have hArrived : n ∈ snapshot.memories := by
      rw [hPerm.mem_iff, wanted_perm_listing.mem_iff, mem_filterMap]
      exact ⟨m, mem_listing.mpr ⟨hm, hScope⟩, hn⟩
    rw [hFetched.mem_iff, mem_filterMap] at hArrived
    obtain ⟨m', hm', hn'⟩ := hArrived
    have hIn := (mem_listing.mp (mem_of_mem_take hm')).1
    rw [wantedNote_inj hWf.ids hm hIn hn hn']
    exact hm'
  · intro hAll
    refine hFetched.trans (List.Perm.trans ?_ wanted_perm_listing.symm)
    have hRest : ((listing db ns filters).drop MAX_LIMIT).filterMap (wantedNote db filters) = [] := by
      rw [filterMap_eq_nil_iff]
      intro m hm
      by_contra hSome
      obtain ⟨hIn, hScope⟩ := mem_listing.mp (mem_of_mem_drop hm)
      have hTaken : m ∈ (listing db ns filters).take MAX_LIMIT :=
        (mem_listing_take hWf.ids hIn hScope _).mpr
          (hAll m hIn hScope (Option.isSome_iff_ne_none.mpr hSome))
      exact disjoint_take_drop (listing_nodup hWf.ids) (Nat.le_refl _) hTaken hm
    have hSplit := congrArg (List.filterMap (wantedNote db filters))
      (take_append_drop MAX_LIMIT (listing db ns filters))
    rw [filterMap_append, hRest, append_nil] at hSplit
    rw [hSplit]

/-- An export of rows that decode succeeds when the wire carries the listing. -/
theorem fetchMemories_exists
    (hValid : (RecallFilter.foldListLegacy {} filters.minImportance).validate = .ok ())
    (hRows : ∀ m ∈ db.memories, InScope ns filters m → ∃ n, db.rowToNote m = .ok n)
    (hWire : ∀ notes, wire.carry (.ok notes) = .ok notes) :
    ∃ snapshot, fetchMemories wire db ns filters = .ok snapshot := by
  have hListed : ∀ m ∈ (listing db ns filters).take (min EXPORT_LIST_LIMIT MAX_LIMIT),
      ∃ n, db.rowToNote m = .ok n := by
    intro m hm
    obtain ⟨hIn, hScope⟩ := mem_listing.mp (mem_of_mem_take hm)
    exact hRows m hIn hScope
  obtain ⟨notes, hNotes⟩ := except_mapM_exists hListed
  have hSent : dispatchList db ns
      (RecallFilter.foldListLegacy {} filters.minImportance).splitListLegacy.1 EXPORT_LIST_LIMIT
      (RecallFilter.foldListLegacy {} filters.minImportance).splitListLegacy.2 = .ok notes := by
    unfold dispatchList engineList Db.listFiltered
    -- one bound is all that an export asks for
    have hRoom : ∀ least, termCount (RecallFilter.foldListLegacy {} least) ≤ 980 ∧
        variableCount (RecallFilter.foldListLegacy {} least) ≤ 32766 := by
      intro least
      cases least <;> exact ⟨Nat.le_of_ble_eq_true rfl, Nat.le_of_ble_eq_true rfl⟩
    rw [RecallFilter.foldListLegacy_splitListLegacy]
    have hTags : ∀ m ∈ db.memories,
        (RecallFilter.foldListLegacy {} filters.minImportance).tags ≠ [] →
        PlainTerms ns (RecallFilter.foldListLegacy {} filters.minImportance) m →
        (JsonStrings.decode m.tags).isSome := by
      intro m _ hSome
      exact absurd rfl hSome
    rw [filter_listTerms]
    refine except_bind_ok.mpr ⟨(), hValid,
      except_bind_ok.mpr ⟨(), prepareFilter_ok hValid (hRoom _).1 (hRoom _).2, ?_⟩⟩
    exact (if_pos hTags).trans hNotes
  refine ⟨_, except_bind_ok.mpr ⟨notes, ?_, rfl⟩⟩
  exact (congrArg wire.carry hSent).trans (hWire notes)

end

/-! ## One memory too many -/

/-- A wire without a limit. -/
def directWire : Wire where
  carry
    | .ok notes => .ok notes
    | .error e => .error (.daemon "storage" e.display)
  carry_ok := by
    intro response notes h
    cases response with
    | ok sent =>
      cases h
      rfl
    | error e => cases h

/-- A store after so many plain memories. -/
def filledStore (k : Nat) : Db :=
  storeAfter .blank 2 ((List.range k).map fun i => .insertMemory 0 (.plain i) none)

/-- The insert of a plain memory goes through when its id is new. -/
theorem insertPlain_run {env : Env} {db : Db} {i : Nat} (hNew : (⟨i⟩ : MemoryId) ∉ db.ids) :
    (Op.insertMemory 0 (.plain i) none).run env db =
      (db.addMemory (noteRow (.plain i))).appended .insert ⟨i⟩ 0 .empty := by
  have hRuns : Runs (Store.insertMemory 0 (.plain i) none) db ()
      ((db.addMemory (noteRow (.plain i))).appended .insert ⟨i⟩ 0 .empty) := by
    refine runs_bind.mpr ⟨(), db, rfl, runs_bind.mpr ⟨(), db.addMemory (noteRow (.plain i)), ?_,
      runs_bind.mpr ⟨(), _, runs_appendOplog.mpr rfl, rfl⟩⟩⟩
    exact runs_insertMemoryRow.mpr ⟨noteRow_check ⟨rfl, rfl, nofun⟩, hNew, nofun, rfl⟩
  show (commit (Store.insertMemory 0 (.plain i) none) db).2 = _
  rw [hRuns.commit_eq]

theorem rowToNote_plain {db : Db} (hLinks : db.links = []) (hAnchors : db.anchors = []) (i : Nat) :
    db.rowToNote (noteRow (.plain i)) = .ok (.plain i) := by
  have hBare : rowToBareNote (noteRow (.plain i)) = .ok (.plain i) := rfl
  unfold Db.rowToNote Db.loadLinks Db.loadAnchors
  rw [hBare, hLinks, hAnchors]
  rfl

/-- Every insert of a filled store succeeded. -/
theorem filledStore_tables (k : Nat) :
    (filledStore k).memories = (List.range k).map (fun i => noteRow (.plain i)) ∧
      (filledStore k).links = [] ∧ (filledStore k).anchors = [] := by
  induction k with
  | zero => exact ⟨rfl, rfl, rfl⟩
  | succ k ih =>
    obtain ⟨hMemories, hLinks, hAnchors⟩ := ih
    have hNew : (⟨k⟩ : MemoryId) ∉ (filledStore k).ids := by
      rw [Db.ids, hMemories, map_map, mem_map]
      rintro ⟨i, hi, hEq⟩
      have hSame : i = k := congrArg MemoryId.uuid hEq
      exact absurd (mem_range.mp hi) (by omega)
    have hNext : filledStore (k + 1) =
        ((filledStore k).addMemory (noteRow (.plain k))).appended .insert ⟨k⟩ 0 .empty := by
      rw [← insertPlain_run hNew]
      unfold filledStore storeAfter
      rw [range_succ, map_append, foldl_append]
      rfl
    have hFrame : (filledStore (k + 1)).memories = (filledStore k).memories ++
        [noteRow (.plain k)] ∧ (filledStore (k + 1)).links = (filledStore k).links ∧
        (filledStore (k + 1)).anchors = (filledStore k).anchors := by
      rw [hNext]
      unfold Db.appended
      split <;> exact ⟨rfl, rfl, rfl⟩
    rw [hFrame.1, hFrame.2.1, hFrame.2.2, hMemories, range_succ, map_append]
    exact ⟨rfl, hLinks, hAnchors⟩

theorem filledStore_decodes {k : Nat} (hm : m ∈ (filledStore k).memories) :
    ∃ i, m = noteRow (.plain i) ∧ (filledStore k).rowToNote m = .ok (.plain i) := by
  obtain ⟨hMemories, hLinks, hAnchors⟩ := filledStore_tables k
  rw [hMemories] at hm
  obtain ⟨i, _, rfl⟩ := mem_map.mp hm
  exact ⟨i, rfl, rowToNote_plain hLinks hAnchors i⟩

theorem filledStore_reachable (k : Nat) : Reachable .blank (fun _ => True) (filledStore k) :=
  storeAfter_reachable fun _ _ => trivial

theorem filledStore_fetches (k : Nat) :
    ∃ snapshot, fetchMemories directWire (filledStore k) .global {} = .ok snapshot := by
  refine fetchMemories_exists rfl ?_ fun notes => rfl
  intro m hm _
  obtain ⟨i, _, hNote⟩ := filledStore_decodes hm
  exact ⟨_, hNote⟩

theorem wanted_filledStore (k : Nat) : (wanted (filledStore k) .global {}).length = k := by
  have hScope : (filledStore k).memories.filter (InScope .global {}) =
      (filledStore k).memories := by
    rw [filter_eq_self]
    intro m hm
    obtain ⟨i, rfl, _⟩ := filledStore_decodes hm
    exact decide_eq_true ⟨rfl, rfl, nofun⟩
  have hAll : ∀ m ∈ (filledStore k).memories,
      (wantedNote (filledStore k) {} m).isSome = true := by
    intro m hm
    obtain ⟨i, rfl, hNote⟩ := filledStore_decodes hm
    rw [wantedNote, hNote]
    rfl
  rw [wanted, hScope, length_filterMap_eq_countP, countP_eq_length.mpr hAll,
    (filledStore_tables k).1, length_map, length_range]

/-- The export of a namespace with one memory more than the daemon lists leaves one out,
and does not say so. -/
theorem export_leaves_out_silently :
    ∃ db snapshot, Reachable .blank (fun _ => True) db ∧
      fetchMemories directWire db .global {} = .ok snapshot ∧
      snapshot.maybeTruncated = false ∧ ¬ snapshot.memories.Perm (wanted db .global {}) := by
  obtain ⟨snapshot, hFetch⟩ := filledStore_fetches 1001
  obtain ⟨hNever, hFetched⟩ := fetchMemories_ok hFetch
  refine ⟨_, snapshot, filledStore_reachable 1001, hFetch, hNever, ?_⟩
  intro hPerm
  have hWanted := hPerm.length_eq
  rw [wanted_filledStore, hFetched.length_eq] at hWanted
  have hShort := (length_filterMap_le (wantedNote (filledStore 1001) {})
    ((listing (filledStore 1001) .global {}).take MAX_LIMIT)).trans (length_take_le _ _)
  have hLimit : MAX_LIMIT = 1000 := rfl
  omega

/-- The result where nothing is left out. -/
theorem export_complete_iff_filled :
    ∃ snapshot, fetchMemories directWire (filledStore 2) .global {} = .ok snapshot ∧
      ((snapshot.maybeTruncated = true ∨
          snapshot.memories.Perm (wanted (filledStore 2) .global {})) ↔
        ∀ m ∈ (filledStore 2).memories, InScope .global {} m →
          (wantedNote (filledStore 2) {} m).isSome = true →
          listedBefore (filledStore 2) .global {} m < 1000) := by
  obtain ⟨snapshot, hFetch⟩ := filledStore_fetches 2
  exact ⟨snapshot, hFetch, export_complete_iff (filledStore_reachable 2).wf hFetch⟩

end RustyBrain.Cli
