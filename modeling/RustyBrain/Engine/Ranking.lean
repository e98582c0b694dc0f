import RustyBrain.Lib.Recursive
import RustyBrain.Types.Note

/-!
# rusty-brain — signals and their ranking

`rb_search`: the candidates of the three channels are folded into one record of signals
each, and the records are sorted by a score. How a score is computed differs between the
two fusion modes and is a parameter here; that the linear mode scores every candidate by
itself and the other one by its place among all of them is not.

## Results

* `buildSignals_join` — the records are the join of the three channels.
-/

namespace RustyBrain.Engine

open List

/-- `rb_search::Signals`: what the three channels say of one candidate. Distances are only
compared, so any type of them will do. -/
structure Signals (D : Type := ℚ) where
  id : MemoryId
  keywordRank : Option Nat := none
  vectorDistance : Option D := none
  graphHops : Option Nat := none
  importance : Nat
  confidence : ℚ
  createdAt : DateTime
  deriving DecidableEq

/-- What the ranking knows of a memory besides its signals. -/
structure Meta where
  importance : Nat
  confidence : ℚ
  createdAt : DateTime
  deriving DecidableEq

/-- The smaller of a value and what is there already. -/
def keepMin {α : Type} [Min α] (old : Option α) (x : α) : Option α :=
  some (old.elim x fun y => min y x)

section Signals

variable {D : Type}

/-- `slot`, and the write to it: the record of a memory, made on its first appearance. A
memory without metadata has none. -/
def touch (info : MemoryId → Option Meta) (write : Signals D → Signals D) (out : List (Signals D))
    (id : MemoryId) : List (Signals D) :=
  if id ∈ out.map Signals.id then out.map fun s => if s.id = id then write s else s
  else
    match info id with
    | some m => out ++ [write
        { id := id, importance := m.importance, confidence := m.confidence, createdAt := m.createdAt }]
    | none => out

/-- `build_signals`. -/
def buildSignals [Min D] (keyword : List MemoryId) (vector : List (MemoryId × D))
    (graph : List (MemoryId × Nat)) (info : MemoryId → Option Meta) : List (Signals D) :=
  let byKeyword := keyword.zipIdx.foldl (fun out c =>
    touch info (fun s => { s with keywordRank := keepMin s.keywordRank c.2 }) out c.1) []
  let byVector := vector.foldl (fun out c =>
    touch info (fun s => { s with vectorDistance := keepMin s.vectorDistance c.2 }) out c.1) byKeyword
  graph.foldl (fun out c =>
    touch info (fun s => { s with graphHops := keepMin s.graphHops c.2 }) out c.1) byVector

end Signals

/-- `rank` and `rank_rrf`: every record scored, in stable order of their scores, the best
first. The reciprocal ranks of a record depend on all records. -/
def rank {S : Type} [LinearOrder S] (score : List Signals → Signals → S) (signals : List Signals)
    (limit : Nat) : List (MemoryId × S) :=
  ((signals.map fun s => (s.id, score signals s)).insertionSort fun a b => b.2 ≤ a.2).take limit

/-! ## One record for each memory -/

section

variable {D : Type} {info : MemoryId → Option Meta} {id : MemoryId}

theorem eraseDups_concat (ids : List MemoryId) (id : MemoryId) :
    (ids ++ [id]).eraseDups = if id ∈ ids then ids.eraseDups else ids.eraseDups ++ [id] := by
  rw [eraseDups_append]
  by_cases h : id ∈ ids <;> simp [removeAll, h, eraseDups_cons]

/-- The record of a memory after writes to several: those to its own, in their order. -/
def record (info : MemoryId → Option Meta) (writes : List (MemoryId × (Signals D → Signals D)))
    (id : MemoryId) : Option (Signals D) :=
  (info id).map fun m => (writes.filter (·.1 = id)).foldl (fun s w => w.2 s)
    { id := id, importance := m.importance, confidence := m.confidence, createdAt := m.createdAt }

variable {writes : List (MemoryId × (Signals D → Signals D))}

theorem record_concat (write : Signals D → Signals D) (other : MemoryId) :
    record info (writes ++ [(id, write)]) other =
      if id = other then (record info writes other).map write else record info writes other := by
  by_cases h : id = other <;> simp [record, filter_append, h, Function.comp_def]

theorem record_id (hWrites : ∀ w ∈ writes, ∀ s, (w.2 s).id = s.id) {s : Signals D}
    (h : record info writes id = some s) : s.id = id := by
  obtain ⟨m, -, rfl⟩ := Option.map_eq_some_iff.mp h
  have hOwn : ∀ w ∈ writes.filter (·.1 = id), ∀ s, (w.2 s).id = s.id :=
    fun w hw => hWrites w (mem_of_mem_filter hw)
  generalize writes.filter (·.1 = id) = own at hOwn
  clear h
  induction own using List.reverseRecOn with
  | nil => rfl
  | append_singleton own w ih =>
    rw [foldl_append, foldl_cons, foldl_nil, hOwn w mem_concat_self]
    exact ih fun w hw => hOwn w (mem_append_left _ hw)

/-- **Key lemma:** a memory with metadata gets its record when it first appears, and every write
to it goes there. -/
theorem foldl_touch (info : MemoryId → Option Meta)
    (hWrites : ∀ w ∈ writes, ∀ s, (w.2 s).id = s.id) :
    writes.foldl (fun out w => touch info w.2 out w.1) [] =
      (writes.map Prod.fst).eraseDups.filterMap (record info writes) := by
  induction writes using List.reverseRecOn with
  | nil => rfl
  | append_singleton writes w ih =>
    obtain ⟨id, write⟩ := w
    replace hWrites : ∀ w ∈ writes, ∀ s, (w.2 s).id = s.id :=
      fun w hw => hWrites w (mem_append_left _ hw)
    rw [foldl_append, foldl_cons, foldl_nil, ih hWrites, map_append, map_cons, map_nil, eraseDups_concat]
    -- a write to the record of a memory, wherever the memory has one
    have hMap : ∀ ids : List MemoryId, (ids.filterMap (record info writes)).map
        (fun s => if s.id = id then write s else s) =
          ids.filterMap (record info (writes ++ [(id, write)])) := by
      intro ids
      rw [map_filterMap]
      refine filterMap_congr fun other _ => ?_
      rw [record_concat]
      cases hRecord : record info writes other with
      | none => simp
      | some s =>
        have hId := record_id hWrites hRecord
        by_cases h : id = other <;> simp [h, hId, Ne.symm]
    generalize hOut : (writes.map Prod.fst).eraseDups.filterMap (record info writes) = out at hMap
    unfold touch
    dsimp only
    split
    next hOld =>
      obtain ⟨s, hs, rfl⟩ := mem_map.mp hOld
      obtain ⟨other, hOther, hRecord⟩ := mem_filterMap.mp (hOut ▸ hs)
      rw [← record_id hWrites hRecord] at hOther
      rw [if_pos (mem_eraseDups.mp hOther), ← hMap, hOut]
    next hNew =>
      have hSame : out.map (fun s => if s.id = id then write s else s) = out :=
        (map_congr_left fun s hs => if_neg fun h => hNew (mem_map.mpr ⟨s, hs, h⟩)).trans (map_id _)
      cases hInfo : info id with
      | none =>
        have hNone : record info (writes ++ [(id, write)]) id = none := by simp [record, hInfo]
        show out = _
        split
        · rw [← hMap, hOut, hSame]
        · rw [filterMap_append, ← hMap, hOut, hSame, filterMap_cons, hNone, filterMap_nil, append_nil]
      | some m =>
        have hUnseen : id ∉ writes.map Prod.fst := by
          intro hSeen
          refine hNew (mem_map.mpr ?_)
          obtain ⟨s, hs⟩ := Option.isSome_iff_exists.mp
            (show (record info writes id).isSome by simp [record, hInfo])
          exact ⟨s, hOut ▸ mem_filterMap.mpr ⟨id, mem_eraseDups.mpr hSeen, hs⟩, record_id hWrites hs⟩
        have hOwn : writes.filter (·.1 = id) = [] :=
          filter_eq_nil_iff.mpr fun w hw h => hUnseen (mem_map.mpr ⟨w, hw, of_decide_eq_true h⟩)
        rw [if_neg hUnseen, filterMap_append, ← hMap, hOut, hSame]
        simp [record, hInfo, hOwn]

/-! ## The three channels -/

theorem foldl_keepMin [LinearOrder D] (xs : List D) : xs.foldl keepMin none = xs.min? := by
  cases xs with
  | nil => rfl
  | cons x xs =>
    have hSome : ∀ y : D, xs.foldl keepMin (some y) = some (xs.foldl min y) := by
      induction xs with
      | nil => exact fun _ => rfl
      | cons x xs ih => exact fun y => ih (min y x)
    rw [min?_cons']
    exact hSome x

/-- The values that a channel has for a memory. -/
def valuesOf {α : Type} (channel : List (MemoryId × α)) (id : MemoryId) : List α :=
  (channel.filter (·.1 = id)).map Prod.snd

/-- The writes of a channel to the record of one memory, all to one field of it. -/
theorem foldl_channel {α : Type} [Min α] (get : Signals D → Option α)
    (put : Signals D → Option α → Signals D) (hGet : ∀ s x, get (put s x) = x)
    (hPut : ∀ s x y, put (put s x) y = put s y) (hSelf : ∀ s, put s (get s) = s)
    (channel : List (MemoryId × α)) (id : MemoryId) (s : Signals D) :
    ((channel.map fun c => (c.1, fun s => put s (keepMin (get s) c.2))).filter (·.1 = id)).foldl
      (fun s w => w.2 s) s = put s ((valuesOf channel id).foldl keepMin (get s)) := by
  rw [filter_map, foldl_map, valuesOf]
  show (channel.filter (·.1 = id)).foldl _ s = _
  induction channel.filter (·.1 = id) generalizing s with
  | nil => exact (hSelf s).symm
  | cons c rest ih => rw [foldl_cons, ih, hGet, hPut, map_cons, foldl_cons]

/-- The writes of the three loops, in their order. -/
def writesOf [Min D] (keyword : List MemoryId) (vector : List (MemoryId × D))
    (graph : List (MemoryId × Nat)) : List (MemoryId × (Signals D → Signals D)) :=
  keyword.zipIdx.map (fun c => (c.1, fun s => { s with keywordRank := keepMin s.keywordRank c.2 })) ++
    vector.map (fun c => (c.1, fun s => { s with vectorDistance := keepMin s.vectorDistance c.2 })) ++
    graph.map fun c => (c.1, fun s => { s with graphHops := keepMin s.graphHops c.2 })

section

variable [LinearOrder D] (keyword : List MemoryId) (vector : List (MemoryId × D))
  (graph : List (MemoryId × Nat)) (info : MemoryId → Option Meta)

theorem writesOf_ids (w : MemoryId × (Signals D → Signals D)) (hw : w ∈ writesOf keyword vector graph)
    (s : Signals D) : (w.2 s).id = s.id := by
  simp only [writesOf, mem_append, mem_map] at hw
  obtain (⟨c, -, rfl⟩ | ⟨c, -, rfl⟩) | ⟨c, -, rfl⟩ := hw <;> rfl

theorem buildSignals_eq : buildSignals keyword vector graph info =
    (keyword ++ vector.map Prod.fst ++ graph.map Prod.fst).eraseDups.filterMap
      (record info (writesOf keyword vector graph)) := by
  have hFold : buildSignals keyword vector graph info =
      (writesOf keyword vector graph).foldl (fun out w => touch info w.2 out w.1) [] := by
    rw [writesOf, foldl_append, foldl_append, foldl_map, foldl_map, foldl_map]
    rfl
  have hIds : (writesOf keyword vector graph).map Prod.fst =
      keyword ++ vector.map Prod.fst ++ graph.map Prod.fst := by
    simp [writesOf, Function.comp_def]
  rw [hFold, foldl_touch info (writesOf_ids keyword vector graph), hIds]

/-- Each candidate has one record. -/
theorem buildSignals_nodup : ((buildSignals keyword vector graph info).map Signals.id).Nodup := by
  rw [buildSignals_eq, map_filterMap]
  refine (Recursive.eraseDups_nodup _).filterMap fun a b id ha hb => ?_
  obtain ⟨s, hs, rfl⟩ := Option.map_eq_some_iff.mp ha
  obtain ⟨t, ht, hEq⟩ := Option.map_eq_some_iff.mp hb
  rw [← record_id (writesOf_ids keyword vector graph) hs, ← hEq,
    record_id (writesOf_ids keyword vector graph) ht]

/-- **Key result:** the records are the join of the channels: one for each distinct id with
metadata, in the order in which the channels first name it, with the best rank, distance and
number of hops that the id has there. -/
theorem buildSignals_join : buildSignals keyword vector graph info =
    (keyword ++ vector.map Prod.fst ++ graph.map Prod.fst).eraseDups.filterMap fun id =>
      (info id).map fun m =>
        { id := id
          keywordRank := (valuesOf keyword.zipIdx id).min?
          vectorDistance := (valuesOf vector id).min?
          graphHops := (valuesOf graph id).min?
          importance := m.importance
          confidence := m.confidence
          createdAt := m.createdAt } := by
  rw [buildSignals_eq]
  refine filterMap_congr fun id _ => congrArg (Option.map · (info id)) (funext fun m => ?_)
  rw [writesOf, filter_append, filter_append, foldl_append, foldl_append,
    foldl_channel Signals.keywordRank (fun s x => { s with keywordRank := x }) (fun _ _ => rfl)
      (fun _ _ _ => rfl) fun _ => rfl,
    foldl_channel Signals.vectorDistance (fun s x => { s with vectorDistance := x }) (fun _ _ => rfl)
      (fun _ _ _ => rfl) fun _ => rfl,
    foldl_channel Signals.graphHops (fun s x => { s with graphHops := x }) (fun _ _ => rfl)
      (fun _ _ _ => rfl) fun _ => rfl]
  dsimp only
  rw [foldl_keepMin, foldl_keepMin, foldl_keepMin]

end

end

/-! ## The ranking -/

section

variable {S : Type} [LinearOrder S]

/-- A ranking lists no memory twice, and none without a record. -/
theorem rank_nodup (score : List Signals → Signals → S) {signals : List Signals}
    (h : (signals.map Signals.id).Nodup) (limit : Nat) :
    ((rank score signals limit).map Prod.fst).Nodup := by
  have hAll : ((signals.map fun s => (s.id, score signals s)).map Prod.fst).Nodup := by
    rw [map_map]
    exact h
  rw [rank]
  refine List.Nodup.sublist ((take_sublist _ _).map _) ?_
  rw [((perm_insertionSort _ _).map Prod.fst).nodup_iff]
  exact hAll

end

end RustyBrain.Engine
