import RustyBrain.Engine.Recall
import RustyBrain.Lib.Recursive

/-!
# rusty-brain — graph expansion

`graph_neighbors` walks the links of a memory by one recursive query over rows `(node, d)`, drops
the memory itself, keeps the least `d` of each node and orders by it. Neither the source nor the
target of a link needs a row of its own here, so dangling links are walked like others.

The query of a recall is the case of depth one, for which `Db.graphNeighbors` is the short form.

## Results

* `graphNeighborsWithin_spec` — a node is listed with the length of its shortest path.
-/

namespace RustyBrain.Store

open Recursive List

variable {id node : MemoryId} {db : Db}

/-- The targets of the links of a memory. -/
def Db.linkTargets (db : Db) (id : MemoryId) : List MemoryId :=
  (db.links.filter fun l => l.sourceId = id).map LinkRow.targetId

theorem Db.mem_linkTargets_iff {id target : MemoryId} :
    target ∈ db.linkTargets id ↔ ∃ l ∈ db.links, l.sourceId = id ∧ l.targetId = target := by
  unfold Db.linkTargets
  rw [mem_map]
  constructor
  · rintro ⟨l, hl, rfl⟩
    rw [mem_filter, decide_eq_true_eq] at hl
    exact ⟨l, hl.1, hl.2, rfl⟩
  · rintro ⟨l, hl, hSource, rfl⟩
    exact ⟨l, mem_filter.mpr ⟨hl, decide_eq_true hSource⟩, rfl⟩

/-- `ORDER BY MIN(d), node`. -/
def hopOrder (a b : MemoryId × Nat) : Prop := a.2 < b.2 ∨ (a.2 = b.2 ∧ a.1.uuid ≤ b.1.uuid)
  deriving Decidable

instance : Std.Total hopOrder := by
  constructor
  intro a b
  unfold hopOrder
  omega

instance : IsTrans (MemoryId × Nat) hopOrder := by
  constructor
  intro a b c hab hbc
  unfold hopOrder at *
  omega

/-- `graph_neighbors`. A query that does not end would have no result. -/
def Db.graphNeighborsWithin (db : Db) (id : MemoryId) (depth : UInt8) :
    Option (List (MemoryId × Nat)) :=
  if depth = 0 then some []
  else
    (hopRows (db.links.map LinkRow.targetId) (db.linkTargets id) db.linkTargets depth.toNat).map
      fun table => ((shortest table id).insertionSort hopOrder).map fun row =>
        -- `u8::try_from(d).unwrap_or(u8::MAX)`
        (row.1, min row.2 255)

/-! ## Paths -/

/-- A path of a number of links from a memory to another. -/
abbrev Db.LinkPath (db : Db) (n : Nat) (a b : MemoryId) : Prop := Walk db.linkTargets n a b

/-- A path to another node has a link. -/
theorem Db.linkPath_pos {n : Nat} (hNe : node ≠ id) (h : db.LinkPath n id node) : 0 < n := by
  rcases Nat.eq_zero_or_pos n with rfl | hPos
  · cases h
    exact absurd rfl hNe
  · exact hPos

/-- The rows of the query are the paths of one link up to `depth`. -/
theorem Db.graphWalk_spec (db : Db) (id : MemoryId) {depth : Nat} (hDepth : 0 < depth) :
    ∃ table, hopRows (db.links.map LinkRow.targetId) (db.linkTargets id) db.linkTargets depth =
        some table ∧
      ∀ node d, (node, d) ∈ table ↔ 0 < d ∧ d ≤ depth ∧ db.LinkPath d id node := by
  have hNodes : ∀ x, ∀ y ∈ db.linkTargets x, y ∈ db.links.map LinkRow.targetId := by
    intro x y hy
    obtain ⟨l, hl, -, rfl⟩ := Db.mem_linkTargets_iff.mp hy
    exact mem_map_of_mem hl
  obtain ⟨table, hRun, hMem⟩ := hopRows_spec hNodes
  refine ⟨table, hRun, fun node d => (hMem node d).trans ?_⟩
  constructor
  · rintro ⟨hLe, n, rfl, s, hs, hWalk⟩
    exact ⟨by omega, by omega, Walk.head hs hWalk⟩
  · rintro ⟨hPos, hLe, hPath⟩
    obtain ⟨n, rfl⟩ := Nat.exists_eq_add_of_lt hPos
    rw [Nat.zero_add] at hPath ⊢
    exact ⟨by omega, n, rfl, hPath.exists_head⟩

/-- Away from the start, the least row of a node is its shortest path. -/
theorem isLeast_rows_iff {depth hops : Nat} {table : List (MemoryId × Nat)} (hNe : node ≠ id)
    (hMem : ∀ d, (node, d) ∈ table ↔ 0 < d ∧ d ≤ depth ∧ db.LinkPath d id node) :
    IsLeast {n | (node, n) ∈ table} hops ↔
      hops ≤ depth ∧ IsLeast {n | db.LinkPath n id node} hops := by
  constructor
  · rintro ⟨hIn, hLeast⟩
    obtain ⟨-, hLe, hPath⟩ := (hMem hops).mp hIn
    refine ⟨hLe, hPath, fun n hn => ?_⟩
    by_cases hShort : n ≤ depth
    · exact hLeast ((hMem n).mpr ⟨Db.linkPath_pos hNe hn, hShort, hn⟩)
    · omega
  · rintro ⟨hLe, hPath, hLeast⟩
    refine ⟨(hMem hops).mpr ⟨Db.linkPath_pos hNe hPath, hLe, hPath⟩, fun n hn => ?_⟩
    exact hLeast ((hMem n).mp hn).2.2

/-- What the query lists, before and after it is put in order. -/
theorem graphNeighborsWithin_spec (db : Db) (id : MemoryId) (depth : UInt8) :
    ∃ rows : List (MemoryId × Nat),
      db.graphNeighborsWithin id depth = some (rows.insertionSort hopOrder) ∧
      (rows.map Prod.fst).Nodup ∧
      ∀ node hops, (node, hops) ∈ rows ↔
        node ≠ id ∧ hops ≤ depth.toNat ∧ IsLeast {n | db.LinkPath n id node} hops := by
  unfold Db.graphNeighborsWithin
  split
  · rename_i hZero
    subst hZero
    refine ⟨[], rfl, nodup_nil, fun node hops => ⟨nofun, ?_⟩⟩
    rintro ⟨hNe, hLe, hPath, -⟩
    exact absurd (Db.linkPath_pos hNe hPath) (Nat.not_lt.mpr hLe)
  · rename_i hDepth
    have hPos : 0 < depth.toNat := by
      rcases Nat.eq_zero_or_pos depth.toNat with hZero | hPos
      · exact absurd (UInt8.toNat_inj.mp hZero) hDepth
      · exact hPos
    obtain ⟨table, hRun, hMem⟩ := db.graphWalk_spec id hPos
    have hRows : ∀ node hops, (node, hops) ∈ shortest table id ↔
        node ≠ id ∧ hops ≤ depth.toNat ∧ IsLeast {n | db.LinkPath n id node} hops := by
      intro node hops
      rw [mem_shortest_iff]
      exact and_congr_right fun hNe => isLeast_rows_iff hNe (hMem node)
    refine ⟨shortest table id, ?_, shortest_nodup table id, hRows⟩
    rw [hRun, Option.map_some]
    congr 1
    -- no hop exceeds the depth, so nothing is clamped
    refine (map_congr_left fun row hRow => ?_).trans (map_id _)
    have hLe := ((hRows row.1 row.2).mp ((mem_insertionSort _).mp hRow)).2.1
    have hByte : depth.toNat < 256 := depth.toNat_lt
    rw [Nat.min_eq_left (by omega)]
    rfl

/-- Graph expansion is a bounded search for shortest paths: for every graph of links, the query
ends, and lists the nodes other than the start that a path of at most `depth` links reaches, each
once, with the length of its shortest path, by this length and then by id. -/
theorem graphNeighborsWithin_shortestPaths (db : Db) (id : MemoryId) (depth : UInt8) :
    ∃ out, db.graphNeighborsWithin id depth = some out ∧
      (∀ node hops, (node, hops) ∈ out ↔
        node ≠ id ∧ hops ≤ depth.toNat ∧ IsLeast {n | db.LinkPath n id node} hops) ∧
      (∀ node, (∃ hops, (node, hops) ∈ out) ↔
        node ≠ id ∧ ∃ n ≤ depth.toNat, db.LinkPath n id node) ∧
      (out.map Prod.fst).Nodup ∧
      out.Pairwise fun a b => a.2 < b.2 ∨ (a.2 = b.2 ∧ a.1.uuid < b.1.uuid) := by
  obtain ⟨rows, hRun, hNodup, hMem⟩ := graphNeighborsWithin_spec db id depth
  have hPerm := perm_insertionSort hopOrder rows
  have hOut : ((rows.insertionSort hopOrder).map Prod.fst).Nodup :=
    (hPerm.map Prod.fst).nodup_iff.mpr hNodup
  have hIn : ∀ node hops, (node, hops) ∈ rows.insertionSort hopOrder ↔
      node ≠ id ∧ hops ≤ depth.toNat ∧ IsLeast {n | db.LinkPath n id node} hops :=
    fun node hops => (mem_insertionSort _).trans (hMem node hops)
  refine ⟨_, hRun, hIn, fun node => ⟨?_, ?_⟩, hOut, ?_⟩
  · rintro ⟨hops, hRow⟩
    obtain ⟨hNe, hLe, hLeast⟩ := (hIn node hops).mp hRow
    exact ⟨hNe, hops, hLe, hLeast.1⟩
  · rintro ⟨hNe, n, hLe, hPath⟩
    -- the shortest of the paths is no longer than this one
    classical
    have hSome : ∃ m, db.LinkPath m id node := ⟨n, hPath⟩
    refine ⟨Nat.find hSome, (hIn node _).mpr ⟨hNe, ?_, Nat.find_spec hSome, ?_⟩⟩
    · exact Nat.le_trans (Nat.find_min' hSome hPath) hLe
    · exact fun m hm => Nat.find_min' hSome hm
  · have hSorted := pairwise_insertionSort hopOrder rows
    have hKeys := pairwise_map.mp hOut
    refine (hSorted.and hKeys).imp ?_
    rintro a b ⟨hLess | ⟨hSame, hUuid⟩, hNe⟩
    · exact Or.inl hLess
    · refine Or.inr ⟨hSame, Nat.lt_of_le_of_ne hUuid fun hEq => hNe ?_⟩
      cases hA : a.1
      cases hB : b.1
      rw [hA, hB] at hEq
      exact congrArg MemoryId.mk hEq

instance : Std.Antisymm hopOrder := by
  constructor
  rintro ⟨⟨x⟩, m⟩ ⟨⟨y⟩, n⟩ hab hba
  simp only [hopOrder] at hab hba
  obtain rfl : m = n := by omega
  obtain rfl : x = y := by omega
  rfl

/-- The query of a recall: the targets one hop away. -/
theorem graphNeighborsWithin_one (db : Db) (id : MemoryId) :
    db.graphNeighborsWithin id 1 = some ((db.graphNeighbors id).map fun node => (node, 1)) := by
  obtain ⟨rows, hRun, hNodup, hMem⟩ := graphNeighborsWithin_spec db id 1
  have hTargets : ∀ node, node ∈ db.graphNeighbors id ↔ node ≠ id ∧ node ∈ db.linkTargets id := by
    intro node
    simp only [Db.graphNeighbors, mem_insertionSort, mem_eraseDups, mem_map,
      mem_filter, decide_eq_true_eq, Db.mem_linkTargets_iff]
    constructor
    · rintro ⟨l, ⟨hl, hSource, hNe⟩, rfl⟩
      exact ⟨hNe, l, hl, hSource, rfl⟩
    · rintro ⟨hNe, l, hl, hSource, rfl⟩
      exact ⟨l, ⟨hl, hSource, hNe⟩, rfl⟩
  have hOne : ∀ node hops, (node, hops) ∈ rows ↔ node ∈ db.graphNeighbors id ∧ hops = 1 := by
    intro node hops
    rw [hMem, hTargets]
    constructor
    · rintro ⟨hNe, hLe, hPath, -⟩
      have hStep : hops = 1 := Nat.le_antisymm hLe (Db.linkPath_pos hNe hPath)
      subst hStep
      obtain ⟨y, hy, hEnd⟩ := Walk.exists_head hPath
      cases hEnd
      exact ⟨⟨hNe, hy⟩, rfl⟩
    · rintro ⟨⟨hNe, hTarget⟩, rfl⟩
      exact ⟨hNe, Nat.le_refl 1, .tail (.refl id) hTarget, fun n hn => Db.linkPath_pos hNe hn⟩
  have hSorted : (db.graphNeighbors id).Pairwise fun a b => a.uuid ≤ b.uuid := by
    have : Std.Total fun a b : MemoryId => a.uuid ≤ b.uuid := ⟨fun _ _ => Nat.le_total _ _⟩
    have : IsTrans MemoryId fun a b => a.uuid ≤ b.uuid := ⟨fun _ _ _ => Nat.le_trans⟩
    exact pairwise_insertionSort _ _
  rw [hRun]
  -- both lists have the same rows, once each and in order
  refine congrArg some (List.Perm.eq_of_pairwise' (pairwise_insertionSort hopOrder rows)
    (pairwise_map.mpr (hSorted.imp fun h => .inr ⟨rfl, h⟩)) ?_)
  refine (perm_insertionSort hopOrder rows).trans ?_
  refine (perm_ext_iff_of_nodup hNodup.of_map ?_).mpr ?_
  · refine List.Nodup.map (fun a b h => (Prod.mk.inj h).1) ?_
    exact (perm_insertionSort _ _).nodup_iff.mpr (eraseDups_nodup _)
  · rintro ⟨node, hops⟩
    rw [hOne, mem_map]
    constructor
    · rintro ⟨hIn, rfl⟩
      exact ⟨node, hIn, rfl⟩
    · rintro ⟨m, hm, hEq⟩
      cases hEq
      exact ⟨hm, rfl⟩

end RustyBrain.Store
