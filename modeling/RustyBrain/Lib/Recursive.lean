import Mathlib

/-!
# Recursive queries

The meaning of `WITH RECURSIVE … UNION …` as SQLite evaluates it: rows wait in a queue, each is
taken out once, and the recursive part adds the rows it yields unless they are already in the
table. On top of it the walk that carries its length in the row, and the shortest length of each
node that it reaches.

## Results

* `withRecursive_spec` — when all rows come from a finite universe, the query returns, and its
  table has exactly the derivable rows, each once.
-/

namespace Recursive

open List

variable {α : Type} [DecidableEq α] {d : Nat}

/-! ## The query -/

/-- The rows that `UNION` lets through: those that are not in the table, each once. -/
def fresh (table : List α) : List α → List α
  | [] => []
  | r :: rs => if r ∈ table then fresh table rs else r :: fresh (r :: table) rs

theorem mem_fresh_iff {table rows : List α} {r : α} :
    r ∈ fresh table rows ↔ r ∈ rows ∧ r ∉ table := by
  induction rows generalizing table with
  | nil => simp [fresh]
  | cons q rows ih =>
    unfold fresh
    split
    · rename_i hIn
      rw [ih, mem_cons]
      constructor
      · exact fun h => ⟨.inr h.1, h.2⟩
      · rintro ⟨rfl | hRows, hNot⟩
        · exact absurd hIn hNot
        · exact ⟨hRows, hNot⟩
    · rename_i hOut
      rw [mem_cons, ih, mem_cons, mem_cons, not_or]
      constructor
      · rintro (rfl | ⟨hRows, -, hNot⟩)
        · exact ⟨.inl rfl, hOut⟩
        · exact ⟨.inr hRows, hNot⟩
      · rintro ⟨rfl | hRows, hNot⟩
        · exact .inl rfl
        · by_cases hSame : r = q
          · exact .inl hSame
          · exact .inr ⟨hRows, hSame, hNot⟩

theorem fresh_nodup (table rows : List α) : (fresh table rows).Nodup := by
  induction rows generalizing table with
  | nil => exact nodup_nil
  | cons q rows ih =>
    unfold fresh
    split
    · exact ih table
    · refine nodup_cons.mpr ⟨?_, ih _⟩
      intro hIn
      exact (mem_fresh_iff.mp hIn).2 (mem_cons_self ..)

/-- `DISTINCT` leaves nothing twice. -/
theorem eraseDups_nodup (rows : List α) : rows.eraseDups.Nodup := by
  induction h : rows.length using Nat.strong_induction_on generalizing rows with
  | _ n ih =>
    cases rows with
    | nil => exact nodup_nil
    | cons r rest =>
      rw [eraseDups_cons]
      have hFewer : (rest.filter fun q => !q == r).length < n := by
        rw [← h]
        exact Nat.lt_succ_of_le (length_filter_le _ rest)
      refine nodup_cons.mpr ⟨fun hIn => ?_, ih _ hFewer _ rfl⟩
      have hOut := (mem_filter.mp (mem_eraseDups.mp hIn)).2
      simp at hOut

/-- The loop of the query. `table` has every row that was ever queued; the query ends when the
queue is empty. -/
def recurse (step : α → List α) : Nat → List α → List α → Option (List α)
  | _, table, [] => some table
  | 0, _, _ :: _ => none
  | fuel + 1, table, row :: queue =>
    let new := fresh table (step row)
    recurse step fuel (table ++ new) (queue ++ new)

/-- `WITH RECURSIVE table AS (seed UNION step)`. -/
def withRecursive (fuel : Nat) (seed : List α) (step : α → List α) : Option (List α) :=
  recurse step fuel (fresh [] seed) (fresh [] seed)

/-- The rows that the seed and the recursive part yield. -/
inductive Derivable (seed : List α) (step : α → List α) : α → Prop
  | seed {r : α} (h : r ∈ seed) : Derivable seed step r
  | step {r q : α} (h : Derivable seed step r) (hq : q ∈ step r) : Derivable seed step q

/-- The loop keeps the rows taken out of the queue before those that wait in it, and has added
everything that the former yield. -/
structure Invariant (seed : List α) (step : α → List α) (taken queue : List α) : Prop where
  nodup : (taken ++ queue).Nodup
  seeded : ∀ r ∈ seed, r ∈ taken ++ queue
  sound : ∀ r ∈ taken ++ queue, Derivable seed step r
  closed : ∀ r ∈ taken, ∀ q ∈ step r, q ∈ taken ++ queue

section

variable {seed : List α} {step : α → List α}

theorem Invariant.start : Invariant seed step [] (fresh [] seed) where
  nodup := fresh_nodup [] seed
  seeded _ hr := mem_fresh_iff.mpr ⟨hr, not_mem_nil⟩
  sound _ hr := .seed (mem_fresh_iff.mp hr).1
  closed _ hr := absurd hr not_mem_nil

/-- One turn of the loop keeps the invariant. -/
theorem Invariant.next {taken queue : List α} {row : α}
    (h : Invariant seed step taken (row :: queue)) :
    Invariant seed step (taken ++ [row])
      (queue ++ fresh (taken ++ row :: queue) (step row)) := by
  have hTable : taken ++ [row] ++ (queue ++ fresh (taken ++ row :: queue) (step row)) =
      (taken ++ row :: queue) ++ fresh (taken ++ row :: queue) (step row) := by
    simp
  constructor
  · rw [hTable]
    refine List.Nodup.append h.nodup (fresh_nodup _ _) ?_
    intro r hOld hNew
    exact (mem_fresh_iff.mp hNew).2 hOld
  · intro r hr
    rw [hTable]
    exact mem_append_left _ (h.seeded r hr)
  · intro r hr
    rw [hTable] at hr
    rcases mem_append.mp hr with hOld | hNew
    · exact h.sound r hOld
    · exact .step (h.sound row (by simp)) (mem_fresh_iff.mp hNew).1
  · intro r hr q hq
    rw [hTable]
    rcases mem_append.mp hr with hOld | hLast
    · exact mem_append_left _ (h.closed r hOld q hq)
    · rw [mem_singleton] at hLast
      subst hLast
      -- what the row yields was in the table before, or is new
      by_cases hIn : q ∈ taken ++ r :: queue
      · exact mem_append_left _ hIn
      · exact mem_append_right _ (mem_fresh_iff.mpr ⟨hq, hIn⟩)

omit [DecidableEq α] in
/-- With the queue empty the table is everything derivable. -/
theorem Invariant.complete {taken : List α} (h : Invariant seed step taken []) {r : α}
    (hr : Derivable seed step r) : r ∈ taken := by
  induction hr with
  | seed hSeed => simpa using h.seeded _ hSeed
  | step _ hq ih => simpa using h.closed _ ih _ hq

omit [DecidableEq α] in
theorem Invariant.table {taken : List α} (h : Invariant seed step taken []) :
    taken.Nodup ∧ ∀ r, r ∈ taken ↔ Derivable seed step r :=
  ⟨by simpa using h.nodup, fun r => ⟨fun hr => h.sound r (by simpa using hr), h.complete⟩⟩

theorem recurse_spec {bound : List α} (hAll : ∀ r, Derivable seed step r → r ∈ bound) :
    ∀ (fuel : Nat) {taken queue : List α}, Invariant seed step taken queue →
      bound.length ≤ fuel + taken.length →
      ∃ table, recurse step fuel (taken ++ queue) queue = some table ∧ table.Nodup ∧
        ∀ r, r ∈ table ↔ Derivable seed step r := by
  intro fuel
  induction fuel with
  | zero =>
    intro taken queue h hFuel
    -- the table lies within the bound, so nothing can be waiting any more
    have hSub : (taken ++ queue).length ≤ bound.length :=
      (h.nodup.subperm fun r hr => hAll r (h.sound r hr)).length_le
    rw [length_append] at hSub
    have hDone : queue = [] := length_eq_zero_iff.mp (by omega)
    subst hDone
    rw [append_nil]
    exact ⟨taken, rfl, h.table⟩
  | succ fuel ih =>
    intro taken queue h hFuel
    cases queue with
    | nil =>
      rw [append_nil]
      exact ⟨taken, rfl, h.table⟩
    | cons row queue =>
      have hLength : bound.length ≤ fuel + (taken ++ [row]).length := by
        rw [length_append, length_singleton]
        omega
      have hRest := ih h.next hLength
      simpa [recurse] using hRest

/-- The query returns the derivable rows, each once, when they are finitely many. -/
theorem withRecursive_spec {bound : List α} {fuel : Nat}
    (hAll : ∀ r, Derivable seed step r → r ∈ bound) (hFuel : bound.length ≤ fuel) :
    ∃ table, withRecursive fuel seed step = some table ∧ table.Nodup ∧
      ∀ r, r ∈ table ↔ Derivable seed step r :=
  recurse_spec hAll fuel Invariant.start (by simpa using hFuel)

end

/-! ## Walks that count their steps -/

section

variable {seed : List α} {succ : α → List α}

/-- A walk of a number of steps, each to a successor. -/
inductive Walk (succ : α → List α) : Nat → α → α → Prop
  | refl (x : α) : Walk succ 0 x x
  | tail {n : Nat} {x y z : α} (h : Walk succ n x y) (hz : z ∈ succ y) : Walk succ (n + 1) x z

omit [DecidableEq α] in
theorem Walk.head {n : Nat} {x y z : α} (hy : y ∈ succ x) (h : Walk succ n y z) :
    Walk succ (n + 1) x z := by
  induction h with
  | refl y => exact .tail (.refl x) hy
  | tail _ hz ih => exact .tail (ih hy) hz

omit [DecidableEq α] in
/-- The first step of a walk. -/
theorem Walk.exists_head {n : Nat} {x z : α} (h : Walk succ (n + 1) x z) :
    ∃ y ∈ succ x, Walk succ n y z := by
  induction n generalizing z with
  | zero =>
    obtain _ | ⟨h, hz⟩ := h
    cases h
    exact ⟨z, hz, .refl z⟩
  | succ n ih =>
    obtain _ | ⟨h, hz⟩ := h
    obtain ⟨y, hy, hRest⟩ := ih h
    exact ⟨y, hy, .tail hRest hz⟩

/-- The recursive part of a walk of at most `bound` steps: `SELECT next, hop + 1 … WHERE
hop < bound`. -/
def hopStep (succ : α → List α) (bound : Nat) (row : α × Nat) : List (α × Nat) :=
  if row.2 < bound then (succ row.1).map fun x => (x, row.2 + 1) else []

/-- The rows `(node, hops)` of a walk that starts at the seed with one hop. All nodes after the
seed come from `nodes`, so that many rounds suffice. -/
def hopRows (nodes seed : List α) (succ : α → List α) (bound : Nat) : Option (List (α × Nat)) :=
  withRecursive (seed.length + nodes.length * bound) (seed.map fun x => (x, 1))
    (hopStep succ bound)

omit [DecidableEq α] in
/-- A row is derivable iff a walk from the seed takes one step less. A bound of zero leaves the
seed. -/
theorem derivable_hop_iff {bound : Nat} {x : α} :
    Derivable (seed.map fun x => (x, 1)) (hopStep succ bound) (x, d) ↔
      d ≤ max 1 bound ∧ ∃ n, d = n + 1 ∧ ∃ s ∈ seed, Walk succ n s x := by
  constructor
  · intro h
    generalize hRow : (x, d) = row at h
    induction h generalizing x d with
    | seed hSeed =>
      subst hRow
      obtain ⟨s, hs, hEq⟩ := mem_map.mp hSeed
      cases hEq
      exact ⟨by omega, 0, rfl, x, hs, .refl x⟩
    | step _ hq ih =>
      rename_i r q _
      subst hRow
      obtain ⟨hLe, n, hn, s, hs, hWalk⟩ := ih rfl
      unfold hopStep at hq
      split at hq
      · obtain ⟨y, hy, hEq⟩ := mem_map.mp hq
        cases hEq
        exact ⟨by omega, n + 1, by omega, s, hs, .tail hWalk hy⟩
      · cases hq
  · rintro ⟨hLe, n, rfl, s, hs, hWalk⟩
    induction hWalk with
    | refl => exact .seed (mem_map_of_mem hs)
    | tail hWalk hz ih =>
      rename_i n _ y z
      refine .step (ih (by omega) hs) ?_
      have hRoom : n + 1 < bound := by omega
      simp only [hopStep, if_pos hRoom]
      exact mem_map_of_mem hz

/-- The query of a bounded walk returns, and has a row for each length of a walk. -/
theorem hopRows_spec {nodes : List α} {bound : Nat} (hNodes : ∀ x, ∀ y ∈ succ x, y ∈ nodes) :
    ∃ table, hopRows nodes seed succ bound = some table ∧
      ∀ x d, (x, d) ∈ table ↔
        d ≤ max 1 bound ∧ ∃ n, d = n + 1 ∧ ∃ s ∈ seed, Walk succ n s x := by
  -- a row is in the seed, or has a node of `nodes` after at most `bound` hops
  let rows := (seed.map fun x => (x, 1)) ++ nodes ×ˢ ((List.range bound).map (· + 1))
  have hAll : ∀ r, Derivable (seed.map fun x => (x, 1)) (hopStep succ bound) r → r ∈ rows := by
    intro r hr
    cases hr with
    | seed h => exact mem_append_left _ h
    | step h hq =>
      unfold hopStep at hq
      split at hq
      · rename_i hRoom
        obtain ⟨y, hy, rfl⟩ := mem_map.mp hq
        refine mem_append_right _ (mem_product.mpr ⟨hNodes _ y hy, ?_⟩)
        exact mem_map_of_mem (mem_range.mpr hRoom)
      · cases hq
  have hFuel : rows.length ≤ seed.length + nodes.length * bound := by
    simp [rows, length_product]
  obtain ⟨table, hRun, -, hMem⟩ := withRecursive_spec hAll hFuel
  exact ⟨table, hRun, fun x d => (hMem (x, d)).trans derivable_hop_iff⟩

end

/-! ## The shortest walk to each node -/

/-- `MIN(hop)` over the rows of one node. -/
def minHops (table : List (α × Nat)) (x : α) : Option Nat :=
  ((table.filter fun r => r.1 = x).map Prod.snd).min?

/-- `SELECT node, MIN(hop) … WHERE node <> start GROUP BY node`. -/
def shortest (table : List (α × Nat)) (start : α) : List (α × Nat) :=
  (((table.map Prod.fst).filter fun x => x ≠ start).dedup).filterMap fun x =>
    (minHops table x).map fun d => (x, d)

theorem minHops_eq_some_iff {table : List (α × Nat)} {x : α} :
    minHops table x = some d ↔ IsLeast {n | (x, n) ∈ table} d := by
  have hMem : ∀ n, n ∈ (table.filter fun r => r.1 = x).map Prod.snd ↔ (x, n) ∈ table := by
    intro n
    simp
  unfold minHops
  rw [min?_eq_some_iff, hMem]
  constructor
  · rintro ⟨hIn, hLeast⟩
    exact ⟨hIn, fun n hn => hLeast n ((hMem n).mpr hn)⟩
  · rintro ⟨hIn, hLeast⟩
    exact ⟨hIn, fun n hn => hLeast ((hMem n).mp hn)⟩

/-- Each node but the start is listed with its least number of hops. -/
theorem mem_shortest_iff {table : List (α × Nat)} {start x : α} :
    (x, d) ∈ shortest table start ↔ x ≠ start ∧ IsLeast {n | (x, n) ∈ table} d := by
  unfold shortest
  rw [mem_filterMap]
  constructor
  · rintro ⟨y, hy, hRow⟩
    obtain ⟨n, hMin, hEq⟩ := Option.map_eq_some_iff.mp hRow
    cases hEq
    rw [mem_dedup, mem_filter, decide_eq_true_eq] at hy
    exact ⟨hy.2, minHops_eq_some_iff.mp hMin⟩
  · rintro ⟨hNe, hLeast⟩
    refine ⟨x, ?_, ?_⟩
    · rw [mem_dedup, mem_filter, decide_eq_true_eq]
      exact ⟨mem_map_of_mem hLeast.1, hNe⟩
    · rw [minHops_eq_some_iff.mpr hLeast]
      rfl

/-- No node is listed twice. -/
theorem shortest_nodup (table : List (α × Nat)) (start : α) :
    ((shortest table start).map Prod.fst).Nodup := by
  have hNodes := nodup_dedup ((table.map Prod.fst).filter fun x => x ≠ start)
  have hSub : ((shortest table start).map Prod.fst).Sublist
      (((table.map Prod.fst).filter fun x => x ≠ start).dedup) := by
    unfold shortest
    rw [map_filterMap]
    generalize ((table.map Prod.fst).filter fun x => x ≠ start).dedup = nodes
    induction nodes with
    | nil => exact List.Sublist.slnil
    | cons x nodes ih =>
      rw [filterMap_cons]
      cases minHops table x with
      | none => exact ih.cons x
      | some d => exact ih.cons_cons x
  exact hNodes.sublist hSub

end Recursive
