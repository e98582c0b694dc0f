import RustyBrain.Lib.Transaction

/-!
# Batched queries

A list of keys is cut into chunks, the rows of each chunk are fetched by one query, decoded, and
put together again by key.
-/

namespace Batch

open Transaction List

variable {α κ ρ β ε : Type}

/-! ## Chunks -/

/-- `slice::chunks`, with the current chunk in reverse. -/
def chunksFrom (size : Nat) (chunk : List α) : List α → List (List α)
  | [] => if chunk.isEmpty then [] else [chunk.reverse]
  | x :: xs =>
    if chunk.length + 1 = size then (x :: chunk).reverse :: chunksFrom size [] xs
    else chunksFrom size (x :: chunk) xs

@[inherit_doc chunksFrom]
def chunks (size : Nat) (xs : List α) : List (List α) := chunksFrom size [] xs

theorem flatten_chunksFrom (size : Nat) (chunk xs : List α) :
    (chunksFrom size chunk xs).flatten = chunk.reverse ++ xs := by
  induction xs generalizing chunk with
  | nil =>
    unfold chunksFrom
    cases chunk with
    | nil => rfl
    | cons x rest => simp
  | cons x xs ih =>
    unfold chunksFrom
    split <;> simp [ih]

theorem flatten_chunks (size : Nat) (xs : List α) : (chunks size xs).flatten = xs :=
  flatten_chunksFrom size [] xs

/-- The rows that one query per chunk fetches, in turn. -/
def batch (size : Nat) (query : List κ → List ρ) (keys : List κ) : List ρ :=
  (chunks size keys).flatMap query

section Batch

variable [DecidableEq κ] {key : ρ → κ} {query : List κ → List ρ} {alone : κ → List ρ}

/-- The rows of one key among those of a chunk. -/
theorem filter_chunk (rows : List ρ) (chunk : List κ) (k : κ) :
    (rows.filter fun r => key r ∈ chunk).filter (fun r => key r = k) =
      if k ∈ chunk then rows.filter fun r => key r = k else [] := by
  rw [filter_filter]
  split
  · rename_i hIn
    refine filter_congr fun r _ => ?_
    by_cases hKey : key r = k
    · simp [hKey, hIn]
    · simp [hKey]
  · rename_i hOut
    rw [filter_eq_nil_iff]
    rintro r - hBoth
    rw [Bool.and_eq_true, decide_eq_true_eq, decide_eq_true_eq] at hBoth
    exact hOut (hBoth.1 ▸ hBoth.2)

theorem mem_batch_iff {size : Nat} {keys : List κ} {rows : List ρ} {r : ρ} :
    r ∈ batch size (fun chunk => rows.filter fun r => key r ∈ chunk) keys ↔
      r ∈ rows ∧ key r ∈ keys := by
  have hFlat := flatten_chunks size keys
  simp only [batch, mem_flatMap, mem_filter, decide_eq_true_eq]
  constructor
  · rintro ⟨chunk, hChunk, hr, hKey⟩
    exact ⟨hr, hFlat ▸ mem_flatten_of_mem hChunk hKey⟩
  · rintro ⟨hr, hKey⟩
    rw [← hFlat] at hKey
    obtain ⟨chunk, hChunk, hIn⟩ := mem_flatten.mp hKey
    exact ⟨chunk, hChunk, hr, hIn⟩

theorem filter_flatMap {cs : List (List κ)} (hKeys : cs.flatten.Nodup)
    (hQuery : ∀ chunk k, (query chunk).filter (fun r => key r = k) =
      if k ∈ chunk then alone k else []) (k : κ) :
    (cs.flatMap query).filter (fun r => key r = k) = if k ∈ cs.flatten then alone k else [] := by
  induction cs with
  | nil => rfl
  | cons chunk cs ih =>
    rw [flatten_cons, nodup_append] at hKeys
    rw [flatMap_cons, filter_append, hQuery, ih hKeys.2.1]
    -- a key of one chunk is in no other
    by_cases hIn : k ∈ chunk
    · have hOut : k ∉ cs.flatten := fun hLater => hKeys.2.2 k hIn k hLater rfl
      simp [hIn, hOut]
    · simp [hIn]

/-- When a query fetches for each of its keys what a query for it alone does, so does a batch of
distinct keys. -/
theorem filter_batch (size : Nat) {keys : List κ} (hKeys : keys.Nodup)
    (hQuery : ∀ chunk k, (query chunk).filter (fun r => key r = k) =
      if k ∈ chunk then alone k else []) (k : κ) :
    (batch size query keys).filter (fun r => key r = k) = if k ∈ keys then alone k else [] := by
  have hFlat := flatten_chunks size keys
  have hRows := filter_flatMap (hFlat.symm ▸ hKeys) hQuery k
  simpa only [hFlat, batch] using hRows

/-- A batch over a table with distinct keys fetches no row twice. -/
theorem batch_nodup (size : Nat) {keys : List κ} {rows : List ρ} (hKeys : keys.Nodup)
    (hRows : (rows.map key).Nodup) :
    ((batch size (fun chunk => rows.filter fun r => key r ∈ chunk) keys).map key).Nodup := by
  rw [nodup_iff_count_le_one] at hRows ⊢
  intro k
  have hCount : ∀ l : List ρ, (l.map key).count k = (l.filter fun r => key r = k).length := by
    intro l
    rw [List.count, countP_map, countP_eq_length_filter]
    rfl
  rw [hCount, filter_batch size hKeys (filter_chunk rows)]
  split
  · rw [← hCount]
    exact hRows k
  · exact Nat.zero_le 1

end Batch

/-! ## Regrouping -/

/-- Decodes rows one after another, each into the list of its key. -/
def regroup [DecidableEq κ] (key : ρ → κ) (decode : ρ → Except ε β) :
    (κ → List β) → List ρ → Except ε (κ → List β)
  | out, [] => .ok out
  | out, row :: rows => do
    let value ← decode row
    regroup key decode (Function.update out (key row) (out (key row) ++ [value])) rows

/-- Regrouping succeeds iff the rows of every key decode, and keeps their order. -/
theorem regroup_ok_iff [DecidableEq κ] {key : ρ → κ} {decode : ρ → Except ε β}
    {out out' : κ → List β} {rows : List ρ} :
    regroup key decode out rows = .ok out' ↔
      ∀ k, ∃ values, (rows.filter fun r => key r = k).mapM decode = .ok values ∧
        out' k = out k ++ values := by
  induction rows generalizing out with
  | nil =>
    constructor
    · intro h k
      cases h
      exact ⟨[], rfl, (append_nil _).symm⟩
    · intro h
      refine congrArg Except.ok (funext fun k => ?_)
      obtain ⟨values, hNone, hOut⟩ := h k
      cases hNone
      exact (hOut.trans (append_nil _)).symm
  | cons row rows ih =>
    have hHere : (row :: rows).filter (fun r => key r = key row) =
        row :: rows.filter fun r => key r = key row := by simp
    have hElse : ∀ {k}, key row ≠ k →
        (row :: rows).filter (fun r => key r = k) = rows.filter fun r => key r = k := by
      intro k hKey
      simp [hKey]
    unfold regroup
    rw [except_bind_ok]
    constructor
    · rintro ⟨value, hValue, hRest⟩ k
      obtain ⟨values, hValues, hOut⟩ := ih.mp hRest k
      by_cases hKey : key row = k
      · subst hKey
        refine ⟨value :: values, ?_, by simpa using hOut⟩
        rw [hHere, mapM_cons, hValue, hValues]
        rfl
      · refine ⟨values, ?_, by simpa [Function.update_of_ne (Ne.symm hKey)] using hOut⟩
        rwa [hElse hKey]
    · intro h
      obtain ⟨values, hValues, hOut⟩ := h (key row)
      rw [hHere, mapM_cons, except_bind_ok] at hValues
      simp only [except_bind_ok] at hValues
      obtain ⟨value, hValue, rest, hRest, hEq⟩ := hValues
      cases hEq
      refine ⟨value, hValue, ih.mpr fun k => ?_⟩
      by_cases hKey : key row = k
      · subst hKey
        exact ⟨rest, hRest, by simp [hOut]⟩
      · obtain ⟨others, hOthers, hOther⟩ := h k
        rw [hElse hKey] at hOthers
        exact ⟨others, hOthers, by rw [hOther, Function.update_of_ne (Ne.symm hKey)]⟩

/-- Two passes over the rows succeed together iff one pass does. -/
theorem mapM_mapM_ok_iff {f : α → Except ε β} {g : β → Except ε ρ} {xs : List α} {zs : List ρ} :
    (∃ ys, xs.mapM f = .ok ys ∧ ys.mapM g = .ok zs) ↔
      xs.mapM (fun x => f x >>= g) = .ok zs := by
  simp only [except_mapM_ok, except_bind_ok]
  induction xs generalizing zs with
  | nil => simp
  | cons x xs ih =>
    simp only [forall₂_cons_left_iff]
    constructor
    · rintro ⟨_, ⟨y, ys, hy, hys, rfl⟩, hzs⟩
      obtain ⟨z, rest, hz, hRest, rfl⟩ := forall₂_cons_left_iff.mp hzs
      exact ⟨z, rest, ⟨y, hy, hz⟩, ih.mp ⟨ys, hys, hRest⟩, rfl⟩
    · rintro ⟨z, rest, ⟨y, hy, hz⟩, hRest, rfl⟩
      obtain ⟨ys, hys, hzs⟩ := ih.mpr hRest
      exact ⟨y :: ys, ⟨y, ys, hy, hys, rfl⟩, .cons hz hzs⟩

/-! ## Sorting within a chunk -/

section

variable {r : α → α → Prop} [DecidableRel r]

theorem orderedInsert_of_forall {a : α} {l : List α} (h : ∀ b ∈ l, r a b) :
    l.orderedInsert r a = a :: l := by
  cases l with
  | nil => rfl
  | cons b l => exact if_pos (h b mem_cons_self)

theorem filter_orderedInsert [IsTrans α r] (p : α → Bool) (a : α) {l : List α}
    (hl : l.Pairwise r) : (l.orderedInsert r a).filter p =
      if p a then (l.filter p).orderedInsert r a else l.filter p := by
  induction l with
  | nil => simp [filter_cons]
  | cons b l ih =>
    obtain ⟨hb, hl⟩ := pairwise_cons.mp hl
    rw [orderedInsert_cons]
    split
    · rename_i hab
      -- everything from here on follows `a`, kept or not
      have hAll : ∀ c ∈ (b :: l).filter p, r a c := by
        intro c hc
        rcases mem_cons.mp (mem_of_mem_filter hc) with rfl | hc
        · exact hab
        · exact trans_of r hab (hb c hc)
      rw [filter_cons, orderedInsert_of_forall hAll]
    · rename_i hab
      rw [filter_cons, filter_cons, ih hl]
      cases hpb : p b <;> cases hpa : p a <;> simp [orderedInsert_cons, hab]

/-- A stable sort commutes with a filter. -/
theorem filter_insertionSort [Std.Total r] [IsTrans α r] (p : α → Bool) (l : List α) :
    (l.insertionSort r).filter p = (l.filter p).insertionSort r := by
  induction l with
  | nil => rfl
  | cons a l ih =>
    rw [insertionSort_cons, filter_orderedInsert p a (pairwise_insertionSort r l), ih,
      filter_cons]
    split
    · rw [insertionSort_cons]
    · rfl

end

end Batch
