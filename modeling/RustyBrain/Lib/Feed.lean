import Mathlib

/-!
# Resumable feeds

A feed hands out events about the entries of a numbered log. A reader that keeps the number
of the last event it took, and later asks for what comes after it, loses an entry when an
event with that number or a higher one came before the event about the entry. Entries that
a stream announces in time, exactly once, and pages of a log that skip nothing rule this out.

## Results

* `page_append_rest` — reading on from the highest number of a page skips and repeats nothing.
-/

namespace Feed

/-! ## Announcements -/

open List

section Announced

variable {ε : Type} {seq : ε → Option Nat} {tells tells' : ε → Prop} {n : Nat} {stream : List ε}

/-- The stream tells of an entry numbered `n`, and every event before that one has a lower
number. -/
def Announced (seq : ε → Option Nat) (tells : ε → Prop) (n : Nat) (stream : List ε) : Prop :=
  ∃ before e after, stream = before ++ e :: after ∧ tells e ∧ ∀ x ∈ before, ∀ s ∈ seq x, s < n

/-- Earlier events with lower numbers do not matter. -/
theorem Announced.after {earlier : List ε} (hEarlier : ∀ x ∈ earlier, ∀ s ∈ seq x, s < n)
    (h : Announced seq tells n stream) : Announced seq tells n (earlier ++ stream) := by
  obtain ⟨before, e, after, rfl, hTold, hBefore⟩ := h
  refine ⟨earlier ++ before, e, after, by simp, hTold, fun x hx => ?_⟩
  rcases mem_append.mp hx with hx | hx
  · exact hEarlier x hx
  · exact hBefore x hx

/-- The first event of a stream tells of the entry, or has a lower number and leaves the
entry announced. -/
theorem announced_cons {e : ε} {rest : List ε} :
    Announced seq tells n (e :: rest) ↔
      tells e ∨ (∀ s ∈ seq e, s < n) ∧ Announced seq tells n rest := by
  constructor
  · rintro ⟨before, x, after, hEq, hTold, hBefore⟩
    cases before with
    | nil =>
      obtain ⟨rfl, rfl⟩ := List.cons.inj hEq
      exact .inl hTold
    | cons y before =>
      obtain ⟨rfl, rfl⟩ := List.cons.inj hEq
      refine .inr ⟨hBefore e mem_cons_self, before, x, after, rfl, hTold, fun z hz => ?_⟩
      exact hBefore z (mem_cons_of_mem _ hz)
  · rintro (hTold | ⟨hLow, h⟩)
    · exact ⟨[], e, rest, rfl, hTold, nofun⟩
    · have hEarlier : ∀ x ∈ [e], ∀ s ∈ seq x, s < n := fun x hx => mem_singleton.mp hx ▸ hLow
      exact h.after hEarlier

end Announced

/-! ## Exact deliveries -/

section

variable {ε : Type} {seq : ε → Option Nat} {tells tells' : ε → Prop} {n : Nat}
  {stream earlier more : List ε}

/-- The stream tells of an entry numbered `n` exactly once, and every event before that one
has a lower number. -/
def Once (seq : ε → Option Nat) (tells : ε → Prop) (n : Nat) (stream : List ε) : Prop :=
  ∃ before e after, stream = before ++ e :: after ∧ tells e ∧
    (∀ x ∈ before, ¬ tells x ∧ ∀ s ∈ seq x, s < n) ∧ ∀ x ∈ after, ¬ tells x

/-- An announcement that no other event repeats. -/
theorem Announced.once (h : Announced seq tells n stream)
    (hLow : ∀ x, (∀ s ∈ seq x, s < n) → ¬ tells x)
    (hDistinct : stream.Pairwise fun x y => ¬ (tells x ∧ tells y)) : Once seq tells n stream := by
  obtain ⟨before, e, after, rfl, hTold, hBefore⟩ := h
  refine ⟨before, e, after, rfl, hTold, fun x hx => ⟨hLow x (hBefore x hx), hBefore x hx⟩, ?_⟩
  intro x hx hTells
  obtain ⟨-, hTail, -⟩ := pairwise_append.mp hDistinct
  exact (pairwise_cons.mp hTail).1 x hx ⟨hTold, hTells⟩

theorem Once.congr (h : Once seq tells n stream) (hTells : ∀ e ∈ stream, (tells e ↔ tells' e)) :
    Once seq tells' n stream := by
  obtain ⟨before, e, after, rfl, hTold, hBefore, hAfter⟩ := h
  refine ⟨before, e, after, rfl, (hTells e (by simp)).mp hTold, fun x hx => ?_, fun x hx => ?_⟩
  · exact ⟨fun hx' => (hBefore x hx).1 ((hTells x (by simp [hx])).mpr hx'), (hBefore x hx).2⟩
  · exact fun hx' => hAfter x hx ((hTells x (by simp [hx])).mpr hx')

theorem Once.append (h : Once seq tells n stream) (hMore : ∀ x ∈ more, ¬ tells x) :
    Once seq tells n (stream ++ more) := by
  obtain ⟨before, e, after, rfl, hTold, hBefore, hAfter⟩ := h
  refine ⟨before, e, after ++ more, by simp, hTold, hBefore, fun x hx => ?_⟩
  rcases mem_append.mp hx with hx | hx
  · exact hAfter x hx
  · exact hMore x hx

theorem Once.after (hEarlier : ∀ x ∈ earlier, ¬ tells x ∧ ∀ s ∈ seq x, s < n)
    (h : Once seq tells n stream) : Once seq tells n (earlier ++ stream) := by
  obtain ⟨before, e, after, rfl, hTold, hBefore, hAfter⟩ := h
  refine ⟨earlier ++ before, e, after, by simp, hTold, fun x hx => ?_, hAfter⟩
  rcases mem_append.mp hx with hx | hx
  · exact hEarlier x hx
  · exact hBefore x hx

/-- A filter that keeps the event in question changes nothing about it. -/
theorem Once.filter {p : ε → Bool} (h : Once seq tells n stream)
    (hKeep : ∀ e ∈ stream, tells e → p e = true) : Once seq tells n (stream.filter p) := by
  obtain ⟨before, e, after, rfl, hTold, hBefore, hAfter⟩ := h
  refine ⟨before.filter p, e, after.filter p, ?_, hTold, fun x hx => ?_, fun x hx => ?_⟩
  · rw [filter_append, filter_cons_of_pos (hKeep e (by simp) hTold)]
  · exact hBefore x (mem_filter.mp hx).1
  · exact hAfter x (mem_filter.mp hx).1

/-- Whatever part of the stream came first tells of the entry or stays below it. -/
theorem Once.split {sent rest : List ε} (h : Once seq tells n (sent ++ rest)) :
    (∃ e ∈ sent, tells e) ∨ ∀ x ∈ sent, ∀ s ∈ seq x, s < n := by
  obtain ⟨before, e, after, hEq, hTold, hBefore, -⟩ := h
  rcases append_eq_append_iff.mp hEq with ⟨mid, rfl, -⟩ | ⟨mid, rfl, hRest⟩
  · exact .inr fun x hx => (hBefore x (mem_append_left _ hx)).2
  · cases mid with
    | nil =>
      rw [append_nil]
      exact .inr fun x hx => (hBefore x hx).2
    | cons y mid =>
      obtain ⟨rfl, -⟩ := List.cons.inj hRest
      exact .inl ⟨e, by simp, hTold⟩

/-- No two events of the stream tell of the entry. -/
theorem Once.pairwise (h : Once seq tells n stream) :
    stream.Pairwise fun x y => ¬ (tells x ∧ tells y) := by
  obtain ⟨before, e, after, rfl, -, hBefore, hAfter⟩ := h
  refine pairwise_append.mpr ⟨?_, pairwise_cons.mpr ⟨?_, ?_⟩, ?_⟩
  · exact pairwise_of_forall_mem_list fun x hx _ _ hBoth => (hBefore x hx).1 hBoth.1
  · exact fun y hy hBoth => hAfter y hy hBoth.2
  · exact pairwise_of_forall_mem_list fun x hx _ _ hBoth => hAfter x hx hBoth.1
  · exact fun x hx _ _ hBoth => (hBefore x hx).1 hBoth.1

end

/-! ## Pages of a log -/

section

variable {ρ : Type} {seq : ρ → Nat} {log : List ρ} {after limit : Nat} {r x : ρ}

/-- The first `limit` entries of a log numbered above `after`. -/
def page (seq : ρ → Nat) (log : List ρ) (after limit : Nat) : List ρ :=
  (log.filter fun r => after < seq r).take limit

theorem mem_page (h : r ∈ page seq log after limit) : r ∈ log ∧ after < seq r := by
  have hFilter := mem_of_mem_take h
  exact ⟨(mem_filter.mp hFilter).1, of_decide_eq_true (mem_filter.mp hFilter).2⟩

/-- A page that is not full has every entry above `after`. -/
theorem page_of_short (hShort : (page seq log after limit).length < limit) :
    page seq log after limit = log.filter fun r => after < seq r := by
  unfold page at hShort ⊢
  refine take_of_length_le ?_
  rw [length_take] at hShort
  omega

/-- The highest number of some entries, at least `after`. -/
theorem foldl_max_spec (seq : ρ → Nat) (rows : List ρ) (after : Nat) :
    let last := rows.foldl (fun last r => max last (seq r)) after
    after ≤ last ∧ (∀ x ∈ rows, seq x ≤ last) ∧ (last = after ∨ ∃ x ∈ rows, seq x = last) := by
  induction rows generalizing after with
  | nil => exact ⟨Nat.le_refl _, nofun, .inl rfl⟩
  | cons r rows ih =>
    obtain ⟨hAfter, hBelow, hLast⟩ := ih (max after (seq r))
    refine ⟨(Nat.le_max_left _ _).trans hAfter, fun x hx => ?_, ?_⟩
    · rcases mem_cons.mp hx with rfl | hx
      · exact le_trans (Nat.le_max_right _ _) hAfter
      · exact hBelow x hx
    · rcases hLast with hLast | ⟨x, hx, hLast⟩
      · rw [foldl_cons, hLast]
        rcases Nat.le_total (seq r) after with hLe | hLe
        · exact .inl (Nat.max_eq_left hLe)
        · exact .inr ⟨r, mem_cons_self, (Nat.max_eq_right hLe).symm⟩
      · exact .inr ⟨x, mem_cons_of_mem _ hx, hLast⟩

/-- **A page and what lies above it are all there is**: reading on from the highest number of
a page skips nothing and repeats nothing. -/
theorem page_append_rest (hLog : log.Pairwise fun a b => seq a < seq b) :
    page seq log after limit ++ log.filter (fun r =>
      (page seq log after limit).foldl (fun last r => max last (seq r)) after < seq r) =
      log.filter fun r => after < seq r := by
  obtain ⟨hAfter, hBelow, hLast⟩ := foldl_max_spec seq (page seq log after limit) after
  generalize (page seq log after limit).foldl (fun last r => max last (seq r)) after = last
    at hAfter hBelow hLast ⊢
  set rows := log.filter fun r => after < seq r
  -- what is above the page is the part that `take` left out
  have hRest : log.filter (fun r => last < seq r) = rows.filter fun r => last < seq r := by
    rw [filter_filter]
    refine filter_congr fun r _ => ?_
    by_cases h : last < seq r
    · simp [h, hAfter.trans_lt h]
    · simp [h]
  have hSplit := take_append_drop limit rows
  have hSorted : rows.Pairwise fun a b => seq a < seq b := hLog.filter _
  rw [← hSplit] at hSorted
  have hTake : (rows.take limit).filter (fun r => last < seq r) = [] := by
    refine filter_eq_nil_iff.mpr fun x hx => ?_
    have hx' := hBelow x hx
    simp only [decide_eq_true_eq]
    omega
  have hDrop : (rows.drop limit).filter (fun r => last < seq r) = rows.drop limit := by
    refine filter_eq_self.mpr fun y hy => decide_eq_true ?_
    rcases hLast with rfl | ⟨x, hx, rfl⟩
    · exact of_decide_eq_true (mem_filter.mp (mem_of_mem_drop hy)).2
    · exact (pairwise_append.mp hSorted).2.2 x hx y hy
  have hAbove : rows.filter (fun r => last < seq r) = rows.drop limit := by
    nth_rewrite 1 [← hSplit]
    rw [filter_append, hTake, hDrop, nil_append]
  rw [hRest, hAbove]
  exact hSplit

end

end Feed
