import RustyBrain.Store.Sweep

/-!
# rusty-brain — protected tags

A retention sweep spares a memory that has a protected tag. Both sides are trimmed and put in
lower case, the policy's tags by Rust and the stored ones by SQLite, whose `trim` takes spaces
only.

## Results

* `spared_of_protects` — a memory that SQLite finds protected survives every sweep.
-/

namespace RustyBrain.Store

open Transaction List

variable {guards tags : List Text} {α : Type} {m : MemoryRow}

/-! ## The two ways to trim -/

/-- Dropping some of the leading elements first changes nothing. -/
theorem dropWhile_dropWhile_of_imp {p q : α → Bool} (h : ∀ a, q a → p a) (l : List α) :
    (l.dropWhile q).dropWhile p = l.dropWhile p := by
  induction l with
  | nil => rfl
  | cons a rest ih =>
    by_cases hq : q a
    · rw [dropWhile_cons_of_pos hq, dropWhile_cons_of_pos (h a hq), ih]
    · rw [dropWhile_cons_of_neg hq]

theorem rdropWhile_rdropWhile_of_imp {p q : α → Bool} (h : ∀ a, q a → p a) (l : List α) :
    (l.rdropWhile q).rdropWhile p = l.rdropWhile p := by
  unfold List.rdropWhile
  rw [reverse_reverse, dropWhile_dropWhile_of_imp h]

/-- Dropping at the front and at the back commute when what goes at the back would go at the
front. -/
theorem dropWhile_rdropWhile_of_imp {p q : α → Bool} (h : ∀ a, q a → p a) (l : List α) :
    (l.rdropWhile q).dropWhile p = (l.dropWhile p).rdropWhile q := by
  induction l using List.reverseRecOn with
  | nil => rfl
  | append_singleton l a ih =>
    by_cases hq : q a
    · rw [rdropWhile_concat_pos _ _ _ hq, ih, dropWhile_append]
      split
      next hEmpty =>
        rw [isEmpty_iff.mp hEmpty, dropWhile_cons_of_pos (h a hq)]
        rfl
      next => rw [rdropWhile_concat_pos _ _ _ hq]
    · rw [rdropWhile_concat_neg _ _ _ hq, dropWhile_append]
      split
      next =>
        by_cases hp : p a
        · rw [dropWhile_cons_of_pos hp]
          rfl
        · rw [dropWhile_cons_of_neg hp, rdropWhile_singleton, if_neg hq]
      next => rw [rdropWhile_concat_neg _ _ _ hq]

theorem space_isWhitespace (c : Char) : decide (c = ' ') = true → isWhitespace c = true := by
  intro h
  rw [of_decide_eq_true h]
  decide

/-- Stripping spaces first does not change what `str::trim` leaves. -/
theorem trim_sqlTrim (t : Text) : trim (sqlTrim t) = trim t := by
  unfold trim trimStart sqlTrim
  rw [dropWhile_rdropWhile_of_imp space_isWhitespace, rdropWhile_rdropWhile_of_imp space_isWhitespace,
    dropWhile_dropWhile_of_imp space_isWhitespace]

/-- Lower case keeps white space. -/
theorem isWhitespace_asciiLower (c : Char) :
    isWhitespace (if 'A' ≤ c ∧ c ≤ 'Z' then Char.ofNat (c.toNat + 32) else c) = isWhitespace c := by
  split
  next hUpper =>
    have hLow : 65 ≤ c.toNat := hUpper.1
    have hHigh : c.toNat ≤ 90 := hUpper.2
    have hCode : (Char.ofNat (c.toNat + 32)).toNat = c.toNat + 32 := by
      have hValid : (c.toNat + 32).isValidChar := .inl (by omega)
      unfold Char.ofNat
      rw [dif_pos hValid]
      rfl
    simp only [isWhitespace, hCode]
    rw [Bool.eq_iff_iff]
    simp only [Bool.or_eq_true, Bool.and_eq_true, decide_eq_true_eq, beq_iff_eq]
    omega
  next => rfl

theorem trim_asciiLower (t : Text) : trim (asciiLower t) = asciiLower (trim t) :=
  trim_map isWhitespace_asciiLower t

/-- **Key lemma:** a stored tag that is a trimmed text after SQLite's `trim` is the one that
Rust's `trim` gives. -/
theorem asciiLower_sqlTrim {t g : Text} (h : asciiLower (sqlTrim t) = asciiLower (trim g)) :
    sqlTrim t = trim t := by
  have hStable : asciiLower (trim (sqlTrim t)) = asciiLower (sqlTrim t) := by
    calc asciiLower (trim (sqlTrim t)) = trim (asciiLower (sqlTrim t)) := (trim_asciiLower _).symm
      _ = trim (asciiLower (trim g)) := by rw [h]
      _ = asciiLower (trim (trim g)) := trim_asciiLower _
      _ = asciiLower (trim g) := by rw [trim_of_trimmed (trim_trimmed g)]
      _ = asciiLower (sqlTrim t) := h.symm
  have hLength : (trim (sqlTrim t)).length = (sqlTrim t).length := by
    have hEq := congrArg List.length hStable
    rwa [asciiLower, asciiLower, length_map, length_map] at hEq
  rw [← trim_sqlTrim t]
  exact ((trim_isInfix (sqlTrim t)).eq_of_length hLength).symm

/-! ## Protected memories -/

/-- One of the tags is protected when both sides are trimmed as Rust trims. -/
def NamesProtected (guards tags : List Text) : Prop :=
  ∃ t ∈ tags, asciiLower (trim t) ∈ guards.map fun g => asciiLower (trim g)

/-- One of the protected tags is padded with nothing but spaces. -/
def PlainlyProtected (guards tags : List Text) : Prop :=
  ∃ t ∈ tags, asciiLower (trim t) ∈ (guards.map fun g => asciiLower (trim g)) ∧ sqlTrim t = trim t

/-- What `retention_where` tests is that a protected tag is padded with spaces only. -/
theorem protects_iff (p : RetentionPolicy) (tags : List Text) :
    p.Protects tags ↔ PlainlyProtected p.protectedTags tags := by
  refine exists_congr fun t => and_congr_right fun _ => ?_
  constructor
  · intro h
    obtain ⟨g, hg, hEq⟩ := mem_map.mp h
    have hSame : sqlTrim t = trim t := asciiLower_sqlTrim hEq.symm
    exact ⟨hSame ▸ h, hSame⟩
  · rintro ⟨h, hSame⟩
    rw [hSame]
    exact h

/-- After a sweep the memory of the row is there, archived if and when it was before. -/
def Survives (f : SweepFaults) (clock : Int) (ns : Namespace) (p : RetentionPolicy)
    (mode : ForgetMode) (now : DateTime) (db : Db) (m : MemoryRow) : Prop :=
  ∃ r ∈ (commit (retentionSweepUnder f clock ns p mode now) db).2.memories,
    r.memoryId = m.memoryId ∧ r.archivedAt = m.archivedAt

/-- A memory that is not among the swept ones is there as before. -/
theorem mem_sweptRows {mode : ForgetMode} {clock : Int} {ids : List MemoryId}
    {rows : List MemoryRow} (hm : m ∈ rows) (hOut : m.memoryId ∉ ids) :
    ∃ r ∈ sweptRows mode clock ids rows, r.memoryId = m.memoryId ∧ r.archivedAt = m.archivedAt := by
  cases mode with
  | apply => exact ⟨m, mem_map.mpr ⟨m, hm, if_neg hOut⟩, rfl, rfl⟩
  | hard =>
    refine ⟨m.unpointedAll ids, mem_map_of_mem (mem_filter.mpr ⟨hm, ?_⟩), ?_, ?_⟩
    · exact decide_eq_true hOut
    · exact m.unpointedAll_memoryId ids
    · unfold MemoryRow.unpointedAll
      split <;> rfl

/-- **Key lemma:** a memory that the query of the sweep finds protected survives. -/
theorem spared_of_protects {db : Db} (hWf : db.Wf) {p : RetentionPolicy}
    (hm : m ∈ db.memories) {tags : List Text}
    (hTags : JsonStrings.decode m.tags = some tags) (hGuard : p.Protects tags) (f : SweepFaults)
    (clock : Int) (ns : Namespace) (mode : ForgetMode) (now : DateTime) :
    Survives f clock ns p mode now db m := by
  have hSame : ∀ e, commit (retentionSweepUnder f clock ns p mode now) db = (.error e, db) →
      Survives f clock ns p mode now db m := by
    intro e hRun
    unfold Survives
    rw [hRun]
    exact ⟨m, hm, rfl, rfl⟩
  cases hPlan : planSweep db ns p mode now with
  | error e => exact hSame e (retentionSweepUnder_refused hPlan)
  | ok plan =>
    have hPreview : db.retentionCandidates ns p mode now = .ok plan := planSweep_ok hPlan
    rcases retentionSweepUnder_planned hWf hPlan f clock with
      ⟨e, -, -, hRun⟩ | ⟨out, st, db', k, hRun, hMatches⟩
    · exact hSame e hRun
    · unfold Survives
      rw [hRun]
      show ∃ r ∈ db'.memories, _
      rw [hMatches.rows]
      refine mem_sweptRows hm fun hSwept => ?_
      -- a candidate is a row that the query does not find protected
      obtain ⟨c, hc, hId⟩ := mem_map.mp hSwept
      obtain ⟨r, days, hFind, -, -, hFree, -⟩ :=
        candidate_row hWf.ids hPreview (mem_of_mem_take hc)
      rw [hId, Db.find_of_mem hWf.ids hm] at hFind
      cases hFind
      rw [hTags] at hFree
      exact hFree hGuard

/-! ## When the guard holds -/

/-- A policy that forgets after a day, with these protected tags. -/
def guardedPolicy (guards : List Text) : RetentionPolicy :=
  { enabled := true, maxAgeDays := some 1, protectedTags := guards }

theorem guardedPolicy_validate {guards : List Text} (h : ∀ g ∈ guards, trim g ≠ []) :
    (guardedPolicy guards).validate = .ok () := by
  have hNoBlank : ¬ ∃ t ∈ guards, trim t = [] := fun ⟨t, ht, hBlank⟩ => h t ht hBlank
  unfold RetentionPolicy.validate guardedPolicy
  simp [hNoBlank, maxBatchLimit]

/-- A store with one memory of an unimportant, old note with these tags. -/
def taggedRow (tags : List Text) : MemoryRow := noteRow { MemoryNote.plain 1 with tags := tags }

def taggedStore (tags : List Text) : Db := { Db.init [] 2 none with memories := [taggedRow tags] }

theorem taggedStore_wf (tags : List Text) : (taggedStore tags).Wf := by
  have hCheck : (taggedRow tags).Check := (by decide : (1 ≤ 5 ∧ 5 ≤ 10) ∧ (0 : ℚ) ≤ 1 ∧ (1 : ℚ) ≤ 1)
  exact (Db.init_wf [] 2 none).addMemory hCheck not_mem_nil fun t ht => by cases ht

/-- The sweep selects the memory unless its query finds a protected tag. -/
theorem taggedStore_candidates (hGuards : ∀ g ∈ guards, trim g ≠ [])
    (hFree : ¬ (guardedPolicy guards).Protects tags) :
    (taggedStore tags).retentionCandidates .global (guardedPolicy guards) .apply ⟨200000, 0⟩ =
      .ok ⟨.apply, [forgetCandidate (guardedPolicy guards) ⟨200000, 0⟩ (taggedRow tags)], 1⟩ := by
  have hDecode : JsonStrings.decode (taggedRow tags).tags = some tags := JsonStrings.decode_encode tags
  have hEligible : (taggedStore tags).Eligible (guardedPolicy guards) .global .apply
      (cutoff ⟨200000, 0⟩ 1) (taggedRow tags) := by
    refine ⟨⟨rfl, rfl, fun _ => rfl, ?_, ?_, ?_⟩, ?_, ?_⟩
    · exact (by decide : (0 : Int) < 200000 - 1 * 86400)
    · exact (by decide : 5 < 6)
    · exact (by decide : 5 < 6)
    · rw [hDecode]
      exact hFree
    · rintro ⟨-, ⟨l, hl, -⟩ | ⟨l, hl, -⟩⟩
      · cases hl
      · cases hl
  have hRows : (taggedStore tags).eligibleRows (guardedPolicy guards) .global .apply
      (cutoff ⟨200000, 0⟩ 1) = [taggedRow tags] := by
    unfold Db.eligibleRows
    have hFilter : (taggedStore tags).memories.filter (fun m => decide ((taggedStore tags).Eligible
        (guardedPolicy guards) .global .apply (cutoff ⟨200000, 0⟩ 1) m)) = [taggedRow tags] :=
      filter_cons_of_pos (decide_eq_true hEligible)
    rw [hFilter]
    rfl
  have hReadable : ∀ m ∈ (taggedStore tags).memories,
      (guardedPolicy guards).Readable .global .apply (cutoff ⟨200000, 0⟩ 1) m := by
    intro m hm _ _
    obtain rfl := mem_singleton.mp hm
    rw [hDecode]
    rfl
  unfold Db.retentionCandidates
  rw [guardedPolicy_validate hGuards]
  show (if ∀ m ∈ (taggedStore tags).memories,
      (guardedPolicy guards).Readable .global .apply (cutoff ⟨200000, 0⟩ 1) m then _ else _) = _
  rw [if_pos hReadable, hRows]
  rfl

/-- A memory that the query does not find protected is archived in such a store. -/
theorem taggedStore_swept (hGuards : ∀ g ∈ guards, trim g ≠ [])
    (hFree : ¬ (guardedPolicy guards).Protects tags) :
    ¬ Survives {} 200000 .global (guardedPolicy guards) .apply ⟨200000, 0⟩ (taggedStore tags)
      (taggedRow tags) := by
  have hPreview := taggedStore_candidates hGuards hFree
  have hPlan := (planSweep_enabled (taggedStore tags) (guardedPolicy_validate hGuards) rfl .global
    .apply ⟨200000, 0⟩).trans hPreview
  rcases retentionSweepUnder_planned (taggedStore_wf tags) hPlan {} 200000 with
    ⟨e, -, hArming, -⟩ | ⟨out, st, db', k, hRun, hMatches⟩
  · cases hArming
  · have hAll : k = 1 := by
      -- no turn of an archiving sweep without faults fails
      by_contra hne
      have hZero : k = 0 := by
        have hLe : k ≤ 1 := hMatches.le
        omega
      subst hZero
      obtain ⟨hFault | hHeld, -⟩ := hMatches.stop _ rfl
      · exact hFault rfl
      · cases hHeld.1
    subst hAll
    rintro ⟨r, hr, -, hSame⟩
    rw [hRun] at hr
    have hRows : db'.memories = [(taggedRow tags).archived 200000] := hMatches.rows
    rw [show r = (taggedRow tags).archived 200000 from mem_singleton.mp (hRows ▸ hr)] at hSame
    cases hSame

/-- The guard holds of the memories with given tags, in every store and for every valid policy
with the given protected tags, exactly when one of the tags it should protect is padded with
spaces only. -/
theorem protected_tags_survive_iff {guards : List Text} (hGuards : ∀ g ∈ guards, trim g ≠ [])
    (tags : List Text) :
    (∀ p : RetentionPolicy, p.validate = .ok () → p.protectedTags = guards →
      ∀ db : Db, db.Wf → ∀ m ∈ db.memories, JsonStrings.decode m.tags = some tags →
      NamesProtected guards tags → ∀ f clock ns mode now, Survives f clock ns p mode now db m) ↔
    (NamesProtected guards tags → PlainlyProtected guards tags) := by
  constructor
  · intro hGuard hNamed
    by_contra hPadded
    have hFree : ¬ (guardedPolicy guards).Protects tags := fun h =>
      hPadded ((protects_iff (guardedPolicy guards) tags).mp h)
    exact taggedStore_swept hGuards hFree
      (hGuard (guardedPolicy guards) (guardedPolicy_validate hGuards) rfl (taggedStore tags)
        (taggedStore_wf tags) _ (mem_singleton_self _) (JsonStrings.decode_encode tags) hNamed
        {} 200000 .global .apply ⟨200000, 0⟩)
  · rintro hPadded p hValid rfl db hWf m hm hTags hNamed f clock ns mode now
    exact spared_of_protects hWf hm hTags ((protects_iff p tags).mpr (hPadded hNamed)) f clock ns
      mode now

/-- A tag that is padded with spaces keeps its memory. -/
theorem protected_tags_survive_spaces :
    (∀ g ∈ [['k']], trim g ≠ []) ∧ ∀ p : RetentionPolicy, p.validate = .ok () →
      p.protectedTags = [['k']] → ∀ db : Db, db.Wf → ∀ m ∈ db.memories,
      JsonStrings.decode m.tags = some [[' ', 'K', ' ']] → NamesProtected [['k']] [[' ', 'K', ' ']] →
      ∀ f clock ns mode now, Survives f clock ns p mode now db m := by
  have hGuards : ∀ g ∈ [['k']], trim g ≠ [] := by
    intro g hg
    obtain rfl := mem_singleton.mp hg
    decide
  refine ⟨hGuards, (protected_tags_survive_iff hGuards [[' ', 'K', ' ']]).mpr fun _ => ?_⟩
  exact ⟨[' ', 'K', ' '], mem_singleton_self _, by decide, by decide⟩

/-- A tag that ends in a tab does not: the memory is archived. -/
theorem tab_padded_tag_swept :
    (guardedPolicy [['k']]).validate = .ok () ∧ NamesProtected [['k']] [['k', '\t']] ∧
      JsonStrings.decode (taggedRow [['k', '\t']]).tags = some [['k', '\t']] ∧
      taggedRow [['k', '\t']] ∈ (taggedStore [['k', '\t']]).memories ∧
      ((commit (retentionSweepUnder {} 200000 .global (guardedPolicy [['k']]) .apply ⟨200000, 0⟩)
        (taggedStore [['k', '\t']])).2.memories.map fun r => (r.memoryId, r.archivedAt)) =
          [(⟨1⟩, some 200000)] := by
  refine ⟨by decide +kernel, ⟨_, mem_singleton_self _, by decide⟩, ?_, ?_, by decide +kernel⟩
  · exact JsonStrings.decode_encode _
  · exact mem_singleton_self _

end RustyBrain.Store
