import RustyBrain.Types.Note

/-!
# rusty-brain — the recall filter

`rb_types::RecallFilter`, the one filter of recall and list, and what it decides about a
note in memory. Whether a memory is contested needs the links of the store and is left to
the callers.
-/

namespace RustyBrain

/-- `MemoryState`: the archive states a filter admits. -/
inductive MemoryState where
  | active | archived | all
  deriving DecidableEq, Repr

/-- `MemoryState::admits_archived`. -/
def MemoryState.admitsArchived : MemoryState → Bool → Bool
  | .active, isArchived => !isArchived
  | .archived, isArchived => isArchived
  | .all, _ => true

/-- `AnchorFilter`: the memories anchored to a value. -/
structure AnchorFilter where
  kind : AnchorKind
  value : Text
  deriving DecidableEq, Repr

/-- `AnchorFilter::matches_anchor`: the same kind and the same normalised value. Line
ranges do not matter. -/
def AnchorFilter.matchesAnchor (f : AnchorFilter) (a : MemoryAnchor) : Bool :=
  decide (f.kind = a.kind ∧
    normalizeAnchorValue f.kind f.value = normalizeAnchorValue a.kind a.value)

/-- `AnchorFilter::validate`. -/
def AnchorFilter.validate (f : AnchorFilter) : Result Unit :=
  if normalizeAnchorValue f.kind f.value = [] then
    .error (.invalidArgument (f.kind.kindStr ++ " anchor filter value must not be empty"))
  else .ok ()

/-- `RecallFilter`. Types, sources and trust classes are any-of, tags and anchors all-of;
an empty list or a missing bound constrains nothing. -/
structure RecallFilter where
  types : List MemoryType := []
  tags : List Text := []
  minImportance : Option Nat := none
  maxImportance : Option Nat := none
  minConfidence : Option ℚ := none
  maxConfidence : Option ℚ := none
  since : Option DateTime := none
  «until» : Option DateTime := none
  sources : List Text := []
  contested : Option Bool := none
  state : MemoryState := .active
  trustClasses : List TrustClass := []
  anchors : List AnchorFilter := []
  recallEligible : Bool := false
  deriving DecidableEq

namespace RecallFilter

/-- `fold_list_legacy`: the stricter of the two bounds. -/
def foldListLegacy (f : RecallFilter) (minImportance : Option Nat) : RecallFilter :=
  { f with
    minImportance := match f.minImportance, minImportance with
      | some a, some b => some (max a b)
      | a, b => a.or b }

/-- `split_list_legacy`: the bound goes to the slot that old daemons read. -/
def splitListLegacy (f : RecallFilter) : Option Nat × RecallFilter :=
  (f.minImportance, { f with minImportance := none })

theorem foldListLegacy_splitListLegacy (f : RecallFilter) :
    f.splitListLegacy.2.foldListLegacy f.splitListLegacy.1 = f := by
  cases f
  rfl

/-- The checks of each bound of a filter, before the pairs are compared. -/
def validateBounds (f : RecallFilter) : Result Unit := do
  f.minImportance.elim (pure ()) validateImportance
  f.maxImportance.elim (pure ()) validateImportance
  f.minConfidence.elim (pure ()) validateConfidence
  f.maxConfidence.elim (pure ()) validateConfidence

/-- The two bounds of a range are not inverted, or the error `inverted` makes of them. -/
def validateRange {α : Type} (le : α → α → Prop) [DecidableRel le] (inverted : α → α → String) :
    Option α → Option α → Result Unit
  | some lo, some hi => if le lo hi then .ok () else .error (.invalidArgument (inverted lo hi))
  | _, _ => .ok ()

/-- `RecallFilter::validate`. The text about times shows their seconds. -/
def validate (f : RecallFilter) : Result Unit := do
  f.validateBounds
  validateRange (· ≤ ·) (fun lo hi =>
    "min_importance " ++ toString lo ++ " exceeds max_importance " ++ toString hi)
    f.minImportance f.maxImportance
  validateRange (· ≤ ·) (fun lo hi =>
    "min_confidence " ++ toString lo ++ " exceeds max_confidence " ++ toString hi)
    f.minConfidence f.maxConfidence
  validateRange (· ≤ ·) (fun lo hi =>
    "since " ++ toString lo.secs ++ " is after until " ++ toString hi.secs) f.since f.«until»
  f.anchors.forM AnchorFilter.validate

/-- `RecallFilter::matches`, every dimension but `contested`. -/
def «matches» (f : RecallFilter) (n : MemoryNote) : Bool :=
  if f.recallEligible = true ∧
      (n.isQuarantined = true ∨ n.confidence < recallMinEligibleConfidence) then false
  else if f.types ≠ [] ∧ n.memoryType ∉ f.types then false
  else if ¬ ∀ t ∈ f.tags, t ∈ n.tags then false
  else if ∃ lo ∈ f.minImportance, n.importance < lo then false
  else if ∃ hi ∈ f.maxImportance, n.importance > hi then false
  else if ∃ lo ∈ f.minConfidence, n.confidence < lo then false
  else if ∃ hi ∈ f.maxConfidence, n.confidence > hi then false
  else if ∃ since ∈ f.since, ¬ since ≤ n.createdAt then false
  else if ∃ last ∈ f.«until», ¬ n.createdAt ≤ last then false
  else if f.sources ≠ [] ∧ ¬ ∃ s ∈ n.originSource, s ∈ f.sources then false
  else if f.trustClasses ≠ [] ∧ n.trustClass ∉ f.trustClasses then false
  else if ¬ ∀ a ∈ f.anchors, ∃ b ∈ n.anchors, a.matchesAnchor b = true then false
  else f.state.admitsArchived n.archivedAt.isSome

/-- The dimensions of `matches`, each on its own. -/
theorem matches_iff {f : RecallFilter} {n : MemoryNote} :
    f.matches n = true ↔
      (f.recallEligible = true →
        n.isQuarantined = false ∧ recallMinEligibleConfidence ≤ n.confidence) ∧
      (f.types ≠ [] → n.memoryType ∈ f.types) ∧
      (∀ t ∈ f.tags, t ∈ n.tags) ∧
      (∀ lo ∈ f.minImportance, lo ≤ n.importance) ∧
      (∀ hi ∈ f.maxImportance, n.importance ≤ hi) ∧
      (∀ lo ∈ f.minConfidence, lo ≤ n.confidence) ∧
      (∀ hi ∈ f.maxConfidence, n.confidence ≤ hi) ∧
      (∀ since ∈ f.since, since ≤ n.createdAt) ∧
      (∀ last ∈ f.«until», n.createdAt ≤ last) ∧
      (f.sources ≠ [] → ∃ s ∈ n.originSource, s ∈ f.sources) ∧
      (f.trustClasses ≠ [] → n.trustClass ∈ f.trustClasses) ∧
      (∀ a ∈ f.anchors, ∃ b ∈ n.anchors, a.matchesAnchor b = true) ∧
      f.state.admitsArchived n.archivedAt.isSome = true := by
  -- every early return asks for the negation of its condition
  have hStep : ∀ (c : Prop) [Decidable c] (b : Bool),
      (if c then false else b) = true ↔ ¬ c ∧ b = true := by
    intro c _ b
    by_cases hc : c <;> simp [hc]
  unfold «matches»
  simp only [hStep, not_and, not_or, not_exists, not_forall, exists_prop, not_not, not_lt,
    gt_iff_lt, Bool.not_eq_true, Bool.not_eq_false]

end RecallFilter

end RustyBrain
