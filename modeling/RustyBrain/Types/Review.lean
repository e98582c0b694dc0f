import RustyBrain.Types.Note

/-!
# rusty-brain — guided review

The vocabulary of `rb_types::review`: why an item is in the queue, what can be done
with it, and which action a policy plans for it.
-/

namespace RustyBrain

/-- `ReviewReason`. -/
inductive ReviewReason where
  | contradiction | nearDuplicate | lowConfidence | staleNeverRecalled
  deriving DecidableEq, Repr

/-- `ReviewReason::as_str`. -/
def ReviewReason.asStr : ReviewReason → String
  | .contradiction => "contradiction"
  | .nearDuplicate => "near_duplicate"
  | .lowConfidence => "low_confidence"
  | .staleNeverRecalled => "stale_never_recalled"

/-- `review_item_key`: the reason and the members in id order. -/
def reviewItemKey (reason : ReviewReason) (ids : List MemoryId) : String :=
  let sorted := ids.insertionSort fun a b => a.uuid ≤ b.uuid
  reason.asStr ++ ":" ++ String.intercalate ":" (sorted.map MemoryId.display)

/-- `REVIEW_MAX_SNOOZE_DAYS`. -/
def reviewMaxSnoozeDays : Nat := 365

/-- `REVIEW_MAX_LIMIT`. -/
def reviewMaxLimit : Nat := 500

/-- `REVIEW_MIN_THRESHOLD`, the `f32` nearest to 0.80. -/
def reviewMinThreshold : ℚ := 13421773 / 2 ^ 24

/-- `REVIEW_LOW_CONFIDENCE_BOUND`, the `f32` nearest to 0.4. -/
def reviewLowConfidenceBound : ℚ := 13421773 / 2 ^ 25

/-- `REVIEW_STALE_DAYS`. -/
def reviewStaleDays : Nat := 30

/-- `REVIEW_KEEP_BUMP`, the `f32` nearest to 0.05. -/
def reviewKeepBump : ℚ := 13421773 / 2 ^ 28

/-- `REVIEW_DEMOTE_STEP`, the `f32` nearest to 0.15. -/
def reviewDemoteStep : ℚ := 5033165 / 2 ^ 25

/-- `ReviewMember`: what a review shows of one memory. -/
structure ReviewMember where
  id : MemoryId
  summary : Text
  importance : Nat
  confidence : ℚ
  createdAt : Int
  ageDays : Nat
  lastAccessedAt : Option Int
  originSource : Option Text
  originUser : Option Text
  humanCurated : Bool
  deriving DecidableEq

/-- `ReviewItem`. -/
structure ReviewItem where
  key : String
  reason : ReviewReason
  members : List ReviewMember
  similarity : Option ℚ
  deriving DecidableEq

/-- `ReviewTotals`: the items of each kind, and those a snooze hides. -/
structure ReviewTotals where
  contradictions : Nat := 0
  nearDuplicates : Nat := 0
  lowConfidence : Nat := 0
  staleNeverRecalled : Nat := 0
  snoozed : Nat := 0
  deriving DecidableEq

/-- `ReviewAction`. -/
inductive ReviewAction where
  | keep (bump : Bool)
  | merge
  | archive (id : MemoryId)
  | demote (id : MemoryId)
  | snooze (days : Nat)
  deriving DecidableEq, Repr

/-- `ReviewAction::kind_str`. -/
def ReviewAction.kindStr : ReviewAction → String
  | .keep _ => "keep"
  | .merge => "merge"
  | .archive _ => "archive"
  | .demote _ => "demote"
  | .snooze _ => "snooze"

/-- The target of an archive or demote must be a member of the item. -/
def ReviewAction.validateTarget (action : ReviewAction) (id : MemoryId)
    (memberIds : List MemoryId) : Result Unit :=
  if id ∈ memberIds then .ok ()
  else .error (.invalidArgument
    (action.kindStr ++ " target " ++ id.display ++ " is not a member of this review item"))

/-- `ReviewAction::validate`: an action against the reason and the members it is asked
for. Only a near-duplicate of two distinct members may be merged. -/
def ReviewAction.validate (action : ReviewAction) (reason : ReviewReason)
    (memberIds : List MemoryId) : Result Unit :=
  if memberIds = [] ∨ memberIds.length > 2 then
    .error (.invalidArgument
      ("a review item has 1 or 2 members, got " ++ toString memberIds.length))
  else
    match action with
    | .keep _ => .ok ()
    | .merge =>
      if reason ≠ .nearDuplicate then
        .error (.invalidArgument ("merge applies to near-duplicate items only; resolve a " ++
          "contradiction with keep, archive, demote, or snooze"))
      else if memberIds.length ≠ 2 ∨ memberIds[0]? = memberIds[1]? then
        .error (.invalidArgument "merge needs exactly two distinct members")
      else .ok ()
    | .archive id => action.validateTarget id memberIds
    | .demote id => action.validateTarget id memberIds
    | .snooze days =>
      if days = 0 ∨ days > reviewMaxSnoozeDays then
        .error (.invalidArgument
          ("snooze days " ++ toString days ++ " is out of range 1..=365"))
      else .ok ()

/-- `ReviewPolicy`. -/
inductive ReviewPolicy where
  | autoMergeDups | demoteLowConfidence
  deriving DecidableEq, Repr

/-- `ReviewPolicy::as_str`. -/
def ReviewPolicy.asStr : ReviewPolicy → String
  | .autoMergeDups => "auto-merge-dups"
  | .demoteLowConfidence => "demote-low-confidence"

/-- `MemberConfidence`. -/
structure MemberConfidence where
  id : MemoryId
  confidence : ℚ
  deriving DecidableEq

/-- `ReviewResolution`: what one resolution did. -/
structure ReviewResolution where
  key : String
  action : String
  mergedInto : Option MemoryId := none
  confidence : List MemberConfidence := []
  snoozedUntil : Option Int := none
  deriving DecidableEq

/-- `ReviewOutcome`: what one pass of a policy did. -/
structure ReviewOutcome where
  policy : Option ReviewPolicy := none
  merged : Nat := 0
  archived : Nat := 0
  demoted : Nat := 0
  kept : Nat := 0
  snoozed : Nat := 0
  skipped : Nat := 0
  totalItems : Nat := 0
  failure : Option String := none
  deriving DecidableEq

/-- One more item resolved by an action. -/
def ReviewOutcome.count (out : ReviewOutcome) : ReviewAction → ReviewOutcome
  | .keep _ => { out with kept := out.kept + 1 }
  | .merge => { out with merged := out.merged + 1 }
  | .archive _ => { out with archived := out.archived + 1 }
  | .demote _ => { out with demoted := out.demoted + 1 }
  | .snooze _ => { out with snoozed := out.snoozed + 1 }

/-- `ReviewPolicy::plan_action`: an item with a curated member is left to a human. -/
def ReviewPolicy.planAction (policy : ReviewPolicy) (item : ReviewItem) :
    Option ReviewAction :=
  if item.members.any ReviewMember.humanCurated then none
  else
    match policy, item.reason with
    | .autoMergeDups, .nearDuplicate =>
      if item.members.length = 2 then some .merge else none
    | .demoteLowConfidence, .lowConfidence =>
      item.members.head?.map fun m => .demote m.id
    | _, _ => none

end RustyBrain
