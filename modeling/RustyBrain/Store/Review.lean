import RustyBrain.Store.Core
import RustyBrain.Types.Review

/-!
# rusty-brain — review resolutions in the store

The write side of `review.rs`: snoozes, resolutions, and the merge of two
near-duplicates into one combined memory.
-/

namespace RustyBrain.Store

open Transaction

/-- `append_review_oplog`: a row about no single memory. -/
def appendReviewOplog (ns : Namespace) (op : OplogOp) (details : Text) (now : DateTime) :
    StoreM Unit :=
  insertOplogRow op none ns.asDbString now.secs (.review details)

/-- `upsert_review_state`. -/
def upsertReviewState (ns : Namespace) (key : String) (reviewedAt : Int)
    (snoozeUntil : Option Int) : StoreM Unit :=
  upsertReviewRow ⟨key, ns.asDbString, reviewedAt, snoozeUntil⟩

/-- A key of a review item must not be blank. -/
def requireKey (key : String) : StoreM Unit :=
  require (trim key.toList ≠ []) (.invalidArgument "review item key must not be empty")

/-- `snooze_review_item`: the second the snooze ends. -/
def snoozeReviewItem (ns : Namespace) (key : String) (days : Nat) (details : Text)
    (now : DateTime) : StoreM Int := do
  requireKey key
  require (days ≠ 0 ∧ days ≤ reviewMaxSnoozeDays)
    (.invalidArgument ("snooze days " ++ toString days ++ " is out of range 1..=365"))
  upsertReviewState ns key now.secs (some (now.secs + days * 86400))
  appendReviewOplog ns .reviewResolve details now
  pure (now.secs + days * 86400)

/-- `record_review_resolution`. -/
def recordReviewResolution (ns : Namespace) (key : String) (details : Text)
    (now : DateTime) : StoreM Unit := do
  requireKey key
  upsertReviewState ns key now.secs none
  appendReviewOplog ns .reviewResolve details now

/-- `record_review_sweep`. -/
def recordReviewSweep (ns : Namespace) (details : Text) (now : DateTime) : StoreM Unit :=
  appendReviewOplog ns .reviewSweep details now

/-! ## The merge -/

/-- `stored_pair_similarity`: two stored vectors of one length, compared. -/
def Db.storedPairSimilarity (env : Env) (db : Db) (a b : MemoryId) : Option ℚ :=
  match db.vectors.find? (fun v => v.memoryId = a), db.vectors.find? (fun v => v.memoryId = b) with
  | some va, some vb =>
    if va.embedding.length = vb.embedding.length then
      env.similarity va.embedding vb.embedding
    else none
  | _, _ => none

/-- The re-validation of one member: in the namespace, unresolved, and not curated
unless the caller may retire curated memories. -/
def checkMember (ns : Namespace) (allowCuratedSupersede : Bool) (id : MemoryId) :
    StoreM Unit := do
  match (← get).find id with
  | none => throw (.notFound id)
  | some r => do
    require (r.ns = ns.asDbString) (.notFound id)
    require r.Current (.stalePlan (id.display ++
      " was already resolved (archived or superseded), likely by a " ++
      "concurrent review; re-run review for a fresh queue"))
    require (r.humanCurated = true → allowCuratedSupersede = true)
      (.stalePlan (id.display ++ " is human-curated; automatic review cannot supersede it"))

/-- The re-validation of the pair: still comparable, and still similar enough. -/
def checkSimilarity (env : Env) (a b : MemoryId) (minSimilarity : ℚ) : StoreM Unit := do
  match (← get).storedPairSimilarity env a b with
  | none => throw (.stalePlan ("the pair " ++ a.display ++ " / " ++ b.display ++
      " can no longer be compared (a stored vector is missing); " ++
      "re-run review for a fresh queue"))
  | some s =>
    require (minSimilarity ≤ s) (.stalePlan ("similarity " ++ toString s ++ " of " ++
      a.display ++ " / " ++ b.display ++ " is below the " ++ toString minSimilarity ++
      " threshold; the pair no longer qualifies as near-duplicates"))

/-- The outgoing external edges of the originals, moved to the combined memory. -/
def copiedOut (new a b : MemoryId) (db : Db) : List LinkRow :=
  (db.links.filter fun l => (l.sourceId = a ∨ l.sourceId = b) ∧
      (l.targetId ≠ new ∧ l.targetId ≠ a ∧ l.targetId ≠ b) ∧ l.linkType ≠ .supersedes).map
    fun l => { l with sourceId := new }

/-- The incoming external edges of the originals, moved to the combined memory. -/
def copiedIn (new a b : MemoryId) (db : Db) : List LinkRow :=
  (db.links.filter fun l => (l.targetId = a ∨ l.targetId = b) ∧
      (l.sourceId ≠ new ∧ l.sourceId ≠ a ∧ l.sourceId ≠ b) ∧ l.linkType ≠ .supersedes).map
    fun l => { l with targetId := new }

/-- `supersede_unclaimed_in_tx`: the guarded supersede with the errors of the merge. -/
def supersedeUnclaimedInTx (old new : MemoryId) (now : Int) (key : String) : StoreM Unit := do
  match ← supersedeGuardedInTx old new now with
  | .applied => pure ()
  | .selfSupersede =>
    throw (.invalidArgument ("a memory cannot supersede itself: " ++ old.display))
  | _ => throw (.stalePlan (old.display ++ " was claimed by a concurrent resolution of " ++ key ++
      "; re-run review for a fresh queue"))

/-- The writing half of `review_merge`, after its guards. -/
def mergeWrites (ns : Namespace) (a b : MemoryId) (n : MemoryNote) (e : Option Embedding)
    (details : Text) (now : DateTime) : StoreM Unit := do
  insertMemoryTxBody now.secs n e
  insertLinksOrIgnore (copiedOut n.id a b)
  insertLinksOrIgnore (copiedIn n.id a b)
  let key := reviewItemKey .nearDuplicate [a, b]
  supersedeUnclaimedInTx a n.id now.secs key
  supersedeUnclaimedInTx b n.id now.secs key
  upsertReviewState ns key now.secs none
  appendReviewOplog ns .reviewResolve details now

/-- `review_merge`: replace two near-duplicates by one combined memory, in one
transaction. -/
def reviewMerge (env : Env) (ns : Namespace) (a b : MemoryId) (minSimilarity : ℚ)
    (n : MemoryNote) (embedding : Option Embedding) (details : Text)
    (allowCuratedSupersede : Bool) (now : DateTime) : StoreM Unit := do
  require (a ≠ b ∧ n.id ≠ a ∧ n.id ≠ b)
    (.invalidArgument "merge needs two distinct originals and a fresh combined id")
  require (n.ns = ns) (.invalidArgument ("combined memory namespace " ++
    String.ofList n.ns.asDbString ++ " does not match the merge namespace " ++
    String.ofList ns.asDbString))
  checkMember ns allowCuratedSupersede a
  checkMember ns allowCuratedSupersede b
  checkSimilarity env a b minSimilarity
  validateNote n
  mergeWrites ns a b n embedding details now

end RustyBrain.Store
