import RustyBrain.Store.Core

/-!
# rusty-brain — the retention sweep

`retention.rs`: which memories a policy forgets, the sweep that archives or purges
them one transaction at a time, and the hard purge of one memory.
-/

namespace RustyBrain.Store

open Transaction

/-! ## The policy -/

/-- `rb_types::RetentionPolicy`. -/
structure RetentionPolicy where
  enabled : Bool := false
  maxAgeDays : Option Nat := none
  archiveAfterDays : Option Nat := none
  importanceFloor : Nat := 6
  protectedTags : List Text := []
  batchLimit : Nat := 500
  deriving DecidableEq, Repr

/-- `MAX_BATCH_LIMIT`. -/
def maxBatchLimit : Nat := 10000

/-- `RetentionPolicy::validate`. -/
def RetentionPolicy.validate (p : RetentionPolicy) : Result Unit :=
  if ¬ (1 ≤ p.importanceFloor ∧ p.importanceFloor ≤ 10) then
    .error (.invalidArgument ("retention.importance_floor " ++ toString p.importanceFloor ++
      " is out of range 1..=10"))
  else if p.maxAgeDays = some 0 then
    .error (.invalidArgument "retention.max_age_days must be at least 1")
  else if p.archiveAfterDays = some 0 then
    .error (.invalidArgument "retention.archive_after_days must be at least 1")
  else if ∃ a ∈ p.archiveAfterDays, ∃ m ∈ p.maxAgeDays, a > m then
    .error (.invalidArgument ("retention.archive_after_days (" ++
      toString (p.archiveAfterDays.getD 0) ++ ") must not exceed retention.max_age_days (" ++
      toString (p.maxAgeDays.getD 0) ++ "): archive is the stage before forget"))
  else if p.enabled = true ∧ p.maxAgeDays = none ∧ p.archiveAfterDays = none then
    .error (.invalidArgument ("retention.enabled = true requires at least one rule: set " ++
      "retention.max_age_days and/or retention.archive_after_days"))
  else if ∃ t ∈ p.protectedTags, trim t = [] then
    .error (.invalidArgument "retention.protected_tags must not contain blank entries")
  else if p.batchLimit = 0 ∨ p.batchLimit > maxBatchLimit then
    .error (.invalidArgument ("retention.batch_limit " ++ toString p.batchLimit ++
      " is out of range 1..=10000"))
  else .ok ()

/-- `ForgetMode::as_str`. -/
def ForgetMode.asStr : ForgetMode → String
  | .apply => "apply"
  | .hard => "hard"

/-! ## Candidates -/

/-- The second `days` days before `now`. -/
def cutoff (now : DateTime) (days : Nat) : Int := now.secs - days * 86400

/-- The horizon of a mode in days. Archiving takes the earlier one and may have none;
a purge needs `max_age_days` and never falls back to the archive horizon. -/
def RetentionPolicy.horizon (p : RetentionPolicy) : ForgetMode → Result (Option Nat)
  | .apply => .ok (p.archiveAfterDays.or p.maxAgeDays)
  | .hard =>
    match p.maxAgeDays with
    | some days => .ok (some days)
    | none => .error (.invalidArgument
        "hard forget requires retention.max_age_days: the archive horizon never authorizes a purge")

/-- The terms of `retention_where` on the columns of the row alone. -/
def RetentionPolicy.Passes (p : RetentionPolicy) (ns : Namespace) (mode : ForgetMode)
    (bound : Int) (m : MemoryRow) : Prop :=
  m.ns = ns.asDbString ∧ m.humanCurated = false ∧
  (mode = .apply → m.archivedAt = none) ∧ m.createdAt < bound ∧
  m.importance < p.importanceFloor ∧ m.baseImportance.getD m.importance < p.importanceFloor
  deriving Decidable

/-- `to_ascii_lowercase`, and SQLite's `lower`. -/
def asciiLower (t : Text) : Text :=
  t.map fun c => if 'A' ≤ c ∧ c ≤ 'Z' then Char.ofNat (c.toNat + 32) else c

/-- SQLite's `trim`, which strips spaces only. -/
def sqlTrim (t : Text) : Text := (t.dropWhile (· = ' ')).rdropWhile (· = ' ')

/-- One of the tags is protected, both sides trimmed and in lower case. -/
def RetentionPolicy.Protects (p : RetentionPolicy) (tags : List Text) : Prop :=
  ∃ t ∈ tags, asciiLower (sqlTrim t) ∈ p.protectedTags.map fun g => asciiLower (trim g)
  deriving Decidable

/-- The row `id` is an active memory of the namespace. -/
def Db.FarEnd (db : Db) (ns : Namespace) (id : MemoryId) : Prop :=
  ∃ far ∈ db.memories, far.memoryId = id ∧ far.archivedAt = none ∧ far.ns = ns.asDbString
  deriving Decidable

/-- The contested term of `retention_where`: the row is active and has a `contradicts`
link, in either direction, whose far end is active in the namespace. -/
def Db.RetentionContested (db : Db) (ns : Namespace) (m : MemoryRow) : Prop :=
  m.archivedAt = none ∧
    ((∃ l ∈ db.links, l.linkType = .contradicts ∧ l.sourceId = m.memoryId ∧
        db.FarEnd ns l.targetId) ∨
     (∃ l ∈ db.links, l.linkType = .contradicts ∧ l.targetId = m.memoryId ∧
        db.FarEnd ns l.sourceId))
  deriving Decidable

/-- The protected-tags term reads the stored tags with `json_each`, which fails on a
text that is not JSON. It is evaluated on every row that passes the plain terms. -/
def RetentionPolicy.Readable (p : RetentionPolicy) (ns : Namespace) (mode : ForgetMode)
    (bound : Int) (m : MemoryRow) : Prop :=
  p.protectedTags ≠ [] → p.Passes ns mode bound m → (JsonStrings.decode m.tags).isSome
  deriving Decidable

/-- A row that `retention_where` selects. -/
def Db.Eligible (db : Db) (p : RetentionPolicy) (ns : Namespace) (mode : ForgetMode)
    (bound : Int) (m : MemoryRow) : Prop :=
  p.Passes ns mode bound m ∧ ¬ p.Protects ((JsonStrings.decode m.tags).getD []) ∧
    ¬ db.RetentionContested ns m
  deriving Decidable

/-- `rb_types::ForgetCandidate`. -/
structure ForgetCandidate where
  id : MemoryId
  summary : Text
  createdAt : Int
  ageDays : Nat
  importance : Nat
  baseImportance : Nat
  lastAccessedAt : Option Int
  archived : Bool
  rule : ForgetRule
  deriving DecidableEq

/-- Whole days between two seconds, as `u32::try_from(..).unwrap_or(0)`. -/
def ageDays (now createdAt : Int) : Nat :=
  let days := (now - createdAt).tdiv 86400
  if 0 ≤ days ∧ days < 2 ^ 32 then days.toNat else 0

/-- The candidate a selected row is reported as. -/
def forgetCandidate (p : RetentionPolicy) (now : DateTime) (m : MemoryRow) :
    ForgetCandidate where
  id := m.memoryId
  summary := m.summary
  createdAt := m.createdAt
  ageDays := ageDays now.secs m.createdAt
  importance := m.importance
  baseImportance := m.baseImportance.getD m.importance
  lastAccessedAt := m.lastAccessedAt
  archived := m.archivedAt.isSome
  rule :=
    match p.maxAgeDays with
    | some days => if m.createdAt < cutoff now days then .maxAge else .archiveAge
    | none => .archiveAge

/-- `rb_types::ForgetPlan`. -/
structure ForgetPlan where
  mode : ForgetMode
  candidates : List ForgetCandidate
  totalEligible : Nat
  deriving DecidableEq

/-- The selected rows, oldest first; rows of one second in table order. -/
def Db.eligibleRows (db : Db) (p : RetentionPolicy) (ns : Namespace) (mode : ForgetMode)
    (bound : Int) : List MemoryRow :=
  (db.memories.filter (db.Eligible p ns mode bound)).insertionSort
    fun a b => a.createdAt ≤ b.createdAt

/-- `retention_candidates`. -/
def Db.retentionCandidates (db : Db) (ns : Namespace) (p : RetentionPolicy)
    (mode : ForgetMode) (now : DateTime) : Result ForgetPlan := do
  p.validate
  match ← p.horizon mode with
  | none => pure ⟨mode, [], 0⟩
  | some days =>
    if ∀ m ∈ db.memories, p.Readable ns mode (cutoff now days) m then
      let rows := db.eligibleRows p ns mode (cutoff now days)
      pure ⟨mode, (rows.take p.batchLimit).map (forgetCandidate p now), rows.length⟩
    else throw (.storage "malformed JSON")

/-! ## The purge of one memory -/

/-- `UPDATE memories SET superseded_by = NULL WHERE superseded_by = id`. -/
def clearPointers (id : MemoryId) : StoreM Unit := do
  let _ ← updateMemories (fun m => m.supersededBy = some id)
    (fun m => { m with supersededBy := none })
  pure ()

/-- The deletes and the marker of `purge_memory_for_retention`, in its order. -/
def purgeRows (now : Int) (id : MemoryId) (ns : Text) (details : OplogDetails) :
    StoreM Unit := do
  let _ ← deleteLinkRows (fun l => l.sourceId = id ∨ l.targetId = id)
  clearPointers id
  deleteVectorRow id
  deleteFeedbackRows id
  deleteOplogRows id
  deleteMemoryRow id
  insertOplogRow .purge (some id) ns now details

/-- `purge_memory_for_retention`: whether a row was purged. -/
def purgeMemoryForRetention (now : Int) (id : MemoryId) (details : OplogDetails) :
    StoreM Bool := do
  match (← get).find id with
  | none => pure false
  | some r =>
    if r.humanCurated then pure false
    else do
      purgeRows now id r.ns details
      pure true

/-! ## The sweep -/

/-- What a sweep has done so far. -/
structure SweepState where
  archivedIds : List MemoryId := []
  purgedIds : List MemoryId := []
  skipped : Nat := 0
  failure : Option String := none
  deriving DecidableEq, Repr

/-- Archive or purge one candidate. -/
def sweepOne (clock : Int) (ns : Namespace) (mode : ForgetMode) (c : ForgetCandidate) :
    StoreM Bool :=
  match mode with
  | .apply => archiveWithDetails clock c.id (.retention mode c.rule) true (some ns)
  | .hard => purgeMemoryForRetention clock c.id (.retention mode c.rule)

/-- One more candidate was archived or purged. -/
def SweepState.record (st : SweepState) (mode : ForgetMode) (id : MemoryId) : SweepState :=
  match mode with
  | .apply => { st with archivedIds := st.archivedIds ++ [id] }
  | .hard => { st with purgedIds := st.purgedIds ++ [id] }

/-- What goes wrong during a sweep, besides what its statements refuse. -/
structure SweepFaults where
  /-- Turning `secure_delete` on, before a purge. -/
  arming : Option Error := none
  /-- In the transaction of the `n`-th candidate, which is rolled back. -/
  step : Nat → Option Error := fun _ => none
  /-- Turning `secure_delete` off again. -/
  resetting : Option Error := none
  /-- Writing the row that records the run. -/
  recording : Option Error := none
  checkpointing : Option Error := none

/-- The report of a candidate that failed. -/
def stepFailure (mode : ForgetMode) (c : ForgetCandidate) (e : Error) : String :=
  mode.asStr ++ " of " ++ c.id.display ++ " failed: " ++ e.display

/-- The loop of `retention_sweep`: each candidate in a transaction of its own, and the
first failure ends the pass. `fault n` strikes the transaction of the `n`-th candidate. -/
def sweepLoopUnder (fault : Nat → Option Error) (clock : Int) (ns : Namespace) (mode : ForgetMode) :
    List ForgetCandidate → SweepState → StoreM SweepState
  | [], st => pure st
  | c :: rest, st => do
    match ← nested ((fault 0).elim (sweepOne clock ns mode c) throw) with
    | .ok true => sweepLoopUnder (fun n => fault (n + 1)) clock ns mode rest (st.record mode c.id)
    | .ok false =>
      sweepLoopUnder (fun n => fault (n + 1)) clock ns mode rest { st with skipped := st.skipped + 1 }
    | .error e => pure { st with failure := some (stepFailure mode c e) }

/-- The loop that nothing strikes. -/
abbrev sweepLoop (clock : Int) (ns : Namespace) (mode : ForgetMode) (cs : List ForgetCandidate)
    (st : SweepState) : StoreM SweepState :=
  sweepLoopUnder (fun _ => none) clock ns mode cs st

/-- `append_failure`. -/
def appendFailure (slot : Option String) (message : String) : Option String :=
  match slot with
  | some prev => some (prev ++ "; then " ++ message)
  | none => some message

/-- The checks and the plan of `retention_sweep`, before it writes. -/
def planSweep (db : Db) (ns : Namespace) (p : RetentionPolicy) (mode : ForgetMode)
    (now : DateTime) : Except Error ForgetPlan := do
  p.validate
  if p.enabled = true then
    db.retentionCandidates ns p mode now
  else
    .error (.invalidArgument
      ("retention is not enabled (retention.enabled = false): refusing to " ++
        "mutate; use a dry-run to preview, or enable it in [retention]"))

/-- `rb_types::ForgetOutcome`. -/
structure ForgetOutcome where
  mode : ForgetMode
  archived : Nat
  purged : Nat
  skipped : Nat
  totalEligible : Nat
  remaining : Nat
  failure : Option String
  deriving DecidableEq, Repr

/-- The report of a pass. -/
def forgetOutcome (plan : ForgetPlan) (st : SweepState) : ForgetOutcome where
  mode := plan.mode
  archived := st.archivedIds.length
  purged := st.purgedIds.length
  skipped := st.skipped
  totalEligible := plan.totalEligible
  remaining := plan.totalEligible - (st.archivedIds.length + st.purgedIds.length + st.skipped)
  failure := st.failure

/-- A failure at the end of a sweep is added to the report. -/
def SweepState.noting (st : SweepState) (fault : Option Error) (what : String) : SweepState :=
  match fault with
  | some e => { st with failure := appendFailure st.failure (what ++ ": " ++ e.display) }
  | none => st

/-- The row that records a run. -/
def sweepRow (ns : Namespace) (mode : ForgetMode) (now : DateTime) (plan : ForgetPlan)
    (st : SweepState) (db : Db) : Db :=
  db.logged .retentionSweep none ns.asDbString now.secs
    (.sweep mode st.archivedIds.length st.purgedIds.length plan.totalEligible st.skipped
      st.failure)

/-- The end of `retention_sweep`: the pragma is reset, the run is recorded, and after a purge
the log file is checkpointed. -/
def finishSweep (f : SweepFaults) (ns : Namespace) (mode : ForgetMode) (now : DateTime)
    (plan : ForgetPlan) (st : SweepState) (db : Db) : SweepState × Db :=
  let st₁ := if mode = .hard then st.noting f.resetting "resetting secure_delete" else st
  let st₂ := st₁.noting f.recording "recording the sweep run"
  let st₃ := if 0 < st.purgedIds.length then st₂.noting f.checkpointing "checkpointing the WAL"
    else st₂
  (st₃, f.recording.elim (sweepRow ns mode now plan st₁ db) fun _ => db)

/-- `retention_sweep`: what it reports, and the ids. The pragmas around the loop touch no
table; `clock` is the second the single writes are stamped with. -/
def retentionSweepUnder (f : SweepFaults) (clock : Int) (ns : Namespace) (p : RetentionPolicy)
    (mode : ForgetMode) (now : DateTime) : StoreM (ForgetOutcome × SweepState) := do
  let plan ← attempt (planSweep (← get) ns p mode now)
  attempt (if mode = .hard then f.arming.elim (.ok ()) .error else .ok ())
  let st ← sweepLoopUnder f.step clock ns mode plan.candidates {}
  let (st', db) := finishSweep f ns mode now plan st (← get)
  set db
  pure (forgetOutcome plan st', st')

/-- `retention_sweep`, where nothing but its statements fails. -/
abbrev retentionSweep (clock : Int) (ns : Namespace) (p : RetentionPolicy) (mode : ForgetMode)
    (now : DateTime) : StoreM (ForgetOutcome × SweepState) :=
  retentionSweepUnder {} clock ns p mode now

end RustyBrain.Store
