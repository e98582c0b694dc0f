import RustyBrain.Daemon.Client
import RustyBrain.Daemon.Requests
import RustyBrain.Store.Maintenance

/-!
# rusty-brain — merging duplicates

The two automatic deduplications of the daemon: the consolidation job, which walks over a
bounded window of the oldest memories and collapses each cluster of duplicates into one
survivor, and the suppression of near-duplicates right after a hook wrote a memory. Both read
first and write later; what they read may be stale when they write, and the writer checks again.
-/

namespace RustyBrain.Daemon

open Store Engine Transaction Sessions Interleaving

/-! ## The survivor of a cluster -/

/-- `MemoryMeta`. -/
structure MemoryMeta where
  id : MemoryId
  importance : Nat
  createdAt : DateTime
  humanCurated : Bool
  deriving DecidableEq

/-- The order of `pick_survivor`: `a` is preferred to `b`. A curated memory comes first, then
importance, then the newer one, then the smaller id. -/
def MemoryMeta.Beats (a b : MemoryMeta) : Prop :=
  (a.humanCurated = true ∧ b.humanCurated = false) ∨
    (a.humanCurated = b.humanCurated ∧
      (b.importance < a.importance ∨
        (a.importance = b.importance ∧
          (¬ a.createdAt ≤ b.createdAt ∨
            (a.createdAt = b.createdAt ∧ a.id.uuid < b.id.uuid)))))
  deriving Decidable

/-- `Iterator::max_by` with that order: of equal elements the last one. -/
def preferred : List MemoryMeta → Option MemoryMeta
  | [] => none
  | m :: rest => some (rest.foldl (fun best c => if best.Beats c then best else c) m)

/-- `pick_survivor`. -/
def pickSurvivor (cluster : List MemoryMeta) : Option MemoryId :=
  (preferred cluster).map MemoryMeta.id

/-- The metadata of a candidate. -/
def metaOf (c : ConsolidationCandidate) : MemoryMeta :=
  ⟨c.id, c.importance, c.createdAt, c.humanCurated⟩

/-! ## The consolidation job -/

/-- `JobSummary`. -/
structure JobSummary where
  scanned : Nat := 0
  changed : Nat := 0
  skipped : Nat := 0
  deriving DecidableEq, Repr

/-- `ConsolidationConfig`, the knobs of a pass; the default threshold is the `f32` value of
0.95. -/
structure ConsolidationConfig where
  similarityThreshold : ℚ := 15938355 / 2 ^ 24
  batchLimit : Nat := 200
  deriving DecidableEq

/-- `MemberOutcome`. -/
inductive MemberOutcome where
  | changed (receipt : DuplicateSupersede)
  | preserved
  | lostRace
  | staleSurvivor
  deriving DecidableEq

/-- What a pass has done so far: its counters, and the memories that it will not look at
again. -/
structure Pass where
  summary : JobSummary := {}
  consumed : List MemoryId := []
  deriving DecidableEq

/-- The pass has left one more memory alone. -/
def Pass.skip (p : Pass) : Pass := { p with summary.skipped := p.summary.skipped + 1 }

/-- The pass will not look at this memory again. -/
def Pass.consume (p : Pass) (id : MemoryId) : Pass := { p with consumed := id :: p.consumed }

/-- `StoreHandle::get`: a note of the namespace. -/
def getScoped (ns : Namespace) (id : MemoryId) (db : Db) : Result (Option MemoryNote) :=
  (db.getMemory id).map fun n => n.filter fun n => n.ns = ns

section Job

variable (env : Env) (draws : Draws)

/-- `StoreHandle::supersede_duplicate`. -/
def commandDuplicate (ns : Namespace) (old new : MemoryId) : ClientM (Option DuplicateSupersede) :=
  command env draws (fun now => .supersedeDuplicate now.secs ns old new)
    fun now => supersedeDuplicate now.secs ns old new

/-- `supersede_member`: a refusal because of a stale row is either the member's or the
survivor's, and the survivor is read again to tell which. -/
def supersedeMember (ns : Namespace) (member survivor : MemoryId) : ClientM MemberOutcome := do
  match ← attempted (commandDuplicate env draws ns member survivor) with
  | .ok (some receipt) => pure (.changed receipt)
  | .ok none => pure .preserved
  | .error (.stalePlan _) =>
    let current ← query env (getScoped ns survivor)
    if current.any fun s => s.archivedAt = none ∧ s.supersededBy = none then pure .lostRace
    else pure .staleSurvivor
  | .error (.notFound id) =>
    if id = survivor then pure .staleSurvivor else throw (.notFound id)
  | .error e => throw e

/-- The loop over the members of a cluster: the survivor at its end, whether the survivor went
stale, and the pass. -/
def absorb (ns : Namespace) :
    List MemoryMeta → MemoryId → Pass → ClientM (MemoryId × Bool × Pass)
  | [], survivor, p => pure (survivor, false, p)
  | m :: rest, survivor, p =>
    if m.id = survivor then absorb ns rest survivor p
    else do
      match ← supersedeMember env draws ns m.id survivor with
      | .changed receipt =>
        absorb ns rest receipt.survivor
          (Pass.consume { p with summary.changed := p.summary.changed + 1 } receipt.archived)
      | .preserved => absorb ns rest survivor p.skip
      | .lostRace => absorb ns rest survivor (p.skip.consume m.id)
      | .staleSurvivor => pure (survivor, true, p.skip)

/-- The duplicates of an anchor that take part in its cluster: not yet consumed, and in the
window of this pass. -/
def liveDuplicates (candidates : List ConsolidationCandidate) (p : Pass) (anchor : MemoryId)
    (dups : List (MemoryId × ℚ)) : List ConsolidationCandidate :=
  (dups.filter fun d => d.1 ≠ anchor ∧ d.1 ∉ p.consumed).filterMap fun d =>
    candidates.find? fun c => c.id = d.1

/-- One candidate of a pass. -/
def consolidateOne (cfg : ConsolidationConfig) (candidates : List ConsolidationCandidate)
    (cand : ConsolidationCandidate) (p : Pass) : ClientM Pass := do
  let p := { p with summary.scanned := p.summary.scanned + 1 }
  if cand.id ∈ p.consumed then pure p
  else
    let dups ← query env fun db =>
      db.equivalentDuplicates env cand.ns cand.id cfg.similarityThreshold cfg.batchLimit
    let cluster := metaOf cand :: (liveDuplicates candidates p cand.id dups).map metaOf
    match (liveDuplicates candidates p cand.id dups).isEmpty, pickSurvivor cluster with
    | true, _ => pure p.skip
    | false, none => pure p.skip
    | false, some survivor =>
      let (survivor, stale, p) ← absorb env draws cand.ns cluster survivor p
      -- the survivor is never an anchor again; a stale one leaves the anchor eligible
      let p := p.consume survivor
      pure (if stale then p else p.consume cand.id)

/-- The loop of `consolidate_candidates`, over the candidates still to come. -/
def consolidateLoop (cfg : ConsolidationConfig) (candidates : List ConsolidationCandidate) :
    List ConsolidationCandidate → Pass → ClientM Pass
  | [], p => pure p
  | cand :: rest, p => do
    let p ← consolidateOne env draws cfg candidates cand p
    consolidateLoop cfg candidates rest p

/-- `consolidate_candidates`. -/
def consolidateCandidates (cfg : ConsolidationConfig) (candidates : List ConsolidationCandidate) :
    ClientM JobSummary := do
  let p ← consolidateLoop env draws cfg candidates candidates {}
  pure p.summary

/-- `consolidation::run`. -/
def runConsolidation (cfg : ConsolidationConfig) : ClientM JobSummary := do
  let candidates ← query env fun db => db.candidatesForConsolidation cfg.batchLimit
  consolidateCandidates env draws cfg candidates

/-! ## Suppression after a hook write -/

/-- `HOOK_NEAR_DUP_THRESHOLD`, the `f32` value of 0.97. -/
def hookNearDupThreshold : ℚ := 16273900 / 2 ^ 24

/-- `HOOK_NEAR_DUP_LIMIT`. -/
def hookNearDupLimit : Nat := 8

/-- The loop of `suppress_hook_near_duplicates`. Whatever goes wrong with one duplicate leaves
it live, and the loop goes on. -/
def suppressLoop (engine : MemoryEngine) (ns : Namespace) :
    List (MemoryId × ℚ) → MemoryId → ClientM MemoryId
  | [], survivor => pure survivor
  | (dup, _) :: rest, survivor =>
    if dup = survivor then suppressLoop engine ns rest survivor
    else do
      match ← attempted (query env fun db => peek engine db dup) with
      | .ok (some note) =>
        if note.originSource = some hookSource then
          match ← attempted (commandDuplicate env draws ns dup survivor) with
          | .ok (some receipt) => suppressLoop engine ns rest receipt.survivor
          | .ok none => suppressLoop engine ns rest survivor
          | .error _ => suppressLoop engine ns rest survivor
        else suppressLoop engine ns rest survivor
      | .ok none => suppressLoop engine ns rest survivor
      | .error _ => suppressLoop engine ns rest survivor

/-- `suppress_hook_near_duplicates`: the final survivor. -/
def suppressHookNearDuplicates (engine : MemoryEngine) (ns : Namespace) (newId : MemoryId) :
    ClientM MemoryId := do
  match ← attempted (query env fun db =>
      db.equivalentDuplicates env ns newId hookNearDupThreshold hookNearDupLimit) with
  | .error _ => pure newId
  | .ok dups => suppressLoop env draws engine ns dups newId

end Job

/-! ## What they command -/

section

variable {env : Env} {draws : Draws} {G : Deed → Db → Db → Prop}

/-- A rule that every `supersede_duplicate` keeps. -/
def DuplicatesKeep (env : Env) (G : Deed → Db → Db → Prop) : Prop :=
  ∀ now ns old new s s', s.Wf → Runs (Op.body env (.supersedeDuplicate now ns old new)) s () s' →
    G (.ran (.supersedeDuplicate now ns old new)) s s'

section

variable (hRule : DuplicatesKeep env G)

include hRule

theorem commandDuplicate_keeps (ns : Namespace) (old new : MemoryId) :
    Keeps env G (commandDuplicate env draws ns old new) :=
  keeps_command (fun _ _ a _ hRun => runs_discard.mpr ⟨a, hRun⟩)
    fun now s s' hWf hRun => hRule now.secs ns old new s s' hWf hRun

theorem supersedeMember_keeps (ns : Namespace) (member survivor : MemoryId) :
    Keeps env G (supersedeMember env draws ns member survivor) := by
  refine (commandDuplicate_keeps hRule ns member survivor).attempted.bind fun out => ?_
  split
  · exact .pure _
  · exact .pure _
  · refine (keeps_query _).bind fun current => ?_
    exact .ite (fun _ => .pure _) fun _ => .pure _
  · exact .ite (fun _ => .pure _) fun _ => .throw _
  · exact .throw _

/-- The induction is on the members that are left. -/
theorem absorb_keeps (ns : Namespace) (members : List MemoryMeta) (survivor : MemoryId) (p : Pass) :
    Keeps env G (absorb env draws ns members survivor p) := by
  induction members generalizing survivor p with
  | nil => exact .pure _
  | cons m rest ih =>
    unfold absorb
    refine .ite (fun _ => ih _ _) fun _ => ?_
    refine (supersedeMember_keeps hRule ns m.id survivor).bind fun out => ?_
    cases out with
    | changed receipt | preserved | lostRace => exact ih _ _
    | staleSurvivor => exact .pure _

variable (cfg : ConsolidationConfig)

theorem consolidateOne_keeps (candidates : List ConsolidationCandidate)
    (cand : ConsolidationCandidate) (p : Pass) :
    Keeps env G (consolidateOne env draws cfg candidates cand p) := by
  unfold consolidateOne
  refine .ite (fun _ => .pure _) fun _ => ?_
  refine (keeps_query _).bind fun dups => ?_
  dsimp only
  split
  · exact .pure _
  · exact .pure _
  · refine (absorb_keeps hRule _ _ _ _).bind fun out => ?_
    exact .pure _

/-- The only operation that a consolidation commands is `supersede_duplicate`. -/
theorem consolidateCandidates_keeps
    (candidates : List ConsolidationCandidate) :
    Keeps env G (consolidateCandidates env draws cfg candidates) := by
  have hLoop : ∀ (rest : List ConsolidationCandidate) (p : Pass),
      Keeps env G (consolidateLoop env draws cfg candidates rest p) := by
    intro rest
    induction rest with
    | nil => exact fun p => .pure p
    | cons cand rest ih =>
      intro p
      exact (consolidateOne_keeps hRule cfg candidates cand p).bind fun p' => ih p'
  exact (hLoop candidates {}).bind fun p => .pure _

theorem runConsolidation_keeps :
    Keeps env G (runConsolidation env draws cfg) :=
  (keeps_query _).bind fun candidates => consolidateCandidates_keeps hRule cfg candidates

/-- The induction is on the duplicates that are left. -/
theorem suppressHookNearDuplicates_keeps (engine : MemoryEngine) (ns : Namespace) (newId : MemoryId)
    :
    Keeps env G (suppressHookNearDuplicates env draws engine ns newId) := by
  have hLoop : ∀ (dups : List (MemoryId × ℚ)) (survivor : MemoryId),
      Keeps env G (suppressLoop env draws engine ns dups survivor) := by
    intro dups
    induction dups with
    | nil => exact fun survivor => .pure survivor
    | cons d rest ih =>
      intro survivor
      obtain ⟨dup, similarity⟩ := d
      unfold suppressLoop
      refine .ite (fun _ => ih survivor) fun _ => ?_
      refine (keeps_query _).attempted.bind fun found => ?_
      split
      · refine .ite (fun _ => ?_) fun _ => ih survivor
        refine (commandDuplicate_keeps hRule ns dup survivor).attempted.bind fun out => ?_
        split
        · exact ih _
        · exact ih survivor
        · exact ih survivor
      · exact ih survivor
      · exact ih survivor
  refine (keeps_query _).attempted.bind fun out => ?_
  split
  · exact .pure newId
  · exact hLoop _ newId

end

end

end RustyBrain.Daemon
