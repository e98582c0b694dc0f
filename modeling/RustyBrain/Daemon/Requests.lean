import RustyBrain.Daemon.Resolve
import RustyBrain.Proto.Messages
import RustyBrain.Store.Wording

/-!
# rusty-brain — the write requests of a connection

`dispatch` for the requests that write memories: remembering, updating and linking them. The
trust class of a new memory is derived from the source that the connection declared and
from the evidence that the request claims.

What follows a remember on its connection — the links to similar memories, and for a hook
the suppression of near-duplicates — runs in transactions of its own and is left out here.
-/

namespace RustyBrain.Daemon

open Store Engine Proto Transaction Sessions

variable {r : RememberRequest} {c : Connection}

/-! ## Sources and provenance -/

/-- The sources that `dispatch` knows by name. -/
def hookSource : Text := ['h', 'o', 'o', 'k']
def mcpSource : Text := ['m', 'c', 'p']
def cliSource : Text := ['c', 'l', 'i']
def httpSource : Text := ['h', 't', 't', 'p']

/-- `uds_write_channel`: the channel of a source that a local peer declares. -/
def udsWriteChannel (source : Option Text) : Option WriteChannel :=
  if source = some hookSource then some .hook
  else if source = some mcpSource then some .mcp
  else if source = some cliSource then some .cli
  else none

/-- `rb_proto::ClientIdentity`, as a local peer declares it. -/
structure ClientIdentity where
  user : Option Text := none
  host : Option Text := none
  agent : Option Text := none
  source : Option Text := none
  sessionId : Option Text := none
  deriving DecidableEq

/-- The provenance of a local connection; the daemon knows its own user and host. -/
def udsProvenance (currentUser currentHost : Option Text) (identity : ClientIdentity) :
    Provenance where
  originUser := identity.user.or currentUser
  originHost := identity.host.or currentHost
  originAgent := identity.agent
  originSource := identity.source
  channel := udsWriteChannel identity.source
  sessionId := identity.sessionId

/-- The provenance of every HTTP request. -/
def httpProvenance (currentUser currentHost : Option Text) : Provenance where
  originUser := currentUser
  originHost := currentHost
  originSource := some httpSource
  channel := some .http

/-! ## Trust classes -/

/-- `CaptureEvidence::validate`. -/
def validateEvidence : CaptureEvidence → Result Unit
  | .measuredLocal commands =>
    if commands = [] ∨ ∃ c ∈ commands, trim c = [] then
      .error (.invalidArgument
        "measured_local evidence requires at least one non-empty observed command")
    else .ok ()
  | .measuredCi runRef =>
    if trim runRef = [] then
      .error (.invalidArgument "measured_ci evidence requires a non-empty CI run reference")
    else .ok ()
  | .humanConfirmed _ => .ok ()

/-- The refusal of evidence that a channel cannot back. -/
def unsubstantiated (channel : Text) : Error :=
  .invalidArgument ("the '" ++ String.ofList channel ++ "' capture path cannot substantiate this " ++
    "evidence kind; only the hook channel can claim a local measurement and only the cli channel " ++
    "can claim a CI run or a human confirmation")

/-- `derive_trust_class`. -/
def deriveTrustClass (originSource : Option Text) (evidence : Option CaptureEvidence)
    (hasCommitAnchor : Bool) : Result TrustClass :=
  match evidence with
  | none => .ok (contextDefault originSource)
  | some evidence => do
    validateEvidence evidence
    match originSource, evidence with
    | some channel, .measuredLocal _ =>
      if channel = hookSource ∨ channel = cliSource then .ok .measuredLocal
      else .error (unsubstantiated channel)
    | some channel, .measuredCi _ =>
      if channel = cliSource then
        if hasCommitAnchor then .ok .measuredCi
        else .error (.invalidArgument ("measured_ci evidence requires a commit anchor pinning " ++
          "the CI run to a point in history; add --commit <sha>"))
      else .error (unsubstantiated channel)
    | some channel, .humanConfirmed _ =>
      if channel = cliSource then .ok .humanConfirmed else .error (unsubstantiated channel)
    | none, _ => .error (.invalidArgument "evidence requires an identified capture channel")

/-- Without evidence no source gets above attested. -/
theorem contextDefault_rank (source : Option Text) :
    (contextDefault source).rank ≤ TrustClass.agentAttested.rank := by
  unfold contextDefault
  split <;> decide

/-- Only the hook and the command line get above attested, and only with evidence. -/
theorem deriveTrustClass_above {source : Option Text} {evidence : Option CaptureEvidence}
    {hasCommit : Bool} {c : TrustClass} (h : deriveTrustClass source evidence hasCommit = .ok c)
    (hAbove : TrustClass.agentAttested.rank < c.rank) :
    evidence.isSome = true ∧ (source = some hookSource ∨ source = some cliSource) := by
  cases evidence with
  | none =>
    cases h
    have hDefault := contextDefault_rank source
    omega
  | some evidence =>
    refine ⟨rfl, ?_⟩
    simp only [deriveTrustClass, except_bind_ok] at h
    obtain ⟨_, -, h⟩ := h
    cases source with
    | none => cases h
    | some channel =>
      -- every kind of evidence compares the channel first
      cases evidence with
      | measuredLocal commands =>
        by_cases hChannel : channel = hookSource ∨ channel = cliSource
        · exact hChannel.imp (congrArg some) (congrArg some)
        · simp [hChannel] at h
      | measuredCi runRef | humanConfirmed who =>
        by_cases hChannel : channel = cliSource
        · exact .inr (congrArg some hChannel)
        · simp [hChannel] at h

/-! ## Remember and update -/

/-- The refusal of curation marks on a hook connection. -/
def hookCuration : Error :=
  .invalidArgument "automatic hook writes cannot set human-curation intent"

/-- The note that a request asks for, under a trust class. -/
def requestedInput (r : RememberRequest) (provenance : Provenance) (trustClass : TrustClass) :
    RememberInput where
  content := r.content
  context := r.context
  memoryType := r.memoryType
  importance := r.importance
  keywords := r.keywords
  tags := r.tags
  relatedFiles := r.relatedFiles
  humanCurated := r.humanCurated.getD false
  legacyUnknown := r.legacyUnknown.getD false
  confidence := r.confidence
  provenance := provenance
  anchors := r.anchors
  trustClass := some trustClass

/-- The memory that a request asks the engine to compose, with the class that its source and
its evidence derive. -/
def rememberInput (provenance : Provenance) (r : RememberRequest) : Result RememberInput := do
  let trustClass ← deriveTrustClass provenance.originSource r.evidence
    (r.anchors.any fun a => a.kind = .commit)
  let allow := r.allowCuratedSupersede.getD false
  if allow = true ∧ r.supersedes = none then
    .error (.invalidArgument "curated supersede intent requires a superseded memory id")
  else if provenance.originSource = some hookSource ∧
      (r.humanCurated.getD false = true ∨ allow = true) then
    .error hookCuration
  else
    .ok (requestedInput r provenance trustClass)

/-- A request that is not refused asks for its own texts, under the class it derives. -/
theorem rememberInput_ok {provenance : Provenance} {input : RememberInput}
    (h : rememberInput provenance r = .ok input) :
    ∃ c, deriveTrustClass provenance.originSource r.evidence
        (r.anchors.any fun a => a.kind = .commit) = .ok c ∧
      input = requestedInput r provenance c := by
  simp only [rememberInput, except_bind_ok] at h
  obtain ⟨c, hClass, h⟩ := h
  refine ⟨c, hClass, ?_⟩
  split_ifs at h
  exact (Except.ok.inj h).symm

/-- The operation that writes a composed note. -/
def writeOp (now : Int) (note : MemoryNote) (embedding : Option Embedding) :
    Option (MemoryId × Bool) → Op
  | some (old, allow) => .insertSupersedingMemory now note embedding old allow
  | none => .insertMemory now note embedding

theorem writeOp_rewords (now : Int) (note : MemoryNote) (e : Option Embedding)
    (supersedes : Option (MemoryId × Bool)) : (writeOp now note e supersedes).rewords = false := by
  rcases supersedes with _ | ⟨old, allow⟩ <;> rfl

theorem writeOp_inserted (now : Int) (note : MemoryNote) (e : Option Embedding)
    (supersedes : Option (MemoryId × Bool)) :
    (writeOp now note e supersedes).inserted = some (note, e) := by
  rcases supersedes with _ | ⟨old, allow⟩ <;> rfl

/-- `MemoryEngine::remember_inner`: compose, then write. -/
def rememberInner (c : Connection) (o : Outside) (input : RememberInput)
    (supersedes : Option (MemoryId × Bool)) : DaemonM MemoryId := do
  let (note, embedding) ← lift (c.engine.composeNote o.freshId o.clock input)
  call ((writeOp o.clock.secs note embedding supersedes).body c.env)
  pure note.id

/-- `dispatch` of a remember. -/
def dispatchRemember (c : Connection) (o : Outside) (r : RememberRequest) : DaemonM MemoryId := do
  let input ← lift (rememberInput c.provenance r)
  rememberInner c o input (r.supersedes.map fun old => (old, r.allowCuratedSupersede.getD false))

/-- `dispatch` of an update. -/
def dispatchUpdate (c : Connection) (now : Int) (id : MemoryId) (updates : MemoryUpdates) :
    DaemonM Unit :=
  if c.provenance.originSource = some hookSource ∧ updates.humanCurated.isSome then
    throw hookCuration
  else engineUpdate direct c (.updated id) now id updates

/-- The text `user-asserted`, the reason of a link that was given none. -/
def userAsserted : Text := ['u', 's', 'e', 'r', '-', 'a', 's', 's', 'e', 'r', 't', 'e', 'd']

/-- `MemoryEngine::link`. -/
def engineLink (c : Connection) (clock : DateTime) (source target : MemoryId) (linkType : LinkType)
    (reason : Option Text) : DaemonM Unit := do
  if source = target then throw (.invalidArgument "cannot link a memory to itself")
  else if linkType = .supersedes then
    throw (.invalidArgument ("supersedes links are created by storing a replacement memory, " ++
      "not by linking; use a new memory that supersedes the old one"))
  else
    let note ← view fun db => member c.engine db source
    let _ ← view fun db => member c.engine db target
    if note.links.any fun l => l.targetId = target ∧ l.linkType = linkType then
      throw (.invalidArgument ("a " ++ linkType.asStr ++ " link from " ++ source.display ++ " to " ++
        target.display ++ " already exists"))
    else
      call (addLink clock.secs ⟨source, target, linkType, 1, reason.getD userAsserted, clock⟩)

/-! ## What the requests leave in the store -/

theorem outcome_lift {α : Type} (x : Result α) (db : Db) : outcome (lift x) db = (x, db) := rfl

/-- A remember that is refused changes nothing; any other runs the write of the composed
note. -/
theorem dispatchRemember_cases (c : Connection) (o : Outside) (r : RememberRequest) (db : Db) :
    (outcome (dispatchRemember c o r) db).2 = db ∨
      ∃ input note e, rememberInput c.provenance r = .ok input ∧
        c.engine.composeNote o.freshId o.clock input = .ok (note, e) ∧
        (outcome (dispatchRemember c o r) db).2 = (writeOp o.clock.secs note e
          (r.supersedes.map fun old => (old, r.allowCuratedSupersede.getD false))).run c.env db := by
  unfold dispatchRemember
  cases hInput : rememberInput c.provenance r with
  | error e =>
    left
    rw [outcome_bind_of_error (outcome_lift _ _)]
  | ok input =>
    rw [outcome_bind_of_ok (outcome_lift _ _)]
    unfold rememberInner
    cases hNote : c.engine.composeNote o.freshId o.clock input with
    | error e =>
      left
      rw [outcome_bind_of_error (outcome_lift _ _)]
    | ok composed =>
      obtain ⟨note, e⟩ := composed
      refine .inr ⟨input, note, e, rfl, hNote, ?_⟩
      rw [outcome_bind_of_ok (outcome_lift _ _)]
      exact outcome_bind_pure _ _ _

/-- What holds of every wording, and of the note that a remember composes, it keeps. -/
theorem dispatchRemember_wordings {I : Wording → Prop} {o : Outside}
    {db : Db} (hOld : ∀ m ∈ db.memories, I m.wording)
    (hNew : ∀ input, rememberInput c.provenance r = .ok input →
      I (noteRow (c.engine.noteFor o.freshId o.clock input)).wording) :
    ∀ m ∈ (outcome (dispatchRemember c o r) db).2.memories, I m.wording := by
  rcases dispatchRemember_cases c o r db with hSame | ⟨input, note, e, hInput, hNote, hRun⟩
  · rwa [hSame]
  · rw [hRun]
    obtain ⟨rfl, -⟩ := composeNote_ok hNote
    refine Op.run_wordings (writeOp_rewords _ _ _ _) (fun n e' hInserted => ?_) hOld
    rw [writeOp_inserted] at hInserted
    cases hInserted
    exact hNew input hInput

/-- An update that is refused changes nothing; any other runs the update of a memory of the
connection's namespace, and leaves its content alone. -/
theorem dispatchUpdate_cases (c : Connection) (now : Int) (id : MemoryId) (updates : MemoryUpdates)
    (db : Db) :
    (outcome (dispatchUpdate c now id updates) db).2 = db ∨
      updates.content = none ∧ (∃ n, member c.engine db id = .ok n) ∧
        (outcome (dispatchUpdate c now id updates) db).2 =
          (Op.updateMemory now id updates).run c.env db := by
  unfold dispatchUpdate
  split
  · exact .inl rfl
  · unfold engineUpdate
    by_cases hContent : updates.content.isSome = true
    · rw [if_pos hContent]
      exact .inl rfl
    · rw [if_neg hContent]
      cases hImportance : updates.importance.elim (pure ()) validateImportance with
      | error e => exact .inl rfl
      | ok _ =>
        rw [outcome_bind_of_ok (outcome_lift _ _)]
        cases hConfidence : updates.confidence.elim (pure ()) validateConfidence with
        | error e => exact .inl rfl
        | ok _ =>
          rw [outcome_bind_of_ok (outcome_lift _ _)]
          have hView : outcome (direct.read (.scoped id) fun db => member c.engine db id) db =
              (member c.engine db id, db) := rfl
          cases hMember : member c.engine db id with
          | error e =>
            rw [hMember] at hView
            rw [outcome_bind_of_error hView]
            exact .inl rfl
          | ok n =>
            rw [hMember] at hView
            rw [outcome_bind_of_ok hView]
            -- the writer's transaction is the update, or fails
            rcases commit_cases (do let _ ← getInNamespace c.engine.ns id; updateMemory now id updates) db
              with ⟨u, db', hRun, hCommit⟩ | ⟨e, hCommit⟩
            · refine .inr ⟨Option.not_isSome_iff_eq_none.mp hContent, ⟨n, rfl⟩, ?_⟩
              exact (congrArg Prod.snd hCommit).trans
                (congrArg Prod.snd (completes_call.mpr (runs_afterCheck hRun))).symm
            · exact .inl (congrArg Prod.snd hCommit)

/-- An update leaves each row, or rewrites it when it is a row of the updated memory; the
content stays. -/
theorem dispatchUpdate_rows {now : Int} {id : MemoryId} {updates : MemoryUpdates}
    {db : Db} : ∀ s ∈ (outcome (dispatchUpdate c now id updates) db).2.memories,
      s ∈ db.memories ∨ ∃ r ∈ db.memories, r.memoryId = id ∧ updates.content = none ∧
        s = MemoryUpdates.applyTo updates now r := by
  rcases dispatchUpdate_cases c now id updates db with hSame | ⟨hContent, -, hRun⟩
  · rw [hSame]
    exact fun s hs => .inl hs
  · have hDb : (outcome (dispatchUpdate c now id updates) db).2 =
        (commit (updateMemory now id updates) db).2 := hRun
    rw [hDb]
    rcases commit_cases (updateMemory now id updates) db with ⟨u, db', hRuns, hCommit⟩ | ⟨e, hCommit⟩
    · rw [hCommit]
      intro s hs
      rcases updateMemory_rows hRuns s hs with hOld | ⟨r, hr, hId, rfl⟩
      · exact .inl hOld
      · exact .inr ⟨r, hr, hId, hContent, rfl⟩
    · rw [hCommit]
      exact fun s hs => .inl hs

/-- A link request changes nothing or adds its link. -/
theorem engineLink_cases (c : Connection) (clock : DateTime) (source target : MemoryId)
    (linkType : LinkType) (reason : Option Text) (db : Db) :
    (outcome (engineLink c clock source target linkType reason) db).2 = db ∨
      (outcome (engineLink c clock source target linkType reason) db).2 =
        (Op.addLink clock.secs ⟨source, target, linkType, 1, reason.getD userAsserted, clock⟩).run
          c.env db := by
  unfold engineLink
  split_ifs with hSelf hType
  · exact .inl rfl
  · exact .inl rfl
  · have hView : ∀ id, outcome (view fun db => member c.engine db id) db =
        (member c.engine db id, db) := fun _ => rfl
    cases hSource : member c.engine db source with
    | error e =>
      rw [outcome_bind_of_error ((hView source).trans (by rw [hSource]))]
      exact .inl rfl
    | ok note =>
      rw [outcome_bind_of_ok ((hView source).trans (by rw [hSource]))]
      cases hTarget : member c.engine db target with
      | error e =>
        rw [outcome_bind_of_error ((hView target).trans (by rw [hTarget]))]
        exact .inl rfl
      | ok other =>
        rw [outcome_bind_of_ok ((hView target).trans (by rw [hTarget]))]
        split
        · exact .inl rfl
        · exact .inr rfl

end RustyBrain.Daemon
