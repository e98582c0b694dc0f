import RustyBrain.Store.MergeGuards
import RustyBrain.Store.Oplog

/-!
# rusty-brain — the writer

The single writer of the daemon: one command after the other, each a transaction of the
store, and the change events that the writer broadcasts once it committed.

## Results

* `WriteCommand.announces` — a command that meets `Resumable` broadcasts, for every row with
  which it logs that a memory appeared, changed or went away, one event about that memory, and
  no event before it has the number of the row or a higher one.
-/

namespace RustyBrain.Daemon

open Store Transaction List

/-! ## Commands -/

/-- `WriteCommand`, with the clock that the store reads. -/
inductive WriteCommand where
  | insert (now : Int) (note : MemoryNote) (embedding : Option Embedding)
  | insertSuperseding (now : Int) (note : MemoryNote) (embedding : Option Embedding)
      (old : MemoryId) (allowCuratedSupersede : Bool)
  | update (now : Int) (ns : Namespace) (id : MemoryId) (updates : MemoryUpdates)
  | archive (now : Int) (ns : Namespace) (id : MemoryId)
  | archiveUnattended (now : Int) (ns : Namespace) (id : MemoryId)
  | addLink (now : Int) (link : MemoryLink)
  | recordFeedback (now : Int) (ns : Namespace) (id : MemoryId) (kind : FeedbackKind)
      (principal : Option Text)
  | flushAccesses (bumps : List AccessBump)
  | setLinkStrength (now : Int) (source target : MemoryId) (linkType : LinkType) (strength : ℚ)
  | setRecalibratedImportance (now : Int) (ns : Namespace) (id : MemoryId) (importance : Nat)
  | setConfidence (now : Int) (ns : Namespace) (id : MemoryId) (confidence : ℚ)
  | deleteLink (now : Int) (source target : MemoryId) (linkType : LinkType)
  | supersede (now : Int) (ns : Namespace) (old new : MemoryId) (requireEquivalence : Bool)
  | reembed (id : MemoryId) (embedding : Embedding) (model inputVersion : Text)
      (expected : BitVec 256)
  | renameNamespace (now : Int) (old new : Namespace) (merge : Bool)
  | scrub (now : Int)
  | retentionSweep (clock : Int) (ns : Namespace) (policy : RetentionPolicy) (mode : ForgetMode)
      (now : DateTime)
  | reviewSnooze (ns : Namespace) (key : String) (days : Nat) (details : Text) (now : DateTime)
  | reviewMerge (ns : Namespace) (a b : MemoryId) (minSimilarity : ℚ) (note : MemoryNote)
      (embedding : Option Embedding) (details : Text) (allowCuratedSupersede : Bool)
      (now : DateTime)
  | reviewResolutionRecord (ns : Namespace) (key : String) (details : Text) (now : DateTime)
  | reviewSweepRecord (ns : Namespace) (details : Text) (now : DateTime)

variable {archived : Option Nat} {e : Option Embedding} {cmd : WriteCommand} {kind : ChangeKind}
  {s : Nat} {n : MemoryNote} {new old : MemoryId} {ids : List MemoryId} {ns : Namespace}
  {id : MemoryId}

/-- `publish_change_stamped`: an event with the last sequence number of the log. The writer
reads it right after the commit; nobody else writes in between. -/
def publishChangeStamped (id : MemoryId) (ns : Namespace) (kind : ChangeKind) :
    StoreM (List MemoryChanged) := do
  let db ← get
  pure [⟨id, ns, kind, some db.lastOplogSeq⟩]

/-- An event only when the guarded write changed something. -/
def publishIf (changed : Bool) (id : MemoryId) (ns : Namespace) (kind : ChangeKind) :
    StoreM (List MemoryChanged) :=
  if changed then publishChangeStamped id ns kind else pure []

/-- The arm of `writer_loop` for a command: its transaction, and the events it publishes
when the transaction commits. -/
def WriteCommand.body (env : Env) : WriteCommand → StoreM (List MemoryChanged)
  | .insert now note e => do
    insertMemory now note e
    publishChangeStamped note.id note.ns .created
  | .insertSuperseding now note e old allow => do
    let (createdSeq, archivedSeq) ← insertSupersedingMemory now note e old allow
    pure (⟨note.id, note.ns, .created, some createdSeq⟩ ::
      (archivedSeq.map fun seq => ⟨old, note.ns, .archived, some seq⟩).toList)
  | .update now ns id updates => do
    let _ ← getInNamespace ns id
    updateMemory now id updates
    publishChangeStamped id ns .updated
  | .archive now ns id => do
    let _ ← getInNamespace ns id
    archiveMemory now id
    publishChangeStamped id ns .archived
  | .archiveUnattended now ns id => do
    let archived ← Store.archiveUnattended now ns id
    publishIf archived id ns .archived
  | .addLink now link => do
    Store.addLink now link
    pure []
  | .recordFeedback now ns id kind principal => do
    let note ← getInNamespace ns id
    require (note.archivedAt = none) (.notFound id)
    let _ ← Store.recordFeedback now id kind principal
    publishChangeStamped id ns .updated
  | .flushAccesses bumps => do
    recordAccessBumps bumps
    pure []
  | .setLinkStrength now source target linkType strength => do
    Store.setLinkStrength now source target linkType strength
    pure []
  | .setRecalibratedImportance now ns id importance => do
    let _ ← getInNamespace ns id
    let changed ← Store.setRecalibratedImportance now ns id importance
    publishIf changed id ns .updated
  | .setConfidence now ns id confidence => do
    let _ ← getInNamespace ns id
    let changed ← Store.setConfidence now ns id confidence
    publishIf changed id ns .updated
  | .deleteLink now source target linkType => do
    Store.deleteLink now source target linkType
    pure []
  | .supersede now ns old new true => do
    let applied ← supersedeDuplicate now ns old new
    pure (applied.map fun receipt => ⟨receipt.archived, ns, .archived, some receipt.seq⟩).toList
  | .supersede now ns old new false => do
    let _ ← getInNamespace ns old
    let _ ← getInNamespace ns new
    Store.supersede now old new
    let seq ← latestOplogSeq old "supersede oplog row is missing"
    pure [⟨old, ns, .archived, some seq⟩]
  | .reembed id e model version expected => do
    updateVector env id e model version expected
    pure []
  | .renameNamespace now old new merge => do
    let _ ← Store.renameNamespace now old new merge
    pure []
  | .scrub now => do
    let _ ← Store.scrub env.redact now
    pure []
  | .retentionSweep clock ns policy mode now => do
    let (_, effects) ← Store.retentionSweep clock ns policy mode now
    let db ← get
    -- each event carries the sequence number of its own memory
    pure ((effects.archivedIds ++ effects.purgedIds).map fun id =>
      ⟨id, ns, .archived, db.latestOplogSeqFor id⟩)
  | .reviewSnooze ns key days details now => do
    let _ ← snoozeReviewItem ns key days details now
    pure []
  | .reviewMerge ns a b minSimilarity note e details allow now => do
    Store.reviewMerge env ns a b minSimilarity note e details allow now
    let created ← publishChangeStamped note.id ns .created
    let first ← publishChangeStamped a ns .archived
    let second ← publishChangeStamped b ns .archived
    pure (created ++ first ++ second)
  | .reviewResolutionRecord ns key details now => do
    recordReviewResolution ns key details now
    pure []
  | .reviewSweepRecord ns details now => do
    recordReviewSweep ns details now
    pure []

/-- One turn of `writer_loop`: the store after the command, and the events to publish. A
command that fails publishes nothing. -/
def WriteCommand.run (env : Env) (cmd : WriteCommand) (db : Db) : Db × List MemoryChanged :=
  match commit (cmd.body env) db with
  | (.ok events, db') => (db', events)
  | (.error _, db') => (db', [])

/-! ## Commands as operations of the store -/

/-- The operation that a command runs. -/
def WriteCommand.op : WriteCommand → Op
  | .insert now note e => .insertMemory now note e
  | .insertSuperseding now note e old allow => .insertSupersedingMemory now note e old allow
  | .update now _ id updates => .updateMemory now id updates
  | .archive now _ id => .archiveMemory now id
  | .archiveUnattended now ns id => .archiveUnattended now ns id
  | .addLink now link => .addLink now link
  | .recordFeedback now _ id kind principal => .recordFeedback now id kind principal
  | .flushAccesses bumps => .recordAccessBumps bumps
  | .setLinkStrength now source target linkType strength =>
    .setLinkStrength now source target linkType strength
  | .setRecalibratedImportance now ns id importance => .setRecalibratedImportance now ns id importance
  | .setConfidence now ns id confidence => .setConfidence now ns id confidence
  | .deleteLink now source target linkType => .deleteLink now source target linkType
  | .supersede now ns old new true => .supersedeDuplicate now ns old new
  | .supersede now _ old new false => .supersede now old new
  | .reembed id e model version expected => .updateVector id e model version expected
  | .renameNamespace now old new merge => .renameNamespace now old new merge
  | .scrub now => .scrub now
  | .retentionSweep clock ns policy mode now => .retentionSweep clock ns policy mode now
  | .reviewSnooze ns key days details now => .snoozeReviewItem ns key days details now
  | .reviewMerge ns a b minSimilarity note e details allow now =>
    .reviewMerge ns a b minSimilarity note e details allow now
  | .reviewResolutionRecord ns key details now => .recordReviewResolution ns key details now
  | .reviewSweepRecord ns details now => .recordReviewSweep ns details now

section Runs

variable {env : Env} {db db' : Db} {events : List MemoryChanged}

/-- Publishing reads the log and writes nothing. -/
theorem publishChangeStamped_runs :
    Runs (publishChangeStamped id ns kind) db events db' ↔
      db = db' ∧ events = [⟨id, ns, kind, some db.lastOplogSeq⟩] := by
  simp only [publishChangeStamped, runs_bind, runs_get, runs_pure]
  constructor
  · rintro ⟨_, _, ⟨rfl, rfl⟩, rfl, rfl⟩
    exact ⟨rfl, rfl⟩
  · rintro ⟨rfl, rfl⟩
    exact ⟨db, db, ⟨rfl, rfl⟩, rfl, rfl⟩

theorem publishIf_runs {changed : Bool} :
    Runs (publishIf changed id ns kind) db events db' ↔
      db = db' ∧ events = if changed then [⟨id, ns, kind, some db.lastOplogSeq⟩] else [] := by
  unfold publishIf
  split
  · exact publishChangeStamped_runs
  · rw [runs_pure]
    exact ⟨fun h => ⟨h.2, h.1.symm⟩, fun h => ⟨h.2.symm, h.1⟩⟩

/-- **A command writes what its operation writes.** The rest of an arm only reads. -/
theorem WriteCommand.runs_op (h : Runs (cmd.body env) db events db') :
    Runs (cmd.op.body env) db () db' := by
  cases cmd with
  | insert now note e =>
    obtain ⟨_, _, hRun, hPublish⟩ := runs_bind.mp h
    obtain ⟨rfl, -⟩ := publishChangeStamped_runs.mp hPublish
    exact hRun
  | insertSuperseding now note e old allow | renameNamespace | scrub | reviewSnooze =>
    obtain ⟨_, _, hRun, hPublish⟩ := runs_bind.mp h
    obtain ⟨-, rfl⟩ := runs_pure.mp hPublish
    exact runs_discard.mpr ⟨_, hRun⟩
  | update now ns id updates | archive now ns id =>
    simp only [body, runs_bind, publishChangeStamped_runs] at h
    obtain ⟨_, _, hGet, _, _, hRun, rfl, -⟩ := h
    obtain ⟨rfl, -⟩ := getInNamespace_runs hGet
    exact hRun
  | archiveUnattended now ns id =>
    obtain ⟨_, _, hRun, hPublish⟩ := runs_bind.mp h
    obtain ⟨rfl, -⟩ := publishIf_runs.mp hPublish
    exact runs_discard.mpr ⟨_, hRun⟩
  | recordFeedback now ns id kind principal =>
    simp only [body, runs_bind, runs_require, publishChangeStamped_runs] at h
    obtain ⟨_, _, hGet, _, _, ⟨-, rfl⟩, _, _, hRun, rfl, -⟩ := h
    obtain ⟨rfl, -⟩ := getInNamespace_runs hGet
    exact runs_discard.mpr ⟨_, hRun⟩
  | setRecalibratedImportance now ns id importance | setConfidence now ns id confidence =>
    simp only [body, runs_bind, publishIf_runs] at h
    obtain ⟨_, _, hGet, _, _, hRun, rfl, -⟩ := h
    obtain ⟨rfl, -⟩ := getInNamespace_runs hGet
    exact runs_discard.mpr ⟨_, hRun⟩
  | supersede now ns old new requireEquivalence =>
    cases requireEquivalence with
    | true =>
      obtain ⟨_, _, hRun, hPublish⟩ := runs_bind.mp h
      obtain ⟨-, rfl⟩ := runs_pure.mp hPublish
      exact runs_discard.mpr ⟨_, hRun⟩
    | false =>
      simp only [body, runs_bind, runs_pure] at h
      obtain ⟨_, _, hOld, _, _, hNew, _, _, hRun, _, _, hSeq, -, rfl⟩ := h
      obtain ⟨rfl, -⟩ := getInNamespace_runs hOld
      obtain ⟨rfl, -⟩ := getInNamespace_runs hNew
      obtain ⟨-, rfl⟩ := latestOplogSeq_runs hSeq
      exact hRun
  | retentionSweep clock ns policy mode now =>
    simp only [body, runs_bind, runs_get, runs_pure] at h
    obtain ⟨_, _, hRun, _, _, ⟨rfl, rfl⟩, -, rfl⟩ := h
    exact runs_discard.mpr ⟨_, hRun⟩
  | reviewMerge ns a b minSimilarity note e details allow now =>
    simp only [body, runs_bind, publishChangeStamped_runs, runs_pure] at h
    obtain ⟨_, _, hRun, _, _, ⟨rfl, -⟩, _, _, ⟨rfl, -⟩, _, _, ⟨rfl, -⟩, -, rfl⟩ := h
    exact hRun
  | addLink | flushAccesses | setLinkStrength | deleteLink | reembed | reviewResolutionRecord
  | reviewSweepRecord =>
    obtain ⟨_, _, hRun, hPublish⟩ := runs_bind.mp h
    obtain ⟨-, rfl⟩ := runs_pure.mp hPublish
    exact hRun

end Runs

/-! ## Events about rows -/

/-- The event tells of the row: same memory, namespace and kind, and at the event's number
the row is the newest of its memory and kind. -/
structure Tells (log : List OplogRow) (r : OplogRow) (e : MemoryChanged) : Prop where
  id : r.memoryId = some e.id
  ns : Namespace.parseDbString r.ns = some e.ns
  kind : e.kind = r.op.changeKind
  seq : ∃ s, e.seq = some s ∧ r.seq ≤ s ∧ ∀ x ∈ log, x.memoryId = r.memoryId →
    x.op.changeKind = r.op.changeKind → x.seq ≤ s → x.seq ≤ r.seq

instance (log : List OplogRow) (r : OplogRow) (e : MemoryChanged) : Decidable (Tells log r e) :=
  decidable_of_iff (r.memoryId = some e.id ∧ Namespace.parseDbString r.ns = some e.ns ∧
      e.kind = r.op.changeKind ∧ e.seq.any (fun s => r.seq ≤ s ∧ ∀ x ∈ log, x.memoryId = r.memoryId →
        x.op.changeKind = r.op.changeKind → x.seq ≤ s → x.seq ≤ r.seq) = true)
    ⟨fun h => ⟨h.1, h.2.1, h.2.2.1, by simpa [Option.any_eq_true] using h.2.2.2⟩,
      fun h => ⟨h.id, h.ns, h.kind, by simpa [Option.any_eq_true] using h.seq⟩⟩

/-- The stream tells of the row before any event lets a cursor pass it. -/
abbrev InTime (log : List OplogRow) (r : OplogRow) (stream : List MemoryChanged) : Prop :=
  Feed.Announced MemoryChanged.seq (Tells log r) r.seq stream

/-- The events that follow a commit which gained `rows`. -/
structure Announces (log rows : List OplogRow) (events : List MemoryChanged) : Prop where
  told : ∀ r ∈ rows, r.op.Announced → InTime log r events
  own : ∀ e ∈ events, ∃ r ∈ rows, r.memoryId = some e.id ∧ e.seq = some r.seq ∧
    Namespace.parseDbString r.ns = some e.ns
  tells : ∀ e ∈ events, ∃ r ∈ rows, Tells log r e
  distinct : events.Pairwise fun e e' => e.id ≠ e'.id ∨ e.kind ≠ e'.kind

section Announces

variable {db db' : Db} {events : List MemoryChanged} {log rows : List OplogRow} {r : OplogRow}
  {id : MemoryId} {ns : Namespace} {home : Text} {op : OplogOp}

/-- An event with the number of the row itself. -/
theorem tells_of_about (hAbout : r.About op id home)
    (hNs : Namespace.parseDbString home = some ns) (log : List OplogRow) :
    Tells log r ⟨id, ns, op.changeKind, some r.seq⟩ where
  id := hAbout.memoryId
  ns := hAbout.ns ▸ hNs
  kind := hAbout.op ▸ rfl
  seq := ⟨r.seq, rfl, Nat.le_refl _, fun _ _ _ _ h => h⟩

/-- Rows that nobody waits for may pass without events. -/
theorem Announces.of_quiet (hQuiet : ∀ r ∈ rows, ¬ r.op.Announced) (log : List OplogRow) :
    Announces log rows [] where
  told := fun r hr hOp => absurd hOp (hQuiet r hr)
  own := nofun
  tells := nofun
  distinct := .nil

theorem Announces.nil (log : List OplogRow) : Announces log [] [] :=
  .of_quiet (fun _ hr => absurd hr not_mem_nil) log

/-- They may also stand among rows that are announced. -/
theorem Announces.widen {more : List OplogRow} (h : Announces log rows events) (hSub : rows ⊆ more)
    (hQuiet : ∀ r ∈ more, r ∈ rows ∨ ¬ r.op.Announced) : Announces log more events where
  told := fun r hr hOp => h.told r ((hQuiet r hr).resolve_right (not_not_intro hOp)) hOp
  own := fun e he => (h.own e he).imp fun _ hr => ⟨hSub hr.1, hr.2⟩
  tells := fun e he => (h.tells e he).imp fun _ hr => ⟨hSub hr.1, hr.2⟩
  distinct := h.distinct

/-- A row before the others, and an event before the others that lets no cursor pass them. -/
theorem Announces.cons {e : MemoryChanged} (h : Announces log rows events) (hTells : Tells log r e)
    (hOwn : ∃ x ∈ r :: rows, x.memoryId = some e.id ∧ e.seq = some x.seq ∧
      Namespace.parseDbString x.ns = some e.ns)
    (hBelow : ∀ s ∈ e.seq, ∀ x ∈ rows, x.op.Announced → s < x.seq)
    (hOther : ∀ e' ∈ events, e.id ≠ e'.id ∨ e.kind ≠ e'.kind) :
    Announces log (r :: rows) (e :: events) where
  told := by
    intro x hx hOp
    rcases mem_cons.mp hx with rfl | hx
    · exact Feed.announced_cons.mpr (.inl hTells)
    · exact Feed.announced_cons.mpr (.inr ⟨fun s hs => hBelow s hs x hx hOp, h.told x hx hOp⟩)
  own := forall_mem_cons.mpr ⟨hOwn, fun e' he' =>
    (h.own e' he').imp fun _ hx => ⟨mem_cons_of_mem _ hx.1, hx.2⟩⟩
  tells := forall_mem_cons.mpr ⟨⟨r, mem_cons_self, hTells⟩, fun e' he' =>
    (h.tells e' he').imp fun _ hx => ⟨mem_cons_of_mem _ hx.1, hx.2⟩⟩
  distinct := pairwise_cons.mpr ⟨hOther, h.distinct⟩

theorem Announces.single (hAbout : r.About op id home)
    (hNs : Namespace.parseDbString home = some ns) (log : List OplogRow) :
    Announces log [r] [⟨id, ns, op.changeKind, some r.seq⟩] :=
  (Announces.nil log).cons (tells_of_about hAbout hNs log)
    ⟨r, mem_cons_self, hAbout.memoryId, rfl, hAbout.ns ▸ hNs⟩ nofun
    nofun

/-- After a commit a row of the log is one of its own, or numbered below all of them. -/
theorem below_or_mem (hBounded : db.Bounded) (hGains : Gains rows db db') (hr : r ∈ rows)
    {x : OplogRow} (hx : x ∈ db'.oplog) : x.seq ≤ r.seq ∨ x ∈ rows := by
  rw [hGains.oplog] at hx
  exact (mem_append.mp hx).imp_left fun hOld => (hBounded x hOld).trans (hGains.above r hr).le

/-- After a commit the newest of its rows about a memory gives the memory's number. -/
theorem latestOplogSeqFor_of_gains (hBounded : db.Bounded) (hGains : Gains rows db db') (hr : r ∈ rows)
    (hId : r.memoryId = some id) (hNewest : ∀ x ∈ rows, x.memoryId = some id → x.seq ≤ r.seq) :
    db'.latestOplogSeqFor id = some r.seq := by
  refine Db.latestOplogSeqFor_eq (hGains.oplog ▸ mem_append_right _ hr) hId fun x hx hxId => ?_
  exact (below_or_mem hBounded hGains hr hx).elim (fun h => h) fun hNew => hNewest x hNew hxId

/-- After a commit the last of its rows gives the last number. -/
theorem lastOplogSeq_of_gains (hBounded : db.Bounded) (hGains : Gains rows db db') (hr : r ∈ rows)
    (hNewest : ∀ x ∈ rows, x.seq ≤ r.seq) : db'.lastOplogSeq = r.seq := by
  refine Db.lastOplogSeq_eq (hGains.oplog ▸ mem_append_right _ hr) fun x hx => ?_
  exact (below_or_mem hBounded hGains hr hx).elim (fun h => h) (hNewest x)

/-- One row and one event stamped with the last number of the log. -/
theorem Announces.stamped (hBounded : db.Bounded) (hGains : Gains [r] db db') (hAbout : r.About op id home)
    (hNs : Namespace.parseDbString home = some ns) :
    Announces db'.oplog [r] [⟨id, ns, op.changeKind, some db'.lastOplogSeq⟩] := by
  have hSeq : db'.lastOplogSeq = r.seq := by
    refine lastOplogSeq_of_gains hBounded hGains mem_cons_self fun x hx => ?_
    rw [mem_singleton.mp hx]
  rw [hSeq]
  exact .single hAbout hNs _

end Announces

/-! ## What each command announces -/

section

variable {env : Env} {db db' : Db} {events : List MemoryChanged} {now : Int}

section

variable (hBounded : db.Bounded)

include hBounded

/-- An event stamped with a number at or above that of an inserted memory's row, up to the
links that were logged after it, tells of that row. -/
theorem tells_of_insert {r : OplogRow} {later : List OplogRow} (hNs : n.ns.WellFormed)
    (hAbout : r.About .insert n.id n.ns.asDbString) (hGains : Gains (r :: later) db db')
    (hLater : ∀ x ∈ later, x.op ≠ .insert) (hSeq : r.seq ≤ s) :
    Tells db'.oplog r ⟨n.id, n.ns, .created, some s⟩ where
  id := hAbout.memoryId
  ns := hAbout.ns ▸ Namespace.parseDbString_asDbString hNs
  kind := hAbout.op ▸ rfl
  seq := by
    refine ⟨s, rfl, hSeq, fun x hx _ hKind _ => ?_⟩
    rcases below_or_mem hBounded hGains mem_cons_self hx with hOld | hNew
    · exact hOld
    · rcases mem_cons.mp hNew with rfl | hx
      · exact Nat.le_refl _
      · -- no other operation is replayed as a creation
        have hOp := hLater x hx
        rw [hAbout.op] at hKind
        revert hOp hKind
        cases x.op <;> simp [OplogOp.changeKind]

/-- The one event of an insert, with a number that one of its rows has. -/
theorem announces_insert {r : OplogRow} {links : List OplogRow} (hNs : n.ns.WellFormed)
    (hAbout : r.About .insert n.id n.ns.asDbString) (hGains : Gains (r :: links) db db')
    (hLinks : ∀ x ∈ links, x.op = .link) (hSeq : r.seq ≤ s)
    (hOwn : ∃ x ∈ r :: links, x.memoryId = some n.id ∧ some s = some x.seq ∧
      Namespace.parseDbString x.ns = some n.ns) :
    Announces db'.oplog (r :: links) [⟨n.id, n.ns, .created, some s⟩] := by
  have hQuiet : ∀ x ∈ links, x.op ≠ .insert ∧ ¬ x.op.Announced := by
    intro x hx
    rw [hLinks x hx]
    decide
  refine (Announces.of_quiet (fun x hx => (hQuiet x hx).2) _).cons
    (tells_of_insert hBounded hNs hAbout hGains (fun x hx => (hQuiet x hx).1) hSeq) hOwn ?_ ?_
  · exact fun _ _ x hx hOp => absurd hOp (hQuiet x hx).2
  · exact nofun

theorem insert_announces {u : Unit} (hNs : n.ns.WellFormed)
    (hLinks : ∀ l ∈ n.links, l.sourceId = n.id) (h : Runs (insertMemory now n e) db u db') :
    ∃ rows, Gains rows db db' ∧
      Announces db'.oplog rows [⟨n.id, n.ns, .created, some db'.lastOplogSeq⟩] := by
  obtain ⟨_, _, hChecks, hBody⟩ := runs_bind.mp h
  obtain rfl := validateNote_runs hChecks
  obtain ⟨r, links, hAbout, hGains, hOnly⟩ := insertMemoryTxBody_gains hBody
  refine ⟨r :: links, hGains, ?_⟩
  -- the event is stamped with the number of the last row, a link of the note if it has any
  obtain ⟨last, hLast, hNewest⟩ : ∃ last ∈ r :: links, ∀ x ∈ r :: links, x.seq ≤ last.seq := by
    have hne : r :: links ≠ [] := cons_ne_nil _ _
    refine ⟨_, getLast_mem hne, fun x hx => ?_⟩
    have hSorted := hGains.sorted
    rw [← dropLast_append_getLast hne] at hx hSorted
    rcases mem_concat.mp hx with hx | rfl
    · exact ((pairwise_append.mp hSorted).2.2 x hx _ mem_cons_self).le
    · rfl
  have hSeq : db'.lastOplogSeq = last.seq := lastOplogSeq_of_gains hBounded hGains hLast hNewest
  have hOwn : last.memoryId = some n.id ∧ last.ns = n.ns.asDbString := by
    rcases mem_cons.mp hLast with rfl | hLink
    · exact ⟨hAbout.memoryId, hAbout.ns⟩
    · obtain ⟨-, l, hl, hId, hHome⟩ := hOnly last hLink
      rw [hId, hLinks l hl]
      exact ⟨rfl, hHome (hLinks l hl)⟩
  rw [hSeq]
  exact announces_insert hBounded hNs hAbout hGains (fun y hy => (hOnly y hy).1)
    (hNewest r mem_cons_self) ⟨last, hLast, hOwn.1, rfl, hOwn.2 ▸ Namespace.parseDbString_asDbString hNs⟩

/-- A supersede, and the number that is read for the memory it retired. -/
theorem supersede_seq {m : MemoryRow} {u : Unit} (hFind : db.find old = some m)
    (hSup : Runs (supersedeInTx old new now) db u db') (hLatest : db'.latestOplogSeqFor old = some s) :
    ∃ r, r.About .supersede old m.ns ∧ Gains [r] db db' ∧ s = r.seq := by
  obtain ⟨-, -, -, rfl⟩ := supersedeInTx_runs hSup
  obtain ⟨r, hAbout, hGains⟩ := Db.retired_gains hFind new now
  refine ⟨r, hAbout, hGains, Option.some.inj (hLatest.symm.trans ?_)⟩
  refine latestOplogSeqFor_of_gains hBounded hGains mem_cons_self hAbout.memoryId fun x hx _ => ?_
  rw [mem_singleton.mp hx]

/-- The target of a replacement is retired and logged, or stays as it is. -/
theorem retireTarget_gains {target : Option MemoryNote}
    (hTarget : ∀ o ∈ target, ∃ m, db.find old = some m ∧
      Namespace.parseDbString m.ns = some o.ns)
    (h : Runs (retireTarget now new old target) db archived db') :
    (archived = none ∧ db' = db) ∨ ∃ o ∈ target, ∃ home r, r.About .supersede old home ∧
      Namespace.parseDbString home = some o.ns ∧ Gains [r] db db' ∧ archived = some r.seq := by
  refine (retireTarget_runs h).imp_right ?_
  rintro ⟨o, ho, s, rfl, hSup, hLatest⟩
  obtain ⟨m, hFind, hNs⟩ := hTarget o ho
  obtain ⟨r, hAbout, hGains, rfl⟩ := supersede_seq hBounded hFind hSup hLatest
  exact ⟨o, ho, m.ns, r, hAbout, hNs, hGains, rfl⟩

theorem insertSuperseding_announces {allow : Bool} {created : Nat} (hNs : n.ns.WellFormed)
    (h : Runs (insertSupersedingMemory now n e old allow) db (created, archived) db') :
    ∃ rows, Gains rows db db' ∧ Announces db'.oplog rows (⟨n.id, n.ns, .created, some created⟩ ::
      (archived.map fun seq => ⟨old, n.ns, .archived, some seq⟩).toList) := by
  obtain ⟨target, mid, hGet, hAllowed, hBody, hLatest, hRetire⟩ := insertSupersedingMemory_runs h
  obtain ⟨r, links, hAbout, hGains, hOnly⟩ := insertMemoryTxBody_gains hBody
  obtain ⟨⟨x, hx, hxId, rfl⟩, hNewest⟩ := Db.latestOplogSeqFor_some hLatest
  have hLow : r.seq ≤ x.seq :=
    hNewest r (hGains.oplog ▸ mem_append_right _ mem_cons_self) hAbout.memoryId
  have hOwn : x ∈ r :: links := by
    rw [hGains.oplog] at hx
    refine (mem_append.mp hx).resolve_left fun hOld => ?_
    have hAbove := hGains.above r mem_cons_self
    have hOldSeq := hBounded x hOld
    omega
  have hLinks : ∀ y ∈ links, y.op ≠ .insert ∧ ¬ y.op.Announced := by
    intro y hy
    rw [(hOnly y hy).1]
    decide
  -- the number read for the note is that of its own row or of a link that starts at it
  have hHome : x.ns = n.ns.asDbString := by
    rcases mem_cons.mp hOwn with rfl | hLink
    · exact hAbout.ns
    · obtain ⟨-, l, -, hId, hNsLink⟩ := hOnly x hLink
      exact hNsLink (Option.some.inj (hId.symm.trans hxId))
  have hxNs : Namespace.parseDbString x.ns = some n.ns :=
    hHome ▸ Namespace.parseDbString_asDbString hNs
  have hFound : ∀ o ∈ target, ∃ m, mid.find old = some m ∧ Namespace.parseDbString m.ns = some o.ns := by
    rintro o rfl
    rcases Db.getMemory_ok hGet with ⟨hNone, -⟩ | ⟨m, o', hSome, hFind, -, hDecodes⟩
    · cases hNone
    · cases hSome
      refine ⟨m, ?_, hDecodes.ns⟩
      unfold Db.find at hFind ⊢
      rw [(insertMemoryTxBody_adds hBody).memories, find?_append, hFind]
      rfl
  rcases retireTarget_gains (hGains.bounded hBounded) hFound hRetire with
    ⟨rfl, rfl⟩ | ⟨o, ho, home, t, hRetired, hOldHome, hMore, rfl⟩
  · exact ⟨r :: links, hGains, announces_insert hBounded hNs hAbout hGains
      (fun y hy => (hOnly y hy).1) hLow ⟨x, hOwn, hxId, rfl, hxNs⟩⟩
  · have hAll : Gains (r :: (links ++ [t])) _ _ := hGains.trans hMore
    have hNotInsert : ∀ z ∈ links ++ [t], z.op ≠ .insert := by
      intro z hz
      rcases mem_concat.mp hz with hz | rfl
      · exact (hLinks z hz).1
      · rw [hRetired.op]
        decide
    have hTells := tells_of_insert hBounded hNs hAbout hAll hNotInsert hLow
    rw [(hAllowed o ho).1] at hOldHome
    have hOld := (Announces.single hRetired hOldHome db'.oplog).widen (subset_append_right links [t])
      fun y hy => (mem_append.mp hy).symm.imp_right fun hLink => (hLinks y hLink).2
    refine ⟨_, hAll, hOld.cons hTells
      ⟨x, (mem_append_left [t] hOwn : x ∈ (r :: links) ++ [t]), hxId, rfl, hxNs⟩ ?_ ?_⟩
    · rintro _ ⟨⟩ y hy hOp
      rcases mem_concat.mp hy with hLink | rfl
      · exact absurd hOp (hLinks y hLink).2
      · exact (hGains.upTo x hOwn).trans_lt (hMore.above y mem_cons_self)
    · exact forall_mem_singleton.mpr (.inr (by decide : ChangeKind.created ≠ .archived))

end

/-- A lookup in a namespace finds the row of the memory, stored under that namespace. -/
theorem find_of_getInNamespace {d : Db} (hWf : db.Wf)
    (h : Runs (getInNamespace ns id) db n d) :
    db = d ∧ ∃ m, db.find id = some m ∧ Namespace.parseDbString m.ns = some ns ∧ Decodes m n := by
  obtain ⟨rfl, hNs, m, hm, rfl, hDecodes⟩ := getInNamespace_runs h
  exact ⟨rfl, m, Db.find_of_mem hWf.ids hm, hNs ▸ hDecodes.ns, hDecodes⟩

/-- The events of a guarded write that may change nothing. -/
theorem publishIf_announces (op : OplogOp) {home : Text} {b : Bool}
    (hBounded : db.Bounded) (hNs : Namespace.parseDbString home = some ns)
    (h : (b = true ∧ ∃ r, r.About op id home ∧ Gains [r] db db') ∨ (b = false ∧ Gains [] db db')) :
    ∃ rows, Gains rows db db' ∧ Announces db'.oplog rows
      (if b then [⟨id, ns, op.changeKind, some db'.lastOplogSeq⟩] else []) := by
  rcases h with ⟨rfl, r, hAbout, hGains⟩ | ⟨rfl, hGains⟩
  · exact ⟨[r], hGains, .stamped hBounded hGains hAbout hNs⟩
  · exact ⟨[], hGains, .nil _⟩

theorem supersedeDuplicate_announces {applied : Option DuplicateSupersede}
    (hWf : db.Wf) (h : Runs (supersedeDuplicate now ns old new) db applied db') :
    ∃ rows, Gains rows db db' ∧ Announces db'.oplog rows
      (applied.map fun d => ⟨d.archived, ns, .archived, some d.seq⟩).toList := by
  simp only [supersedeDuplicate, runs_bind, runs_get] at h
  obtain ⟨o, _, hOld, n, _, hNew, _, _, ⟨rfl, rfl⟩, h⟩ := h
  obtain ⟨rfl, mo, hFindO, hNsO, -⟩ := find_of_getInNamespace hWf hOld
  obtain ⟨rfl, mn, hFindN, hNsN, -⟩ := find_of_getInNamespace hWf hNew
  split at h
  · obtain ⟨rfl, rfl⟩ := runs_pure.mp h
    exact ⟨[], .nil rfl rfl, .nil _⟩
  · simp only [runs_bind, runs_pure] at h
    obtain ⟨_, d, hSup, seq, _, hSeq, rfl, rfl⟩ := h
    -- whichever of the two is retired, its row is stored under the namespace
    obtain ⟨m, hFind, hNs⟩ : ∃ m, db.find (if o.humanCurated then new else old) = some m ∧
        Namespace.parseDbString m.ns = some ns := by
      split
      · exact ⟨mn, hFindN, hNsN⟩
      · exact ⟨mo, hFindO, hNsO⟩
    obtain ⟨hLatest, rfl⟩ := latestOplogSeq_runs hSeq
    obtain ⟨r, hAbout, hGains, rfl⟩ := supersede_seq hWf.lastSeq hFind hSup hLatest
    exact ⟨[r], hGains, .single hAbout hNs _⟩

/-- Events in the order of the rows of a sweep, each with the number of its own row, announce
them all. -/
theorem Announces.sweep (hNs : ns.WellFormed) {log rows : List OplogRow}
    {seqFor : MemoryId → Option Nat}
    (hRows : List.Forall₂ (fun id r => OplogRow.About .archive id ns.asDbString r) ids rows)
    (hSeq : ∀ r ∈ rows, ∀ id, r.memoryId = some id → seqFor id = some r.seq)
    (hSorted : rows.Pairwise fun a b => a.seq < b.seq) (hNodup : ids.Nodup) :
    Announces log rows (ids.map fun id => ⟨id, ns, .archived, seqFor id⟩) := by
  induction hRows with
  | nil => exact .nil log
  | @cons id r ids rows hAbout _ ih =>
    obtain ⟨hBelow, hSorted⟩ := pairwise_cons.mp hSorted
    obtain ⟨hNew, hNodup⟩ := nodup_cons.mp hNodup
    have hHome := Namespace.parseDbString_asDbString hNs
    have hRest := ih (fun x hx => hSeq x (mem_cons_of_mem _ hx)) hSorted hNodup
    rw [map_cons, hSeq r mem_cons_self id hAbout.memoryId]
    refine hRest.cons (tells_of_about hAbout hHome log)
      ⟨r, mem_cons_self, hAbout.memoryId, rfl, hAbout.ns ▸ hHome⟩ ?_ fun e he => ?_
    · rintro _ ⟨⟩ x hx -
      exact hBelow x hx
    · obtain ⟨id', hId', rfl⟩ := mem_map.mp he
      exact .inl (ne_of_mem_of_not_mem hId' hNew).symm

theorem sweep_memoryIds {home : Text} {rows : List OplogRow}
    (hRows : List.Forall₂ (fun id r => OplogRow.About .archive id home r) ids rows) :
    rows.map OplogRow.memoryId = ids.map some := by
  induction hRows with
  | nil => rfl
  | cons hAbout _ ih => rw [map_cons, map_cons, hAbout.memoryId, ih]

theorem retentionSweep_announces {clock : Int} {p : RetentionPolicy}
    {at' : DateTime} {out : ForgetOutcome} {st : SweepState} (hWf : db.Wf) (hNs : ns.WellFormed)
    (h : Runs (retentionSweep clock ns p .apply at') db (out, st) db') :
    ∃ rows, Gains rows db db' ∧ Announces db'.oplog rows
      ((st.archivedIds ++ st.purgedIds).map fun id =>
        ⟨id, ns, .archived, db'.latestOplogSeqFor id⟩) := by
  obtain ⟨plan, hPlan, st', mid, hLoop, hOut, rfl⟩ := retentionSweep_runs.mp h
  obtain ⟨-, rfl⟩ := Prod.mk.inj hOut
  obtain ⟨ids, rows, hArchived, hPurged, hSub, hGains, hRows⟩ := sweepLoop_gains hWf.ids hLoop
  have hIds : st'.archivedIds ++ st'.purgedIds = ids := by
    rw [hArchived, hPurged]
    simp
  rw [hIds]
  -- the sweep ends with a row about no single memory
  obtain ⟨last, hLast, hBulk, hBulkOp⟩ : ∃ last, Gains [last] mid (sweepRow ns .apply at' plan st' mid) ∧
      last.memoryId = none ∧ ¬ last.op.Announced :=
    ⟨_, mid.logged_gains .., rfl, (by decide : ¬ OplogOp.retentionSweep.Announced)⟩
  generalize sweepRow ns .apply at' plan st' mid = final at hLast ⊢
  have hAll := hGains.trans hLast
  refine ⟨_, hAll, ?_⟩
  -- no two rows are about one memory, so each is the newest about its own
  have hIdsNodup : ids.Nodup := (retentionCandidates_nodup hWf.ids (planSweep_ok hPlan)).sublist hSub
  have hNodup : (rows.map OplogRow.memoryId).Nodup := by
    rw [sweep_memoryIds hRows]
    exact hIdsNodup.map (Option.some_injective _)
  have hSeq : ∀ r ∈ rows, ∀ id, r.memoryId = some id → final.latestOplogSeqFor id = some r.seq := by
    intro r hr id hId
    refine latestOplogSeqFor_of_gains hWf.lastSeq hAll (mem_append_left _ hr) hId fun x hx hxId => ?_
    rcases mem_concat.mp hx with hx | rfl
    · rw [inj_on_of_nodup_map hNodup hx hr (hxId.trans hId.symm)]
    · rw [hBulk] at hxId
      cases hxId
  refine (Announces.sweep hNs hRows hSeq hGains.sorted hIdsNodup).widen (subset_append_left _ _) ?_
  intro r hr
  rcases mem_concat.mp hr with hr | rfl
  · exact .inl hr
  · exact .inr hBulkOp

/-- The commands after which a subscriber can resume from any event: an insert whose links
start at the note, an update that names a field, an archive of a memory that is active, a
sweep that archives, and no merge that its guards let pass. Namespaces read back from the
text they are stored as, which the daemon checks when a client connects. -/
def WriteCommand.Resumable (env : Env) (db : Db) : WriteCommand → Prop
  | .insert _ n _ => n.ns.WellFormed ∧ ∀ l ∈ n.links, l.sourceId = n.id
  | .insertSuperseding _ n _ _ _ => n.ns.WellFormed
  | .update _ _ _ u => u.isEmpty = false
  | .archive _ _ id => ∀ m, db.find id = some m → m.archivedAt = none
  | .archiveUnattended _ ns _ => ns.WellFormed
  | .retentionSweep _ ns _ mode _ => ns.WellFormed ∧ mode = .apply
  | .reviewMerge ns a b minSimilarity n e _ allow _ =>
    ¬ MergeGuards env ns a b minSimilarity n e allow db
  | _ => True

/-- A command that publishes nothing. -/
theorem silent_announces {α : Type} {x : StoreM α} (hQuiet : Within Quiet x)
    (h : Runs (x >>= fun _ => pure []) db events db') :
    ∃ rows, Gains rows db db' ∧ Announces db'.oplog rows events := by
  obtain ⟨_, _, hRun, hPublish⟩ := runs_bind.mp h
  obtain ⟨rfl, rfl⟩ := runs_pure.mp hPublish
  obtain ⟨rows, hGains, hOnly⟩ := hQuiet _ _ _ hRun
  exact ⟨rows, hGains, .of_quiet hOnly _⟩

/-- **Key result:** a resumable command that commits announces every row with which it logs
that a memory appeared, changed or went away. -/
theorem WriteCommand.announces (hWf : db.Wf) (hCmd : cmd.Resumable env db)
    (h : Runs (cmd.body env) db events db') :
    ∃ rows, Gains rows db db' ∧ Announces db'.oplog rows events := by
  have hBounded : db.Bounded := hWf.lastSeq
  cases cmd with
  | insert now note e =>
    obtain ⟨_, _, hRun, hPublish⟩ := runs_bind.mp h
    obtain ⟨rfl, rfl⟩ := publishChangeStamped_runs.mp hPublish
    exact insert_announces hBounded hCmd.1 hCmd.2 hRun
  | insertSuperseding now note e old allow =>
    obtain ⟨⟨created, archived⟩, _, hRun, hPublish⟩ := runs_bind.mp h
    obtain ⟨rfl, rfl⟩ := runs_pure.mp hPublish
    exact insertSuperseding_announces hBounded hCmd hRun
  | update now ns id updates =>
    simp only [body, runs_bind, publishChangeStamped_runs] at h
    obtain ⟨_, _, hGet, _, _, hRun, rfl, rfl⟩ := h
    obtain ⟨rfl, m, hFind, hNs, -⟩ := find_of_getInNamespace hWf hGet
    obtain ⟨r, hAbout, hGains⟩ := updateMemory_gains hFind hCmd hRun
    exact ⟨[r], hGains, .stamped hBounded hGains hAbout hNs⟩
  | archive now ns id =>
    simp only [body, archiveMemory, runs_bind, runs_pure, publishChangeStamped_runs] at h
    obtain ⟨_, _, hGet, _, _, ⟨b, _, hRun, -, rfl⟩, rfl, rfl⟩ := h
    obtain ⟨rfl, m, hFind, hNs, -⟩ := find_of_getInNamespace hWf hGet
    obtain ⟨hm, hId⟩ := Db.find_some hFind
    rcases archiveWithDetails_gains hWf.ids hRun with ⟨rfl, m', hm', hTaken, r, hAbout, hGains⟩ |
      ⟨rfl, hNone, -⟩
    · obtain rfl : m' = m := Db.row_unique hWf.ids hm' hm (hTaken.1.trans hId.symm)
      exact ⟨[r], hGains, .stamped hBounded hGains hAbout hNs⟩
    · exact absurd ⟨hId, hCmd m hFind, .inl rfl, .inl rfl⟩ (hNone m hm)
  | archiveUnattended now ns id =>
    obtain ⟨b, _, hRun, hPublish⟩ := runs_bind.mp h
    obtain ⟨rfl, rfl⟩ := publishIf_runs.mp hPublish
    refine publishIf_announces .archive hBounded (Namespace.parseDbString_asDbString hCmd) ?_
    rcases archiveWithDetails_gains hWf.ids hRun with ⟨rfl, m, hm, hTaken, r, hAbout, hGains⟩ |
      ⟨rfl, -, rfl⟩
    · have hHome : m.ns = ns.asDbString :=
        (Option.some.inj (hTaken.2.2.1.resolve_left (by simp))).symm
      exact .inl ⟨rfl, r, hHome ▸ hAbout, hGains⟩
    · exact .inr ⟨rfl, .nil rfl rfl⟩
  | recordFeedback now ns id kind principal =>
    simp only [body, runs_bind, runs_require, publishChangeStamped_runs] at h
    obtain ⟨_, _, hGet, _, _, ⟨-, rfl⟩, _, _, hRun, rfl, rfl⟩ := h
    obtain ⟨rfl, m, hFind, hNs, -⟩ := find_of_getInNamespace hWf hGet
    obtain ⟨r, hAbout, hGains⟩ := recordFeedback_gains hFind hRun
    exact ⟨[r], hGains, .stamped hBounded hGains hAbout hNs⟩
  | setRecalibratedImportance now ns id importance | setConfidence now ns id confidence =>
    simp only [body, runs_bind, publishIf_runs] at h
    obtain ⟨_, _, hGet, _, _, hRun, rfl, rfl⟩ := h
    obtain ⟨rfl, m, hFind, hNs, -⟩ := find_of_getInNamespace hWf hGet
    have hRow := setUncurated_gains hFind hRun (fun _ => rfl) fun _ => rfl
    exact publishIf_announces _ hBounded hNs hRow
  | supersede now ns old new requireEquivalence =>
    cases requireEquivalence with
    | true =>
      obtain ⟨applied, _, hRun, hPublish⟩ := runs_bind.mp h
      obtain ⟨rfl, rfl⟩ := runs_pure.mp hPublish
      exact supersedeDuplicate_announces hWf hRun
    | false =>
      simp only [body, runs_bind, runs_pure] at h
      obtain ⟨_, _, hOld, _, _, hNew, _, _, hRun, _, _, hSeq, rfl, rfl⟩ := h
      obtain ⟨rfl, m, hFind, hNs, -⟩ := find_of_getInNamespace hWf hOld
      obtain ⟨rfl, -⟩ := find_of_getInNamespace hWf hNew
      obtain ⟨hLatest, rfl⟩ := latestOplogSeq_runs hSeq
      obtain ⟨r, hAbout, hGains, rfl⟩ := supersede_seq hBounded hFind hRun hLatest
      exact ⟨[r], hGains, .single hAbout hNs _⟩
  | retentionSweep clock ns policy mode now =>
    obtain ⟨hNs, rfl⟩ := hCmd
    simp only [body, runs_bind, runs_get, runs_pure] at h
    obtain ⟨⟨out, st⟩, _, hRun, _, _, ⟨rfl, rfl⟩, rfl, rfl⟩ := h
    exact retentionSweep_announces hWf hNs hRun
  | reviewMerge ns a b minSimilarity note e details allow now =>
    obtain ⟨_, _, hRun, -⟩ := runs_bind.mp h
    exact absurd (reviewMerge_guards hRun) hCmd
  | scrub now =>
    simp only [body, runs_bind, runs_pure] at h
    obtain ⟨_, _, hRun, rfl, rfl⟩ := h
    obtain ⟨rows, hGains, hOnly⟩ := scrub_quiet hWf.ids hRun
    exact ⟨rows, hGains, .of_quiet hOnly _⟩
  | addLink now link => exact silent_announces (addLink_quiet link) h
  | flushAccesses bumps => exact silent_announces (recordAccessBumps_quiet bumps) h
  | setLinkStrength now source target linkType strength =>
    exact silent_announces (setLinkStrength_quiet source target linkType strength) h
  | deleteLink now source target linkType =>
    exact silent_announces (deleteLink_quiet source target linkType) h
  | reembed id e model version expected =>
    exact silent_announces (updateVector_quiet env id e model version expected) h
  | renameNamespace now old new merge => exact silent_announces (renameNamespace_quiet old new merge) h
  | reviewSnooze ns key days details now =>
    exact silent_announces (snoozeReviewItem_within (upsertReviewState_quiet _ _)
      (appendReviewOplog_quiet _ (by decide) _ _)) h
  | reviewResolutionRecord ns key details now =>
    exact silent_announces (recordReviewResolution_within (upsertReviewState_quiet _ _)
      (appendReviewOplog_quiet _ (by decide) _ _)) h
  | reviewSweepRecord ns details now =>
    exact silent_announces (appendReviewOplog_quiet ns (by decide) details now) h

end

end RustyBrain.Daemon
