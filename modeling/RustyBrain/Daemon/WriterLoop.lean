import RustyBrain.Lib.Faults
import RustyBrain.Daemon.Writer

/-!
# rusty-brain — faults of the writer

The writer thread under faults. Each command runs on the writer's connection, and a fault
may strike it before it commits. `runStoreOp` decides what becomes of the connection, the
loop goes on or ends, and the death guard raises its signal when it ends in the wrong way.

A command is one transaction, but for the retention sweep: it archives or purges each
candidate in a transaction of its own and keeps what it finished when it fails.

## Results

* `serve_spec` — what every turn of the loop leaves, and when the loop ends.
-/

namespace RustyBrain.Daemon

open Store Transaction Faults List

variable {o : Outcome Error (List MemoryChanged)}

/-! ## One command on the connection -/

/-- What happens to a single statement outside a transaction. -/
inductive StatementFault where
  | failed (e : Error)
  | panicked (message : String)

/-- The faults met while one command is served. -/
structure Trouble where
  /-- In the reads a command makes before its first transaction. -/
  reading : Option (Fault Db Error) := none
  /-- In the `n`-th transaction of the command. -/
  transaction : Nat → Option (Fault Db Error) := fun _ => none
  /-- At the end of a sweep: turning `secure_delete` off, and recording the run. -/
  resetting : Option Error := none
  recording : Option StatementFault := none
  /-- The error of an arm that finds a transaction open, from `BEGIN` or from a check that
  the arm makes before it. -/
  refusal : Error := .storage "cannot start a transaction within a transaction"
  /-- Why the database cannot be opened again. -/
  reopening : Option Error := none

/-- Nothing goes wrong. -/
structure Trouble.Clear (t : Trouble) : Prop where
  reading : t.reading = none
  transaction : ∀ n, t.transaction n = none
  resetting : t.resetting = none
  recording : t.recording = none

/-- The pragma that a hard sweep resets fails: the sweep takes note and goes on. -/
def noteReset (t : Trouble) (mode : ForgetMode) (st : SweepState) : SweepState :=
  match mode, t.resetting with
  | .hard, some e =>
    { st with failure := appendFailure st.failure ("resetting secure_delete: " ++ e.display) }
  | _, _ => st

/-- The loop of `retention_sweep` from its `i`-th candidate on; it unwinds with the message
of a panic. -/
def sweepFrom (t : Trouble) (clock : Int) (ns : Namespace) (mode : ForgetMode) :
    Nat → List ForgetCandidate → SweepState → Conn Db →
      Except String SweepState × Conn Db
  | _, [], st, c => (.ok st, c)
  | i, cand :: rest, st, c =>
    match transact t.refusal (sweepOne clock ns mode cand) (t.transaction i) c with
    | (.completed (.ok true), c') =>
      sweepFrom t clock ns mode (i + 1) rest (st.record mode cand.id) c'
    | (.completed (.ok false), c') =>
      sweepFrom t clock ns mode (i + 1) rest { st with skipped := st.skipped + 1 } c'
    | (.completed (.error e), c') =>
      (.ok { st with failure := some (stepFailure mode cand e) }, c')
    | (.panicked message, c') => (.error message, c')

/-- What the connection reads: the working copy of its open transaction, or the file. -/
def contents (c : Conn Db) : Db := c.working.getD c.committed

/-- A statement outside `BEGIN`: it is part of the open transaction, if there is one. -/
def autocommit (f : Db → Db) (c : Conn Db) : Conn Db :=
  match c.working with
  | some work => { c with working := some (f work) }
  | none => c.advance (f c.committed)

/-- The events of a sweep, each with the sequence number of its own memory. -/
def sweepEvents (ns : Namespace) (st : SweepState) (db : Db) : List MemoryChanged :=
  (st.archivedIds ++ st.purgedIds).map fun id => ⟨id, ns, .archived, db.latestOplogSeqFor id⟩

/-- The arm of a retention sweep. An item that fails ends the loop but not the command. -/
def sweepOn (t : Trouble) (clock : Int) (ns : Namespace) (p : RetentionPolicy)
    (mode : ForgetMode) (now : DateTime) (c : Conn Db) :
    Outcome Error (List MemoryChanged) × Conn Db :=
  match planSweep (contents c) ns p mode now with
  | .error e => (.completed (.error e), c)
  | .ok plan =>
    match sweepFrom t clock ns mode 0 plan.candidates {} c with
    | (.error message, c') => (.panicked message, c')
    | (.ok st, c') =>
      match t.recording with
      | some (.panicked message) => (.panicked message, c')
      -- the run is not recorded, which only the reply tells
      | some (.failed _) => (.completed (.ok (sweepEvents ns st (contents c'))), c')
      | none =>
        let c'' := autocommit (sweepRow ns mode now plan (noteReset t mode st)) c'
        (.completed (.ok (sweepEvents ns st (contents c''))), c'')

/-- The commands whose operation returns before it would begin a transaction. -/
def WriteCommand.idle : WriteCommand → Bool
  | .flushAccesses bumps => bumps.isEmpty
  | .update _ _ _ updates => updates.isEmpty
  | _ => false

/-- The operation of a command on the connection, in `catch_store_op`. The reads that an arm
makes before its transaction see what the transaction sees: nobody else writes. -/
def WriteCommand.execute (env : Env) (t : Trouble) (cmd : WriteCommand) (c : Conn Db) :
    Outcome Error (List MemoryChanged) × Conn Db :=
  match t.reading, cmd with
  | some f, _ => f.strike c
  | none, .retentionSweep clock ns p mode now => sweepOn t clock ns p mode now c
  | none, cmd =>
    match c.working, cmd.idle with
    | some work, true => (.completed (commit (cmd.body env) work).1, c)
    | _, _ => transact t.refusal (cmd.body env) (t.transaction 0) c

/-! ## The connection after a command -/

/-- `StoreOpReport`: what the caller is told, and whether the writer can go on. -/
structure StoreOpReport where
  result : Except Error (List MemoryChanged)
  writerUsable : Bool

/-- The writer's database, and whether the writer has it open (`store` is `Some`). -/
structure Writer where
  conn : Conn Db
  isOpen : Bool := true

/-- Drop the connection and open the database again. -/
def Writer.reopened (t : Trouble) (c : Conn Db) : Writer :=
  ⟨c.reopen, t.reopening.isNone⟩

/-- The answer to a command that panicked. -/
def panicAnswer (t : Trouble) (message : String) : Error :=
  match t.reopening with
  | none => .storage ("writer thread panic: " ++ message)
  | some e => .storage ("writer thread panic: " ++ message ++ "; reopen failed: " ++ e.display)

/-- `run_store_op`. A panic, or an error that leaves a transaction open, costs the writer
its connection. -/
def runStoreOp (t : Trouble)
    (op : Conn Db → Outcome Error (List MemoryChanged) × Conn Db) (w : Writer) :
    StoreOpReport × Writer :=
  if w.isOpen then
    match op w.conn with
    | (.completed (.ok events), c) => (⟨.ok events, true⟩, ⟨c, true⟩)
    | (.completed (.error e), c) =>
      if c.isAutocommit then (⟨.error e, true⟩, ⟨c, true⟩)
      else (⟨.error e, t.reopening.isNone⟩, .reopened t c)
    | (.panicked message, c) =>
      (⟨.error (panicAnswer t message), t.reopening.isNone⟩, .reopened t c)
  else (⟨.error (.storage "writer thread unavailable"), false⟩, w)

/-! ## The loop -/

/-- `WriterDeathGuard`. -/
structure WriterDeathGuard where
  graceful : Bool := false

/-- The loop ends as it should. -/
def WriterDeathGuard.disarm (_ : WriterDeathGuard) : WriterDeathGuard := ⟨true⟩

/-- `Drop` of the guard: whether it raises the death signal. -/
def WriterDeathGuard.dropped (g : WriterDeathGuard) : Bool := !g.graceful

/-- What the writer receives: a command, with the faults it will meet, or `Shutdown`. The
end of the list is the closed queue. -/
inductive Message where
  | command (cmd : WriteCommand) (t : Trouble)
  | shutdown

/-- One command served. -/
structure Turn where
  cmd : WriteCommand
  trouble : Trouble
  before : Conn Db
  report : StoreOpReport
  after : Conn Db

/-- The message that a turn served. -/
def Turn.message (turn : Turn) : Message := .command turn.cmd turn.trouble

/-- Why `writer_loop` returned. -/
inductive LoopEnd where
  | notOpened
  | closedQueue
  | shutdown
  | unusable
  deriving DecidableEq

/-- What `writer_loop` did. -/
structure WriterExit where
  turns : List Turn
  conn : Conn Db
  ended : LoopEnd
  died : Bool

/-- The loop of `writer_loop`. -/
def serve (env : Env) (death : WriterDeathGuard) : Writer → List Message → WriterExit
  | w, [] => ⟨[], w.conn, .closedQueue, death.disarm.dropped⟩
  | w, .shutdown :: _ => ⟨[], w.conn, .shutdown, death.disarm.dropped⟩
  | w, .command cmd t :: rest =>
    let (report, w') := runStoreOp t (cmd.execute env t) w
    let turn : Turn := ⟨cmd, t, w.conn, report, w'.conn⟩
    if report.writerUsable then
      let exit := serve env death w' rest
      { exit with turns := turn :: exit.turns }
    else ⟨[turn], w'.conn, .unusable, death.dropped⟩

/-- `writer_loop`, on a database with the content `file`; `opening` is why it cannot be
opened. -/
def writerLoop (env : Env) (opening : Option Error) (file : Db) (queue : List Message) :
    WriterExit :=
  match opening with
  | some _ => ⟨[], ⟨file, [], none⟩, .notOpened, ({} : WriterDeathGuard).disarm.dropped⟩
  | none => serve env {} ⟨⟨file, [], none⟩, true⟩ queue

/-- Taking note changes only the text of the failure. -/
theorem noteReset_eq (t : Trouble) (mode : ForgetMode) (st : SweepState) :
    ∃ noted, noteReset t mode st = { st with failure := noted } := by
  unfold noteReset
  split
  · exact ⟨_, rfl⟩
  · exact ⟨st.failure, rfl⟩

/-! ## What a command leaves -/

/-- The candidates of a sweep before the first one whose transaction meets a fault; `i` is
the number of the first of them. -/
def Trouble.spared (t : Trouble) : Nat → List ForgetCandidate → List ForgetCandidate
  | _, [] => []
  | i, cand :: rest => if (t.transaction i).isNone then cand :: t.spared (i + 1) rest else []

/-- The store after a sweep finished these candidates. -/
def swept (clock : Int) (ns : Namespace) (mode : ForgetMode) (cs : List ForgetCandidate)
    (db : Db) : Db :=
  (commit (sweepLoop clock ns mode cs {}) db).2

/-- The candidates that a command finishes before a fault stops it. -/
def WriteCommand.finished (t : Trouble) (cmd : WriteCommand) (db : Db) : List ForgetCandidate :=
  match t.reading, cmd with
  | none, .retentionSweep _ ns p mode now =>
    match planSweep db ns p mode now with
    | .ok plan => t.spared 0 plan.candidates
    | .error _ => []
  | _, _ => []

/-- The store after a sweep finished its first `n` candidates. A command that is no sweep has
nothing to finish before its only transaction. -/
def WriteCommand.stage (t : Trouble) (cmd : WriteCommand) (db : Db) (n : Nat) : Db :=
  match cmd with
  | .retentionSweep clock ns _ mode _ => swept clock ns mode ((cmd.finished t db).take n) db
  | _ => db

/-- What a command that fails leaves committed. -/
def WriteCommand.leaves (t : Trouble) (cmd : WriteCommand) (db : Db) : Db :=
  cmd.stage t db (cmd.finished t db).length

/-- What a command that is answered `Ok` has committed: its whole body, or a sweep's finished
candidates and, unless recording it failed, the row that reports them. A sweep that nothing
disturbs has committed its whole body too. -/
def WriteCommand.Kept (env : Env) (t : Trouble) (cmd : WriteCommand) (db : Db)
    (events : List MemoryChanged) (db' : Db) : Prop :=
  match cmd with
  | .retentionSweep clock ns p mode now =>
    (∃ plan st failure, planSweep db ns p mode now = .ok plan ∧
      Runs (sweepLoop clock ns mode (cmd.finished t db) {}) db st (cmd.leaves t db) ∧
      (db' = sweepRow ns mode now plan { st with failure := failure } (cmd.leaves t db) ∨
        t.recording ≠ none ∧ db' = cmd.leaves t db) ∧
      events = sweepEvents ns st db') ∧
    (t.Clear → Runs (cmd.body env) db events db')
  | cmd => Runs (cmd.body env) db events db'

/-! ## The loop of a sweep under faults -/

section

variable {t : Trouble} {clock : Int} {ns : Namespace} {mode : ForgetMode}
  {cand : ForgetCandidate} {rest cs : List ForgetCandidate} {st st' : SweepState} {db s s' : Db}

/-- A candidate whose transaction succeeds is counted, and the loop goes on from there. -/
theorem sweepLoop_cons_done {b : Bool} (h : Runs (sweepOne clock ns mode cand) db b s) :
    Runs (sweepLoop clock ns mode (cand :: rest) st) db st' s' ↔
      Runs (sweepLoop clock ns mode rest
        (if b then st.record mode cand.id else { st with skipped := st.skipped + 1 })) s st' s' := by
  constructor
  · intro hRun
    obtain ⟨r, s₁, hNested, hRest⟩ := runs_bind.mp hRun
    obtain ⟨rfl, rfl⟩ := Prod.mk.inj (h.commit_eq.symm.trans (runs_nested.mp hNested))
    cases b <;> exact hRest
  · intro hRest
    refine runs_bind.mpr ⟨.ok b, s, runs_nested.mpr h.commit_eq, ?_⟩
    cases b <;> exact hRest

/-- A candidate whose transaction fails ends the loop. -/
theorem sweepLoop_cons_failed {e : Error} (h : (sweepOne clock ns mode cand).run db = .error e) :
    Runs (sweepLoop clock ns mode (cand :: rest) st) db
      { st with failure := some (stepFailure mode cand e) } db := by
  have hCommit : commit (sweepOne clock ns mode cand) db = (.error e, db) := by
    simp only [commit, h]
  exact runs_bind.mpr ⟨.error e, db, runs_nested.mpr hCommit, runs_pure.mpr ⟨rfl, rfl⟩⟩

/-- What the loop of a sweep leaves: the state of the candidates before the first fault,
visible one after the other, and with no transaction open unless it unwound. -/
structure SweptTo (t : Trouble) (clock : Int) (ns : Namespace) (mode : ForgetMode) (i : Nat)
    (cs : List ForgetCandidate) (st : SweepState) (c : Conn Db)
    (r : Except String SweepState × Conn Db) (st' : SweepState) : Prop where
  runs : Runs (sweepLoop clock ns mode (t.spared i cs) st) c.committed st' r.2.committed
  readers : ∀ s ∈ r.2.visible, s ∈ c.visible ∨
    ∃ n st'', Runs (sweepLoop clock ns mode ((t.spared i cs).take n) st) c.committed st'' s
  ok : ∀ st₁, r.1 = .ok st₁ → r.2.working = none ∧ ∃ failure, st₁ = { st' with failure := failure }
  whole : t.spared i cs = cs → r.1 = .ok st'

/-- No transaction of the command fails and stays open. -/
def Trouble.RollsBack (t : Trouble) : Prop := ∀ i e work, t.transaction i ≠ some (.leftOpen e work)

/-- The loop of a sweep leaves what it leaves without faults on the candidates before the
first fault. The induction is on the candidates. -/
theorem sweepFrom_spec (hRolls : t.RollsBack) (i : Nat) (cs : List ForgetCandidate)
    (st : SweepState) (c : Conn Db) (hIdle : c.working = none) :
    ∃ st', SweptTo t clock ns mode i cs st c (sweepFrom t clock ns mode i cs st c) st' := by
  induction cs generalizing i st c with
  | nil =>
    refine ⟨st, ⟨runs_pure.mpr ⟨rfl, rfl⟩, fun s hs => .inl hs, ?_, fun _ => rfl⟩⟩
    intro st₁ h
    exact ⟨hIdle, st.failure, (Except.ok.inj h).symm⟩
  | cons cand rest ih =>
    cases hFault : t.transaction i with
    | some f =>
      -- the fault strikes here: nothing of this candidate is committed
      have hSpared : t.spared i (cand :: rest) = [] := by simp [Trouble.spared, hFault]
      cases f with
      | leftOpen e work => exact absurd hFault (hRolls i e work)
      | rolledBack _ | panicked _ _ =>
        refine ⟨st, ⟨?_, ?_, ?_, ?_⟩⟩ <;>
          simp only [sweepFrom, hFault, transact_struck hIdle, Fault.strike, hSpared]
        · exact runs_pure.mpr ⟨rfl, rfl⟩
        · exact fun s hs => .inl hs
        · intro st₁ h
          cases h <;> exact ⟨hIdle, _, rfl⟩
        · exact nofun
    | none =>
      have hSpared : t.spared i (cand :: rest) = cand :: t.spared (i + 1) rest := by
        simp [Trouble.spared, hFault]
      cases hRun : (sweepOne clock ns mode cand).run c.committed with
      | error e =>
        let failed : String :=
          mode.asStr ++ " of " ++ cand.id.display ++ " failed: " ++ e.display
        refine ⟨{ st with failure := some failed }, ⟨?_, ?_, ?_, ?_⟩⟩ <;>
          simp only [sweepFrom, hFault, transact_idle hIdle, hRun, hSpared]
        · exact sweepLoop_cons_failed hRun
        · exact fun s hs => .inl hs
        · intro st₁ h
          exact ⟨hIdle, _, (Except.ok.inj h).symm⟩
        · exact fun _ => rfl
      | ok r =>
        obtain ⟨b, s₁⟩ := r
        have hDone : Runs (sweepOne clock ns mode cand) c.committed b s₁ := hRun
        obtain ⟨st', h⟩ := ih (i + 1)
          (if b then st.record mode cand.id else { st with skipped := st.skipped + 1 })
          (c.advance s₁) hIdle
        have hStep : sweepFrom t clock ns mode i (cand :: rest) st c =
            sweepFrom t clock ns mode (i + 1) rest
              (if b then st.record mode cand.id else { st with skipped := st.skipped + 1 })
              (c.advance s₁) := by
          cases b <;> simp [sweepFrom, hFault, transact_idle hIdle, hRun]
        rw [hStep]
        refine ⟨st', ⟨?_, ?_, h.ok, ?_⟩⟩ <;> rw [hSpared]
        · exact (sweepLoop_cons_done hDone).mpr h.runs
        · intro s hs
          rcases h.readers s hs with hOld | ⟨n, st'', hRest⟩
          · rw [Conn.visible_advance] at hOld
            rcases mem_cons.mp hOld with rfl | hOld
            · exact .inr ⟨1, _, (sweepLoop_cons_done hDone).mpr (runs_pure.mpr ⟨rfl, rfl⟩)⟩
            · exact .inl hOld
          · exact .inr ⟨n + 1, st'', (sweepLoop_cons_done hDone).mpr hRest⟩
        · intro hAll
          exact h.whole (List.cons.inj hAll).2

end

/-! ## One command under faults -/

/-- A command is a sweep, or its only writes are those of one transaction. -/
theorem WriteCommand.sweep_or (cmd : WriteCommand) :
    (∃ clock ns p mode now, cmd = .retentionSweep clock ns p mode now) ∨
      (∀ t db n, cmd.stage t db n = db) ∧
      (∀ env t db events db', cmd.Kept env t db events db' = Runs (cmd.body env) db events db') ∧
      ∀ env t c, t.reading = none → c.working = none →
        cmd.execute env t c = transact t.refusal (cmd.body env) (t.transaction 0) c := by
  cases cmd
  case retentionSweep clock ns p mode now => exact .inl ⟨clock, ns, p, mode, now, rfl⟩
  all_goals
    refine .inr ⟨fun _ _ _ => rfl, fun _ _ _ _ _ => rfl, ?_⟩
    intro env t c hReading hIdle
    simp only [execute, hReading, hIdle]

/-- A sweep does not leave the transaction of an item open. -/
def WriteCommand.RollsBack (t : Trouble) : WriteCommand → Prop
  | .retentionSweep _ _ _ _ _ => t.RollsBack
  | _ => True

/-- What a command leaves on the connection, and what readers see of it. -/
structure Executed (env : Env) (t : Trouble) (cmd : WriteCommand) (c : Conn Db)
    (r : Outcome Error (List MemoryChanged) × Conn Db) : Prop where
  kept : ∀ events, r.1 = .completed (.ok events) →
    r.2.working = none ∧ cmd.Kept env t c.committed events r.2.committed
  failed : (∀ events, r.1 ≠ .completed (.ok events)) →
    r.2.committed = cmd.leaves t c.committed
  readers : ∀ s ∈ r.2.visible, s ∈ c.visible ∨ (∃ n, s = cmd.stage t c.committed n) ∨
    (∃ events, r.1 = .completed (.ok events)) ∧ s = r.2.committed

section Execute

variable {env : Env} {t : Trouble} {c c' : Conn Db} {cmd : WriteCommand} {clock : Int}
  {ns : Namespace} {p : RetentionPolicy} {mode : ForgetMode} {now : DateTime} {st : SweepState}

/-- A command that is not answered `Ok`. -/
theorem executed_unanswered (hNot : ∀ events, o ≠ .completed (.ok events))
    (hLeaves : c'.committed = cmd.leaves t c.committed)
    (hReaders : ∀ s ∈ c'.visible, s ∈ c.visible ∨ ∃ n, s = cmd.stage t c.committed n) :
    Executed env t cmd c (o, c') where
  kept events h := absurd h (hNot events)
  failed _ := hLeaves
  readers s hs := (hReaders s hs).imp_right .inl

theorem executed_ok (events : List MemoryChanged) (hWork : c'.working = none)
    (hKept : cmd.Kept env t c.committed events c'.committed)
    (hReaders : ∀ s ∈ c'.visible, s ∈ c.visible ∨ (∃ n, s = cmd.stage t c.committed n) ∨
      s = c'.committed) :
    Executed env t cmd c (.completed (.ok events), c') where
  kept events' h := by
    obtain rfl : events = events' := by injection h with h; injection h
    exact ⟨hWork, hKept⟩
  failed h := absurd rfl (h events)
  readers s hs := (hReaders s hs).imp_right (.imp_right fun h => ⟨⟨events, rfl⟩, h⟩)

/-- A fault of a command that finished nothing leaves the file as it was. -/
theorem executed_strike (f : Fault Db Error) (hLeaves : cmd.leaves t c.committed = c.committed) :
    Executed env t cmd c (f.strike c) := by
  cases f <;> exact executed_unanswered nofun hLeaves.symm fun s hs => .inl hs

/-- A command of one transaction. -/
theorem executed_transact (hIdle : c.working = none)
    (hStage : ∀ n, cmd.stage t c.committed n = c.committed)
    (hKept : ∀ events db', Runs (cmd.body env) c.committed events db' →
      cmd.Kept env t c.committed events db') :
    Executed env t cmd c (transact t.refusal (cmd.body env) (t.transaction 0) c) := by
  cases hFault : t.transaction 0 with
  | some f =>
    rw [transact_struck hIdle]
    exact executed_strike f (hStage _)
  | none =>
    rw [transact_idle hIdle]
    cases hRun : (cmd.body env).run c.committed with
    | error e => exact executed_unanswered nofun (hStage _).symm fun s hs => .inl hs
    | ok r =>
      refine executed_ok _ hIdle (hKept r.1 r.2 hRun) fun s hs => ?_
      rcases mem_cons.mp hs with rfl | hs
      · exact .inr (.inr rfl)
      · exact .inl hs

/-- A loop that ran tells the store after it. -/
theorem swept_eq {cs : List ForgetCandidate} {db db' : Db} (h : Runs (sweepLoop clock ns mode cs {}) db st db') :
    swept clock ns mode cs db = db' := by
  unfold Runs at h
  simp only [swept, commit, h]

/-- Where nothing goes wrong no candidate is cut off. -/
theorem Trouble.Clear.spared (hClear : t.Clear) (i : Nat) (cs : List ForgetCandidate) :
    t.spared i cs = cs := by
  induction cs generalizing i with
  | nil => rfl
  | cons cand rest ih => simp [Trouble.spared, hClear.transaction i, ih (i + 1)]

theorem Trouble.Clear.noteReset (hClear : t.Clear) (mode : ForgetMode) (st : SweepState) :
    noteReset t mode st = st := by
  simp [Daemon.noteReset, hClear.resetting]

/-- The body of a sweep, from its plan, its loop and its row. -/
theorem sweepBody_runs {plan : ForgetPlan} {db mid db' : Db} {events : List MemoryChanged} (hPlan : planSweep db ns p mode now = .ok plan)
    (hLoop : Runs (sweepLoop clock ns mode plan.candidates {}) db st mid)
    (hRow : sweepRow ns mode now plan st mid = db') (hEvents : events = sweepEvents ns st db') :
    Runs ((WriteCommand.retentionSweep clock ns p mode now).body env) db events db' := by
  simp only [WriteCommand.body, runs_bind, retentionSweep_runs, runs_get, runs_pure]
  exact ⟨_, _, ⟨plan, hPlan, st, mid, hLoop, rfl, hRow⟩, db', db', ⟨rfl, rfl⟩, hEvents.symm, rfl⟩

/-- A sweep. -/
theorem executed_sweep (hReading : t.reading = none) (hRolls : t.RollsBack)
    (hIdle : c.working = none) :
    Executed env t (.retentionSweep clock ns p mode now) c
      (sweepOn t clock ns p mode now c) := by
  have hView : contents c = c.committed := by simp [contents, hIdle]
  obtain ⟨cmd, hCmd⟩ : ∃ cmd, cmd = WriteCommand.retentionSweep clock ns p mode now := ⟨_, rfl⟩
  rw [← hCmd, sweepOn, hView]
  cases hPlan : planSweep c.committed ns p mode now with
  | error e =>
    -- refused before the first candidate
    refine executed_unanswered nofun ?_ fun s hs => .inl hs
    simp only [hCmd, WriteCommand.leaves, WriteCommand.stage, WriteCommand.finished, hReading, hPlan]
    rfl
  | ok plan =>
    have hFinished : cmd.finished t c.committed = t.spared 0 plan.candidates := by
      simp only [hCmd, WriteCommand.finished, hReading, hPlan]
    have hStage : ∀ n, cmd.stage t c.committed n =
        swept clock ns mode ((t.spared 0 plan.candidates).take n) c.committed := by
      intro n
      rw [← hFinished, hCmd]
      rfl
    obtain ⟨st', h⟩ : ∃ st', SweptTo t clock ns mode 0 plan.candidates {} c
        (sweepFrom t clock ns mode 0 plan.candidates {} c) st' :=
      sweepFrom_spec hRolls 0 plan.candidates {} c hIdle
    dsimp only
    generalize sweepFrom t clock ns mode 0 plan.candidates {} c = r at h ⊢
    obtain ⟨r₁, c'⟩ := r
    have hLeaves : cmd.leaves t c.committed = c'.committed := by
      rw [WriteCommand.leaves, hStage, hFinished, take_length]
      exact swept_eq h.runs
    have hReaders : ∀ s ∈ c'.visible, s ∈ c.visible ∨ ∃ n, s = cmd.stage t c.committed n := by
      intro s hs
      refine (h.readers s hs).imp_right ?_
      rintro ⟨n, st'', hRun⟩
      exact ⟨n, (hStage n ▸ swept_eq hRun).symm⟩
    cases r₁ with
    | error message => exact executed_unanswered nofun hLeaves.symm hReaders
    | ok st =>
      obtain ⟨hWork, failure, rfl⟩ := h.ok st rfl
      replace hWork : c'.working = none := hWork
      have hRuns : Runs (sweepLoop clock ns mode (cmd.finished t c.committed) {}) c.committed st'
          (cmd.leaves t c.committed) := by
        rw [hLeaves, hFinished]
        exact h.runs
      cases hRecording : t.recording with
      | none =>
        -- the row that reports the run is a commit of its own
        obtain ⟨noted, hNoted⟩ := noteReset_eq t mode { st' with failure := failure }
        let db' := sweepRow ns mode now plan { st' with failure := noted } c'.committed
        have hRow : autocommit (sweepRow ns mode now plan { st' with failure := noted }) c' =
            c'.advance db' := by
          simp only [autocommit, hWork]
          rfl
        have hViewRow : contents (c'.advance db') = db' := by simp [contents, hWork]
        dsimp only
        rw [hNoted, hRow, hViewRow]
        refine executed_ok (sweepEvents ns st' db') hWork ?_ fun s hs => ?_
        · rw [hCmd] at hRuns hLeaves ⊢
          refine ⟨⟨plan, st', noted, hPlan, hRuns, .inl ?_, rfl⟩, fun hClear => ?_⟩
          · rw [hLeaves]
            rfl
          · have hSame : { st' with failure := failure } = st' :=
              Except.ok.inj (h.whole (hClear.spared 0 plan.candidates))
            rw [hSame, hClear.noteReset mode st'] at hNoted
            have hAll : Runs (sweepLoop clock ns mode plan.candidates {}) c.committed st'
                c'.committed := by
              rw [← hClear.spared 0 plan.candidates]
              exact h.runs
            have hRowAll : sweepRow ns mode now plan st' c'.committed = db' := by
              rw [hNoted]
            exact sweepBody_runs hPlan hAll hRowAll rfl
        · rcases mem_cons.mp hs with rfl | hs
          · exact .inr (.inr rfl)
          · exact (hReaders s hs).imp_right .inl
      | some fault =>
        cases fault with
        | panicked message => exact executed_unanswered nofun hLeaves.symm hReaders
        | failed e =>
          have hViewAfter : contents c' = c'.committed := by simp [contents, hWork]
          have hUnrecorded : t.recording ≠ none := by
            rw [hRecording]
            exact nofun
          dsimp only
          rw [hViewAfter]
          refine executed_ok (sweepEvents ns st' c'.committed) hWork ?_
            fun s hs => (hReaders s hs).imp_right .inl
          rw [hCmd] at hRuns hLeaves ⊢
          exact ⟨⟨plan, st', failure, hPlan, hRuns, .inr ⟨hUnrecorded, hLeaves.symm⟩, rfl⟩,
            fun hClear => absurd hClear.recording hUnrecorded⟩

/-- What a command leaves on a connection with no open transaction. -/
theorem execute_spec (cmd : WriteCommand) (hRolls : cmd.RollsBack t) (hIdle : c.working = none) :
    Executed env t cmd c (cmd.execute env t c) := by
  cases hReading : t.reading with
  | some f =>
    -- nothing was finished: the fault came first
    have hLeaves : cmd.leaves t c.committed = c.committed := by
      cases cmd <;> simp only [WriteCommand.leaves, WriteCommand.stage, WriteCommand.finished,
        hReading]
      rfl
    have hStruck : cmd.execute env t c = f.strike c := by
      simp only [WriteCommand.execute, hReading]
    rw [hStruck]
    exact executed_strike f hLeaves
  | none =>
    rcases cmd.sweep_or with ⟨clock, ns, p, mode, now, rfl⟩ | ⟨hStage, hKept, hExecute⟩
    · have hOn : (WriteCommand.retentionSweep clock ns p mode now).execute env t c =
          sweepOn t clock ns p mode now c := by
        simp only [WriteCommand.execute, hReading]
      rw [hOn]
      exact executed_sweep hReading hRolls hIdle
    · rw [hExecute env t c hReading hIdle]
      refine executed_transact hIdle (hStage t c.committed) fun events db' hRun => ?_
      rw [hKept]
      exact hRun

end Execute

/-! ## Every turn of the loop -/

/-- A turn that contains the faults it meets. -/
structure Turn.Contained (env : Env) (turn : Turn) : Prop where
  idle : turn.before.working = none
  failed : ∀ e, turn.report.result = .error e →
    turn.after.committed = turn.cmd.leaves turn.trouble turn.before.committed
  answered : ∀ events, turn.report.result = .ok events →
    turn.cmd.Kept env turn.trouble turn.before.committed events turn.after.committed
  readers : ∀ s ∈ turn.after.visible, s ∈ turn.before.visible ∨
    (∃ n, s = turn.cmd.stage turn.trouble turn.before.committed n) ∨
    (∃ events, turn.report.result = .ok events) ∧ s = turn.after.committed
  serving : turn.report.writerUsable = false → turn.trouble.reopening ≠ none

/-- Each turn begins where the one before it ended. -/
def linked : Conn Db → List Turn → Conn Db → Prop
  | c, [], c' => c = c'
  | c, turn :: rest, c' => turn.before = c ∧ linked turn.after rest c'

/-- Why the loop left the rest of its queue. -/
def WriterExit.LeavesQueue (exit : WriterExit) (rest : List Message) : Prop :=
  match exit.ended with
  | .notOpened => False
  | .closedQueue => rest = []
  | .shutdown => ∃ later, rest = .shutdown :: later
  | .unusable => ∃ turn, exit.turns.getLast? = some turn ∧ turn.trouble.reopening ≠ none

/-- A loop that served its queue from the connection `c` on. -/
structure Served (env : Env) (queue : List Message) (c : Conn Db) (exit : WriterExit) :
    Prop where
  contained : ∀ turn ∈ exit.turns, turn.Contained env
  linked : linked c exit.turns exit.conn
  served : ∃ rest, queue = exit.turns.map Turn.message ++ rest ∧ exit.LeavesQueue rest
  signalled : exit.died = true ↔ exit.ended ≠ .closedQueue ∧ exit.ended ≠ .shutdown

section Loop

variable {env : Env} {t : Trouble} {c c' : Conn Db} {cmd : WriteCommand}

/-- A turn that is not answered `Ok`, on the connection of its command or a new one. -/
theorem Executed.contained {after : Conn Db} {e : Error}
    {usable : Bool} (h : Executed env t cmd c (o, c')) (hNot : ∀ events, o ≠ .completed (.ok events))
    (hIdle : c.working = none) (hCommitted : after.committed = c'.committed)
    (hVisible : after.visible = c'.visible) (hServing : usable = false → t.reopening ≠ none) :
    Turn.Contained env ⟨cmd, t, c, ⟨.error e, usable⟩, after⟩ where
  idle := hIdle
  failed _ _ := hCommitted.trans (h.failed hNot)
  answered _ h := nomatch h
  readers s hs := (h.readers s (hVisible ▸ hs)).imp_right fun hs =>
    .inl (hs.resolve_right fun ⟨⟨events, hOk⟩, _⟩ => hNot events hOk)
  serving := hServing

/-- One turn: what `run_store_op` reports, and the connection it leaves. -/
theorem runStoreOp_spec (cmd : WriteCommand) (hRolls : cmd.RollsBack t) (hIdle : c.working = none) :
    let r := runStoreOp t (cmd.execute env t) ⟨c, true⟩
    Turn.Contained env ⟨cmd, t, c, r.1, r.2.conn⟩ ∧ r.2.conn.working = none ∧
      r.2.isOpen = r.1.writerUsable := by
  have hSpec : Executed env t cmd c (cmd.execute env t c) := execute_spec cmd hRolls hIdle
  simp only [runStoreOp, if_true]
  generalize cmd.execute env t c = r at hSpec ⊢
  obtain ⟨outcome, c'⟩ := r
  -- a connection is dropped only where opening it again decides whether to go on
  have hServing : t.reopening.isNone = false → t.reopening ≠ none := by
    intro h hNone
    rw [hNone] at h
    cases h
  cases outcome with
  | panicked message => exact ⟨hSpec.contained nofun hIdle rfl rfl hServing, rfl, rfl⟩
  | completed result =>
    cases result with
    | ok events =>
      obtain ⟨hWork, hKept⟩ := hSpec.kept events rfl
      refine ⟨⟨hIdle, nofun, ?_, ?_, nofun⟩, hWork, rfl⟩
      · intro events' h
        obtain rfl : events = events' := Except.ok.inj h
        exact hKept
      · intro s hs
        exact (hSpec.readers s hs).imp_right (.imp_right fun h => ⟨⟨events, rfl⟩, h.2⟩)
    | error e =>
      dsimp only
      split
      next hAuto =>
        exact ⟨hSpec.contained nofun hIdle rfl rfl nofun, Option.isNone_iff_eq_none.mp hAuto, rfl⟩
      next => exact ⟨hSpec.contained nofun hIdle rfl rfl hServing, rfl, rfl⟩

/-- A turn before the others does not change why the loop ended. -/
theorem leavesQueue_cons {exit : WriterExit} {turn : Turn} {rest : List Message}
    (h : exit.LeavesQueue rest) :
    WriterExit.LeavesQueue { exit with turns := turn :: exit.turns } rest := by
  unfold WriterExit.LeavesQueue at h ⊢
  cases hEnded : exit.ended with
  | unusable =>
    rw [hEnded] at h
    obtain ⟨last, hLast, hFailed⟩ := h
    refine ⟨last, ?_, hFailed⟩
    rw [getLast?_cons, hLast]
    rfl
  | _ =>
    rw [hEnded] at h
    exact h

/-- Every run of the loop: the induction is on the queue, and the connection stays without an
open transaction from turn to turn. -/
theorem serve_spec (queue : List Message) (c : Conn Db) (hIdle : c.working = none)
    (hRolls : ∀ cmd t, .command cmd t ∈ queue → cmd.RollsBack t) :
    Served env queue c (serve env {} ⟨c, true⟩ queue) := by
  induction queue generalizing c with
  | nil =>
    refine ⟨(fun _ h => nomatch h), rfl, ⟨[], rfl, rfl⟩, ?_⟩
    simp [serve, WriterDeathGuard.disarm, WriterDeathGuard.dropped]
  | cons message rest ih =>
    cases message with
    | shutdown =>
      refine ⟨(fun _ h => nomatch h), rfl, ⟨.shutdown :: rest, rfl, rest, rfl⟩, ?_⟩
      simp [serve, WriterDeathGuard.disarm, WriterDeathGuard.dropped]
    | command cmd t =>
      have hRoll := hRolls cmd t mem_cons_self
      obtain ⟨hTurn, hWork, hOpen⟩ :=
        (runStoreOp_spec cmd hRoll hIdle : Turn.Contained env ⟨cmd, t, c, _, _⟩ ∧ _)
      generalize hOp : runStoreOp t (cmd.execute env t) ⟨c, true⟩ = r at hTurn hWork hOpen
      obtain ⟨report, ⟨c', isOpen⟩⟩ := r
      obtain rfl : isOpen = report.writerUsable := hOpen
      cases hUsable : report.writerUsable with
      | true =>
        -- the turn joins those of the rest of the queue
        have hRest : Served env rest c' (serve env {} ⟨c', true⟩ rest) :=
          ih c' hWork fun cmd t h => hRolls cmd t (mem_cons_of_mem _ h)
        have hServe : serve env {} ⟨c, true⟩ (.command cmd t :: rest) =
            { serve env {} ⟨c', true⟩ rest with
              turns := ⟨cmd, t, c, report, c'⟩ :: (serve env {} ⟨c', true⟩ rest).turns } := by
          simp only [serve, hOp, hUsable, if_true]
        rw [hServe]
        obtain ⟨later, hQueue, hEnd⟩ := hRest.served
        refine ⟨?_, ⟨rfl, hRest.linked⟩, ⟨later, ?_, ?_⟩, hRest.signalled⟩
        · intro turn h
          rcases mem_cons.mp h with rfl | h
          · exact hTurn
          · exact hRest.contained turn h
        · rw [map_cons, cons_append, ← hQueue]
          rfl
        · exact leavesQueue_cons hEnd
      | false =>
        have hServe : serve env {} ⟨c, true⟩ (.command cmd t :: rest) =
            ⟨[⟨cmd, t, c, report, c'⟩], c', .unusable, true⟩ := by
          simp [serve, hOp, hUsable, WriterDeathGuard.dropped]
        rw [hServe]
        refine ⟨?_, ⟨rfl, rfl⟩, ⟨rest, rfl, ⟨_, rfl, hTurn.serving hUsable⟩⟩, ?_⟩
        · intro turn h
          rw [mem_singleton.mp h]
          exact hTurn
        · simp

end Loop

/-- Writer faults are contained, whatever the queue and wherever faults strike, but for a
sweep that fails to roll an item back: every turn begins with no open transaction; a command
that fails leaves the file as it was, or a sweep the items it had finished, and readers see
nothing else; a command answered `Ok` is committed; the loop serves on unless reopening the
database fails, and raises the death signal exactly when it ends for that. -/
theorem writerLoop_contains_faults (env : Env) (file : Db) (queue : List Message)
    (hRolls : ∀ cmd t, .command cmd t ∈ queue → cmd.RollsBack t) :
    Served env queue ⟨file, [], none⟩ (writerLoop env none file queue) ∧
      ∀ e, (writerLoop env (some e) file queue).turns = [] ∧
        (writerLoop env (some e) file queue).conn.committed = file ∧
        (writerLoop env (some e) file queue).died = false :=
  ⟨serve_spec queue ⟨file, [], none⟩ rfl hRolls, fun _ => ⟨rfl, rfl, rfl⟩⟩

/-- Two memories that are old enough to be forgotten. -/
def agedStore : Db :=
  storeAfter .blank 2
    [.insertMemory 0 (.new ⟨1⟩ ⟨0, 0⟩ .global ['a'] .insight 1) none,
      .insertMemory 0 (.new ⟨2⟩ ⟨0, 0⟩ .global ['b'] .insight 1) none]

/-- A sweep of both that panics while it archives the second. -/
def panickingSweep : Message :=
  .command
    (.retentionSweep 200000 .global { enabled := true, maxAgeDays := some 1 } .apply ⟨200000, 0⟩)
    { transaction := fun n => if n = 1 then some (.panicked "disk" agedStore) else none }

/-- The same sweep once more, and nothing goes wrong. -/
def calmSweep : Message :=
  .command
    (.retentionSweep 200000 .global { enabled := true, maxAgeDays := some 1 } .apply ⟨200000, 0⟩) {}

/-- The result at that queue: the first sweep fails, the second is answered, and the writer
ends with its queue. -/
theorem writerLoop_contains_faults_sweeps :
    (writerLoop .blank none agedStore [panickingSweep, calmSweep]).turns.map
        (fun turn => turn.report.result.isOk) = [false, true] ∧
      Served .blank [panickingSweep, calmSweep] ⟨agedStore, [], none⟩
        (writerLoop .blank none agedStore [panickingSweep, calmSweep]) := by
  refine ⟨by decide +kernel, (writerLoop_contains_faults .blank agedStore _ ?_).1⟩
  intro cmd t h
  have hBoth : Message.command cmd t = panickingSweep ∨ Message.command cmd t = calmSweep := by
    simpa using h
  rcases hBoth with h | h
  · obtain ⟨rfl, rfl⟩ := Message.command.inj h
    intro i e work
    by_cases hi : i = 1 <;> simp [hi]
  · obtain ⟨rfl, rfl⟩ := Message.command.inj h
    exact nofun

/-- A sweep that panics at its second candidate is answered with an error, and the first
candidate stays archived. -/
theorem panicked_sweep_keeps_first_item :
    ¬ ∀ (env : Env) (file : Db) (queue : List Message) (turn : Turn),
      turn ∈ (writerLoop env none file queue).turns → turn.report.result.isOk = false →
        turn.after.committed = turn.before.committed := by
  intro h
  have hTurn : ∃ turn ∈ (writerLoop .blank none agedStore [panickingSweep]).turns,
      turn.report.result.isOk = false ∧
        turn.after.committed.memories ≠ turn.before.committed.memories := by
    decide +kernel
  obtain ⟨turn, hMem, hFailed, hChanged⟩ := hTurn
  exact hChanged (congrArg Db.memories (h .blank agedStore _ turn hMem hFailed))

end RustyBrain.Daemon
