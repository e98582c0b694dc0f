import RustyBrain.Lib.Machine

/-!
# Daemons that share a socket path

A daemon that starts opens the pidfile beside the socket, locks it without waiting,
writes it, removes a socket file nobody answers at, and binds; one that stops removes
the socket and the pidfile and closes the locked file. The module interleaves the
operations of any number of processes on one pair of names. A lock is on the file a
process opened, and removing a name leaves the file: a process that opened the pidfile
before its name was removed locks a file that no later process will open.
-/

namespace RustyBrain.Daemon.BindGuard

open Machine

/-- A file, apart from the names that lead to it. -/
abbrev Inode : Type := Nat

/-- A daemon process. -/
abbrev Process : Type := Nat

/-- How far a process has come. A phase names the next operation by what has been done;
`file` is the pidfile the process opened. -/
inductive Phase where
  | idle
  | opened (file : Inode)
  | permitted (file : Inode)
  | locked (file : Inode)
  /-- `BindGuard::acquire` has returned. -/
  | guarded (file : Inode)
  /-- A file is at the socket path. -/
  | probing (file : Inode)
  /-- The probe was not answered. -/
  | stale (file : Inode)
  | clear (file : Inode)
  | bound (file : Inode)
  /-- `mark_socket_bound` was called. -/
  | serving (file : Inode)
  /-- `cleanup` has begun. -/
  | cleaning (file : Inode) (ownsSocket : Bool)
  | unlinking (file : Inode)
  /-- `cleanup` is done; the locked file is still open. -/
  | cleaned (file : Inode)
  | gone
deriving DecidableEq

/-- The two names, the locks and the processes. -/
structure State where
  /-- The file the pidfile's name leads to. -/
  pidfile : Option Inode
  /-- Files created so far. -/
  created : Nat
  locks : Inode → Option Process
  /-- The process that bound the file at the socket path. -/
  socket : Option Process
  phase : Process → Phase

variable {p : Phase} {s : State}

/-- Nothing is on disk and no process has started. -/
def start : State where
  pidfile := none
  created := 0
  locks := fun _ => none
  socket := none
  phase := fun _ => .idle

/-- What happens to a process: it goes on, with the answer of the probe if that is next;
its next operation fails; or it is killed. -/
inductive Event where
  | proceed (answered : Bool)
  | fail
  | kill
deriving DecidableEq

namespace State

variable (s : State) (d : Process)

def enter (p : Phase) : State :=
  { s with phase := Function.update s.phase d p }

/-- The file is closed: its lock, if the process has it, is gone. -/
def close (file : Inode) : State :=
  { s with
    locks := if s.locks file = some d then Function.update s.locks file none else s.locks
    phase := Function.update s.phase d .gone }

/-- Open the pidfile, creating it when the name leads nowhere. -/
def openPidfile : State :=
  match s.pidfile with
  | some file => s.enter d (.opened file)
  | none =>
    { s with
      pidfile := some s.created
      created := s.created + 1
      phase := Function.update s.phase d (.opened s.created) }

/-- `flock` without waiting. -/
def lockPidfile (file : Inode) : State :=
  match s.locks file with
  | none =>
    { s with
      locks := Function.update s.locks file (some d)
      phase := Function.update s.phase d (.locked file) }
  | some _ => s.close d file

/-- The process at the socket path answers a handshake. -/
def answers : Bool :=
  match s.socket with
  | none => false
  | some x =>
    match s.phase x with
    | .serving _ => true
    | _ => false

/-- The next operation of the process. -/
def proceed (answered : Bool) : State :=
  match s.phase d with
  | .idle => s.openPidfile d
  | .opened file => if s.pidfile.isSome then s.enter d (.permitted file) else s.close d file
  | .permitted file => s.lockPidfile d file
  | .locked file => s.enter d (.guarded file)
  | .guarded file => s.enter d (if s.socket.isSome then .probing file else .clear file)
  | .probing file =>
    s.enter d (if answered && s.answers then .cleaning file false else .stale file)
  | .stale file =>
    if s.socket.isSome then { s with socket := none }.enter d (.clear file)
    else s.enter d (.cleaning file false)
  | .clear file =>
    if s.socket.isNone then { s with socket := some d }.enter d (.bound file)
    else s.enter d (.cleaning file false)
  | .bound file => s.enter d (.serving file)
  | .serving file => s.enter d (.cleaning file true)
  | .cleaning file ownsSocket =>
    { s with socket := if ownsSocket then none else s.socket }.enter d (.unlinking file)
  | .unlinking file => { s with pidfile := none }.enter d (.cleaned file)
  | .cleaned file => s.close d file
  | .gone => s

/-- The next operation of the process fails. Before the guard exists the file is only
closed; afterwards the guard is dropped, and its own errors are passed over. -/
def fail : State :=
  match s.phase d with
  | .idle => s.enter d .gone
  | .opened file => s.close d file
  | .permitted file => s.close d file
  | .locked file => s.close d file
  | .guarded file => s.enter d (.cleaning file false)
  | .probing file => s.enter d (.cleaning file false)
  | .stale file => s.enter d (.cleaning file false)
  | .clear file => s.enter d (.cleaning file false)
  | .bound file => s.enter d (.cleaning file false)
  | .serving file => s.enter d (.cleaning file true)
  | .cleaning file _ => s.enter d (.unlinking file)
  | .unlinking file => s.enter d (.cleaned file)
  | .cleaned file => s.close d file
  | .gone => s

end State

/-- The pidfile a process has open. -/
@[simp]
def Phase.file : Phase → Option Inode
  | .idle => none
  | .opened file => some file
  | .permitted file => some file
  | .locked file => some file
  | .guarded file => some file
  | .probing file => some file
  | .stale file => some file
  | .clear file => some file
  | .bound file => some file
  | .serving file => some file
  | .cleaning file _ => some file
  | .unlinking file => some file
  | .cleaned file => some file
  | .gone => none

/-- One event of one process. -/
def step (s : State) : Process × Event → State
  | (d, .proceed answered) => s.proceed d answered
  | (d, .fail) => s.fail d
  | (d, .kill) =>
    match (s.phase d).file with
    | some file => s.close d file
    | none => s.enter d .gone

/-! ## What the processes promise each other -/

/-- The file whose lock the process has. -/
@[simp]
def Phase.holding : Phase → Option Inode
  | .opened _ => none
  | .permitted _ => none
  | p => p.file

/-- The file whose lock the process has, until it removes the pidfile. -/
@[simp]
def Phase.claiming : Phase → Option Inode
  | .cleaned _ => none
  | p => p.holding

/-- Past acquiring the guard and not yet cleaned up. -/
def Phase.Guarding : Phase → Prop
  | .locked _ => False
  | p => p.claiming.isSome

/-- The process has bound the socket and not yet removed it. -/
def Phase.Running : Phase → Prop
  | .bound _ => True
  | .serving _ => True
  | .cleaning _ ownsSocket => ownsSocket = true
  | _ => False

/-- The process whose socket file the event removes. -/
def removedSocket (s : State) (e : Process × Event) : Option Process :=
  if (step s e).socket.isNone then s.socket else none

/-- At most one process is past acquiring the guard and not cleaned up, and no event
removes a socket file that another running process bound. -/
structure State.Safe (s : State) : Prop where
  exclusive : ∀ d e, (s.phase d).Guarding → (s.phase e).Guarding → d = e
  keeps_sockets : ∀ d ev x, removedSocket s (d, ev) = some x → x ≠ d → ¬(s.phase x).Running

/-- A lock is granted only on the file that the pidfile's name leads to. -/
def LocksNamedFile (s : State) : Process × Event → Prop
  | (d, .proceed _) => ∀ file, s.phase d = .permitted file → s.locks file = none →
      s.pidfile = some file
  | _ => True

/-- Every process has the lock it took, and until it removes the pidfile the name leads
to the file it locked. -/
structure State.Consistent (s : State) : Prop where
  holds : ∀ d file, (s.phase d).holding = some file → s.locks file = some d
  named : ∀ d file, (s.phase d).claiming = some file → s.pidfile = some file

theorem Phase.holding_of_claiming {file : Inode} (h : p.claiming = some file) :
    p.holding = some file := by
  cases p <;> simp_all

theorem Phase.Guarding.claiming (h : p.Guarding) : ∃ file, p.claiming = some file := by
  cases p <;> simp_all [Guarding]

theorem Phase.Running.guarding (h : p.Running) : p.Guarding := by
  cases p <;> simp_all [Running, Guarding]

namespace State.Consistent

variable {s : State}

section

variable (h : s.Consistent)

include h

/-- One lock, one name: two claims are of one process. -/
theorem claim_unique {d e : Process} {f g : Inode} (hd : (s.phase d).claiming = some f)
    (he : (s.phase e).claiming = some g) : d = e := by
  have hfg : f = g := Option.some.inj ((h.named d f hd).symm.trans (h.named e g he))
  subst hfg
  have hLock := h.holds d f (Phase.holding_of_claiming hd)
  rw [h.holds e f (Phase.holding_of_claiming he)] at hLock
  exact (Option.some.inj hLock).symm

/-- A step of `d` keeps the invariant when it takes no other process's lock, leaves the
name where another process claims it, and `d` itself ends with what it claims. -/
theorem of_step {s' : State} (d : Process) (hPhase : ∀ e, e ≠ d → s'.phase e = s.phase e)
    (hLocks : ∀ e file, e ≠ d → s.locks file = some e → s'.locks file = some e)
    (hName : ∀ e file, e ≠ d → (s.phase e).claiming = some file → s'.pidfile = some file)
    (hHolds : ∀ file, (s'.phase d).holding = some file → s'.locks file = some d)
    (hNamed : ∀ file, (s'.phase d).claiming = some file → s'.pidfile = some file) :
    s'.Consistent where
  holds e file he := by
    by_cases hed : e = d
    · subst hed
      exact hHolds file he
    · rw [hPhase e hed] at he
      exact hLocks e file hed (h.holds e file he)
  named e file he := by
    by_cases hed : e = d
    · subst hed
      exact hNamed file he
    · rw [hPhase e hed] at he
      exact hName e file hed he

variable {d : Process}

/-- A process moves on with the file it has, the names and locks as they are. -/
theorem enter {s' : State} (hLocks : s'.locks = s.locks)
    (hPidfile : s'.pidfile = s.pidfile) (hPhase : s'.phase = Function.update s.phase d p)
    (hHolds : ∀ file, p.holding = some file → (s.phase d).holding = some file)
    (hNamed : ∀ file, p.claiming = some file → (s.phase d).claiming = some file) :
    s'.Consistent := by
  have hSelf : s'.phase d = p := by rw [hPhase, Function.update_self]
  refine h.of_step d (fun e he => ?_) (fun e file _ hLock => ?_) (fun e file _ hClaim => ?_)
    (fun file hp => ?_) (fun file hp => ?_)
  · rw [hPhase, Function.update_of_ne he]
  · rw [hLocks, hLock]
  · rw [hPidfile, h.named e file hClaim]
  · rw [hSelf] at hp
    rw [hLocks, h.holds d file (hHolds file hp)]
  · rw [hSelf] at hp
    rw [hPidfile, h.named d file (hNamed file hp)]

/-- Closing the file gives up no lock but the process's own. -/
theorem close (d : Process) (file : Inode) : (s.close d file).Consistent := by
  have hSelf : (s.close d file).phase d = .gone := Function.update_self ..
  refine h.of_step d (fun e he => Function.update_of_ne he _ _) (fun e file' he hLock => ?_)
    (fun e file' _ hClaim => h.named e file' hClaim) (fun file' hp => ?_) (fun file' hp => ?_)
  · unfold State.close
    dsimp only
    split
    · next hOwn =>
      have hNe : file' ≠ file := by
        rintro rfl
        rw [hLock] at hOwn
        exact he (Option.some.inj hOwn)
      rw [Function.update_of_ne hNe, hLock]
    · exact hLock
  · simp [hSelf] at hp
  · simp [hSelf] at hp

theorem openPidfile : (s.openPidfile d).Consistent := by
  unfold State.openPidfile
  cases hName : s.pidfile with
  | some file =>
    exact h.enter rfl rfl rfl (by simp) (by simp)
  | none =>
    -- no name, so no process claims one
    refine h.of_step d (fun e he => Function.update_of_ne he _ _) (fun e file _ hLock => hLock)
      (fun e file _ hClaim => ?_) (fun file hp => ?_) (fun file hp => ?_)
    · have := h.named e file hClaim
      rw [hName] at this
      simp at this
    · simp at hp
    · simp at hp

theorem lockPidfile {file : Inode}
    (hNamed : s.locks file = none → s.pidfile = some file) :
    (s.lockPidfile d file).Consistent := by
  unfold State.lockPidfile
  cases hLock : s.locks file with
  | some e => exact h.close d file
  | none =>
    refine h.of_step d (fun e he => Function.update_of_ne he _ _) (fun e file' _ hLock' => ?_)
      (fun e file' _ hClaim => h.named e file' hClaim) (fun file' hp => ?_) (fun file' hp => ?_)
    · have hNe : file' ≠ file := by
        rintro rfl
        rw [hLock] at hLock'
        simp at hLock'
      exact (Function.update_of_ne hNe _ _).trans hLock'
    · obtain rfl : file = file' := by simpa using hp
      simp
    · obtain rfl : file = file' := by simpa using hp
      exact hNamed hLock

/-- The pidfile is removed by the one process that claims it. -/
theorem unlink {file : Inode} (hPhase : s.phase d = .unlinking file) :
    ({ s with pidfile := none }.enter d (.cleaned file)).Consistent := by
  have hClaim : (s.phase d).claiming = some file := by
    rw [hPhase]
    rfl
  refine h.of_step d (fun e he => Function.update_of_ne he _ _) (fun e file' _ hLock => hLock)
    (fun e file' he hOther => ?_) (fun file' hp => ?_) (fun file' hp => ?_)
  · exact absurd (h.claim_unique hOther hClaim) he
  · obtain rfl : file = file' := by simpa [State.enter] using hp
    exact h.holds d file (Phase.holding_of_claiming hClaim)
  · simp [State.enter] at hp

theorem proceed {answered : Bool} (hLocks : LocksNamedFile s (d, .proceed answered)) :
    (s.proceed d answered).Consistent := by
  unfold State.proceed
  -- every phase but the four that touch a name or a lock passes its file on
  split <;> rename_i hPhase
  case h_1 => exact h.openPidfile
  case h_2 =>
    split
    · exact h.enter rfl rfl rfl (by simp) (by simp)
    · exact h.close d _
  case h_3 => exact h.lockPidfile (hLocks _ hPhase)
  case h_12 => exact h.unlink hPhase
  case h_13 => exact h.close d _
  case h_14 => exact h
  all_goals
    try split
  all_goals
    refine h.enter rfl rfl rfl ?_ ?_ <;> rw [hPhase] <;> simp

theorem fail (d : Process) : (s.fail d).Consistent := by
  unfold State.fail
  split <;> rename_i hPhase
  case h_2 | h_3 | h_4 | h_13 => exact h.close d _
  case h_14 => exact h
  all_goals
    refine h.enter rfl rfl rfl ?_ ?_ <;> rw [hPhase] <;> simp

end

end State.Consistent

theorem consistent_start : start.Consistent where
  holds d file h := by simp [start] at h
  named d file h := by simp [start] at h

/-- Every step that locks the file under the name keeps the invariant. -/
theorem consistent_step {e : Process × Event} (h : s.Consistent)
    (hLocks : LocksNamedFile s e) : (step s e).Consistent := by
  obtain ⟨d, ev⟩ := e
  cases ev with
  | proceed answered => exact h.proceed hLocks
  | fail => exact h.fail d
  | kill =>
    unfold step
    dsimp only
    split
    · exact h.close d _
    · exact h.enter rfl rfl rfl (by simp) (by simp)

section Sockets

variable (s : State) (d : Process)

@[simp] theorem enter_socket (p : Phase) : (s.enter d p).socket = s.socket := rfl

@[simp] theorem close_socket (file : Inode) : (s.close d file).socket = s.socket := rfl

@[simp] theorem openPidfile_socket : (s.openPidfile d).socket = s.socket := by
  unfold State.openPidfile
  split <;> rfl

@[simp] theorem lockPidfile_socket (file : Inode) : (s.lockPidfile d file).socket = s.socket := by
  unfold State.lockPidfile
  split <;> rfl

end Sockets

/-- Only a process past acquiring the guard removes a socket file. -/
theorem guarding_of_removedSocket {d x : Process} {ev : Event}
    (h : removedSocket s (d, ev) = some x) : s.socket = some x ∧ (s.phase d).Guarding := by
  unfold removedSocket at h
  split at h
  case isFalse => simp at h
  next hGone =>
  refine ⟨h, ?_⟩
  have hSocket : s.socket.isNone = false := by simp [h]
  cases ev with
  | proceed answered =>
    cases hPhase : s.phase d <;>
      simp_all [step, State.proceed, Phase.Guarding, Phase.claiming, Phase.holding, Phase.file,
        apply_ite State.socket]
  | fail => cases hPhase : s.phase d <;> simp_all [step, State.fail]
  | kill => cases hPhase : s.phase d <;> simp_all [step]

/-- The invariant is all that exclusion rests on. -/
theorem State.Consistent.safe (h : s.Consistent) : s.Safe where
  exclusive d e hd he := by
    obtain ⟨f, hf⟩ := hd.claiming
    obtain ⟨g, hg⟩ := he.claiming
    exact h.claim_unique hf hg
  keeps_sockets d ev x hRemoved hNe hRunning := by
    obtain ⟨-, hGuarding⟩ := guarding_of_removedSocket hRemoved
    obtain ⟨f, hf⟩ := hGuarding.claiming
    obtain ⟨g, hg⟩ := hRunning.guarding.claiming
    exact hNe (h.claim_unique hg hf)

/-- In a run in which every lock is granted on the file the pidfile's name leads to,
the daemons exclude each other throughout. -/
theorem daemons_exclude_each_other (run : List (Process × Event))
    (hRun : Along step LocksNamedFile start run) : ∀ s ∈ states step start run, s.Safe := by
  intro s hs
  have hConsistent : s.Consistent :=
    invariant_along (fun _ _ hOk hI => consistent_step hI hOk) consistent_start hRun s hs
  exact hConsistent.safe

/-- `n` operations of a process that meet no error, with no probe answered. -/
def operations (d : Process) (n : Nat) : List (Process × Event) :=
  List.replicate n (d, .proceed false)

instance (s : State) (e : Process × Event) : Decidable (LocksNamedFile s e) :=
  match e with
  | (d, .proceed _) =>
    match hPhase : s.phase d with
    | .permitted file =>
      decidable_of_iff (s.locks file = none → s.pidfile = some file)
        (by simp [LocksNamedFile, hPhase])
    | .idle | .opened _ | .locked _ | .guarded _ | .probing _ | .stale _ | .clear _ | .bound _
    | .serving _ | .cleaning _ _ | .unlinking _ | .cleaned _ | .gone =>
      .isTrue (by simp [LocksNamedFile, hPhase])
  | (_, .fail) => .isTrue trivial
  | (_, .kill) => .isTrue trivial

/-- A process serves, a second one is turned away by the lock, the first one stops, and a
third one takes its place. -/
theorem daemons_exclude_each_other_handover :
    Along step LocksNamedFile start
        (operations 0 7 ++ operations 1 3 ++ operations 0 4 ++ operations 2 7) ∧
      ((operations 0 7 ++ operations 1 3 ++ operations 0 4 ++ operations 2 7).foldl step
        start).phase 2 = .serving 1 ∧
      ∀ s ∈ states step start
        (operations 0 7 ++ operations 1 3 ++ operations 0 4 ++ operations 2 7), s.Safe := by
  have hRun : Along step LocksNamedFile start
      (operations 0 7 ++ operations 1 3 ++ operations 0 4 ++ operations 2 7) := by decide
  exact ⟨hRun, by decide, daemons_exclude_each_other _ hRun⟩

/-- A second process opens the pidfile, the first one stops and removes it, the second locks
what it opened, and a third one creates and locks another. -/
def race : List (Process × Event) :=
  operations 0 7 ++ operations 1 2 ++ operations 0 4 ++ operations 1 2 ++ operations 2 4

/-- Both are then past acquiring the guard; and when the second has bound the socket and
is slow to answer, the third removes it. -/
theorem race_breaks_exclusion :
    (race.foldl step start).phase 1 = .guarded 0 ∧
      (race.foldl step start).phase 2 = .guarded 1 ∧
      ¬(race.foldl step start).Safe ∧
      ((race ++ operations 1 3 ++ operations 2 2).foldl step start).phase 1 = .serving 0 ∧
      removedSocket ((race ++ operations 1 3 ++ operations 2 2).foldl step start)
        (2, .proceed false) = some 1 := by
  have hSecond : (race.foldl step start).phase 1 = .guarded 0 := by decide
  have hThird : (race.foldl step start).phase 2 = .guarded 1 := by decide
  refine ⟨hSecond, hThird, fun hSafe => ?_, by decide, by decide⟩
  have hGuarding : ∀ file, (Phase.guarded file).Guarding := fun _ => rfl
  have := hSafe.exclusive 1 2 (hSecond ▸ hGuarding 0) (hThird ▸ hGuarding 1)
  simp at this

end RustyBrain.Daemon.BindGuard
