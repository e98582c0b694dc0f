import RustyBrain.Lib.Transaction

/-!
# Transactions that meet a fault

A connection to a file of state `σ`: what is committed, which is all that other connections
read, and the working copy of the transaction that is open on it, if one is. A transaction
may be struck by a fault before its commit: it fails and is rolled back, it fails and stays
open, or it panics. The two last leave a working copy behind, with whatever the statements
before the fault wrote.
-/

namespace Faults

open Transaction

variable {σ ε α : Type}

/-- What strikes a transaction before its commit. `work` is what its statements had written
by then. -/
inductive Fault (σ ε : Type) where
  | rolledBack (e : ε)
  | leftOpen (e : ε) (work : σ)
  | panicked (message : String) (work : σ)
  deriving DecidableEq

/-- A connection: the committed state, the states committed before it (the newest first),
and the working copy of an open transaction. -/
structure Conn (σ : Type) where
  committed : σ
  earlier : List σ := []
  working : Option σ := none
  deriving DecidableEq

/-- A call returned, or unwound. -/
inductive Outcome (ε α : Type) where
  | completed (result : Except ε α)
  | panicked (message : String)

namespace Conn

/-- No transaction is open. -/
def isAutocommit (c : Conn σ) : Bool := c.working.isNone

/-- The file moves on to the next committed state. -/
def advance (c : Conn σ) (s : σ) : Conn σ :=
  { c with committed := s, earlier := c.committed :: c.earlier }

@[simp] theorem advance_committed (c : Conn σ) (s : σ) : (c.advance s).committed = s := rfl

@[simp] theorem advance_working (c : Conn σ) (s : σ) :
    (c.advance s).working = c.working := rfl

/-- Dropped and opened anew: the open transaction is gone, the file is what it was. -/
def reopen (c : Conn σ) : Conn σ := { c with working := none }

/-- Every state that a reader of the file has had before it. -/
def visible (c : Conn σ) : List σ := c.committed :: c.earlier

@[simp] theorem visible_advance (c : Conn σ) (s : σ) :
    (c.advance s).visible = s :: c.visible := rfl

end Conn

/-- The end of a call that a fault strikes. -/
def Fault.strike (c : Conn σ) : Fault σ ε → Outcome ε α × Conn σ
  | .rolledBack e => (.completed (.error e), c)
  | .leftOpen e work => (.completed (.error e), { c with working := some work })
  | .panicked message work => (.panicked message, { c with working := some work })

/-- One transaction on a connection; `busy` is the error of beginning one inside another. -/
def transact (busy : ε) (x : Tx σ ε α) (fault : Option (Fault σ ε)) (c : Conn σ) :
    Outcome ε α × Conn σ :=
  match c.working, fault with
  | some _, _ => (.completed (.error busy), c)
  | none, some f => f.strike c
  | none, none =>
    match x.run c.committed with
    | .ok (a, s) => (.completed (.ok a), c.advance s)
    | .error e => (.completed (.error e), c)

/-- On a connection with no open transaction a body that meets no fault is committed as a
whole when it succeeds, and leaves nothing when it fails. -/
theorem transact_idle {busy : ε} {x : Tx σ ε α} {c : Conn σ} (h : c.working = none) :
    transact busy x none c =
      match x.run c.committed with
      | .ok (a, s) => (.completed (.ok a), c.advance s)
      | .error e => (.completed (.error e), c) := by
  simp only [transact, h]

/-- On a connection with no open transaction a fault strikes. -/
theorem transact_struck {busy : ε} {x : Tx σ ε α} {c : Conn σ} {f : Fault σ ε}
    (h : c.working = none) : transact busy x (some f) c = f.strike c := by
  simp only [transact, h]

end Faults
