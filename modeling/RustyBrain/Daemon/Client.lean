import RustyBrain.Daemon.Concurrent
import RustyBrain.Lib.Conduct

/-!
# rusty-brain — handlers among other clients

The daemon's handlers and jobs as sessions: they read through the read pool, write through the
single writer, and between two of their accesses other clients may do any operation of the
store.
-/

namespace RustyBrain.Daemon

open Store Transaction Sessions Interleaving

/-- The accesses of a handler: a read, or an operation that the writer ran for it. -/
inductive Deed where
  | read
  | ran (op : Op)

/-- A handler or a job among other clients. -/
abbrev ClientM (α : Type) := Session (World Db Op Deed) Error α

/-- What a handler draws from outside, at each access anew: the clock and the id of a new
memory. -/
structure Draws where
  clock : Nat → DateTime
  freshId : Nat → MemoryId

section Accesses

variable (env : Env)

/-- A read, after other clients. -/
def query {α : Type} (f : Db → Result α) : ClientM α :=
  look (fun op db => Op.run env op db) .read f

/-- A command to the writer, after other clients, with the clock the writer reads. -/
def command {α : Type} (draws : Draws) (op : DateTime → Op) (x : DateTime → StoreM α) :
    ClientM α :=
  counted fun i => write (fun op db => Op.run env op db) (.ran (op (draws.clock i)))
    (x (draws.clock i))

end Accesses

/-! ## Rules that handlers keep -/

/-- Every write of the handler keeps the rule, whatever other clients do. -/
abbrev Keeps (env : Env) (G : Deed → Db → Db → Prop) {α : Type} (x : ClientM α) : Prop :=
  Follows (fun op db => Op.run env op db) Db.Wf G x

section Rules

variable {env : Env} {G : Deed → Db → Db → Prop} {α : Type}

/-- A handler keeps a rule if each operation it commands does. -/
theorem keeps_query (f : Db → Result α) : Keeps env G (query env f) :=
  follows_look (fun _ _ hWf => Op.run_wf hWf) _ _

/-- A command keeps a rule that its operation keeps. -/
theorem keeps_command {draws : Draws} {op : DateTime → Op} {x : DateTime → StoreM α}
    (hOp : ∀ now s a s', Runs (x now) s a s' → Runs ((op now).body env) s () s')
    (hRule : ∀ now s s', s.Wf → Runs ((op now).body env) s () s' → G (.ran (op now)) s s') :
    Keeps env G (command env draws op x) := by
  refine .counted fun i => follows_write (fun _ _ hWf => Op.run_wf hWf) ?_
  intro s a s' hWf hRun
  have hBody := hOp _ s a s' hRun
  exact ⟨Op.wf_of_runs env _ hBody hWf, hRule _ s s' hWf hBody⟩

end Rules

end RustyBrain.Daemon
