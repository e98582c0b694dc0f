import RustyBrain.Lib.Machine
import RustyBrain.Lib.Tally
import RustyBrain.Store.System

/-!
# rusty-brain — buffered accesses

A recall does not write the accesses it counts. It adds them to a buffer; a background task
drains the buffer now and then into one command of the writer's queue, and a graceful
shutdown drains what is left before it closes the queue. An access is therefore in one of
four places on its way to the store: the buffer, the batch that the task or the shutdown has
drained, the queue, and the row.

A call of `buffer_accesses` reads the clock before it waits for the lock of the buffer.

## Results

* `step_conserves` — one step keeps the sum over all places.
-/

namespace RustyBrain.Daemon.AccessFlush

open Store Transaction Machine List

variable {id : MemoryId} {now : Int} {pending : List AccessBump} {other : MemoryId}

/-! ## The parties -/

/-- A call of `buffer_accesses` that has read the clock. -/
structure Call where
  ids : List MemoryId
  now : Int
  deriving DecidableEq

/-- The entry of one memory in the buffer: one more access, at the time of the call. -/
def bumpEntry (now : Int) (pending : List AccessBump) (id : MemoryId) : List AccessBump :=
  if id ∈ pending.map AccessBump.id then
    pending.map fun b => if b.id = id then ⟨id, b.count + 1, now⟩ else b
  else pending ++ [⟨id, 1, now⟩]

/-- The loop of a call over the memories it names, and the set of those it has seen. -/
def recordLoop (now : Int) : List MemoryId → List MemoryId → List AccessBump → List AccessBump
  | _, [], pending => pending
  | seen, id :: rest, pending =>
    if id ∈ seen then recordLoop now seen rest pending
    else recordLoop now (id :: seen) rest (bumpEntry now pending id)

/-- `buffer_accesses`, under the lock: a memory that is named twice counts once. -/
def Call.record (c : Call) (pending : List AccessBump) : List AccessBump :=
  recordLoop c.now [] c.ids pending

/-- A command in the writer's queue; a batch says whether the flusher waits for it. -/
inductive Command where
  | flush (fromFlusher : Bool) (bumps : List AccessBump)
  | shutdown
  deriving DecidableEq

/-- The task of `ensure_access_flusher`: not spawned yet, asleep between two ticks, past its
look at the flag, with a batch that it has drained, waiting for the reply, or gone. -/
inductive Flusher where
  | off | asleep | awake
  | holding (bumps : List AccessBump)
  | awaiting | gone
  deriving DecidableEq

/-- `shutdown`: not begun, with the last batch, waiting for its reply, done with the flush,
with the flag set, and with the command sent. -/
inductive Closing where
  | notBegun
  | holding (bumps : List AccessBump)
  | awaiting | flushed | flagged | sent
  deriving DecidableEq

/-- The store with its writer, the buffer, the calls that wait for its lock, and the two
tasks that drain it. `completed` lists the calls that returned before the shutdown. -/
structure State where
  db : Db
  pending : List AccessBump := []
  calls : List Call := []
  flusher : Flusher := .off
  closing : Closing := .notBegun
  queue : List Command := []
  serving : Bool := true
  completed : List Call := []

/-- The flag that stops the flusher. -/
def Closing.shuttingDown : Closing → Bool
  | .flagged => true
  | .sent => true
  | _ => false

/-- A batch of the flusher, or of the shutdown. -/
def Command.isBatch (fromFlusher : Bool) : Command → Bool
  | .flush b _ => b == fromFlusher
  | .shutdown => false

/-- Whether a batch of the flusher, or of the shutdown, is still in the queue. -/
def Waits (fromFlusher : Bool) (queue : List Command) : Prop :=
  ∃ c ∈ queue, c.isBatch fromFlusher = true
  deriving Decidable

/-- What can happen next. -/
inductive Event where
  | readClock (ids : List MemoryId) (now : Int)
  | lock (k : Nat)
  | tick | drain | send | reply
  | serve
  | begin | hand | resume | flag | close
  deriving DecidableEq

namespace State

/-- A call reads the clock and waits for the lock; one that names nothing returns at once. -/
def readClock (s : State) (ids : List MemoryId) (now : Int) : State :=
  if ids = [] then s else { s with calls := s.calls ++ [⟨ids, now⟩] }

/-- A call gets the lock, records its accesses and returns; the first one spawns the
flusher. -/
def lock (s : State) (k : Nat) : State :=
  match s.calls[k]? with
  | none => s
  | some c =>
    { s with
      calls := s.calls.eraseIdx k
      pending := c.record s.pending
      flusher := if s.flusher = .off then .asleep else s.flusher
      completed := if s.closing = .notBegun then s.completed ++ [c] else s.completed }

/-- The flusher wakes up, and stops if the flag is set. -/
def tick (s : State) : State :=
  if s.flusher = .asleep then
    { s with flusher := if s.closing.shuttingDown then .gone else .awake }
  else s

/-- The flusher gets the lock and drains the buffer. -/
def drain (s : State) : State :=
  if s.flusher = .awake then
    if s.pending = [] then { s with flusher := .asleep }
    else { s with flusher := .holding s.pending, pending := [] }
  else s

/-- The flusher enqueues its batch; a closed queue drops it. -/
def send (s : State) : State :=
  match s.flusher with
  | .holding bumps =>
    if s.serving then { s with queue := s.queue ++ [.flush true bumps], flusher := .awaiting }
    else { s with flusher := .gone }
  | _ => s

/-- The flusher gets its reply, or learns that the writer is gone. -/
def reply (s : State) : State :=
  if s.flusher = .awaiting ∧ ¬ Waits true s.queue then
    { s with flusher := if s.serving then .asleep else .gone }
  else s

/-- The writer takes the next command. Once it has shut down, what is left in the queue is
dropped. -/
def serve (s : State) : State :=
  if s.serving then
    match s.queue with
    | [] => s
    | .flush _ bumps :: rest =>
      { s with db := (commit (recordAccessBumps bumps) s.db).2, queue := rest }
    | .shutdown :: _ => { s with serving := false, queue := [] }
  else s

/-- `shutdown` begins: it drains the buffer. -/
def begin (s : State) : State :=
  if s.closing = .notBegun then
    if s.pending = [] then { s with closing := .flushed }
    else { s with closing := .holding s.pending, pending := [] }
  else s

/-- `shutdown` enqueues its batch. -/
def hand (s : State) : State :=
  match s.closing with
  | .holding bumps =>
    if s.serving then { s with queue := s.queue ++ [.flush false bumps], closing := .awaiting }
    else { s with closing := .flushed }
  | _ => s

/-- `shutdown` gets the reply for its batch. -/
def resume (s : State) : State :=
  if s.closing = .awaiting ∧ ¬ Waits false s.queue then { s with closing := .flushed } else s

/-- `shutdown` sets the flag. -/
def flag (s : State) : State :=
  if s.closing = .flushed then { s with closing := .flagged } else s

/-- `shutdown` enqueues its command. -/
def close (s : State) : State :=
  if s.closing = .flagged then
    { s with closing := .sent, queue := if s.serving then s.queue ++ [.shutdown] else s.queue }
  else s

/-- One step of one of the parties. -/
def step (s : State) : Event → State
  | .readClock ids now => s.readClock ids now
  | .lock k => s.lock k
  | .tick => s.tick
  | .drain => s.drain
  | .send => s.send
  | .reply => s.reply
  | .serve => s.serve
  | .begin => s.begin
  | .hand => s.hand
  | .resume => s.resume
  | .flag => s.flag
  | .close => s.close

/-- The shutdown is over: its command was sent and the writer has taken it. -/
def Over (s : State) : Prop := s.closing = .sent ∧ s.serving = false
  deriving Decidable

end State

/-! ## Tallies of the places -/

/-- The accesses of a memory in a batch. -/
def batchTally (id : MemoryId) (bumps : List AccessBump) : Tally :=
  (bumps.map fun b => if b.id = id then ⟨b.count, some b.lastAccessedAt⟩ else 0).sum

theorem batchTally_cons (id : MemoryId) (b : AccessBump) (bumps : List AccessBump) :
    batchTally id (b :: bumps) =
      (if b.id = id then ⟨b.count, some b.lastAccessedAt⟩ else 0) + batchTally id bumps := by
  rw [batchTally, map_cons, sum_cons]
  rfl

theorem batchTally_append (id : MemoryId) (xs ys : List AccessBump) :
    batchTally id (xs ++ ys) = batchTally id xs + batchTally id ys := by
  rw [batchTally, map_append, sum_append]
  rfl

@[simp]
theorem batchTally_nil (id : MemoryId) : batchTally id [] = 0 := rfl

/-- No entry, no access. -/
theorem batchTally_of_notMem {bumps : List AccessBump} (h : id ∉ bumps.map AccessBump.id) :
    batchTally id bumps = 0 := by
  induction bumps with
  | nil => rfl
  | cons b rest ih =>
    rw [map_cons, mem_cons, not_or] at h
    rw [batchTally_cons, if_neg (Ne.symm h.1), ih h.2, zero_add]

/-- An entry once a call has found it. -/
def touched (now : Int) (id : MemoryId) (b : AccessBump) : AccessBump :=
  if b.id = id then ⟨id, b.count + 1, now⟩ else b

theorem touched_id (now : Int) (id : MemoryId) (b : AccessBump) : (touched now id b).id = b.id := by
  unfold touched
  split
  · rename_i hSame
    exact hSame.symm
  · rfl

theorem map_touched_ids (now : Int) (id : MemoryId) (pending : List AccessBump) :
    (pending.map (touched now id)).map AccessBump.id = pending.map AccessBump.id := by
  rw [map_map]
  exact map_congr_left fun b _ => touched_id now id b

theorem batchTally_touched_other (hne : other ≠ id) (pending : List AccessBump) :
    batchTally id (pending.map (touched now other)) = batchTally id pending := by
  induction pending with
  | nil => rfl
  | cons b rest ih =>
    rw [map_cons, batchTally_cons, batchTally_cons, ih, touched_id]
    congr 1
    by_cases hId : b.id = id
    · have hSame : touched now other b = b := if_neg fun h => hne (h.symm.trans hId)
      rw [hSame]
    · rw [if_neg hId, if_neg hId]

section

variable (hNodup : (pending.map AccessBump.id).Nodup)

include hNodup

/-- The entry of a memory gets one access more. It is the only one, and its time is not after
the call's. -/
theorem batchTally_touched (hMem : id ∈ pending.map AccessBump.id)
    (hTime : ∀ b ∈ pending, b.id = id → b.lastAccessedAt ≤ now) :
    batchTally id (pending.map (touched now id)) = batchTally id pending + Tally.once now := by
  induction pending with
  | nil => cases hMem
  | cons b rest ih =>
    rw [map_cons, nodup_cons] at hNodup
    rw [map_cons, batchTally_cons, batchTally_cons, touched_id]
    by_cases hHere : b.id = id
    · have hRest : id ∉ rest.map AccessBump.id := hHere ▸ hNodup.1
      have hRest' : id ∉ (rest.map (touched now id)).map AccessBump.id := by
        rw [map_touched_ids]
        exact hRest
      have hEntry : touched now id b = ⟨id, b.count + 1, now⟩ := if_pos hHere
      have hLatest : max b.lastAccessedAt now = now :=
        max_eq_right (hTime b mem_cons_self hHere)
      rw [if_pos hHere, if_pos hHere, batchTally_of_notMem hRest, batchTally_of_notMem hRest',
        add_zero, add_zero, hEntry]
      refine Tally.ext rfl ?_
      show some now = some (max b.lastAccessedAt now)
      rw [hLatest]
    · rw [if_neg hHere, if_neg hHere, zero_add, zero_add]
      refine ih hNodup.2 ?_ fun x hx => hTime x (mem_cons_of_mem _ hx)
      exact (mem_cons.mp hMem).resolve_left (Ne.symm hHere)

/-- One access adds one occasion under its own id. -/
theorem bumpEntry_tally
    (hTime : ∀ b ∈ pending, b.id = other → b.lastAccessedAt ≤ now) (id : MemoryId) :
    batchTally id (bumpEntry now pending other) =
      batchTally id pending + if other = id then Tally.once now else 0 := by
  unfold bumpEntry
  by_cases hOld : other ∈ pending.map AccessBump.id
  · rw [if_pos hOld]
    by_cases hSame : other = id
    · subst hSame
      rw [if_pos rfl]
      exact batchTally_touched hNodup hOld hTime
    · rw [if_neg hSame, add_zero]
      exact batchTally_touched_other hSame pending
  · rw [if_neg hOld, batchTally_append, batchTally_cons, batchTally_nil, add_zero]
    rfl

theorem bumpEntry_ids (id : MemoryId) :
    ((bumpEntry now pending id).map AccessBump.id).Nodup := by
  unfold bumpEntry
  by_cases hOld : id ∈ pending.map AccessBump.id
  · rw [if_pos hOld]
    exact (map_touched_ids now id pending).symm ▸ hNodup
  · rw [if_neg hOld, map_append, nodup_append]
    refine ⟨hNodup, nodup_singleton _, ?_⟩
    rintro a ha b hb rfl
    have hSame : a = id := mem_singleton.mp hb
    exact hOld (hSame ▸ ha)

end

/-- An entry is as it was or has the time of the call. -/
theorem mem_bumpEntry {b : AccessBump} (h : b ∈ bumpEntry now pending id) :
    b ∈ pending ∨ b.lastAccessedAt = now := by
  unfold bumpEntry at h
  split at h
  · obtain ⟨old, hOld, rfl⟩ := mem_map.mp h
    split
    · exact .inr rfl
    · exact .inl hOld
  · rcases mem_concat.mp h with hOld | rfl
    · exact .inl hOld
    · exact .inr rfl

/-- The loop of a call adds one access for each memory that it has not seen. -/
theorem recordLoop_tally {seen ids : List MemoryId} (hNodup : (pending.map AccessBump.id).Nodup)
    (hTime : ∀ b ∈ pending, b.id ∈ ids → b.lastAccessedAt ≤ now) :
    ((recordLoop now seen ids pending).map AccessBump.id).Nodup ∧
      ∀ id, batchTally id (recordLoop now seen ids pending) =
        batchTally id pending + if id ∈ ids ∧ id ∉ seen then Tally.once now else 0 := by
  induction ids generalizing seen pending with
  | nil =>
    refine ⟨hNodup, fun id => ?_⟩
    have hNone : ¬ (id ∈ ([] : List MemoryId) ∧ id ∉ seen) := fun h => nomatch h.1
    rw [if_neg hNone, add_zero]
    rfl
  | cons first rest ih =>
    have hRest : ∀ b ∈ pending, b.id ∈ rest → b.lastAccessedAt ≤ now :=
      fun b hb hId => hTime b hb (mem_cons_of_mem _ hId)
    unfold recordLoop
    by_cases hSeen : first ∈ seen
    · rw [if_pos hSeen]
      obtain ⟨hKeeps, hSum⟩ := ih hNodup hRest
      refine ⟨hKeeps, fun id => ?_⟩
      rw [hSum id]
      congr 1
      refine if_congr (and_congr_left fun hNew => ?_) rfl rfl
      rw [mem_cons]
      refine ⟨.inr, fun h => h.resolve_left ?_⟩
      rintro rfl
      exact hNew hSeen
    · rw [if_neg hSeen]
      have hNow : ∀ b ∈ pending, b.id = first → b.lastAccessedAt ≤ now :=
        fun b hb hId => hTime b hb (hId ▸ mem_cons_self)
      have hLater : ∀ b ∈ bumpEntry now pending first, b.id ∈ rest → b.lastAccessedAt ≤ now := by
        intro b hb hId
        rcases mem_bumpEntry hb with hOld | hNew
        · exact hRest b hOld hId
        · exact hNew.le
      obtain ⟨hKeeps, hSum⟩ := ih (bumpEntry_ids hNodup first) hLater
      refine ⟨hKeeps, fun id => ?_⟩
      rw [hSum id, bumpEntry_tally hNodup hNow id, add_assoc]
      congr 1
      by_cases hFirst : first = id
      · subst hFirst
        rw [if_pos rfl, if_neg fun h => h.2 mem_cons_self, add_zero,
          if_pos ⟨mem_cons_self, hSeen⟩]
      · rw [if_neg hFirst, zero_add]
        refine if_congr ?_ rfl rfl
        rw [mem_cons, mem_cons, not_or]
        constructor
        · exact fun h => ⟨.inr h.1, h.2.2⟩
        · exact fun h => ⟨h.1.resolve_left (Ne.symm hFirst), Ne.symm hFirst, h.2⟩

/-- The accesses of a memory in a call: one, if the call names it. -/
def Call.tally (id : MemoryId) (c : Call) : Tally := if id ∈ c.ids then Tally.once c.now else 0

/-- What a call adds to the buffer when no entry that it finds is later. -/
theorem record_tally (c : Call) (hNodup : (pending.map AccessBump.id).Nodup)
    (hTime : ∀ b ∈ pending, b.id ∈ c.ids → b.lastAccessedAt ≤ c.now) :
    ((c.record pending).map AccessBump.id).Nodup ∧
      ∀ id, batchTally id (c.record pending) = batchTally id pending + c.tally id := by
  obtain ⟨hKeeps, hSum⟩ := recordLoop_tally hNodup hTime
  refine ⟨hKeeps, fun id => ?_⟩
  rw [Call.record, hSum id, Call.tally]
  congr 1
  exact if_congr (and_iff_left not_mem_nil) rfl rfl

/-! ## The rows -/

/-- The accesses that a row counts. -/
def rowTally (r : MemoryRow) : Tally := ⟨r.accessCount, r.lastAccessedAt⟩

/-- A bump adds its occasions to the row. -/
theorem applyTo_tally (b : AccessBump) (r : MemoryRow) :
    rowTally (AccessBump.applyTo b r) = rowTally r + ⟨b.count, some b.lastAccessedAt⟩ := by
  refine Tally.ext rfl ?_
  simp only [rowTally, AccessBump.applyTo]
  cases r.lastAccessedAt with
  | none => rfl
  | some t =>
    show (if t < b.lastAccessedAt then some b.lastAccessedAt else some t) =
      some (max t b.lastAccessedAt)
    split
    · rename_i hLater
      rw [max_eq_right hLater.le]
    · rename_i hNotLater
      rw [max_eq_left (not_lt.mp hNotLater)]

/-- One bump on a store that keeps its constraints. -/
theorem bump_runs {db : Db} (hWf : db.Wf) (b : AccessBump) :
    Runs (do let _ ← updateMemories (fun m => m.memoryId = b.id) (AccessBump.applyTo b); pure ()) db ()
      (db.setMemories (fun m => m.memoryId = b.id) (AccessBump.applyTo b)) := by
  refine runs_bind.mpr ⟨_, _, runs_updateMemories.mpr ⟨?_, ?_, rfl, rfl⟩, runs_pure.mpr ⟨rfl, rfl⟩⟩
  · exact fun r hr _ => hWf.check r hr
  · exact fun r hr _ t ht => hWf.pointers r hr t ht

/-- What a batch adds to the rows. The writer commits it on every store that keeps its
constraints. -/
theorem recordAccessBumps_tally {db : Db} (hWf : db.Wf) (bumps : List AccessBump) :
    ∃ db', Runs (recordAccessBumps bumps) db () db' ∧ db'.Wf ∧
      ∀ id r, db.find id = some r → ∃ r', db'.find id = some r' ∧
        rowTally r' = rowTally r + batchTally id bumps := by
  induction bumps generalizing db with
  | nil => exact ⟨db, runs_pure.mpr ⟨rfl, rfl⟩, hWf, fun id r hFind => ⟨r, hFind, (add_zero _).symm⟩⟩
  | cons b rest ih =>
    have hFirst := bump_runs hWf b
    have hWf₁ : (db.setMemories (fun m => m.memoryId = b.id) (AccessBump.applyTo b)).Wf := by
      refine Op.wf_of_runs .blank (.recordAccessBumps [b]) ?_ hWf
      exact runs_bind.mpr ⟨(), _, hFirst, runs_pure.mpr ⟨rfl, rfl⟩⟩
    obtain ⟨db', hRest, hWf', hRows⟩ := ih hWf₁
    refine ⟨db', runs_bind.mpr ⟨(), _, hFirst, hRest⟩, hWf', fun id r hFind => ?_⟩
    have hMid := db.find_setMemories (p := fun m => m.memoryId = b.id) (f := AccessBump.applyTo b)
      (fun _ _ _ => rfl) id
    rw [hFind, Option.map_some] at hMid
    obtain ⟨r', hFind', hTally⟩ := hRows id _ hMid
    refine ⟨r', hFind', ?_⟩
    rw [hTally, batchTally_cons, ← add_assoc]
    congr 1
    have hId : r.memoryId = id := (Db.find_some hFind).2
    by_cases hSame : b.id = id
    · rw [if_pos hSame, if_pos (hId.trans hSame.symm), applyTo_tally]
    · rw [if_neg hSame, if_neg fun h => hSame (h.symm.trans hId), add_zero]

/-! ## What a run conserves -/

@[simp]
def Command.tally (id : MemoryId) : Command → Tally
  | .flush _ bumps => batchTally id bumps
  | .shutdown => 0

@[simp]
def Flusher.tally (id : MemoryId) : Flusher → Tally
  | .holding bumps => batchTally id bumps
  | _ => 0

@[simp]
def Closing.tally (id : MemoryId) : Closing → Tally
  | .holding bumps => batchTally id bumps
  | _ => 0

/-- The flusher has a batch in hand. -/
def Flusher.holds : Flusher → Bool
  | .holding _ => true
  | _ => false

theorem Flusher.tally_of_not_holds {f : Flusher} (h : f.holds = false) (id : MemoryId) :
    f.tally id = 0 := by
  cases f with
  | holding bumps => cases h
  | _ => rfl

/-- The accesses of a memory on their way: in the queue, in the two batches, and, until the
shutdown has drained it, in the buffer. -/
def State.inTransit (s : State) (id : MemoryId) : Tally :=
  (s.queue.map (Command.tally id)).sum + s.flusher.tally id + s.closing.tally id +
    if s.closing = .notBegun then batchTally id s.pending else 0

/-- What holds along a run that starts from the store `db₀`. -/
structure Conserves (db₀ : Db) (s : State) : Prop where
  wf : s.db.Wf
  entries : (s.pending.map AccessBump.id).Nodup
  last : s.closing = .sent → s.flusher.holds = false
  early : s.closing ≠ .sent → .shutdown ∉ s.queue
  tail : s.closing = .sent → s.serving = true →
    ∃ before, s.queue = before ++ [.shutdown] ∧ .shutdown ∉ before
  closed : s.serving = false → s.closing = .sent ∧ s.queue = []
  sums : ∀ id r₀, db₀.find id = some r₀ → ∃ r, s.db.find id = some r ∧
    rowTally r₀ + (s.completed.map (Call.tally id)).sum = rowTally r + s.inTransit id

/-- When a step loses nothing: a call finds no later time in the buffer, the flusher drains
nothing after the shutdown has begun, and it has no batch in hand when the shutdown sends its
command. -/
def Careful (s : State) : Event → Prop
  | .lock k => ∀ c ∈ s.calls[k]?, ∀ b ∈ s.pending, b.id ∈ c.ids → b.lastAccessedAt ≤ c.now
  | .drain => s.flusher = .awake → s.closing ≠ .notBegun → s.pending = []
  | .close => s.closing = .flagged → s.flusher.holds = false
  | _ => True

instance (s : State) : (e : Event) → Decidable (Careful s e)
  | .lock k => inferInstanceAs (Decidable (∀ c ∈ s.calls[k]?, _))
  | .drain => inferInstanceAs (Decidable (_ → _ → _))
  | .close => inferInstanceAs (Decidable (_ → _))
  | .readClock _ _ => .isTrue trivial
  | .tick => .isTrue trivial
  | .send => .isTrue trivial
  | .reply => .isTrue trivial
  | .serve => .isTrue trivial
  | .begin => .isTrue trivial
  | .hand => .isTrue trivial
  | .resume => .isTrue trivial
  | .flag => .isTrue trivial

section Steps

variable {db₀ : Db} {s : State}

section

variable (h : Conserves db₀ s)

include h

/-- A change of the flusher's place between two that hold nothing. -/
theorem Conserves.flusher_moved (hOld : s.flusher.holds = false) {f : Flusher}
    (hNew : f.holds = false) : Conserves db₀ { s with flusher := f } := by
  refine ⟨h.wf, h.entries, fun _ => hNew, h.early, h.tail, h.closed, fun id r₀ hRow => ?_⟩
  obtain ⟨r, hFind, hSum⟩ := h.sums id r₀ hRow
  refine ⟨r, hFind, hSum.trans ?_⟩
  unfold State.inTransit
  dsimp only
  rw [Flusher.tally_of_not_holds hOld, Flusher.tally_of_not_holds hNew]

/-- As long as the command of the shutdown is not sent, the writer is there. -/
theorem Conserves.serving (hNotSent : s.closing ≠ .sent) :
    s.serving = true := by
  by_contra hNot
  exact hNotSent (h.closed (Bool.not_eq_true _ ▸ hNot)).1

/-- Until then, accesses may go from one place to another. -/
theorem Conserves.moved (hNotSent : s.closing ≠ .sent) {pending : List AccessBump}
    {queue : List Command} {flusher : Flusher} {closing : Closing}
    (hEntries : (pending.map AccessBump.id).Nodup) (hQueue : .shutdown ∉ queue)
    (hClosing : closing ≠ .sent)
    (hTransit : ∀ id, { s with pending, queue, flusher, closing }.inTransit id = s.inTransit id) :
    Conserves db₀ { s with pending, queue, flusher, closing } := by
  refine ⟨h.wf, hEntries, fun hSent => absurd hSent hClosing, fun _ => hQueue,
    fun hSent => absurd hSent hClosing, fun hOver => absurd (h.closed hOver).1 hNotSent,
    fun id r₀ hRow => ?_⟩
  obtain ⟨r, hFind, hSum⟩ := h.sums id r₀ hRow
  exact ⟨r, hFind, by rw [hSum, hTransit id]⟩

/-- A batch behind the queue is no command of the shutdown. -/
theorem Conserves.early_batch (hNotSent : s.closing ≠ .sent) (mine : Bool) (bumps : List AccessBump) :
    .shutdown ∉ s.queue ++ [.flush mine bumps] := by
  intro hIn
  rcases mem_append.mp hIn with hOld | hNew
  · exact h.early hNotSent hOld
  · cases mem_singleton.mp hNew

/-- The accesses of a call go into the buffer. -/
theorem Conserves.lock {k : Nat} (hCareful : Careful s (.lock k)) :
    Conserves db₀ (s.lock k) := by
  unfold State.lock
  cases hCall : s.calls[k]? with
  | none => exact h
  | some c =>
    obtain ⟨hEntries, hRecord⟩ := record_tally c h.entries (hCareful c hCall)
    have hHolds : (if s.flusher = .off then Flusher.asleep else s.flusher).holds =
        s.flusher.holds := by
      cases s.flusher <;> rfl
    have hHeld : ∀ id, (if s.flusher = .off then Flusher.asleep else s.flusher).tally id =
        s.flusher.tally id := by
      cases s.flusher <;> exact fun _ => rfl
    refine ⟨h.wf, hEntries, fun hSent => hHolds.trans (h.last hSent), h.early, h.tail, h.closed,
      fun id r₀ hRow => ?_⟩
    obtain ⟨r, hFind, hSum⟩ := h.sums id r₀ hRow
    refine ⟨r, hFind, ?_⟩
    unfold State.inTransit at hSum ⊢
    dsimp only
    rw [hHeld id, hRecord id]
    by_cases hBegun : s.closing = .notBegun
    · -- the call counts, and its accesses are in the buffer
      rw [if_pos hBegun] at hSum ⊢
      rw [if_pos hBegun, map_append, sum_append, ← add_assoc, hSum, map_singleton,
        sum_singleton]
      abel
    · rw [if_neg hBegun] at hSum ⊢
      rw [if_neg hBegun]
      exact hSum

theorem Conserves.tick : Conserves db₀ s.tick := by
  unfold State.tick
  split
  · rename_i hAsleep
    refine h.flusher_moved (by rw [hAsleep]; rfl) ?_
    split <;> rfl
  · exact h

/-- The buffer goes to the flusher. -/
theorem Conserves.drain (hCareful : Careful s .drain) :
    Conserves db₀ s.drain := by
  unfold State.drain
  by_cases hAwake : s.flusher = .awake
  · rw [if_pos hAwake]
    by_cases hEmpty : s.pending = []
    · rw [if_pos hEmpty]
      exact h.flusher_moved (by rw [hAwake]; rfl) rfl
    rw [if_neg hEmpty]
    -- the buffer is not empty, so the shutdown has not begun
    have hBefore : s.closing = .notBegun := by
      by_contra hBegun
      exact hEmpty (hCareful hAwake hBegun)
    have hNotSent : s.closing ≠ .sent := by simp [hBefore]
    refine h.moved hNotSent nodup_nil (h.early hNotSent) hNotSent fun id => ?_
    simp [State.inTransit, hAwake, hBefore, add_comm]
  · rw [if_neg hAwake]
    exact h

theorem Conserves.send : Conserves db₀ s.send := by
  unfold State.send
  cases hFlusher : s.flusher with
  | holding bumps =>
    -- a batch in hand: the command of the shutdown has not been sent, so the writer is there
    have hNotSent : s.closing ≠ .sent := by
      intro hSent
      have hNone := h.last hSent
      rw [hFlusher] at hNone
      cases hNone
    dsimp only
    rw [if_pos (h.serving hNotSent)]
    refine h.moved hNotSent h.entries (h.early_batch hNotSent true bumps) hNotSent fun id => ?_
    simp [State.inTransit, hFlusher]
  | _ => exact h

theorem Conserves.reply : Conserves db₀ s.reply := by
  unfold State.reply
  split
  · rename_i hReady
    refine h.flusher_moved (by rw [hReady.1]; rfl) ?_
    split <;> rfl
  · exact h

/-- The writer moves a batch into the rows. -/
theorem Conserves.serve : Conserves db₀ s.serve := by
  unfold State.serve
  by_cases hServing : s.serving = true
  · rw [if_pos hServing]
    cases hQueue : s.queue with
    | nil => exact h
    | cons first rest =>
      cases first with
      | flush mine bumps =>
        obtain ⟨db', hRuns, hWf, hRows⟩ := recordAccessBumps_tally h.wf bumps
        dsimp only
        rw [hRuns.commit_eq]
        refine ⟨hWf, h.entries, h.last, fun hEarly hIn => ?_, fun hSent _ => ?_,
          fun hOver => (nomatch hServing.symm.trans hOver), fun id r₀ hRow => ?_⟩
        · exact h.early hEarly (hQueue ▸ mem_cons_of_mem _ hIn)
        · -- the command of the shutdown stays behind the batch that was taken
          obtain ⟨before, hBefore, hNone⟩ := h.tail hSent hServing
          rw [hQueue] at hBefore
          cases before with
          | nil => cases hBefore
          | cons b before =>
            obtain ⟨-, hRest⟩ := List.cons.inj hBefore
            exact ⟨before, hRest, fun hIn => hNone (mem_cons_of_mem _ hIn)⟩
        · obtain ⟨r, hFind, hSum⟩ := h.sums id r₀ hRow
          obtain ⟨r', hFind', hRow'⟩ := hRows id r hFind
          refine ⟨r', hFind', hSum.trans ?_⟩
          rw [hRow']
          simp [State.inTransit, hQueue]
          abel
      | shutdown =>
        have hSent : s.closing = .sent := by
          by_contra hNot
          exact h.early hNot (hQueue ▸ mem_cons_self)
        -- nothing stands behind the command of the shutdown
        have hRest : rest = [] := by
          obtain ⟨before, hBefore, hNone⟩ := h.tail hSent hServing
          rw [hQueue] at hBefore
          cases before with
          | nil => exact (List.cons.inj hBefore).2
          | cons b before =>
            obtain ⟨hFirst, -⟩ := List.cons.inj hBefore
            exact absurd (hFirst ▸ mem_cons_self) hNone
        dsimp only
        refine ⟨h.wf, h.entries, h.last, nofun, nofun,
          fun _ => ⟨hSent, rfl⟩, fun id r₀ hRow => ?_⟩
        obtain ⟨r, hFind, hSum⟩ := h.sums id r₀ hRow
        refine ⟨r, hFind, hSum.trans ?_⟩
        simp [State.inTransit, hQueue, hRest]
  · rw [if_neg hServing]
    exact h

theorem Conserves.begin : Conserves db₀ s.begin := by
  unfold State.begin
  by_cases hBefore : s.closing = .notBegun
  · rw [if_pos hBefore]
    have hNotSent : s.closing ≠ .sent := by simp [hBefore]
    by_cases hEmpty : s.pending = []
    · rw [if_pos hEmpty]
      refine h.moved hNotSent h.entries (h.early hNotSent) nofun fun id => ?_
      simp [State.inTransit, hBefore, hEmpty]
    · rw [if_neg hEmpty]
      refine h.moved hNotSent nodup_nil (h.early hNotSent) nofun fun id => ?_
      simp [State.inTransit, hBefore]
  · rw [if_neg hBefore]
    exact h

theorem Conserves.hand : Conserves db₀ s.hand := by
  unfold State.hand
  cases hClosing : s.closing with
  | holding bumps =>
    have hNotSent : s.closing ≠ .sent := by simp [hClosing]
    dsimp only
    rw [if_pos (h.serving hNotSent)]
    refine h.moved hNotSent h.entries (h.early_batch hNotSent false bumps)
      nofun fun id => ?_
    simp [State.inTransit, hClosing]
    abel
  | _ => exact h

end

/-- The shutdown goes on between two places where it has no batch in hand. -/
theorem Conserves.closing_moved (h : Conserves db₀ s) {c : Closing}
    (hOld : s.closing = .awaiting ∨ s.closing = .flushed) (hNew : c = .flushed ∨ c = .flagged) :
    Conserves db₀ { s with closing := c } := by
  have hNotSent : s.closing ≠ .sent := by rcases hOld with hOld | hOld <;> simp [hOld]
  have hNotSent' : c ≠ .sent := by rcases hNew with rfl | rfl <;> simp
  refine h.moved hNotSent h.entries (h.early hNotSent) hNotSent' fun id => ?_
  rcases hOld with hOld | hOld <;> rcases hNew with rfl | rfl <;> simp [State.inTransit, hOld]

theorem Conserves.resume (h : Conserves db₀ s) : Conserves db₀ s.resume := by
  unfold State.resume
  split
  · rename_i hReady
    exact h.closing_moved (.inl hReady.1) (.inl rfl)
  · exact h

theorem Conserves.flag (h : Conserves db₀ s) : Conserves db₀ s.flag := by
  unfold State.flag
  split
  · rename_i hFlushed
    exact h.closing_moved (.inr hFlushed) (.inr rfl)
  · exact h

theorem Conserves.close (h : Conserves db₀ s) (hCareful : Careful s .close) :
    Conserves db₀ s.close := by
  unfold State.close
  by_cases hFlagged : s.closing = .flagged
  · rw [if_pos hFlagged]
    have hNotSent : s.closing ≠ .sent := by simp [hFlagged]
    have hServing := h.serving hNotSent
    rw [if_pos hServing]
    refine ⟨h.wf, h.entries, fun _ => hCareful hFlagged, fun hNot => absurd rfl hNot,
      fun _ _ => ⟨s.queue, rfl, h.early hNotSent⟩,
      fun hOver => (nomatch hServing.symm.trans hOver), fun id r₀ hRow => ?_⟩
    obtain ⟨r, hFind, hSum⟩ := h.sums id r₀ hRow
    refine ⟨r, hFind, hSum.trans ?_⟩
    simp [State.inTransit, hFlagged]
  · rw [if_neg hFlagged]
    exact h

/-- Every careful step keeps the sums. -/
theorem step_conserves {e : Event} (hCareful : Careful s e) (h : Conserves db₀ s) :
    Conserves db₀ (s.step e) := by
  cases e with
  | readClock ids now =>
    show Conserves db₀ (s.readClock ids now)
    unfold State.readClock
    split
    · exact h
    · exact ⟨h.wf, h.entries, h.last, h.early, h.tail, h.closed, h.sums⟩
  | lock k => exact h.lock hCareful
  | tick => exact h.tick
  | drain => exact h.drain hCareful
  | send => exact h.send
  | reply => exact h.reply
  | serve => exact h.serve
  | begin => exact h.begin
  | hand => exact h.hand
  | resume => exact h.resume
  | flag => exact h.flag
  | close => exact h.close hCareful

end Steps

/-- The times of the calls that name a memory. -/
def timesNaming (id : MemoryId) (calls : List Call) : List Int :=
  (calls.filter (id ∈ ·.ids)).map Call.now

theorem calls_tally (id : MemoryId) (calls : List Call) :
    (calls.map (Call.tally id)).sum = ((timesNaming id calls).map Tally.once).sum := by
  induction calls with
  | nil => rfl
  | cons c rest ih =>
    unfold timesNaming at ih ⊢
    rw [map_cons, sum_cons, ih]
    by_cases hNames : id ∈ c.ids
    · rw [filter_cons_of_pos (by simpa using hNames), map_cons, map_cons,
        sum_cons, Call.tally, if_pos hNames]
    · rw [filter_cons_of_neg (by simpa using hNames), Call.tally, if_neg hNames, zero_add]

theorem conserves_start {db₀ : Db} (hWf : db₀.Wf) : Conserves db₀ { db := db₀ } := by
  refine ⟨hWf, nodup_nil, nofun, nofun,
    nofun, nofun, fun id r₀ hRow => ⟨r₀, hRow, ?_⟩⟩
  show rowTally r₀ + 0 = rowTally r₀ + (0 + 0 + 0 + 0)
  rw [add_zero, add_zero, add_zero, add_zero, add_zero]

/-- Once the shutdown is over nothing is on its way. -/
theorem Conserves.arrived {db₀ : Db} {s : State} (h : Conserves db₀ s) (hOver : s.Over)
    {r₀ : MemoryRow} (hRow : db₀.find id = some r₀) :
    ∃ r, s.db.find id = some r ∧
      rowTally r = rowTally r₀ + ((timesNaming id s.completed).map Tally.once).sum := by
  obtain ⟨r, hFind, hSum⟩ := h.sums id r₀ hRow
  refine ⟨r, hFind, ?_⟩
  have hNone : s.inTransit id = 0 := by
    rw [State.inTransit, Flusher.tally_of_not_holds (h.last hOver.1)]
    simp [hOver.1, (h.closed hOver.2).2]
  rw [← calls_tally, hSum, hNone, add_zero]

/-- Along a run of careful steps no access is lost or counted twice: once the shutdown is over,
the count of each memory has grown by the number of calls that named it before the shutdown
began, and its time is the latest of theirs and of its own. -/
theorem accesses_conserved {db₀ : Db} (hWf : db₀.Wf) {es : List Event}
    (hRun : Along State.step Careful { db := db₀ } es) :
    ∀ s ∈ states State.step { db := db₀ } es, s.Over →
      ∀ id r₀, db₀.find id = some r₀ → ∃ r, s.db.find id = some r ∧
        r.accessCount = r₀.accessCount + (s.completed.filter (id ∈ ·.ids)).length ∧
        r.lastAccessedAt =
          (r₀.lastAccessedAt.toList ++ (s.completed.filter (id ∈ ·.ids)).map Call.now).max? := by
  intro s hs hOver id r₀ hRow
  have hConserves : Conserves db₀ s :=
    invariant_along (fun _ _ => step_conserves) (conserves_start hWf) hRun s hs
  obtain ⟨r, hFind, hTally⟩ := hConserves.arrived hOver hRow
  have hCount : r.accessCount =
      r₀.accessCount + (((timesNaming id s.completed).map Tally.once).sum).count :=
    congrArg Tally.count hTally
  have hLatest : r.lastAccessedAt =
      Tally.later r₀.lastAccessedAt (((timesNaming id s.completed).map Tally.once).sum).latest :=
    congrArg Tally.latest hTally
  refine ⟨r, hFind, ?_, ?_⟩
  · rw [hCount, Tally.sum_count, timesNaming, length_map]
  · rw [hLatest, Tally.sum_latest, Tally.later_max?, timesNaming]

/-- A store with one memory that was never recalled. -/
def oneMemory : Db :=
  storeAfter .blank 2 [.insertMemory 0 (.new ⟨1⟩ ⟨0, 0⟩ .global ['n'] .insight 5) none]

/-- One call is flushed by the background task, the next by the shutdown. -/
def twoFlushes : List Event :=
  [.readClock [⟨1⟩] 10, .lock 0, .tick, .drain, .send, .serve, .reply, .readClock [⟨1⟩, ⟨1⟩] 12, .lock 0,
    .begin, .hand, .serve, .resume, .flag, .close, .serve]

/-- A run with two batches. -/
theorem accesses_conserved_twoFlushes :
    Along State.step Careful { db := oneMemory } twoFlushes ∧
    (∃ s ∈ states State.step { db := oneMemory } twoFlushes, s.Over ∧ s.completed.length = 2 ∧
      (s.db.find ⟨1⟩).map rowTally = some ⟨2, some 12⟩) ∧
    ∀ s ∈ states State.step { db := oneMemory } twoFlushes, s.Over →
      ∀ id r₀, oneMemory.find id = some r₀ → ∃ r, s.db.find id = some r ∧
        r.accessCount = r₀.accessCount + (s.completed.filter (id ∈ ·.ids)).length ∧
        r.lastAccessedAt =
          (r₀.lastAccessedAt.toList ++ (s.completed.filter (id ∈ ·.ids)).map Call.now).max? := by
  have hWf : oneMemory.Wf := storeAfter_wf
  have hRun : Along State.step Careful { db := oneMemory } twoFlushes := by decide +kernel
  exact ⟨hRun, by decide +kernel, accesses_conserved hWf hRun⟩

/-- The background task has drained the buffer; the shutdown finds it empty and sends its
command before the task sends the batch. -/
def batchBehind : List Event :=
  [.readClock [⟨1⟩] 5, .lock 0, .tick, .drain, .begin, .flag, .close, .serve, .send]

/-- Two calls get the lock in the other order than they read the clock. -/
def clocksCrossed : List Event :=
  [.readClock [⟨1⟩] 10, .readClock [⟨1⟩] 11, .lock 1, .lock 0,
    .begin, .hand, .serve, .resume, .flag, .close, .serve]

/-- In the first run an access is lost, in the second one the later time is. -/
theorem access_lost_at_shutdown :
    (∃ s ∈ states State.step { db := oneMemory } batchBehind, s.Over ∧
      s.completed = [⟨[⟨1⟩], 5⟩] ∧ (s.db.find ⟨1⟩).map rowTally = some ⟨0, none⟩) ∧
    (∃ s ∈ states State.step { db := oneMemory } clocksCrossed, s.Over ∧
      s.completed = [⟨[⟨1⟩], 11⟩, ⟨[⟨1⟩], 10⟩] ∧
      (s.db.find ⟨1⟩).map rowTally = some ⟨2, some 10⟩) := by
  decide +kernel

end RustyBrain.Daemon.AccessFlush
