import RustyBrain.Daemon.Stream
import RustyBrain.Daemon.Resolve

/-!
# rusty-brain — resuming a change stream

A client that keeps the number of the last event it received and subscribes again with it.
Nothing is lost between two connections as long as no event it received has a number at or
above that of a row it was not told of.

## Results

* `Hub.Resumed.step` — one step keeps the rows that the client was not told of above its
  cursor.
* `resuming_loses_nothing` — a client that comes back is told of every row since it first
  subscribed.
* `merge_lets_cursor_skip` — the three events of a merge have the number of its last row, so
  a client that leaves between them is never told of the memories that were retired.
-/

namespace RustyBrain.Daemon

open Store Transaction List

variable {c : Nat} {j : Nat}

section Resume

variable {env : Env} {ns : Namespace} {h h' : Hub} {a : Action} {s : Stream} {r : OplogRow}

/-- The client was told of the row. -/
def Told (log : List OplogRow) (r : OplogRow) (events : List MemoryChanged) : Prop :=
  ∃ e ∈ events, Tells log r e

/-- A row that a client of the namespace waits for since the log ended at `joined`. -/
def Awaited (db : Db) (ns : Namespace) (joined : Nat) (r : OplogRow) : Prop :=
  r ∈ db.oplog ∧ (∃ op id, r.About op id ns.asDbString ∧ op.Announced) ∧ joined < r.seq

/-- The cursor after more events is that of the last of them with a number, or the old one. -/
theorem cursorOf_append {before after : List MemoryChanged}
    (hc : cursorOf (before ++ after) = some c) :
    (∃ e ∈ after, e.seq = some c) ∨ cursorOf before = some c := by
  unfold cursorOf at hc ⊢
  rw [filterMap_append, getLast?_append] at hc
  cases hLast : (after.filterMap MemoryChanged.seq).getLast? with
  | none =>
    rw [hLast, Option.none_or] at hc
    exact .inr hc
  | some d =>
    rw [hLast, Option.some_or] at hc
    cases hc
    obtain ⟨e, he, hSeq⟩ := mem_filterMap.mp (mem_of_getLast? hLast)
    exact .inl ⟨e, he, hSeq⟩

theorem cursorOf_some {events : List MemoryChanged} (hc : cursorOf events = some c) :
    ∃ e ∈ events, e.seq = some c := by
  obtain ⟨e, he, hSeq⟩ := mem_filterMap.mp (mem_of_getLast? hc)
  exact ⟨e, he, hSeq⟩

/-- What holds of a client that comes back with its cursor, besides `Hub.Inv`. -/
structure Hub.Resumed (ns : Namespace) (h : Hub) : Prop where
  inv : h.Inv ns
  first : h.joined = none → h.stream = none
  low : ∀ e ∈ h.earlier, ∀ n ∈ e.seq, n ≤ h.db.lastSeq
  since : ∀ s ∈ h.stream, s.since = cursorOf h.earlier
  floor : ∀ s ∈ h.stream, s.floor ≤ h.db.lastSeq
  /-- A row the client was not told of lies above where it reads, or will read. -/
  awaited : ∀ j ∈ h.joined, ∀ r, Awaited h.db ns j r → Told h.db.oplog r h.earlier ∨
    (∀ s ∈ h.stream, s.floor < r.seq) ∧ (h.stream = none → ∀ c ∈ cursorOf h.earlier, c < r.seq)

theorem Hub.start_resumed {db : Db} (hWf : db.Wf) : (Hub.start db).Resumed ns :=
  ⟨Hub.start_inv hWf, fun _ => rfl, nofun, nofun,
    nofun, nofun⟩

/-- A connection told its client of the row, or sent nothing at or above it. -/
theorem Hub.Resumed.sent (hRes : h.Resumed ns) (hSome : h.stream = some s)
    (hJoined : h.joined = some j) (hr : Awaited h.db ns j r) :
    Told h.db.oplog r (h.earlier ++ s.sent) ∨
      s.floor < r.seq ∧ ∀ e ∈ s.sent, ∀ n ∈ e.seq, n < r.seq := by
  rcases hRes.awaited j hJoined r hr with ⟨e, he, hTells⟩ | ⟨hFloor, -⟩
  · exact .inl ⟨e, mem_append_left _ he, hTells⟩
  · obtain ⟨hMem, ⟨op, id, hAbout, hOp⟩, -⟩ := hr
    have hAbove := hFloor s hSome
    have hOnce := (hRes.inv.stream s hSome).delivery.once r hMem op id hAbout hOp hAbove
    rcases hOnce.split with ⟨e, he, hTells⟩ | hLow
    · exact .inl ⟨e, mem_append_right _ he, hTells⟩
    · exact .inr ⟨hAbove, hLow⟩

/-- The cursor of the events received so far does not pass a row the client was not told of. -/
theorem Hub.Resumed.cursor_lt (hRes : h.Resumed ns) (hSome : h.stream = some s)
    (hFloor : s.floor < r.seq) (hLow : ∀ e ∈ s.sent, ∀ n ∈ e.seq, n < r.seq)
    (hc : cursorOf (h.earlier ++ s.sent) = some c) : c < r.seq := by
  rcases cursorOf_append hc with ⟨e, he, hSeq⟩ | hOld
  · exact hLow e he c hSeq
  · have hSince := hRes.since s hSome
    rw [hOld] at hSince
    have hEq := (hRes.inv.stream s hSome).floor c hSince
    omega

section

variable (hNs : ns.WellFormed) (hRes : h.Resumed ns)

include hNs hRes

/-- A commit leaves the client where it is: the rows it adds lie above everything received. -/
theorem Hub.Resumed.commit {cmd : WriteCommand} (hCmd : cmd.Resumable env h.db)
    (hPending : h.pending = []) :
    Hub.Resumed ns { h with db := (cmd.run env h.db).1, pending := (cmd.run env h.db).2 } := by
  have hStep : h.step env ns (.commit cmd) =
      some { h with db := (cmd.run env h.db).1, pending := (cmd.run env h.db).2 } := by
    simp only [Hub.step, hPending]
  obtain ⟨-, rows, hGains, -⟩ := WriteCommand.run_gains hRes.inv.wf hCmd
  have hWrites : WritesResumably env h (.commit cmd) := hCmd
  refine ⟨hRes.inv.step hNs hWrites hStep, hRes.first, fun e he n hn => ?_, hRes.since, fun s hs => ?_, ?_⟩
  · exact (hRes.low e he n hn).trans hGains.grows
  · exact (hRes.floor s hs).trans hGains.grows
  · rintro j hj r ⟨hMem, hAbout, hAbove⟩
    rw [hGains.oplog] at hMem
    rcases mem_append.mp hMem with hOld | hNew
    · refine (hRes.awaited j hj r ⟨hOld, hAbout, hAbove⟩).imp_left ?_
      rintro ⟨e, he, hTells⟩
      exact ⟨e, he, (tells_gains hGains (hRes.low e he)).mp hTells⟩
    · have hLast := hGains.above r hNew
      refine .inr ⟨fun s hs => (hRes.floor s hs).trans_lt hLast, fun _ c hc => ?_⟩
      obtain ⟨e, he, hSeq⟩ := cursorOf_some hc
      exact (hRes.low e he c hSeq).trans_lt hLast

/-- **One step keeps it.** -/
theorem Hub.Resumed.step (hAllowed : ResumesFromCursor env h a) (hStep : h.step env ns a = some h') :
    h'.Resumed ns := by
  have hWrites : WritesResumably env h a := by
    cases a <;> first | exact hAllowed | trivial
  have hInv : h'.Inv ns := hRes.inv.step hNs hWrites hStep
  rcases Hub.step_cases hStep with ⟨cmd, rfl, hPending, rfl⟩ | ⟨e, rest, rfl, hPending, rfl⟩ |
    ⟨since, rfl, hNone, rfl⟩ | ⟨s, s', rfl, hSome, hNext, rfl⟩ | ⟨s, rfl, hSome, rfl⟩
  · exact hRes.commit hNs hAllowed hPending
  · have hStream : ∀ s ∈ h.stream.map (Stream.receive e), ∃ s₀ ∈ h.stream, s₀.receive e = s :=
      fun s hs => Option.map_eq_some_iff.mp hs
    refine ⟨hInv, fun hNone => ?_, hRes.low, fun s hs => ?_, fun s hs => ?_, fun j hj r hr => ?_⟩
    · show h.stream.map _ = none
      rw [hRes.first hNone]
      rfl
    · obtain ⟨s₀, hs₀, rfl⟩ := hStream s hs
      exact hRes.since s₀ hs₀
    · obtain ⟨s₀, hs₀, rfl⟩ := hStream s hs
      exact hRes.floor s₀ hs₀
    · refine (hRes.awaited j hj r hr).imp_right fun ⟨hFloor, hCursor⟩ => ⟨fun s hs => ?_, fun hNone => ?_⟩
      · obtain ⟨s₀, hs₀, rfl⟩ := hStream s hs
        exact hFloor s₀ hs₀
      · exact hCursor (Option.map_eq_none_iff.mp hNone)
  · obtain ⟨rfl, hFirst⟩ := hAllowed
    refine ⟨hInv, nofun, hRes.low, fun s hs => ?_, fun s hs => ?_, fun j hj r hr => ?_⟩
    · cases hs
      rfl
    · cases hs
      cases hc : cursorOf h.earlier with
      | none => exact Nat.le_refl _
      | some c =>
        obtain ⟨e, he, hSeq⟩ := cursorOf_some hc
        exact hRes.low e he c hSeq
    · cases hJoined : h.joined with
      | none =>
        -- at the first subscription no row is above the end of the log
        rw [hJoined] at hj
        cases hj
        have hBelow := hRes.inv.wf.lastSeq r hr.1
        exact absurd hr.2.2 (Nat.not_lt.mpr hBelow)
      | some j₀ =>
        rw [hJoined] at hj
        cases hj
        refine (hRes.awaited j₀ hJoined r hr).imp_right fun ⟨_, hCursor⟩ => ⟨fun s hs => ?_, nofun⟩
        cases hs
        obtain ⟨c, hc⟩ : ∃ c, cursorOf h.earlier = some c := by
          refine Option.ne_none_iff_exists'.mp fun hNo => ?_
          rw [hFirst hNo] at hJoined
          cases hJoined
        rw [hc]
        exact hCursor hNone c hc
  · have hSame : s'.since = s.since ∧ s'.floor = s.floor := by
      rcases Stream.next_cases hNext with ⟨_, _, -, rfl⟩ | ⟨_, -, -, rfl⟩ | ⟨_, _, -, -, -, rfl⟩ <;>
        exact ⟨rfl, rfl⟩
    refine ⟨hInv, fun hNo => ?_, hRes.low, fun x hx => ?_, fun x hx => ?_, fun j hj r hr => ?_⟩
    · rw [hRes.first hNo] at hSome
      cases hSome
    · cases hx
      exact hSame.1.trans (hRes.since s hSome)
    · cases hx
      exact hSame.2 ▸ hRes.floor s hSome
    · refine (hRes.awaited j hj r hr).imp_right fun ⟨hFloor, _⟩ => ⟨fun x hx => ?_, nofun⟩
      cases hx
      exact hSame.2 ▸ hFloor s hSome
  · refine ⟨hInv, fun _ => rfl, fun e he n hn => ?_, nofun, nofun, fun j hj r hr => ?_⟩
    · rcases mem_append.mp he with he | he
      · exact hRes.low e he n hn
      · exact (hRes.inv.stream s hSome).delivery.low e (mem_append_left _ he) n hn
    · rcases hRes.sent hSome hj hr with hTold | ⟨hFloor, hLow⟩
      · exact .inl hTold
      · exact .inr ⟨nofun, fun _ c hc => hRes.cursor_lt hSome hFloor hLow hc⟩

theorem Hub.Resumed.run
    (hRun : Relation.ReflTransGen (Hub.Steps env ns (ResumesFromCursor env)) h h') : h'.Resumed ns :=
  invariant_of_steps (fun _ _ ⟨_, hAllowed, hStep⟩ hRes => hRes.step hNs hAllowed hStep) hRun hRes

end

/-- A client that caught up was told of all it waited for. -/
theorem Hub.Resumed.caughtUp (hRes : h.Resumed ns) (hUp : h.CaughtUp s)
    (hJoined : h.joined = some j) (hr : Awaited h.db ns j r) : Told h.db.oplog r h.received := by
  unfold Hub.received
  rw [hUp.stream]
  rcases hRes.awaited j hJoined r hr with ⟨e, he, hTells⟩ | ⟨hFloor, -⟩
  · exact ⟨e, mem_append_left _ he, hTells⟩
  · obtain ⟨hMem, ⟨op, id, hAbout, hOp⟩, -⟩ := hr
    have hOnce := (hRes.inv.stream s hUp.stream).delivery.once r hMem op id hAbout hOp (hFloor s hUp.stream)
    rw [hUp.all] at hOnce
    obtain ⟨before, e, after, hEq, hTells, -⟩ := hOnce
    exact ⟨e, mem_append_right _ (by simp [hEq]), hTells⟩

/-- The client comes back if it is away, and is sent what there is; the writer does nothing
but broadcast. -/
def Returns (h : Hub) (a : Action) : Prop :=
  a = .publish ∨ a = .advance ∨ a = .subscribe (cursorOf h.earlier)

theorem Hub.Steps.mono {allowed allowed' : Hub → Action → Prop}
    (hAllowed : ∀ h a, allowed h a → allowed' h a)
    (hRun : Relation.ReflTransGen (Hub.Steps env ns allowed) h h') :
    Relation.ReflTransGen (Hub.Steps env ns allowed') h h' :=
  Relation.ReflTransGen.mono (fun h _ ⟨a, ha, hStep⟩ => ⟨a, hAllowed h a ha, hStep⟩) _ _ hRun

theorem Drains.returns (h : Hub) (a : Action) (hDrains : Drains h a) : Returns h a :=
  hDrains.imp_right .inl

theorem Drains.resumes (h : Hub) (a : Action) (hDrains : Drains h a) : ResumesFromCursor env h a := by
  rcases hDrains with rfl | rfl <;> trivial

/-- A client that is connected, or has a cursor to come back with, catches up. -/
theorem Hub.Resumed.exists_caughtUp (hNs : ns.WellFormed) (hRes : h.Resumed ns)
    (hJoined : h.joined = some j) (hBack : h.stream ≠ none ∨ cursorOf h.earlier ≠ none) :
    ∃ h' s', Relation.ReflTransGen (Hub.Steps env ns Returns) h h' ∧ h'.CaughtUp s' ∧
      h'.db = h.db ∧ h'.joined = some j ∧ h'.Resumed ns := by
  -- a client that is away subscribes first
  obtain ⟨h₁, s, hReturn, hSome, hDb₁, hJoined₁, hRes₁⟩ : ∃ h₁ s,
      Relation.ReflTransGen (Hub.Steps env ns Returns) h h₁ ∧ h₁.stream = some s ∧ h₁.db = h.db ∧
        h₁.joined = some j ∧ h₁.Resumed ns := by
    cases hStream : h.stream with
    | some s => exact ⟨h, s, .refl, hStream, rfl, hJoined, hRes⟩
    | none =>
      have hCursor : cursorOf h.earlier ≠ none := hBack.resolve_left fun hNe => hNe hStream
      have hStep : h.step env ns (.subscribe (cursorOf h.earlier)) = some { h with
          stream := some (.subscribe h.db (cursorOf h.earlier))
          joined := some (h.joined.getD h.db.lastSeq) } := by
        simp only [Hub.step, hStream]
      have hAllowed : ResumesFromCursor env h (.subscribe (cursorOf h.earlier)) :=
        ⟨rfl, fun hNo => absurd hNo hCursor⟩
      refine ⟨_, _, .single ⟨_, .inr (.inr rfl), hStep⟩, rfl, rfl, ?_, hRes.step hNs hAllowed hStep⟩
      rw [hJoined]
      rfl
  obtain ⟨h', s', hDrain, hUp, hDb, hSame, -⟩ := @Hub.exists_caughtUp env ns h₁ s hRes₁.inv.wf hSome
  exact ⟨h', s', hReturn.trans (Hub.Steps.mono Drains.returns hDrain), hUp, hDb.trans hDb₁,
    hSame.trans hJoined₁, hRes₁.run hNs (Hub.Steps.mono Drains.resumes hDrain)⟩

/-- **Resuming a change stream loses nothing**, when the writer runs resumable commands and the
client comes back with the number of the last event it received. Every event that is broadcast
has the number of a row about its memory; the cursor never passes a row that the client was
not told of; a client that caught up was told of every row since it first subscribed; and a
client that is connected, or has a cursor, catches up. -/
theorem resuming_loses_nothing {db : Db} (hNs : ns.WellFormed) (hWf : db.Wf)
    (hRun : Relation.ReflTransGen (Hub.Steps env ns (ResumesFromCursor env)) (Hub.start db) h) :
    (∀ e ∈ h.pending, ∃ r ∈ h.db.oplog, r.memoryId = some e.id ∧ e.seq = some r.seq) ∧
    ∀ j, h.joined = some j →
      (∀ r, Awaited h.db ns j r → Told h.db.oplog r h.received ∨
        ∀ c, cursorOf h.received = some c → c < r.seq) ∧
      (∀ s, h.CaughtUp s → ∀ r, Awaited h.db ns j r → Told h.db.oplog r h.received) ∧
      ((h.stream ≠ none ∨ cursorOf h.earlier ≠ none) →
        ∃ h' s', Relation.ReflTransGen (Hub.Steps env ns Returns) h h' ∧ h'.CaughtUp s' ∧
          h'.db = h.db ∧ ∀ r, Awaited h.db ns j r → Told h.db.oplog r h'.received) := by
  have hRes : h.Resumed ns := (Hub.start_resumed hWf).run hNs hRun
  refine ⟨fun e he => ?_, fun j hj => ⟨fun r hr => ?_, fun s hUp r hr => hRes.caughtUp hUp hj hr, fun hBack => ?_⟩⟩
  · obtain ⟨r, hr, hId, hSeq, -⟩ := hRes.inv.own e he
    exact ⟨r, hr, hId, hSeq⟩
  · unfold Hub.received
    cases hStream : h.stream with
    | some s =>
      refine (hRes.sent hStream hj hr).imp_right fun ⟨hFloor, hLow⟩ c hc => ?_
      exact hRes.cursor_lt hStream hFloor hLow hc
    | none =>
      simp only [Option.elim_none, append_nil]
      exact (hRes.awaited j hj r hr).imp_right fun ⟨_, hCursor⟩ => hCursor hStream
  · obtain ⟨h', s', hReturns, hUp, hDb, hJoined, hRes'⟩ := hRes.exists_caughtUp hNs hj hBack
    refine ⟨h', s', hReturns, hUp, hDb, fun r hr => ?_⟩
    rw [← hDb] at hr ⊢
    exact hRes'.caughtUp hUp hJoined hr

end Resume

/-! ## A client that leaves between the events of a merge -/

/-- Two similar memories are merged while a client listens. It is sent the creation of the
combined memory, goes away, and comes back with the number of that event. -/
def leavesDuringMerge : Option Hub :=
  (Hub.start (Db.init [] 2 none)).run alignedEnv .global
    [.commit (.insert 0 (.plain 1) (some [1, 0])), .publish,
      .commit (.insert 0 (.new ⟨2⟩ ⟨0, 0⟩ .global ['b'] .insight 5) (some [1, 0])), .publish,
      .subscribe none,
      .commit (.reviewMerge .global ⟨1⟩ ⟨2⟩ (92 / 100)
        (.new ⟨9⟩ ⟨100, 0⟩ .global ['a', 'b'] .insight 5) (some [1, 0]) [] true ⟨100, 0⟩),
      .publish, .advance, .disconnect, .publish, .publish,
      .subscribe (some 6), .advance]

/-- The client caught up and was not told that a memory was superseded; the event it received
has the number of a row about no memory at all, and that is its cursor now. -/
theorem merge_lets_cursor_skip :
    ∃ h s, leavesDuringMerge = some h ∧ h.CaughtUp s ∧ s.since = cursorOf h.earlier ∧
      h.joined = some 2 ∧
      (∃ r, Awaited h.db .global 2 r ∧ r.op = .supersede ∧ ¬ Told h.db.oplog r h.received) ∧
      ∃ e ∈ h.received, ∀ r ∈ h.db.oplog, e.seq = some r.seq → r.memoryId = none := by
  have hRun : leavesDuringMerge.any (fun h => h.joined = some 2 ∧ h.pending = [] ∧
      (h.stream.any fun s => s.since = cursorOf h.earlier ∧ s.outbox = [] ∧ s.paging = none ∧ s.queue = []) ∧
      (h.db.oplog.any fun r => r.op = .supersede ∧ r.memoryId = some ⟨1⟩ ∧
        r.ns = Namespace.global.asDbString ∧ 2 < r.seq ∧
        ∀ e ∈ h.received, ¬ Tells h.db.oplog r e) ∧
      h.received.any fun e => ∀ r ∈ h.db.oplog, e.seq = some r.seq → r.memoryId = none) = true := by
    decide +kernel
  simp only [Option.any_eq_true, any_eq_true, decide_eq_true_eq] at hRun
  obtain ⟨h, hHub, hJoined, hPending, ⟨s, hSome, hSince, hOutbox, hPaging, hQueue⟩,
    ⟨r, hr, hOp, hId, hNs, hAbove, hSilent⟩, hEvent⟩ := hRun
  refine ⟨h, s, hHub, ⟨hSome, hPending, hOutbox, hPaging, hQueue⟩, hSince, hJoined,
    ⟨r, ⟨hr, ⟨.supersede, ⟨1⟩, ⟨hOp, hId, hNs⟩, ?_⟩, hAbove⟩, hOp, ?_⟩, hEvent⟩
  · decide
  · rintro ⟨e, he, hTells⟩
    exact hSilent e he hTells

/-- A client is told of one memory and goes away, and another is inserted meanwhile. -/
def missesOne : Option Hub :=
  (Hub.start (Db.init [] 2 none)).run .blank .global
    [.subscribe none, .commit (.insert 0 (.plain 1) none), .publish, .advance, .disconnect,
      .commit (.insert 0 (.plain 2) none), .publish]

/-- The client comes back with its cursor, and is told of the memory it missed. -/
theorem resuming_loses_nothing_missesOne :
    ∃ h₁ h s, missesOne = some h₁ ∧ h₁.stream = none ∧
      h₁.run .blank .global [.subscribe (some 1), .advance, .advance] = some h ∧ h.CaughtUp s ∧
      ∃ r, Awaited h.db .global 0 r ∧ r.memoryId = some ⟨2⟩ ∧ Told h.db.oplog r h.received := by
  have hRun : missesOne.any (fun h₁ => h₁.stream.isNone ∧ cursorOf h₁.earlier = some 1 ∧
      (h₁.run .blank .global [.subscribe (some 1), .advance, .advance]).any fun h =>
        h.joined = some 0 ∧ h.pending = [] ∧
        (h.stream.any fun s => s.outbox = [] ∧ s.paging = none ∧ s.queue = []) ∧
        h.db.oplog.any fun r => r.op = .insert ∧ r.memoryId = some ⟨2⟩ ∧
          r.ns = Namespace.global.asDbString ∧ 0 < r.seq) = true := by
    decide +kernel
  simp only [Option.any_eq_true, any_eq_true, decide_eq_true_eq, Option.isNone_iff_eq_none] at hRun
  obtain ⟨h₁, hAway, hNone, hCursor, h, hBack, hJoined, hPending, ⟨s, hSome, hOutbox, hPaging, hQueue⟩,
    r, hr, hOp, hId, hNs, hAbove⟩ := hRun
  have hUp : h.CaughtUp s := ⟨hSome, hPending, hOutbox, hPaging, hQueue⟩
  have hAwaited : Awaited h.db .global 0 r := ⟨hr, ⟨.insert, ⟨2⟩, ⟨hOp, hId, hNs⟩, .inl rfl⟩, hAbove⟩
  refine ⟨h₁, h, s, hAway, hNone, hBack, hUp, r, hAwaited, hId, ?_⟩
  -- both subscriptions are with the client's cursor, and the other steps are allowed anywhere
  have hFirst : Relation.ReflTransGen (Hub.Steps .blank .global (ResumesFromCursor .blank))
      (Hub.start (Db.init [] 2 none)) h₁ := by
    rw [missesOne, Hub.run_cons] at hAway
    obtain ⟨h₀, hStep, hRest⟩ := Option.bind_eq_some_iff.mp hAway
    refine .head ⟨.subscribe none, ⟨rfl, fun _ => rfl⟩, hStep⟩ (Hub.steps_of_run (fun a ha h => ?_) hRest)
    simp only [mem_cons, not_mem_nil, or_false] at ha
    rcases ha with rfl | rfl | rfl | rfl | rfl | rfl
    · exact ⟨trivial, by decide⟩
    iterate 3 trivial
    · exact ⟨trivial, by decide⟩
    · trivial
  have hSecond : Relation.ReflTransGen (Hub.Steps .blank .global (ResumesFromCursor .blank)) h₁ h := by
    rw [Hub.run_cons] at hBack
    obtain ⟨h₂, hStep, hRest⟩ := Option.bind_eq_some_iff.mp hBack
    refine .head ⟨.subscribe (some 1), ⟨hCursor.symm, by simp⟩, hStep⟩ (Hub.steps_of_run (fun a ha h => ?_) hRest)
    simp only [mem_cons, not_mem_nil, or_false, or_self] at ha
    rw [ha]
    trivial
  have hGlobal : Namespace.global.WellFormed := trivial
  obtain ⟨-, hRows⟩ := resuming_loses_nothing hGlobal (Db.init_wf [] 2 none) (hFirst.trans hSecond)
  exact (hRows 0 hJoined).2.1 s hUp r hAwaited

end RustyBrain.Daemon
