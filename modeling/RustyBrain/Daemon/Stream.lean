import RustyBrain.Daemon.Writer

/-!
# rusty-brain — change streams

A subscriber between two awaits of `stream_changes`, next to the writer: the writer commits
and broadcasts in its own time, the subscriber pages through the log from its cursor and then
follows the broadcast, and the client may go away after any event and come back with the
number of the last one it received.

The receiver of the broadcast is an unbounded queue, which is a receiver that never lags. A
page read is one query and sees whole commits.

## Results

* `Stream.next_all` — what a subscriber sent and what is still to come for it do not change
  when it moves on.
* `Hub.Inv.step` — one step of the system keeps what every connection owes its client.
* `Hub.exists_caughtUp` — a connection that the writer leaves alone catches up.
-/

namespace RustyBrain.Daemon

open Store Transaction List

variable {log : List OplogRow} {after : Nat} {events : List MemoryChanged} {db : Db}

/-! ## One connection -/

/-- `OPLOG_REPLAY_BATCH`. -/
def oplogReplayBatch : Nat := 500

/-- The state of `stream_changes`. -/
structure Stream where
  /-- The cursor the client subscribed with. -/
  since : Option Nat
  /-- The cursor, or where the log ended when the receiver was registered without one: the
  connection answers for what lies above. Nothing reads it. -/
  floor : Nat
  /-- What the broadcast receiver holds. -/
  queue : List MemoryChanged
  /-- Where the next page starts, until the replay is done. -/
  paging : Option Nat
  /-- The rest of the page that is being written. -/
  outbox : List MemoryChanged
  replayedTo : Nat
  /-- The pages read so far. -/
  pages : Nat
  /-- The frames written so far. -/
  sent : List MemoryChanged

/-- The receiver is registered before anything is read. -/
def Stream.subscribe (db : Db) (since : Option Nat) : Stream where
  since := since
  floor := since.getD db.lastSeq
  queue := []
  paging := since
  outbox := []
  replayedTo := since.getD 0
  pages := 0
  sent := []

/-- A broadcast arrives. -/
def Stream.receive (e : MemoryChanged) (s : Stream) : Stream :=
  { s with queue := s.queue ++ [e] }

/-- The filter of the live loop: the own namespace, and nothing the replay covered. -/
def passes (ns : Namespace) (replayedTo : Nat) (e : MemoryChanged) : Bool :=
  e.ns = ns && !e.seq.any (· ≤ replayedTo)

/-- One turn of the replay loop: the read. Pages go by rows scanned, not by events. -/
def Stream.readPage (db : Db) (ns : Namespace) (after : Nat) (s : Stream) : Stream :=
  let page := db.oplogChangesSince ns after oplogReplayBatch
  { s with
    outbox := page.changes
    replayedTo := max s.replayedTo page.lastSeq
    paging := if page.scanned < oplogReplayBatch then none else some page.lastSeq
    pages := s.pages + 1 }

/-- The next thing `stream_changes` does; `none` while it waits for a broadcast. -/
def Stream.next (db : Db) (ns : Namespace) (s : Stream) : Option Stream :=
  match s.outbox, s.paging, s.queue with
  | e :: rest, _, _ => some { s with outbox := rest, sent := s.sent ++ [e] }
  | [], some after, _ => some (s.readPage db ns after)
  | [], none, e :: rest =>
    some { s with queue := rest, sent := s.sent ++ [e].filter (passes ns s.replayedTo) }
  | [], none, [] => none

/-! ## The writer, the connection and the client -/

/-- The daemon and one client. -/
structure Hub where
  db : Db
  /-- Events of the last commit that are not broadcast yet. -/
  pending : List MemoryChanged
  stream : Option Stream
  /-- Where the log ended at the first subscription. -/
  joined : Option Nat
  /-- What the client received on earlier connections. -/
  earlier : List MemoryChanged

/-- The number of the last event that has one. -/
def cursorOf (events : List MemoryChanged) : Option Nat :=
  (events.filterMap MemoryChanged.seq).getLast?

/-- All that the client received. -/
def Hub.received (h : Hub) : List MemoryChanged :=
  h.earlier ++ (h.stream.elim [] Stream.sent)

def Hub.start (db : Db) : Hub where
  db := db
  pending := []
  stream := none
  joined := none
  earlier := []

inductive Action where
  | commit (cmd : WriteCommand)
  | publish
  | subscribe (since : Option Nat)
  | advance
  | disconnect

/-- One step of the system. The writer takes its next command when it has broadcast the
events of the last one. -/
def Hub.step (env : Env) (ns : Namespace) (h : Hub) : Action → Option Hub
  | .commit cmd =>
    match h.pending with
    | [] => some { h with db := (cmd.run env h.db).1, pending := (cmd.run env h.db).2 }
    | _ :: _ => none
  | .publish =>
    match h.pending with
    | [] => none
    | e :: rest => some { h with pending := rest, stream := h.stream.map (Stream.receive e) }
  | .subscribe since =>
    match h.stream with
    | none => some { h with
        stream := some (.subscribe h.db since)
        joined := some (h.joined.getD h.db.lastSeq) }
    | some _ => none
  | .advance =>
    match h.stream with
    | none => none
    | some s => (s.next h.db ns).map fun s' => { h with stream := some s' }
  | .disconnect =>
    match h.stream with
    | none => none
    | some s => some { h with stream := none, earlier := h.earlier ++ s.sent }

/-- A list of steps. -/
def Hub.run (env : Env) (ns : Namespace) (h : Hub) (actions : List Action) : Option Hub :=
  actions.foldlM (Hub.step env ns) h

/-- Steps that meet a condition on the state before them. -/
def Hub.Steps (env : Env) (ns : Namespace) (allowed : Hub → Action → Prop) (h h' : Hub) : Prop :=
  ∃ a, allowed h a ∧ h.step env ns a = some h'

/-- The writer runs resumable commands; whatever else happens is free. -/
def WritesResumably (env : Env) (h : Hub) : Action → Prop
  | .commit cmd => cmd.Resumable env h.db
  | _ => True

/-- Besides, the client subscribes with the number of the last event it received, and with no
number only when it never subscribed before. -/
def ResumesFromCursor (env : Env) (h : Hub) : Action → Prop
  | .commit cmd => cmd.Resumable env h.db
  | .subscribe since => since = cursorOf h.earlier ∧ (since = none → h.joined = none)
  | _ => True

/-- The connection has sent all there is. -/
structure Hub.CaughtUp (h : Hub) (s : Stream) : Prop where
  stream : h.stream = some s
  pending : h.pending = []
  outbox : s.outbox = []
  paging : s.paging = none
  queue : s.queue = []

/-! ## Events and the growing log -/

section

variable {db db' : Db} {ns : Namespace} {rows : List OplogRow} {r x : OplogRow} {e : MemoryChanged}

/-- The event has the number of a row about its own memory. -/
def Owns (db : Db) (e : MemoryChanged) : Prop :=
  ∃ r ∈ db.oplog, r.memoryId = some e.id ∧ e.seq = some r.seq ∧
    Namespace.parseDbString r.ns = some e.ns

theorem Owns.mono (h : Owns db e) (hGains : Gains rows db db') : Owns db' e := by
  obtain ⟨r, hr, hOwn⟩ := h
  exact ⟨r, hGains.oplog ▸ mem_append_left _ hr, hOwn⟩

theorem not_tells_of_low (hLow : ∀ s ∈ e.seq, s < r.seq) : ¬ Tells log r e := by
  intro hTells
  obtain ⟨s, hs, hLe, -⟩ := hTells.seq
  have hLt := hLow s hs
  omega

/-- An event of before a commit tells of the same rows after it. -/
theorem tells_gains (hGains : Gains rows db db') (hLow : ∀ s ∈ e.seq, s ≤ db.lastSeq) :
    Tells db.oplog r e ↔ Tells db'.oplog r e := by
  constructor
  · rintro ⟨hId, hNs, hKind, s, hs, hLe, hNewest⟩
    refine ⟨hId, hNs, hKind, s, hs, hLe, fun x hx hxId hxKind hxLe => ?_⟩
    rw [hGains.oplog] at hx
    rcases mem_append.mp hx with hOld | hNew
    · exact hNewest x hOld hxId hxKind hxLe
    · have hAbove := hGains.above x hNew
      have hBelow := hLow s hs
      omega
  · rintro ⟨hId, hNs, hKind, s, hs, hLe, hNewest⟩
    refine ⟨hId, hNs, hKind, s, hs, hLe, fun x hx => hNewest x ?_⟩
    exact hGains.oplog ▸ mem_append_left _ hx

/-- An event tells of one row only. -/
theorem Tells.unique (hr : r ∈ log) (hx : x ∈ log) (h : Tells log r e) (h' : Tells log x e) :
    r.seq = x.seq := by
  obtain ⟨s, hs, hLe, hNewest⟩ := h.seq
  obtain ⟨s', hs', hLe', hNewest'⟩ := h'.seq
  obtain rfl := Option.some.inj (hs.symm.trans hs')
  have hId : r.memoryId = x.memoryId := h.id.trans h'.id.symm
  have hKind : r.op.changeKind = x.op.changeKind := h.kind.symm.trans h'.kind
  exact Nat.le_antisymm (hNewest' r hr hId hKind hLe) (hNewest x hx hId.symm hKind.symm hLe')

/-- A well-formed log is read in the order it was written. -/
theorem oplogOf_eq (hWf : db.Wf) (ns : Namespace) :
    db.oplogOf ns = db.oplog.filter fun r => r.ns = ns.asDbString := by
  refine List.Pairwise.insertionSort_eq ?_
  exact (hWf.seqs.filter _).imp fun h => Nat.le_of_lt h

theorem oplogOf_sorted (hWf : db.Wf) (ns : Namespace) :
    (db.oplogOf ns).Pairwise fun a b => a.seq < b.seq := by
  rw [oplogOf_eq hWf]
  exact hWf.seqs.filter _

theorem mem_oplogOf (hWf : db.Wf) : r ∈ db.oplogOf ns ↔ r ∈ db.oplog ∧ r.ns = ns.asDbString := by
  rw [oplogOf_eq hWf, mem_filter, decide_eq_true_eq]

/-- A commit lets the log of a namespace grow at its end. -/
theorem oplogOf_gains (hWf : db.Wf) (hWf' : db'.Wf) (hGains : Gains rows db db') (ns : Namespace) :
    db'.oplogOf ns = db.oplogOf ns ++ rows.filter fun r => r.ns = ns.asDbString := by
  rw [oplogOf_eq hWf', oplogOf_eq hWf, hGains.oplog, filter_append]

/-- The events that a replay sends for the rows above `after`. -/
def replays (ns : Namespace) (after : Nat) (rows : List OplogRow) : List MemoryChanged :=
  (rows.filter fun r => after < r.seq).filterMap (OplogRow.replayed ns)

theorem replays_append (after : Nat) (rows more : List OplogRow) :
    replays ns after (rows ++ more) = replays ns after rows ++ replays ns after more := by
  simp only [replays, filter_append, filterMap_append]

theorem mem_replays : e ∈ replays ns after rows ↔
    ∃ r ∈ rows, after < r.seq ∧ r.memoryId = some e.id ∧ e = ⟨e.id, ns, r.op.changeKind, some r.seq⟩ := by
  simp only [replays, mem_filterMap, mem_filter, decide_eq_true_eq, OplogRow.replayed,
    Option.map_eq_some_iff]
  constructor
  · rintro ⟨r, ⟨hr, hAfter⟩, id, hId, rfl⟩
    exact ⟨r, hr, hAfter, hId, rfl⟩
  · rintro ⟨r, hr, hAfter, hId, hEq⟩
    exact ⟨r, ⟨hr, hAfter⟩, e.id, hId, hEq.symm⟩

/-- A replayed row is told of by its own event. -/
theorem tells_replayed (hNs : ns.WellFormed) (hr : r.ns = ns.asDbString) (hId : r.memoryId = some e.id)
    (hEvent : e = ⟨e.id, ns, r.op.changeKind, some r.seq⟩) (log : List OplogRow) : Tells log r e := by
  rw [hEvent]
  exact tells_of_about ⟨rfl, hId, hr⟩ (Namespace.parseDbString_asDbString hNs) log

/-- **A replay tells of each of its rows exactly once**, in the order of their numbers. -/
theorem replays_once {op : OplogOp} {id : MemoryId} (hNs : ns.WellFormed)
    (hSorted : rows.Pairwise fun a b => a.seq < b.seq)
    (hLog : ∀ x ∈ rows, x ∈ log ∧ x.ns = ns.asDbString) (hr : r ∈ rows)
    (hAbout : r.About op id ns.asDbString) (hAfter : after < r.seq) :
    Feed.Once MemoryChanged.seq (Tells log r) r.seq (replays ns after rows) := by
  obtain ⟨left, right, rfl⟩ := append_of_mem hr
  obtain ⟨-, hRight, hLeft⟩ := pairwise_append.mp hSorted
  have hEvent : r.replayed ns = some ⟨id, ns, op.changeKind, some r.seq⟩ := by
    rw [OplogRow.replayed, hAbout.memoryId, hAbout.op]
    rfl
  -- the event of another row tells of that row, whose number is another one
  have hOther : ∀ x ∈ left ++ r :: right, x.seq ≠ r.seq → ∀ e : MemoryChanged,
      x.memoryId = some e.id → e = ⟨e.id, ns, x.op.changeKind, some x.seq⟩ → ¬ Tells log r e := by
    intro x hx hNe e hId hEq hTells
    have hOwn : Tells log x e := tells_replayed hNs (hLog x hx).2 hId hEq log
    exact hNe (Tells.unique (hLog x hx).1 (hLog r hr).1 hOwn hTells)
  refine ⟨replays ns after left, _, replays ns after right, ?_,
    tells_of_about hAbout (Namespace.parseDbString_asDbString hNs) log, fun e he => ?_, fun e he => ?_⟩
  · rw [replays_append]
    unfold replays
    have hHead : decide (after < r.seq) = true := decide_eq_true hAfter
    rw [filter_cons_of_pos (p := fun x : OplogRow => decide (after < x.seq)) hHead,
      filterMap_cons_some hEvent]
  · obtain ⟨x, hx, -, hId, hEq⟩ := mem_replays.mp he
    have hLt := hLeft x hx r mem_cons_self
    refine ⟨hOther x (mem_append_left _ hx) hLt.ne e hId hEq, fun s hs => ?_⟩
    rw [hEq] at hs
    exact Option.some.inj hs ▸ hLt
  · obtain ⟨x, hx, -, hId, hEq⟩ := mem_replays.mp he
    have hLt := (pairwise_cons.mp hRight).1 x hx
    exact hOther x (mem_append_right _ (mem_cons_of_mem _ hx)) hLt.ne' e hId hEq

end

/-! ## What a connection owes its client -/

section

variable {db db' : Db} {ns : Namespace} {floor : Nat} {rows : List OplogRow}
  {stream news : List MemoryChanged}

/-- The stream tells of every row above `floor` that a client of the namespace waits for. -/
structure Delivery (db : Db) (ns : Namespace) (floor : Nat) (stream : List MemoryChanged) : Prop where
  once : ∀ r ∈ db.oplog, ∀ op id, r.About op id ns.asDbString → op.Announced → floor < r.seq →
    Feed.Once MemoryChanged.seq (Tells db.oplog r) r.seq stream
  ns : ∀ e ∈ stream, e.ns = ns
  low : ∀ e ∈ stream, ∀ s ∈ e.seq, s ≤ db.lastSeq

/-- **A commit extends a delivery** by events that tell of the rows it gained. -/
theorem Delivery.extend (h : Delivery db ns floor stream) (hGains : Gains rows db db') (hWf : db.Wf)
    (hNew : ∀ r ∈ rows, ∀ op id, r.About op id ns.asDbString → op.Announced → floor < r.seq →
      Feed.Once MemoryChanged.seq (Tells db'.oplog r) r.seq news)
    (hTells : ∀ e ∈ news, ∃ r ∈ rows, Tells db'.oplog r e) (hNs : ∀ e ∈ news, e.ns = ns)
    (hLow : ∀ e ∈ news, ∀ s ∈ e.seq, s ≤ db'.lastSeq) : Delivery db' ns floor (stream ++ news) where
  once := by
    intro r hr op id hAbout hOp hFloor
    have hMem := hr
    rw [hGains.oplog] at hr
    rcases mem_append.mp hr with hOld | hRow
    · -- an event about a new row does not tell of an older one
      refine ((h.once r hOld op id hAbout hOp hFloor).congr fun e he => ?_).append fun e he hTold => ?_
      · exact tells_gains hGains (h.low e he)
      · obtain ⟨x, hx, hOwn⟩ := hTells e he
        have hSame := Tells.unique hMem (hGains.oplog ▸ mem_append_right _ hx) hTold hOwn
        have hAbove := hGains.above x hx
        have hBelow := hWf.lastSeq r hOld
        omega
    · refine Feed.Once.after (fun e he => ?_) (hNew r hRow op id hAbout hOp hFloor)
      have hBelow : ∀ s ∈ e.seq, s < r.seq := fun s hs =>
        (h.low e he s hs).trans_lt (hGains.above r hRow)
      exact ⟨not_tells_of_low hBelow, hBelow⟩
  ns := by
    intro e he
    rcases mem_append.mp he with he | he
    · exact h.ns e he
    · exact hNs e he
  low := by
    intro e he s hs
    rcases mem_append.mp he with he | he
    · exact (h.low e he s hs).trans hGains.grows
    · exact hLow e he s hs

/-- The rows of a commit, replayed. -/
theorem Delivery.extend_replays (h : Delivery db ns floor stream) (hNsWf : ns.WellFormed)
    (hGains : Gains rows db db') (hWf : db.Wf) (hAfter : after ≤ max floor db.lastSeq) :
    Delivery db' ns floor
      (stream ++ replays ns after (rows.filter fun r => r.ns = ns.asDbString)) := by
  have hRows : ∀ x ∈ rows.filter (fun r => r.ns = ns.asDbString), x ∈ db'.oplog ∧ x.ns = ns.asDbString := by
    intro x hx
    obtain ⟨hx, hHome⟩ := mem_filter.mp hx
    exact ⟨hGains.oplog ▸ mem_append_right _ hx, of_decide_eq_true hHome⟩
  refine h.extend hGains hWf (fun r hr op id hAbout _ hFloor => ?_) (fun e he => ?_) (fun e he => ?_)
    fun e he s hs => ?_
  · have hAbove := hGains.above r hr
    have hIn : r ∈ rows.filter fun r => r.ns = ns.asDbString :=
      mem_filter.mpr ⟨hr, decide_eq_true hAbout.ns⟩
    exact replays_once hNsWf (hGains.sorted.filter _) hRows hIn hAbout (by omega)
  all_goals obtain ⟨r, hr, -, hId, hEq⟩ := mem_replays.mp he
  · exact ⟨r, (mem_filter.mp hr).1, tells_replayed hNsWf (hRows r hr).2 hId hEq _⟩
  · rw [hEq]
  · rw [hEq] at hs
    exact Option.some.inj hs ▸ hGains.upTo r (mem_filter.mp hr).1

/-- The events of a commit, followed live. -/
theorem Delivery.extend_live {replayedTo : Nat} (h : Delivery db ns floor stream)
    (hGains : Gains rows db db') (hWf : db.Wf) (hEvents : Announces db'.oplog rows events)
    (hNsWf : ns.WellFormed) (hReplayed : replayedTo ≤ max floor db.lastSeq) :
    Delivery db' ns floor (stream ++ events.filter (passes ns replayedTo)) := by
  refine h.extend hGains hWf (fun r hr op id hAbout hOp hFloor => ?_) (fun e he => ?_) (fun e he => ?_)
    fun e he s hs => ?_
  · -- no two events of a commit are about the same memory and kind
    have hOnce : Feed.Once MemoryChanged.seq (Tells db'.oplog r) r.seq events := by
      refine (hEvents.told r hr (hAbout.op ▸ hOp)).once (fun e => not_tells_of_low) ?_
      refine hEvents.distinct.imp fun {e e'} hDistinct hBoth => ?_
      have hId : e.id = e'.id := Option.some.inj (hBoth.1.id.symm.trans hBoth.2.id)
      exact hDistinct.elim (fun hNe => hNe hId) fun hNe => hNe (hBoth.1.kind.trans hBoth.2.kind.symm)
    refine hOnce.filter fun e _ hTells => ?_
    obtain ⟨s, hs, hLe, -⟩ := hTells.seq
    have hNs : e.ns = ns := by
      have hParse := hTells.ns
      rw [hAbout.ns, Namespace.parseDbString_asDbString hNsWf] at hParse
      exact (Option.some.inj hParse).symm
    have hAbove := hGains.above r hr
    simp only [passes, hNs, hs, decide_true, Option.any_some, Bool.true_and, Bool.not_eq_true',
      decide_eq_false_iff_not]
    omega
  all_goals obtain ⟨he, hPass⟩ := mem_filter.mp he
  · exact hEvents.tells e he
  · simp only [passes, Bool.and_eq_true, decide_eq_true_eq] at hPass
    exact hPass.1
  · obtain ⟨r, hr, -, hSeq, -⟩ := hEvents.own e he
    rw [hSeq] at hs
    exact Option.some.inj hs ▸ hGains.upTo r hr

end

section Connection

variable {db db' : Db} {ns : Namespace} {pending : List MemoryChanged} {s s' : Stream}

/-- What would still be sent if nothing else was committed: the rest of the page, and then the
rest of the log or, once the replay is over, of the broadcast. -/
def Stream.coming (db : Db) (pending : List MemoryChanged) (ns : Namespace) (s : Stream) :
    List MemoryChanged :=
  s.outbox ++ match s.paging with
    | some after => replays ns after (db.oplogOf ns)
    | none => (s.queue ++ pending).filter (passes ns s.replayedTo)

def Stream.all (db : Db) (pending : List MemoryChanged) (ns : Namespace) (s : Stream) :
    List MemoryChanged :=
  s.sent ++ s.coming db pending ns

theorem Stream.next_cases (h : s.next db ns = some s') :
    (∃ e rest, s.outbox = e :: rest ∧ s' = { s with outbox := rest, sent := s.sent ++ [e] }) ∨
    (∃ a, s.outbox = [] ∧ s.paging = some a ∧ s' = s.readPage db ns a) ∨
    ∃ e rest, s.outbox = [] ∧ s.paging = none ∧ s.queue = e :: rest ∧
      s' = { s with queue := rest, sent := s.sent ++ [e].filter (passes ns s.replayedTo) } := by
  unfold Stream.next at h
  split at h
  next e rest hOutbox => exact .inl ⟨e, rest, hOutbox, (Option.some.inj h).symm⟩
  next a hOutbox hPaging => exact .inr (.inl ⟨a, hOutbox, hPaging, (Option.some.inj h).symm⟩)
  next e rest hOutbox hPaging hQueue =>
    exact .inr (.inr ⟨e, rest, hOutbox, hPaging, hQueue, (Option.some.inj h).symm⟩)
  next => cases h

/-- The rows a page scans, and the number it ends at. -/
theorem readPage_rows (hWf : db.Wf) (ns : Namespace) (after : Nat) :
    let rows := Feed.page OplogRow.seq (db.oplogOf ns) after oplogReplayBatch
    let last := (db.oplogChangesSince ns after oplogReplayBatch).lastSeq
    rows ++ (db.oplogOf ns).filter (fun r => last < r.seq) =
        (db.oplogOf ns).filter (fun r => after < r.seq) ∧
      after ≤ last ∧ (∀ r ∈ rows, r.seq ≤ last) ∧ (last = after ∨ ∃ r ∈ rows, r.seq = last) := by
  have hLast := Feed.foldl_max_spec OplogRow.seq
    (Feed.page OplogRow.seq (db.oplogOf ns) after oplogReplayBatch) after
  exact ⟨Feed.page_append_rest (oplogOf_sorted hWf ns), hLast⟩

/-- Behind the last page nothing of the broadcast passes: each event has the number of a row
that the replay scanned. -/
theorem nothing_passes {a last replayedTo : Nat} (hWf : db.Wf) (hOwn : ∀ e ∈ events, Owns db e)
    (ha : a ≤ replayedTo) (hLast : last ≤ replayedTo)
    (hScanned : ∀ r ∈ db.oplogOf ns, a < r.seq → r.seq ≤ last) :
    events.filter (passes ns replayedTo) = [] := by
  refine filter_eq_nil_iff.mpr fun e he hPass => ?_
  obtain ⟨r, hr, -, hSeq, hNs⟩ := hOwn e he
  simp only [passes, hSeq, Bool.and_eq_true, decide_eq_true_eq, Option.any_some,
    Bool.not_eq_true', decide_eq_false_iff_not] at hPass
  obtain ⟨rfl, hAbove⟩ := hPass
  have hMem : r ∈ db.oplogOf e.ns := (mem_oplogOf hWf).mpr ⟨hr, Namespace.asDbString_of_parse hNs⟩
  have hBelow := hScanned r hMem
  omega

/-- **A connection that moves on changes nothing** about what it sent and what is to come. -/
theorem Stream.next_all (hWf : db.Wf) (hOwn : ∀ e ∈ s.queue ++ pending, Owns db e)
    (hPaging : ∀ a ∈ s.paging, a ≤ s.replayedTo) (h : s.next db ns = some s') :
    s'.all db pending ns = s.all db pending ns := by
  rcases Stream.next_cases h with ⟨e, rest, hOutbox, rfl⟩ | ⟨a, hOutbox, hAfter, rfl⟩ |
    ⟨e, rest, hOutbox, hAfter, hQueue, rfl⟩
  · simp only [Stream.all, Stream.coming, hOutbox, append_assoc, cons_append,
      nil_append]
  · obtain ⟨hRest, hLe, hBelow, -⟩ := readPage_rows hWf ns a
    have ha := hPaging a hAfter
    simp only [Stream.all, Stream.coming, hOutbox, hAfter, Stream.readPage, nil_append,
      append_cancel_left_eq]
    split
    next after hMore =>
      -- a full page: the log above it is read next
      have hEq : (db.oplogChangesSince ns a oplogReplayBatch).lastSeq = after := by
        split at hMore
        · cases hMore
        · exact Option.some.inj hMore
      unfold replays
      rw [← hRest, filterMap_append, hEq]
      rfl
    next hDone =>
      -- the last page: it has all the rows there are
      have hShort : (db.oplogChangesSince ns a oplogReplayBatch).scanned < oplogReplayBatch := by
        by_contra hFull
        rw [if_neg hFull] at hDone
        cases hDone
      have hAll := Feed.page_of_short hShort
      rw [nothing_passes hWf hOwn (ha.trans (Nat.le_max_left _ _)) (Nat.le_max_right _ _),
        append_nil]
      · unfold replays
        rw [← hAll]
        rfl
      · intro r hr hAbove
        refine hBelow r ?_
        rw [hAll]
        exact mem_filter.mpr ⟨hr, decide_eq_true hAbove⟩
  · have hFilter := filter_append (p := passes ns s.replayedTo) [e] (rest ++ pending)
    simp only [Stream.all, Stream.coming, hOutbox, hAfter, hQueue, nil_append, append_assoc,
      cons_append] at hFilter ⊢
    rw [hFilter]

/-- What holds of a connection at any time. The replay has read `pages` pages, all of them
full but the last. -/
structure Stream.Owes (db : Db) (pending : List MemoryChanged) (ns : Namespace) (s : Stream) : Prop where
  floor : ∀ c ∈ s.since, s.floor = c
  own : ∀ e ∈ s.queue, Owns db e
  replayed : s.replayedTo ≤ max s.floor db.lastSeq
  paging : ∀ a ∈ s.paging, s.floor ≤ a ∧ a ≤ s.replayedTo
  full : ∀ a ∈ s.paging, s.pages * oplogReplayBatch ≤
    (db.oplogOf ns).countP fun r => s.floor < r.seq ∧ r.seq ≤ a
  pages : s.pages * oplogReplayBatch ≤
    (db.oplogOf ns).countP (fun r => s.floor < r.seq) + oplogReplayBatch
  delivery : Delivery db ns s.floor (s.all db pending ns)

/-- A fresh connection. -/
theorem Stream.Owes.subscribe (hNs : ns.WellFormed) (hWf : db.Wf) (hOwn : ∀ e ∈ pending, Owns db e)
    (since : Option Nat) : (Stream.subscribe db since).Owes db pending ns where
  floor := by
    intro c hc
    obtain rfl : since = some c := hc
    rfl
  own := nofun
  replayed := by
    cases since with
    | none => exact Nat.zero_le _
    | some c => exact Nat.le_max_left _ _
  paging := by
    intro a ha
    obtain rfl : since = some a := ha
    exact ⟨Nat.le_refl _, Nat.le_refl _⟩
  full := fun _ _ => by rw [Stream.subscribe, Nat.zero_mul]; exact Nat.zero_le _
  pages := by rw [Stream.subscribe, Nat.zero_mul]; exact Nat.zero_le _
  delivery := by
    cases since with
    | none =>
      -- the rows of the log are not above where it ends
      refine ⟨fun r hr _ _ _ _ hFloor => absurd (hWf.lastSeq r hr) (Nat.not_le.mpr hFloor),
        fun e he => ?_, fun e he s hs => ?_⟩
      · obtain ⟨-, hPass⟩ := mem_filter.mp he
        simp only [passes, Bool.and_eq_true, decide_eq_true_eq] at hPass
        exact hPass.1
      · obtain ⟨r, hr, -, hSeq, -⟩ := hOwn e (mem_filter.mp he).1
        rw [hSeq] at hs
        exact Option.some.inj hs ▸ hWf.lastSeq r hr
    | some c =>
      refine ⟨fun r hr op id hAbout _ hFloor => ?_, fun e he => ?_, fun e he s hs => ?_⟩
      · exact replays_once hNs (oplogOf_sorted hWf ns) (fun x hx => (mem_oplogOf hWf).mp hx)
          ((mem_oplogOf hWf).mpr ⟨hr, hAbout.ns⟩) hAbout hFloor
      all_goals obtain ⟨r, hr, -, -, hEq⟩ := mem_replays.mp he
      · rw [hEq]
      · rw [hEq] at hs
        exact Option.some.inj hs ▸ hWf.lastSeq r ((mem_oplogOf hWf).mp hr).1

/-- A full page adds its rows to those between the floor and where the next page starts. -/
theorem countP_page (hWf : db.Wf) {floor a : Nat} (hFloor : floor ≤ a) :
    (db.oplogOf ns).countP (fun r => floor < r.seq ∧ r.seq ≤ a) +
        (db.oplogChangesSince ns a oplogReplayBatch).scanned ≤
      (db.oplogOf ns).countP fun r => floor < r.seq ∧
        r.seq ≤ (db.oplogChangesSince ns a oplogReplayBatch).lastSeq := by
  obtain ⟨hRest, hLe, hBelow, -⟩ := readPage_rows hWf ns a
  set page := Feed.page OplogRow.seq (db.oplogOf ns) a oplogReplayBatch
  have hScanned : (db.oplogChangesSince ns a oplogReplayBatch).scanned = page.length := rfl
  generalize (db.oplogChangesSince ns a oplogReplayBatch).lastSeq = last at hRest hLe hBelow ⊢
  rw [hScanned]
  -- the rows up to `last` are those up to `a` and those in between
  have hSplit : ∀ rows : List OplogRow,
      rows.countP (fun r => floor < r.seq ∧ r.seq ≤ a) + rows.countP (fun r => a < r.seq ∧ r.seq ≤ last) ≤
        rows.countP fun r => floor < r.seq ∧ r.seq ≤ last := by
    intro rows
    induction rows with
    | nil => exact Nat.le_refl _
    | cons r rows ih =>
      simp only [countP_cons, decide_eq_true_eq]
      split_ifs <;> omega
  have hSub : page.Sublist (db.oplogOf ns) := by
    have hLeft := sublist_append_left page ((db.oplogOf ns).filter fun r => last < r.seq)
    rw [hRest] at hLeft
    exact hLeft.trans filter_sublist
  have hCount : page.countP (fun r => a < r.seq ∧ r.seq ≤ last) = page.length := by
    refine countP_eq_length.mpr fun r hr => decide_eq_true ⟨?_, hBelow r hr⟩
    exact (Feed.mem_page hr).2
  have hPage := hSub.countP_le (p := fun r => decide (a < r.seq ∧ r.seq ≤ last))
  have hAll := hSplit (db.oplogOf ns)
  omega

/-- A connection that moves on owes what it owed. -/
theorem Stream.Owes.next (hWf : db.Wf) (hOwn : ∀ e ∈ pending, Owns db e) (h : s.Owes db pending ns)
    (hNext : s.next db ns = some s') : s'.Owes db pending ns := by
  have hAll : s'.all db pending ns = s.all db pending ns := by
    refine Stream.next_all hWf (fun e he => ?_) (fun a ha => (h.paging a ha).2) hNext
    rcases mem_append.mp he with he | he
    · exact h.own e he
    · exact hOwn e he
  have hDelivery := h.delivery
  rw [← hAll] at hDelivery
  rcases Stream.next_cases hNext with ⟨e, rest, hOutbox, rfl⟩ | ⟨a, hOutbox, hAfter, rfl⟩ |
    ⟨e, rest, hOutbox, hAfter, hQueue, rfl⟩
  · exact ⟨h.floor, h.own, h.replayed, h.paging, h.full, h.pages, hDelivery⟩
  · obtain ⟨-, hLe, -, hLast⟩ := readPage_rows hWf ns a
    obtain ⟨hFloor, ha⟩ := h.paging a hAfter
    have hFull := h.full a hAfter
    have hReplayed := h.replayed
    have hNewReplayed : (db.oplogChangesSince ns a oplogReplayBatch).lastSeq ≤ max s.floor db.lastSeq := by
      rcases hLast with hLast | ⟨r, hr, hLast⟩
      · omega
      · have hBelow := hWf.lastSeq r ((mem_oplogOf hWf).mp (Feed.mem_page hr).1).1
        omega
    refine ⟨h.floor, h.own, ?_, ?_, ?_, ?_, hDelivery⟩
    · exact Nat.max_le.mpr ⟨hReplayed, hNewReplayed⟩
    · intro b hb
      simp only [Stream.readPage] at hb ⊢
      split at hb
      · cases hb
      · cases hb
        exact ⟨hFloor.trans hLe, Nat.le_max_right _ _⟩
    · intro b hb
      simp only [Stream.readPage] at hb ⊢
      split at hb
      · cases hb
      next hScanned =>
        cases hb
        rw [Nat.succ_mul]
        exact (Nat.add_le_add hFull (Nat.not_lt.mp hScanned)).trans (countP_page hWf hFloor)
    · have hMono : (db.oplogOf ns).countP (fun r => s.floor < r.seq ∧ r.seq ≤ a) ≤
          (db.oplogOf ns).countP fun r => s.floor < r.seq := by
        refine countP_mono_left fun r _ hr => ?_
        simp only [decide_eq_true_eq] at hr ⊢
        exact hr.1
      show (s.pages + 1) * oplogReplayBatch ≤ _
      rw [Nat.succ_mul]
      exact Nat.add_le_add_right (hFull.trans hMono) _
  · refine ⟨h.floor, fun x hx => h.own x ?_, h.replayed, h.paging, h.full, h.pages, hDelivery⟩
    rw [hQueue]
    exact mem_cons_of_mem _ hx

/-- A broadcast moves an event from the writer to the queue. -/
theorem Stream.Owes.receive {e : MemoryChanged} (hOwn : Owns db e) (h : s.Owes db (e :: pending) ns) :
    (s.receive e).Owes db pending ns where
  floor := h.floor
  own := by
    intro x hx
    rcases mem_concat.mp hx with hx | rfl
    · exact h.own x hx
    · exact hOwn
  replayed := h.replayed
  paging := h.paging
  full := h.full
  pages := h.pages
  delivery := by
    have hAll : (s.receive e).all db pending ns = s.all db (e :: pending) ns := by
      simp only [Stream.all, Stream.coming, Stream.receive, append_assoc, singleton_append]
    rw [hAll]
    exact h.delivery

/-- **A commit extends what a connection owes**: by the rows it replays when they come before
the end of the replay, by the events it lets pass when they come after. -/
theorem Stream.Owes.commit {rows : List OplogRow} (hNs : ns.WellFormed) (hWf : db.Wf)
    (hWf' : db'.Wf) (hGains : Gains rows db db') (hEvents : Announces db'.oplog rows events)
    (h : s.Owes db [] ns) : s.Owes db' events ns := by
  have hLog := oplogOf_gains hWf hWf' hGains ns
  refine ⟨h.floor, fun e he => (h.own e he).mono hGains, ?_, h.paging, fun a ha => ?_, ?_, ?_⟩
  · have hReplayed := h.replayed
    have hGrows := hGains.grows
    omega
  · rw [hLog, countP_append]
    exact (h.full a ha).trans (Nat.le_add_right _ _)
  · have hPages := h.pages
    rw [hLog, countP_append]
    omega
  · have hDelivery := h.delivery
    unfold Stream.all Stream.coming at hDelivery ⊢
    cases hPaging : s.paging with
    | some a =>
      have hAfter := (h.paging a hPaging).2.trans h.replayed
      have hMore := hDelivery.extend_replays hNs hGains hWf hAfter
      rw [hPaging] at hMore
      simp only [hLog, replays_append]
      simpa only [append_assoc] using hMore
    | none =>
      have hMore := hDelivery.extend_live hGains hWf hEvents hNs h.replayed
      rw [hPaging] at hMore
      simp only [filter_append]
      simpa only [append_assoc, append_nil] using hMore

end Connection

/-! ## Runs of the system -/

section

variable {env : Env} {ns : Namespace} {h h' : Hub} {a : Action} {s : Stream}

/-- A resumable command, whether it commits or fails. -/
theorem WriteCommand.run_gains {cmd : WriteCommand} (hWf : db.Wf) (hCmd : cmd.Resumable env db) :
    (cmd.run env db).1.Wf ∧ ∃ rows, Gains rows db (cmd.run env db).1 ∧
      Announces (cmd.run env db).1.oplog rows (cmd.run env db).2 := by
  unfold WriteCommand.run
  rcases commit_cases (cmd.body env) db with ⟨events, db', hRuns, hEq⟩ | ⟨e, hEq⟩
  · rw [hEq]
    exact ⟨Op.wf_of_runs env _ (WriteCommand.runs_op hRuns) hWf, WriteCommand.announces hWf hCmd hRuns⟩
  · rw [hEq]
    exact ⟨hWf, [], .nil rfl rfl, .nil _⟩

/-- What holds of the system at any time. -/
structure Hub.Inv (ns : Namespace) (h : Hub) : Prop where
  wf : h.db.Wf
  own : ∀ e ∈ h.pending, Owns h.db e
  stream : ∀ s ∈ h.stream, s.Owes h.db h.pending ns

theorem Hub.start_inv (hWf : db.Wf) : (Hub.start db).Inv ns :=
  ⟨hWf, nofun, nofun⟩

/-- What a step can do. -/
theorem Hub.step_cases (hStep : h.step env ns a = some h') :
    (∃ cmd, a = .commit cmd ∧ h.pending = [] ∧
      h' = { h with db := (cmd.run env h.db).1, pending := (cmd.run env h.db).2 }) ∨
    (∃ e rest, a = .publish ∧ h.pending = e :: rest ∧
      h' = { h with pending := rest, stream := h.stream.map (Stream.receive e) }) ∨
    (∃ since, a = .subscribe since ∧ h.stream = none ∧ h' = { h with
      stream := some (.subscribe h.db since), joined := some (h.joined.getD h.db.lastSeq) }) ∨
    (∃ s s', a = .advance ∧ h.stream = some s ∧ s.next h.db ns = some s' ∧
      h' = { h with stream := some s' }) ∨
    ∃ s, a = .disconnect ∧ h.stream = some s ∧
      h' = { h with stream := none, earlier := h.earlier ++ s.sent } := by
  cases a with
  | commit cmd =>
    simp only [Hub.step] at hStep
    split at hStep
    next hPending => exact .inl ⟨cmd, rfl, hPending, (Option.some.inj hStep).symm⟩
    next => cases hStep
  | publish =>
    simp only [Hub.step] at hStep
    split at hStep
    next => cases hStep
    next e rest hPending => exact .inr (.inl ⟨e, rest, rfl, hPending, (Option.some.inj hStep).symm⟩)
  | subscribe since =>
    simp only [Hub.step] at hStep
    split at hStep
    next hNone => exact .inr (.inr (.inl ⟨since, rfl, hNone, (Option.some.inj hStep).symm⟩))
    next => cases hStep
  | advance =>
    simp only [Hub.step] at hStep
    split at hStep
    next => cases hStep
    next s hSome =>
      obtain ⟨s', hNext, rfl⟩ := Option.map_eq_some_iff.mp hStep
      exact .inr (.inr (.inr (.inl ⟨s, s', rfl, hSome, hNext, rfl⟩)))
  | disconnect =>
    simp only [Hub.step] at hStep
    split at hStep
    next => cases hStep
    next s hSome => exact .inr (.inr (.inr (.inr ⟨s, rfl, hSome, (Option.some.inj hStep).symm⟩)))

/-- **One step keeps the invariant.** -/
theorem Hub.Inv.step (hNs : ns.WellFormed) (hInv : h.Inv ns) (hAllowed : WritesResumably env h a)
    (hStep : h.step env ns a = some h') : h'.Inv ns := by
  rcases Hub.step_cases hStep with ⟨cmd, rfl, hPending, rfl⟩ | ⟨e, rest, rfl, hPending, rfl⟩ |
    ⟨since, rfl, hNone, rfl⟩ | ⟨s, s', rfl, hSome, hNext, rfl⟩ | ⟨s, rfl, hSome, rfl⟩
  · obtain ⟨hWf', rows, hGains, hEvents⟩ := WriteCommand.run_gains hInv.wf hAllowed
    refine ⟨hWf', fun e he => ?_, fun s hs => ?_⟩
    · obtain ⟨r, hr, hOwn⟩ := hEvents.own e he
      exact ⟨r, hGains.oplog ▸ mem_append_right _ hr, hOwn⟩
    · have hOwes := hInv.stream s hs
      rw [hPending] at hOwes
      exact hOwes.commit hNs hInv.wf hWf' hGains hEvents
  · have hOwn := hInv.own
    rw [hPending] at hOwn
    refine ⟨hInv.wf, fun x hx => hOwn x (mem_cons_of_mem _ hx), fun s hs => ?_⟩
    obtain ⟨s₀, hSome, rfl⟩ := Option.map_eq_some_iff.mp hs
    have hOwes := hInv.stream s₀ hSome
    rw [hPending] at hOwes
    exact hOwes.receive (hOwn e mem_cons_self)
  · refine ⟨hInv.wf, hInv.own, fun s hs => ?_⟩
    cases hs
    exact .subscribe hNs hInv.wf hInv.own since
  · refine ⟨hInv.wf, hInv.own, fun x hx => ?_⟩
    cases hx
    exact (hInv.stream s hSome).next hInv.wf hInv.own hNext
  · exact ⟨hInv.wf, hInv.own, nofun⟩

theorem Hub.Inv.run (hNs : ns.WellFormed) (hInv : h.Inv ns)
    (hRun : Relation.ReflTransGen (Hub.Steps env ns (WritesResumably env)) h h') : h'.Inv ns :=
  invariant_of_steps (fun _ _ ⟨_, hAllowed, hStep⟩ hInv => hInv.step hNs hAllowed hStep) hRun hInv

/-- Nothing is to come for a connection that caught up. -/
theorem Hub.CaughtUp.all (hUp : h.CaughtUp s) : s.all h.db h.pending ns = s.sent := by
  unfold Stream.all Stream.coming
  rw [hUp.outbox, hUp.paging, hUp.queue, hUp.pending]
  exact append_nil _

/-! ### Catching up -/

/-- The broadcast and the connection go on, and nothing else happens. -/
def Drains (_ : Hub) (a : Action) : Prop := a = .publish ∨ a = .advance

/-- The steps a connection has before it. A page turns each row it scans into one event at
most. -/
def Stream.work (db : Db) (ns : Namespace) (s : Stream) : Nat :=
  s.outbox.length + s.queue.length +
    s.paging.elim 0 fun a => 2 * ((db.oplogOf ns).filter fun r => a < r.seq).length + 1

theorem Stream.next_work {s' : Stream} (hWf : db.Wf) (hNext : s.next db ns = some s') :
    s'.work db ns < s.work db ns := by
  rcases Stream.next_cases hNext with ⟨e, rest, hOutbox, rfl⟩ | ⟨a, hOutbox, hAfter, rfl⟩ |
    ⟨e, rest, hOutbox, hAfter, hQueue, rfl⟩
  · simp only [Stream.work, hOutbox, length_cons]
    omega
  · obtain ⟨hRest, -⟩ := readPage_rows hWf ns a
    have hLength := congrArg List.length hRest
    rw [length_append] at hLength
    have hEvents : (db.oplogChangesSince ns a oplogReplayBatch).changes.length ≤
        (Feed.page OplogRow.seq (db.oplogOf ns) a oplogReplayBatch).length :=
      length_filterMap_le _ _
    have hScanned : (db.oplogChangesSince ns a oplogReplayBatch).scanned =
        (Feed.page OplogRow.seq (db.oplogOf ns) a oplogReplayBatch).length := rfl
    have hBatch : 0 < oplogReplayBatch := by decide
    simp only [Stream.work, Stream.readPage, hOutbox, hAfter, Option.elim_some, length_nil]
    split
    next => simp only [Option.elim_none]; omega
    next hFull => simp only [Option.elim_some]; omega
  · simp only [Stream.work, hQueue, length_cons]
    omega

/-- A connection with nothing to do waits for a broadcast. -/
theorem Stream.next_none (hNext : s.next db ns = none) :
    s.outbox = [] ∧ s.paging = none ∧ s.queue = [] := by
  unfold Stream.next at hNext
  split at hNext
  next => cases hNext
  next => cases hNext
  next => cases hNext
  next hOutbox hPaging hQueue => exact ⟨hOutbox, hPaging, hQueue⟩

/-- **A connection catches up** when the writer leaves it the time: the replay ends, and then
the queue is emptied. -/
theorem Hub.exists_caughtUp (hWf : h.db.Wf) (hSome : h.stream = some s) :
    ∃ h' s', Relation.ReflTransGen (Hub.Steps env ns Drains) h h' ∧ h'.CaughtUp s' ∧
      h'.db = h.db ∧ h'.joined = h.joined ∧ s'.since = s.since := by
  generalize hWork : 2 * h.pending.length + s.work h.db ns = work
  induction work using Nat.strong_induction_on generalizing h s with
  | _ work ih =>
    cases hPending : h.pending with
    | cons e rest =>
      -- the writer goes first: an event in the queue is less work than one still to broadcast
      have hStep : h.step env ns .publish = some
          { h with pending := rest, stream := some (s.receive e) } := by
        simp only [Hub.step, hPending, hSome, Option.map_some]
      have hLess : 2 * rest.length + (s.receive e).work h.db ns < work := by
        simp only [Stream.work, Stream.receive, length_append, length_nil, hPending,
          length_cons] at hWork ⊢
        omega
      obtain ⟨h', s', hRun, hUp, hDb, hJoined, hSince⟩ := ih _ hLess
        (h := { h with pending := rest, stream := some (s.receive e) }) hWf rfl rfl
      exact ⟨h', s', .head ⟨.publish, .inl rfl, hStep⟩ hRun, hUp, hDb, hJoined, hSince⟩
    | nil =>
      cases hNext : s.next h.db ns with
      | none =>
        obtain ⟨hOutbox, hPaging, hQueue⟩ := Stream.next_none hNext
        exact ⟨h, s, .refl, ⟨hSome, hPending, hOutbox, hPaging, hQueue⟩, rfl, rfl, rfl⟩
      | some s₁ =>
        have hStep : h.step env ns .advance = some { h with stream := some s₁ } := by
          simp only [Hub.step, hSome, hNext, Option.map_some]
        have hLess : 2 * h.pending.length + s₁.work h.db ns < work := by
          have hDown := Stream.next_work hWf hNext
          omega
        obtain ⟨h', s', hRun, hUp, hDb, hJoined, hSince⟩ := ih _ hLess
          (h := { h with stream := some s₁ }) hWf rfl rfl
        have hSame : s₁.since = s.since := by
          rcases Stream.next_cases hNext with ⟨_, _, -, rfl⟩ | ⟨_, -, -, rfl⟩ | ⟨_, _, -, -, -, rfl⟩ <;> rfl
        exact ⟨h', s', .head ⟨.advance, .inr rfl, hStep⟩ hRun, hUp, hDb, hJoined, hSince.trans hSame⟩

/-- **Within one subscription with a cursor every row is delivered exactly once**, when the
writer runs resumable commands: nothing of another namespace is sent, the replay reads one
page more than the rows fill at most, no row is ever sent twice, a connection that caught up
has sent every row above the cursor, and a connection does catch up. -/
theorem subscription_delivers_once {db : Db} {cursor : Nat} (hNs : ns.WellFormed) (hWf : db.Wf)
    (hRun : Relation.ReflTransGen (Hub.Steps env ns (WritesResumably env)) (Hub.start db) h)
    (hSome : h.stream = some s) (hSince : s.since = some cursor) :
    (∀ e ∈ s.sent, e.ns = ns) ∧
    s.pages ≤ (h.db.oplogOf ns).countP (fun r => cursor < r.seq) / oplogReplayBatch + 1 ∧
    (∀ r ∈ h.db.oplog, ∀ op id, r.About op id ns.asDbString → op.Announced → cursor < r.seq →
      s.sent.Pairwise (fun e e' => ¬ (Tells h.db.oplog r e ∧ Tells h.db.oplog r e')) ∧
      (h.CaughtUp s → Feed.Once MemoryChanged.seq (Tells h.db.oplog r) r.seq s.sent)) ∧
    ∃ h' s', Relation.ReflTransGen (Hub.Steps env ns Drains) h h' ∧ h'.CaughtUp s' ∧
      h'.db = h.db ∧ s'.since = some cursor := by
  have hInv : h.Inv ns := (Hub.start_inv hWf).run hNs hRun
  have hOwes := hInv.stream s hSome
  have hFloor : s.floor = cursor := hOwes.floor cursor hSince
  refine ⟨fun e he => ?_, ?_, fun r hr op id hAbout hOp hAbove => ⟨?_, fun hUp => ?_⟩, ?_⟩
  · exact hOwes.delivery.ns e (mem_append_left _ he)
  · have hPages := hOwes.pages
    rw [hFloor] at hPages
    have hBatch : 0 < oplogReplayBatch := by decide
    have hDiv := (Nat.le_div_iff_mul_le hBatch).mpr hPages
    rwa [Nat.add_div_right _ hBatch] at hDiv
  · have hOnce := hOwes.delivery.once r hr op id hAbout hOp (hFloor ▸ hAbove)
    exact (pairwise_append.mp hOnce.pairwise).1
  · have hOnce := hOwes.delivery.once r hr op id hAbout hOp (hFloor ▸ hAbove)
    rwa [hUp.all] at hOnce
  · obtain ⟨h', s', hDrain, hUp, hDb, -, hSame⟩ := @Hub.exists_caughtUp env ns h s hInv.wf hSome
    exact ⟨h', s', hDrain, hUp, hDb, hSame.trans hSince⟩

theorem Hub.run_cons (rest : List Action) : h.run env ns (a :: rest) =
    (h.step env ns a).bind fun h₁ => h₁.run env ns rest := rfl

/-- A list of steps that are allowed in any state. -/
theorem Hub.steps_of_run {allowed : Hub → Action → Prop} {actions : List Action}
    (hAllowed : ∀ a ∈ actions, ∀ h, allowed h a) (hRun : h.run env ns actions = some h') :
    Relation.ReflTransGen (Hub.Steps env ns allowed) h h' := by
  induction actions generalizing h with
  | nil =>
    cases hRun
    exact .refl
  | cons a rest ih =>
    rw [Hub.run_cons] at hRun
    obtain ⟨h₁, hStep, hRest⟩ := Option.bind_eq_some_iff.mp hRun
    refine .head ⟨a, hAllowed a mem_cons_self h, hStep⟩ (ih (fun x hx => ?_) hRest)
    exact hAllowed x (mem_cons_of_mem _ hx)

end

/-! ### A memory archived twice -/

/-- A memory is inserted, a client subscribes with the number of its row, and the memory is
archived twice. -/
def archivedAgain : Option Hub :=
  (Hub.start (Db.init [] 2 none)).run .blank .global
    [.commit (.insert 0 (.plain 1) none), .publish,
      .subscribe (some 1), .advance,
      .commit (.archive 1 .global ⟨1⟩), .publish, .advance,
      .commit (.archive 2 .global ⟨1⟩), .publish, .advance]

/-- The second archive changes nothing, but it is broadcast with the number of the first: the
row of the archive is sent twice. -/
theorem archive_again_sent_twice :
    ∃ h s, archivedAgain = some h ∧ h.stream = some s ∧ s.since = some 1 ∧ ∃ r ∈ h.db.oplog,
      r.About .archive ⟨1⟩ Namespace.global.asDbString ∧ 1 < r.seq ∧
      ¬ s.sent.Pairwise fun e e' => ¬ (Tells h.db.oplog r e ∧ Tells h.db.oplog r e') := by
  have hRun : archivedAgain.any (fun h => h.stream.any fun s => s.since = some 1 ∧
      h.db.oplog.any fun r => r.op = .archive ∧ r.memoryId = some ⟨1⟩ ∧
        r.ns = Namespace.global.asDbString ∧ 1 < r.seq ∧
        ¬ s.sent.Pairwise fun e e' => ¬ (Tells h.db.oplog r e ∧ Tells h.db.oplog r e')) = true := by
    decide +kernel
  simp only [Option.any_eq_true, any_eq_true, decide_eq_true_eq] at hRun
  obtain ⟨h, hHub, s, hSome, hSince, r, hr, hOp, hId, hNs, hAbove, hTwice⟩ := hRun
  exact ⟨h, s, hHub, hSome, hSince, r, hr, ⟨hOp, hId, hNs⟩, hAbove, hTwice⟩

/-- A client that subscribes from the start of the log after the insert catches up, and was
sent the row once. -/
theorem subscription_delivers_once_inserted :
    ∃ h s, (Hub.start (Db.init [] 2 none)).run .blank .global
        [.commit (.insert 0 (.plain 1) none), .publish,
          .subscribe (some 0), .advance, .advance] = some h ∧
      h.CaughtUp s ∧ ∃ r ∈ h.db.oplog, r.About .insert ⟨1⟩ Namespace.global.asDbString ∧
        Feed.Once MemoryChanged.seq (Tells h.db.oplog r) r.seq s.sent := by
  have hRun : ((Hub.start (Db.init [] 2 none)).run .blank .global
      [.commit (.insert 0 (.plain 1) none), .publish,
        .subscribe (some 0), .advance, .advance]).any (fun h => h.pending = [] ∧
      h.stream.any fun s => s.since = some 0 ∧ s.outbox = [] ∧ s.paging = none ∧ s.queue = [] ∧
        h.db.oplog.any fun r => r.op = .insert ∧ r.memoryId = some ⟨1⟩ ∧
          r.ns = Namespace.global.asDbString ∧ 0 < r.seq) = true := by
    decide +kernel
  simp only [Option.any_eq_true, any_eq_true, decide_eq_true_eq] at hRun
  obtain ⟨h, hHub, hPending, s, hSome, hSince, hOutbox, hPaging, hQueue, r, hr, hOp, hId, hNs, hAbove⟩ := hRun
  have hUp : h.CaughtUp s := ⟨hSome, hPending, hOutbox, hPaging, hQueue⟩
  have hAbout : r.About .insert ⟨1⟩ Namespace.global.asDbString := ⟨hOp, hId, hNs⟩
  refine ⟨h, s, hHub, hUp, r, hr, hAbout, ?_⟩
  have hSteps : Relation.ReflTransGen (Hub.Steps .blank .global (WritesResumably .blank))
      (Hub.start (Db.init [] 2 none)) h := by
    refine Hub.steps_of_run (fun a ha h => ?_) hHub
    simp only [mem_cons, not_mem_nil, or_false] at ha
    rcases ha with rfl | rfl | rfl | rfl | rfl
    · exact ⟨trivial, by decide⟩
    all_goals exact trivial
  have hGlobal : Namespace.global.WellFormed := trivial
  obtain ⟨-, -, hRows, -⟩ :=
    subscription_delivers_once hGlobal (Db.init_wf [] 2 none) hSteps hSome hSince
  exact (hRows r hr .insert ⟨1⟩ hAbout (.inl rfl) hAbove).2 hUp

end RustyBrain.Daemon
