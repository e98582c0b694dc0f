import RustyBrain.Lib.Machine
import RustyBrain.Store.Oplog

/-!
# The change feed of the MCP adapter

A background subscriber pumps the daemon's change events into a bounded ring that
`poll_changes` drains; it keeps the highest number it has seen and resubscribes with it
after an outage. The module follows the daemon's commits, the stream, the ring and the
drains together, and keeps an account of what became of each event.

Of the daemon it takes what it promises a subscriber: a stream opened with a cursor
delivers the events with a higher number, one opened without delivers those committed
from then on, and a lag notice gives the number of events it skipped. Waiting between
two attempts is left out; so is what a drain reports besides events and the total.
-/

namespace RustyBrain.Mcp

open Store Machine List

variable {e : MemoryChanged}

/-! ## The ring -/

/-- `SubscriberStatus`; an instant is a number. -/
inductive SubscriberStatus where
  | connected
  | disconnected (since : Nat)
deriving DecidableEq

def u64Max : Nat := 2 ^ 64 - 1

def saturatingAdd (a b : Nat) : Nat := min (a + b) u64Max

/-- `ChangeBuffer`, over the type of its events. -/
structure ChangeBuffer (α : Type) where
  events : List α
  capacity : Nat
  dropped : Nat
  status : SubscriberStatus
deriving DecidableEq

/-- What a drain returns. -/
structure Drained (α : Type) where
  events : List α
  dropped : Nat

namespace ChangeBuffer

variable {α : Type}

def new (capacity now : Nat) : ChangeBuffer α where
  events := []
  capacity := max capacity 1
  dropped := 0
  status := .disconnected now

def setConnected (b : ChangeBuffer α) : ChangeBuffer α :=
  { b with status := .connected }

/-- The first instant of an outage is kept. -/
def setDisconnected (now : Nat) (b : ChangeBuffer α) : ChangeBuffer α :=
  match b.status with
  | .connected => { b with status := .disconnected now }
  | .disconnected _ => b

/-- Push one event, evicting and counting the oldest when full. -/
def push (e : α) (b : ChangeBuffer α) : ChangeBuffer α :=
  if b.events.length ≥ b.capacity then
    { b with events := b.events.tail ++ [e], dropped := saturatingAdd b.dropped 1 }
  else { b with events := b.events ++ [e] }

def recordDropped (n : Nat) (b : ChangeBuffer α) : ChangeBuffer α :=
  { b with dropped := saturatingAdd b.dropped n }

def drain (max : Nat) (b : ChangeBuffer α) : Drained α × ChangeBuffer α :=
  ({ events := b.events.take max, dropped := b.dropped },
    { b with events := b.events.drop max, dropped := 0 })

/-- What the next push evicts. -/
def evicted (b : ChangeBuffer α) : List α :=
  if b.events.length ≥ b.capacity then b.events.take 1 else []

end ChangeBuffer

/-! ## The subscriber and the daemon -/

/-- An event with its place among those committed in the namespace. -/
abbrev Entry : Type := MemoryChanged × Nat

/-- The daemon delivers the event on a stream opened with this cursor. -/
def covers (since : Option Nat) (e : MemoryChanged) : Bool :=
  match since with
  | none => true
  | some c => e.seq.any (c < ·)

/-- An open stream: its cursor, and what the daemon has still to send on it. -/
structure Subscription where
  since : Option Nat
  inFlight : List Entry
deriving DecidableEq

/-- The daemon's commits in the namespace, the subscriber, and the account: what drains
have returned, what was dropped since the last one, and each total reported with what it
stands for. -/
structure Adapter where
  log : List MemoryChanged
  /-- The commits before the first subscription. -/
  joined : Option Nat
  stream : Option Subscription
  cursor : Option Nat
  buffer : ChangeBuffer Entry
  drained : List Entry
  lost : List Entry
  reports : List (Nat × List Entry)

def Adapter.start (log : List MemoryChanged) (capacity now : Nat) : Adapter where
  log := log
  joined := none
  stream := none
  cursor := none
  buffer := .new capacity now
  drained := []
  lost := []
  reports := []

inductive Action where
  | commit (e : MemoryChanged)
  /-- A connect or a subscribe fails. -/
  | refuse (now : Nat)
  | subscribe
  /-- The next event of the stream arrives. -/
  | receive
  /-- A lag notice: the stream skips its next `n` events. -/
  | lag (n : Nat)
  /-- The stream ends with an error. -/
  | break (now : Nat)
  | drain (max : Nat)

/-- `subscribe_since`: replay above the cursor, or from now on. -/
def Adapter.subscribe (s : Adapter) : Subscription where
  since := s.cursor
  inFlight := match s.cursor with
    | none => []
    | some _ => s.log.zipIdx.filter fun e => covers s.cursor e.1

/-- `cursor.unwrap_or(0).max(seq)`. -/
def advance (cursor : Option Nat) (e : MemoryChanged) : Option Nat :=
  match e.seq with
  | some seq => some (max (cursor.getD 0) seq)
  | none => cursor

/-- One step; one that is not possible leaves everything as it is. -/
def Adapter.step (s : Adapter) : Action → Adapter
  | .commit e =>
    { s with
      log := s.log ++ [e]
      stream := s.stream.map fun t =>
        if covers t.since e then { t with inFlight := t.inFlight ++ [(e, s.log.length)] } else t }
  | .refuse now =>
    match s.stream with
    | none => { s with buffer := s.buffer.setDisconnected now }
    | some _ => s
  | .subscribe =>
    match s.stream with
    | none =>
      { s with
        joined := some (s.joined.getD s.log.length)
        stream := some s.subscribe
        buffer := s.buffer.setConnected }
    | some _ => s
  | .receive =>
    match s.stream with
    | some ⟨since, e :: rest⟩ =>
      { s with
        stream := some ⟨since, rest⟩
        cursor := advance s.cursor e.1
        buffer := s.buffer.push e
        lost := s.lost ++ s.buffer.evicted }
    | _ => s
  | .lag n =>
    match s.stream with
    | some t =>
      if n ≤ t.inFlight.length then
        { s with
          stream := some { t with inFlight := t.inFlight.drop n }
          buffer := s.buffer.recordDropped n
          lost := s.lost ++ t.inFlight.take n }
      else s
    | none => s
  | .break now =>
    match s.stream with
    | some _ => { s with stream := none, buffer := s.buffer.setDisconnected now }
    | none => s
  | .drain max =>
    { s with
      buffer := (s.buffer.drain max).2
      drained := s.drained ++ (s.buffer.drain max).1.events
      lost := []
      reports := s.reports ++ [((s.buffer.drain max).1.dropped, s.lost)] }

/-! ## The account -/

namespace Adapter

/-- Drained or in the ring. -/
def received (s : Adapter) : List Entry :=
  s.drained ++ s.buffer.events

/-- Drained, in the ring, or part of a dropped total: of the coming one or of one that a
drain reported. -/
def Accounted (s : Adapter) (e : Entry) : Prop :=
  e ∈ s.received ∨ e ∈ s.lost ∨ ∃ r ∈ s.reports, e ∈ r.2

instance (s : Adapter) (e : Entry) : Decidable (s.Accounted e) := by
  unfold Accounted
  infer_instance

/-- The events committed since the first subscription. -/
def since (s : Adapter) : List Entry :=
  match s.joined with
  | none => []
  | some j => s.log.zipIdx.filter fun e => j ≤ e.2

/-- No event is drained or held twice, every total is the number of events it stands
for, and a connected subscriber that has caught up has accounted for every event since
its first subscription. -/
structure NoGap (s : Adapter) : Prop where
  once : s.received.Nodup
  dropped : s.buffer.dropped = s.lost.length
  reported : ∀ r ∈ s.reports, r.1 = r.2.length
  complete : ∀ t, s.stream = some t → t.inFlight = [] → ∀ e ∈ s.since, s.Accounted e

/-- The condition on a step: a resubscription has a cursor below every event it has to
make up for, a stream with a cursor is sent every new event, and the dropped total stays
in its range. -/
def Gapless (s : Adapter) : Action → Prop
  | .commit e => ∀ t ∈ s.stream, covers t.since e = true
  | .subscribe => s.stream = none → ∀ e ∈ s.since, ¬s.Accounted e →
      s.cursor.isSome ∧ covers s.cursor e.1 = true
  | .receive => s.buffer.dropped + 1 ≤ u64Max
  | .lag n => s.buffer.dropped + n ≤ u64Max
  | _ => True

/-- What the steps keep: besides the account, that nothing on its way was received
before, and that the cursor is not below what was. -/
structure Inv (s : Adapter) : Prop where
  capacity : 1 ≤ s.buffer.capacity
  logged : ∀ e ∈ s.received, e ∈ s.log.zipIdx
  once : s.received.Nodup
  cursor : ∀ e ∈ s.received, ∀ n, e.1.seq = some n → ∃ c, s.cursor = some c ∧ n ≤ c
  dropped : s.buffer.dropped = s.lost.length
  reported : ∀ r ∈ s.reports, r.1 = r.2.length
  flight : ∀ t ∈ s.stream, t.inFlight.Nodup ∧ ∀ e ∈ t.inFlight, e ∈ s.log.zipIdx ∧ e ∉ s.received
  owed : ∀ t ∈ s.stream, ∀ e ∈ s.since, s.Accounted e ∨ e ∈ t.inFlight

variable {s : Adapter}

/-- The invariant says where each event is, so none is missing or there twice. -/
theorem Inv.noGap (h : s.Inv) : s.NoGap where
  once := h.once
  dropped := h.dropped
  reported := h.reported
  complete t ht hEmpty e he := by
    rcases h.owed t ht e he with hAccounted | hFlight
    · exact hAccounted
    · rw [hEmpty] at hFlight
      simp at hFlight

variable (log : List MemoryChanged)

theorem inv_start (capacity now : Nat) :
    (start log capacity now).Inv where
  capacity := by simp [start, ChangeBuffer.new]
  logged := by simp [start, received, ChangeBuffer.new]
  once := by simp [start, received, ChangeBuffer.new]
  cursor := by simp [start, received, ChangeBuffer.new]
  dropped := rfl
  reported := by simp [start]
  flight := by simp [start]
  owed := by simp [start]

theorem zipIdx_snoc (e : MemoryChanged) :
    (log ++ [e]).zipIdx = log.zipIdx ++ [(e, log.length)] := by
  simp [zipIdx_append]

theorem nodup_zipIdx : log.zipIdx.Nodup := by
  refine List.Nodup.of_map Prod.snd ?_
  rw [zipIdx_map_snd]
  exact nodup_range'

theorem index_lt {log : List MemoryChanged} {e : Entry} (h : e ∈ log.zipIdx) :
    e.2 < log.length := by
  simpa using snd_lt_of_mem_zipIdx h

/-- An open stream that covers the event has it to send. -/
theorem Inv.commit (h : s.Inv) (hOk : s.Gapless (.commit e)) : (s.step (.commit e)).Inv := by
  have hNew : (e, s.log.length) ∉ s.log.zipIdx := fun hMem => lt_irrefl _ (index_lt hMem)
  -- the stream is sent the event
  have hStream : ∀ t ∈ (s.step (.commit e)).stream, ∃ t₀ ∈ s.stream,
      t.inFlight = t₀.inFlight ++ [(e, s.log.length)] := by
    intro t ht
    obtain ⟨t₀, ht₀, rfl⟩ := Option.map_eq_some_iff.mp ht
    exact ⟨t₀, ht₀, by rw [if_pos (hOk t₀ ht₀)]⟩
  have hSince : ∀ x ∈ (s.step (.commit e)).since, x ∈ s.since ∨ x = (e, s.log.length) := by
    intro x hx
    unfold since at hx ⊢
    change x ∈ (match s.joined with
      | none => []
      | some j => (s.log ++ [e]).zipIdx.filter fun x : Entry => j ≤ x.2) at hx
    cases hJoined : s.joined with
    | none => simp [hJoined] at hx
    | some j =>
      simp only [hJoined, zipIdx_snoc, filter_append, mem_append] at hx
      exact hx.imp_right fun hx => mem_singleton.mp (mem_of_mem_filter hx)
  refine ⟨h.capacity, fun x hx => ?_, h.once, h.cursor, h.dropped, h.reported, fun t ht => ?_,
    fun t ht x hx => ?_⟩
  · rw [step, zipIdx_snoc]
    exact mem_append_left _ (h.logged x hx)
  · obtain ⟨t₀, ht₀, hEq⟩ := hStream t ht
    obtain ⟨hNodup, hFlight⟩ := h.flight t₀ ht₀
    rw [hEq]
    constructor
    · refine hNodup.append (nodup_singleton _) ?_
      intro x hx hx'
      rw [mem_singleton.mp hx'] at hx
      exact hNew (hFlight _ hx).1
    · intro x hx
      rw [step, zipIdx_snoc]
      rcases mem_append.mp hx with hx | hx
      · exact ⟨mem_append_left _ (hFlight x hx).1, (hFlight x hx).2⟩
      · obtain rfl := mem_singleton.mp hx
        exact ⟨by simp, fun hRec => hNew (h.logged _ hRec)⟩
  · obtain ⟨t₀, ht₀, hEq⟩ := hStream t ht
    rw [hEq]
    rcases hSince x hx with hx | rfl
    · exact (h.owed t₀ ht₀ x hx).imp_right (mem_append_left _)
    · exact .inr (by simp)

/-- Without a stream a change of the status changes no account. -/
theorem Inv.disconnected (h : s.Inv) (now : Nat) :
    Inv { s with stream := none, buffer := s.buffer.setDisconnected now } := by
  unfold ChangeBuffer.setDisconnected
  split <;> exact ⟨h.capacity, h.logged, h.once, h.cursor, h.dropped, h.reported, nofun, nofun⟩

theorem Inv.refuse (h : s.Inv) (now : Nat) : (s.step (.refuse now)).Inv := by
  rw [step]
  split
  · next hStream => exact hStream ▸ h.disconnected now
  · exact h

/-- What a broken stream had still to send lies above the cursor. -/
theorem Inv.broken (h : s.Inv) (now : Nat) : (s.step (.break now)).Inv := by
  rw [step]
  split
  · exact h.disconnected now
  · exact h

/-- A new subscription replays what lies above the cursor. -/
theorem Inv.subscribed (h : s.Inv) (hOk : s.Gapless .subscribe) : (s.step .subscribe).Inv := by
  rw [step]
  split
  case h_2 => exact h
  next hStream =>
  refine ⟨h.capacity, h.logged, h.once, h.cursor, h.dropped, h.reported, fun t ht => ?_,
    fun t ht e he => ?_⟩
  · cases ht
    unfold subscribe
    cases hCursor : s.cursor with
    | none => simp
    | some c =>
      refine ⟨(nodup_zipIdx s.log).filter _, fun e he => ?_⟩
      obtain ⟨hMem, hCovers⟩ := mem_filter.mp he
      refine ⟨hMem, fun hRec => ?_⟩
      -- what was received has a number up to the cursor
      obtain ⟨n, hSeq, hLt⟩ : ∃ n, e.1.seq = some n ∧ c < n := by
        cases hSeq : e.1.seq with
        | none => simp [covers, hSeq] at hCovers
        | some n => exact ⟨n, rfl, by simpa [covers, hSeq] using hCovers⟩
      obtain ⟨c', hc', hLe⟩ := h.cursor e hRec n hSeq
      rw [hCursor] at hc'
      cases hc'
      omega
  · cases ht
    by_cases hAccounted : s.Accounted e
    · exact .inl hAccounted
    refine .inr ?_
    cases hJoined : s.joined with
    | none =>
      simp only [since, hJoined, Option.getD_none, mem_filter] at he
      have := index_lt he.1
      have := of_decide_eq_true he.2
      omega
    | some j =>
      simp only [since, hJoined, Option.getD_some] at he
      have hSince : e ∈ s.since := by simpa [since, hJoined] using he
      obtain ⟨hSome, hCovers⟩ := hOk hStream e hSince hAccounted
      obtain ⟨c, hc⟩ := Option.isSome_iff_exists.mp hSome
      simp only [subscribe, hc] at hCovers ⊢
      exact mem_filter.mpr ⟨mem_of_mem_filter he, hCovers⟩

/-- A push moves the evicted event out of the ring and counts it. -/
theorem push_spec {b : ChangeBuffer Entry} (e : Entry) (hCapacity : 1 ≤ b.capacity)
    (hRange : b.dropped + 1 ≤ u64Max) :
    ∃ kept : List Entry, b.events = b.evicted ++ kept ∧ (b.push e).events = kept ++ [e] ∧
      (b.push e).dropped = b.dropped + b.evicted.length ∧ (b.push e).capacity = b.capacity := by
  unfold ChangeBuffer.push ChangeBuffer.evicted
  split
  · next hFull =>
    obtain ⟨x, kept, hEvents⟩ : ∃ x kept, b.events = x :: kept := by
      cases hEvents : b.events with
      | nil =>
        rw [hEvents, length_nil] at hFull
        omega
      | cons x kept => exact ⟨x, kept, rfl⟩
    refine ⟨kept, by simp [hEvents], by simp [hEvents], ?_, rfl⟩
    simp only [hEvents, take_succ_cons, take_zero, length_singleton, saturatingAdd]
    omega
  · exact ⟨b.events, by simp, rfl, by simp, rfl⟩

theorem advance_ge {cursor : Option Nat} {c : Nat} (h : cursor = some c) :
    ∃ c', advance cursor e = some c' ∧ c ≤ c' := by
  unfold advance
  split
  · exact ⟨_, rfl, by simp [h]⟩
  · exact ⟨c, h, le_rfl⟩

/-- The next event goes into the ring, which may evict its oldest. -/
theorem Inv.received_next (h : s.Inv) (hOk : s.Gapless .receive) : (s.step .receive).Inv := by
  rw [step]
  split
  case h_2 => exact h
  next since e rest hStream =>
  obtain ⟨kept, hEvents, hPushed, hDropped, hCapacity⟩ := push_spec e h.capacity hOk
  obtain ⟨hNodup, hFlight⟩ := h.flight _ hStream
  obtain ⟨heRest, hRest⟩ := nodup_cons.mp hNodup
  obtain ⟨heLog, heNew⟩ := hFlight e mem_cons_self
  -- the ring gives up its oldest event and takes the new one
  have hBefore : ∀ x, x ∈ s.received ↔ x ∈ s.drained ∨ x ∈ s.buffer.evicted ∨ x ∈ kept := by
    intro x
    rw [received, hEvents]
    simp
  have hMemAfter : ∀ x, x ∈ s.drained ++ (s.buffer.push e).events → x ∈ s.received ∨ x = e := by
    intro x hx
    rw [hPushed] at hx
    simp only [mem_append, mem_singleton] at hx
    rw [hBefore]
    tauto
  have hOwed := h.owed _ hStream
  refine ⟨hCapacity ▸ h.capacity, fun x hx => ?_, ?_, fun x hx n hn => ?_, ?_, h.reported,
    fun t ht => ?_, fun t ht x hx => ?_⟩
  · rcases hMemAfter x hx with hx | rfl
    · exact h.logged x hx
    · exact heLog
  · rw [received, hPushed, ← append_assoc]
    have hKept : (s.drained ++ kept).Nodup := by
      refine h.once.sublist ?_
      rw [received, hEvents]
      exact List.Sublist.append (List.Sublist.refl _) (sublist_append_right _ _)
    refine hKept.append (nodup_singleton _) ?_
    intro x hx hx'
    rw [mem_singleton.mp hx'] at hx
    refine heNew ((hBefore e).mpr ?_)
    rw [mem_append] at hx
    tauto
  · rcases hMemAfter x hx with hx | rfl
    · obtain ⟨c, hc, hLe⟩ := h.cursor x hx n hn
      obtain ⟨c', hc', hLe'⟩ := advance_ge (e := e.1) hc
      exact ⟨c', hc', hLe.trans hLe'⟩
    · exact ⟨_, by simp only [advance, hn]; rfl, le_max_right _ _⟩
  · simp only [hDropped, h.dropped, length_append]
  · cases ht
    refine ⟨hRest, fun x hx => ?_⟩
    obtain ⟨hxLog, hxNew⟩ := hFlight x (mem_cons_of_mem _ hx)
    refine ⟨hxLog, fun hRec => ?_⟩
    rcases hMemAfter x hRec with hRec | rfl
    · exact hxNew hRec
    · exact heRest hx
  · cases ht
    have hAccounted : s.Accounted x ∨ x = e ∨ x ∈ rest := (hOwed x hx).imp_right mem_cons.mp
    unfold Accounted at hAccounted ⊢
    rw [hBefore] at hAccounted
    rw [received, hPushed]
    simp only [mem_append, mem_singleton]
    generalize (∃ r ∈ s.reports, x ∈ r.2) = reported at hAccounted ⊢
    tauto

theorem Inv.lagged (h : s.Inv) {n : Nat} (hOk : s.Gapless (.lag n)) : (s.step (.lag n)).Inv := by
  rw [step]
  split
  case h_2 => exact h
  next t hStream =>
  split
  case isFalse => exact h
  next hLen =>
  obtain ⟨hNodup, hFlight⟩ := h.flight t hStream
  refine ⟨h.capacity, h.logged, h.once, h.cursor, ?_, h.reported, fun t' ht => ?_,
    fun t' ht x hx => ?_⟩
  · have hRange : s.buffer.dropped + n ≤ u64Max := hOk
    simp only [ChangeBuffer.recordDropped, saturatingAdd, length_append, length_take]
    rw [min_eq_left hRange, h.dropped, min_eq_left hLen]
  · cases ht
    exact ⟨hNodup.sublist (drop_sublist _ _), fun x hx => hFlight x (mem_of_mem_drop hx)⟩
  · cases ht
    rcases h.owed t hStream x hx with hAccounted | hMem
    · refine .inl ?_
      unfold Accounted at hAccounted ⊢
      simp only [mem_append]
      exact hAccounted.imp_right fun h => h.imp_left .inl
    · -- skipped events pass into the dropped total
      rw [← take_append_drop n t.inFlight, mem_append] at hMem
      rcases hMem with hSkipped | hLeft
      · exact .inl (.inr (.inl (mem_append_right _ hSkipped)))
      · exact .inr hLeft

/-- A drain hands out the oldest events, and reports what was dropped. -/
theorem Inv.polled (h : s.Inv) (max : Nat) : (s.step (.drain max)).Inv := by
  have hReceived : (s.step (.drain max)).received = s.received := by
    simp [step, received, ChangeBuffer.drain]
  have hAccounted : ∀ x, s.Accounted x → (s.step (.drain max)).Accounted x := by
    intro x hx
    unfold Accounted at hx ⊢
    rw [hReceived]
    rcases hx with hx | hx | ⟨r, hr, hx⟩
    · exact .inl hx
    · exact .inr (.inr ⟨_, mem_append_right _ (mem_singleton_self _), hx⟩)
    · exact .inr (.inr ⟨r, mem_append_left _ hr, hx⟩)
  refine ⟨h.capacity, ?_, ?_, ?_, rfl, fun r hr => ?_, fun t ht => ?_, fun t ht x hx => ?_⟩
  · rw [hReceived]
    exact h.logged
  · rw [hReceived]
    exact h.once
  · rw [hReceived]
    exact h.cursor
  · rcases mem_append.mp hr with hr | hr
    · exact h.reported r hr
    · obtain rfl := mem_singleton.mp hr
      exact h.dropped
  · rw [hReceived]
    exact h.flight t ht
  · exact (h.owed t ht x hx).imp_left (hAccounted x)

/-- Every step under `Gapless` keeps the invariant. -/
theorem inv_step {a : Action} (h : s.Inv) (hOk : s.Gapless a) : (s.step a).Inv := by
  cases a with
  | commit e => exact h.commit hOk
  | refuse now => exact h.refuse now
  | subscribe => exact h.subscribed hOk
  | receive => exact h.received_next hOk
  | lag n => exact h.lagged hOk
  | «break» now => exact h.broken now
  | drain max => exact h.polled max

/-- In a run whose steps all meet the condition, the feed has no gap in any state. -/
theorem feed_has_no_gaps (log : List MemoryChanged) (capacity now : Nat) (run : List Action)
    (hRun : Along step Gapless (start log capacity now) run) :
    ∀ s ∈ states step (start log capacity now) run, s.NoGap := by
  intro s hs
  have hInv : s.Inv :=
    invariant_along (fun _ _ hOk hI => inv_step hI hOk) (inv_start log capacity now) hRun s hs
  exact hInv.noGap

instance (s : Adapter) (a : Action) : Decidable (s.Gapless a) := by
  cases a <;> unfold Gapless <;> infer_instance

/-- The event of a memory created at `seq`. -/
def createdAt (seq : Nat) : MemoryChanged where
  id := ⟨seq⟩
  ns := .global
  kind := .created
  seq := some seq

/-- An event is received, one is committed in an outage and made up for, and a ring of one
place evicts the first. -/
theorem feed_has_no_gaps_outage :
    Along step Gapless (start [] 1 0)
        [.subscribe, .commit (createdAt 1), .receive, .break 5, .commit (createdAt 2), .refuse 6,
          .subscribe, .receive, .drain 10] ∧
      ∀ s ∈ states step (start [] 1 0)
        [.subscribe, .commit (createdAt 1), .receive, .break 5, .commit (createdAt 2), .refuse 6,
          .subscribe, .receive, .drain 10], s.NoGap := by
  have hRun : Along step Gapless (start [] 1 0)
      [.subscribe, .commit (createdAt 1), .receive, .break 5, .commit (createdAt 2), .refuse 6,
        .subscribe, .receive, .drain 10] := by decide
  exact ⟨hRun, feed_has_no_gaps [] 1 0 _ hRun⟩

/-- The stream breaks before the first event, and one is committed in the outage. -/
def earlyOutage : Adapter :=
  [.subscribe, .break 5, .commit (createdAt 1), .subscribe].foldl step (start [] 1024 0)

/-- Connected and caught up, the subscriber has neither received nor counted it. -/
theorem early_outage_leaves_gap :
    earlyOutage.stream = some ⟨none, []⟩ ∧ (createdAt 1, 0) ∈ earlyOutage.since ∧
      ¬earlyOutage.Accounted (createdAt 1, 0) ∧ ¬earlyOutage.NoGap := by
  have hStream : earlyOutage.stream = some ⟨none, []⟩ := by decide
  have hSince : (createdAt 1, 0) ∈ earlyOutage.since := by decide
  have hLost : ¬earlyOutage.Accounted (createdAt 1, 0) := by decide
  exact ⟨hStream, hSince, hLost, fun h => hLost (h.complete _ hStream rfl _ hSince)⟩

end Adapter

end RustyBrain.Mcp
