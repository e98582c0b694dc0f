import RustyBrain.Proto.Client

/-!
# rusty-brain — the reconnecting proxy of the MCP adapter

`ClientProxy::call` sends a request over the connection it has, or over a new one, and once
more over a new one when the first attempt failed in a way that cannot have run it twice:
a failed write reached no daemon, and after a lost response only requests that change
nothing are sent again. The model keeps every connection the proxy has used.

Each await of a call ends as its schedule says: connecting with a connection, an error or
a cancellation, writing and reading as on the connection itself. The waits between two
attempts to connect are part of connecting.
-/

namespace RustyBrain.Mcp

open Proto

/-- How the await of a connect ends. -/
inductive ConnectOutcome where
  | connected (capabilities : Capabilities)
  | failed (e : ClientError)
  | cancelled

/-- How the awaits of one attempt end. -/
structure Attempt where
  connect : ConnectOutcome
  send : SendOutcome
  read : ReadOutcome

/-- The connection in use, and those given up. -/
structure ClientProxy where
  client : Option Conn
  past : List Conn

/-- Which phase of a round trip failed. -/
inductive CallFailure where
  | send (e : ClientError)
  | recv (e : ClientError)

def CallFailure.intoError : CallFailure → ClientError
  | .send e => e
  | .recv e => e

def CallFailure.isLocalRejection : CallFailure → Bool
  | .send (.invalidArgument _) => true
  | _ => false

/-- How a round trip ends. -/
inductive RoundTrip where
  | replied (reply : Reply)
  | failed (f : CallFailure)
  | cancelled

/-- `attempt_call`. -/
def attemptCall (codec : Codec) (req : Request) (a : Attempt) (c : Conn) : RoundTrip × Conn :=
  match c.sendRequest codec req a.send with
  | (.error e, c) => (.failed (.send e), c)
  | (.cancelled, c) => (.cancelled, c)
  | (.ok (), c) =>
    match c.recvResponse a.read with
    | (.ok reply, c) => (.replied reply, c)
    | (.error e, c) => (.failed (.recv e), c)
    | (.cancelled, c) => (.cancelled, c)

namespace ClientProxy

/-- `ensure_connected`. -/
def ensureConnected (a : Attempt) (p : ClientProxy) : Outcome Conn :=
  match p.client with
  | some c => .ok c
  | none =>
    match a.connect with
    | .connected capabilities => .ok (.handshake capabilities)
    | .failed e => .error e
    | .cancelled => .cancelled

def anchorsUnsupported : ClientError :=
  .invalidArgument ("this daemon does not support typed code anchors (no `anchors` capability in " ++
    "its handshake); upgrade and restart the daemon")

/-- The retry over a new connection. -/
def retry (codec : Codec) (req : Request) (a : Attempt) (p : ClientProxy) :
    Outcome Reply × ClientProxy :=
  match p.ensureConnected a with
  | .error e => (.error e, p)
  | .cancelled => (.cancelled, p)
  | .ok c =>
    match attemptCall codec req a c with
    | (.replied reply, c) => (.ok reply, { p with client := some c })
    | (.cancelled, c) => (.cancelled, { p with client := some c })
    | (.failed f, c) =>
      (.error f.intoError,
        if f.isLocalRejection then { p with client := some c }
        else { client := none, past := c :: p.past })

/-- `ClientProxy::call`. -/
def call (codec : Codec) (req : Request) (first second : Attempt) (p : ClientProxy) :
    Outcome Reply × ClientProxy :=
  match p.ensureConnected first with
  | .error e => (.error e, p)
  | .cancelled => (.cancelled, p)
  | .ok c =>
    if requestUsesAnchors req && !c.capabilities.anchors then
      (.error anchorsUnsupported, { p with client := some c })
    else
      match attemptCall codec req first c with
      | (.replied reply, c) => (.ok reply, { p with client := some c })
      | (.cancelled, c) => (.cancelled, { p with client := some c })
      | (.failed f, c) =>
        if f.isLocalRejection then (.error f.intoError, { p with client := some c })
        else
          let retryable := match f with
            | .send _ => true
            | .recv _ => retrySafeAfterSend req
          let p := { client := none, past := c :: p.past }
          if retryable then retry codec req second p else (.error f.intoError, p)

/-- The connections the proxy has used. -/
def conns (p : ClientProxy) : List Conn :=
  p.client.toList ++ p.past

/-- The whole requests that reached a daemon. -/
def executions (p : ClientProxy) : Nat :=
  (p.conns.map fun c => c.delivered.length).sum

end ClientProxy

/-! ## One attempt -/

/-- The connection is what operations made of one after its handshake. -/
inductive Reached (codec : Codec) : Conn → Prop
  | handshake (capabilities : Capabilities) : Reached codec (.handshake capabilities)
  | step {c : Conn} (h : Reached codec c) (o : Conn.Op) : Reached codec (c.step codec o)

theorem Reached.inv {codec : Codec} {c : Conn} (h : Reached codec c) : c.Inv := by
  induction h with
  | handshake capabilities => exact Conn.inv_handshake capabilities
  | step _ o ih => exact Conn.inv_step ih o

/-- What one attempt leaves on its connection: it delivers the request at most once, not
at all when the write fails, and a reply is to this request. -/
structure AttemptSpec (codec : Codec) (req : Request) (c c' : Conn) (r : RoundTrip) : Prop where
  reached : Reached codec c → Reached codec c'
  delivered : c'.delivered.length ≤ c.delivered.length + 1
  unsent : ∀ e, r = .failed (.send e) → c'.delivered.length = c.delivered.length
  replied : Reached codec c → ∀ reply, r = .replied reply →
    c'.delivered[reply.index]? = some req ∧ c'.delivered.length = reply.index + 1

/-- What one attempt leaves on its connection. -/
theorem attemptCall_spec (codec : Codec) (req : Request) (a : Attempt) (c : Conn) :
    AttemptSpec codec req c (attemptCall codec req a c).2 (attemptCall codec req a c).1 := by
  have hSend := Conn.sendRequest_step codec req a.send c
  have hSendReached : Reached codec c → Reached codec (c.sendRequest codec req a.send).2 :=
    fun h => .step h (.send req a.send)
  unfold attemptCall
  generalize c.sendRequest codec req a.send = sent at hSend hSendReached
  obtain ⟨r, c₁⟩ := sent
  cases hSend with
  | rejected e | failed hIdle e =>
    exact ⟨hSendReached, Nat.le_succ _, fun _ _ => rfl, nofun⟩
  | dropped hIdle =>
    exact ⟨hSendReached, Nat.le_succ _, nofun, nofun⟩
  | droppedLate hIdle =>
    exact ⟨hSendReached, by simp, nofun, nofun⟩
  | sent hIdle =>
    -- the request is out; what is read is the reply to the exchange it opened
    generalize hc₁ : ({ c with
      state := .awaitingResponse (Conn.isSubscribe req)
      written := c.written ++ [req]
      delivered := c.delivered ++ [req] } : Conn) = c₁ at hSendReached
    have hRecv := Conn.recvResponse_step a.read c₁
    have hRecvReached : Reached codec c → Reached codec (c₁.recvResponse a.read).2 :=
      fun h => .step (hSendReached h) (.recv a.read)
    have hDelivered : c₁.delivered = c.delivered ++ [req] := by rw [← hc₁]
    have hCompleted : c₁.completed = c.completed := by rw [← hc₁]
    have hLength : c₁.delivered.length = c.delivered.length + 1 := by simp [hDelivered]
    dsimp only
    generalize c₁.recvResponse a.read = received at hRecv hRecvReached
    obtain ⟨r, c₂⟩ := received
    cases hRecv with
    | refused e | failed e | dropped =>
      exact ⟨hRecvReached, hLength.le, nofun, nofun⟩
    | read subscribe hAwaiting kind =>
      refine ⟨hRecvReached, hLength.le, nofun, fun hReached reply hReply => ?_⟩
      obtain rfl := RoundTrip.replied.inj hReply
      have hOpen : c.delivered.length = c.completed := (hReached.inv.idle hIdle).2
      simp only [hDelivered, hCompleted, ← hOpen]
      exact ⟨by simp, by simp⟩

/-! ## One call -/

namespace ClientProxy

variable {codec : Codec} {req : Request} {p : ClientProxy} {c : Conn}

def AllReached (codec : Codec) (p : ClientProxy) : Prop :=
  ∀ c ∈ p.conns, Reached codec c

variable {past : List Conn}

theorem allReached_some :
    AllReached codec ⟨some c, past⟩ ↔ Reached codec c ∧ ∀ d ∈ past, Reached codec d := by
  simp [AllReached, conns]

theorem allReached_none : AllReached codec ⟨none, past⟩ ↔ ∀ d ∈ past, Reached codec d := by
  simp [AllReached, conns]

theorem executions_some :
    executions ⟨some c, past⟩ = c.delivered.length + executions ⟨none, past⟩ := by
  simp [executions, conns]

theorem executions_past : executions ⟨none, c :: past⟩ = executions ⟨some c, past⟩ := by
  simp [executions, conns]

/-- What the code of a call keeps: connections are driven by operations only, at most
`n` more requests are delivered, and a reply is to this request, on the connection kept. -/
structure CallSpec (codec : Codec) (req : Request) (n : Nat) (p : ClientProxy)
    (result : Outcome Reply × ClientProxy) : Prop where
  reached : p.AllReached codec → result.2.AllReached codec
  executions : result.2.executions ≤ p.executions + n
  replied : p.AllReached codec → ∀ reply, result.1 = .ok reply →
    ∃ c, result.2.client = some c ∧ c.delivered[reply.index]? = some req ∧
      c.delivered.length = reply.index + 1

/-- Connecting delivers no request. -/
theorem ensureConnected_ok {a : Attempt} (h : p.ensureConnected a = .ok c) :
    (p.AllReached codec → AllReached codec ⟨some c, p.past⟩) ∧
      executions ⟨some c, p.past⟩ = p.executions := by
  obtain ⟨client, past⟩ := p
  cases client with
  | some c₀ =>
    obtain rfl : c₀ = c := by simpa [ensureConnected] using h
    exact ⟨id, rfl⟩
  | none =>
    unfold ensureConnected at h
    cases hConnect : a.connect with
    | failed e => simp [hConnect] at h
    | cancelled => simp [hConnect] at h
    | connected capabilities =>
      obtain rfl : Conn.handshake capabilities = c := by simpa [hConnect] using h
      refine ⟨fun hp => allReached_some.mpr ⟨.handshake capabilities, allReached_none.mp hp⟩, ?_⟩
      rw [executions_some]
      simp [Conn.handshake]

/-- The connection carried on by an attempt, whether it is kept or given up. -/
theorem AttemptSpec.kept {c' : Conn} {r : RoundTrip} (h : AttemptSpec codec req c c' r)
    (hc : AllReached codec ⟨some c, past⟩) :
    AllReached codec ⟨some c', past⟩ ∧ AllReached codec ⟨none, c' :: past⟩ := by
  obtain ⟨hReached, hPast⟩ := allReached_some.mp hc
  refine ⟨allReached_some.mpr ⟨h.reached hReached, hPast⟩, allReached_none.mpr ?_⟩
  intro d hd
  rcases List.mem_cons.mp hd with rfl | hd
  · exact h.reached hReached
  · exact hPast d hd

/-- What the attempts leave on their connections and make the daemon run. -/
theorem retry_spec (a : Attempt) (p : ClientProxy) :
    CallSpec codec req 1 p (retry codec req a p) := by
  unfold retry
  cases hConnect : p.ensureConnected a with
  | error e | cancelled => exact ⟨id, Nat.le_succ _, nofun⟩
  | ok c =>
    obtain ⟨hConnected, hExecutions⟩ :
        (p.AllReached codec → AllReached codec ⟨some c, p.past⟩) ∧ _ := ensureConnected_ok hConnect
    have hAttempt := attemptCall_spec codec req a c
    dsimp only
    generalize attemptCall codec req a c = attempted at hAttempt
    obtain ⟨r, c'⟩ := attempted
    have hKept := fun h => AttemptSpec.kept hAttempt (hConnected h)
    have hCount : executions ⟨some c', p.past⟩ ≤ p.executions + 1 := by
      have := hAttempt.delivered
      rw [← hExecutions, executions_some, executions_some]
      dsimp only at this
      omega
    cases r with
    | replied reply =>
      refine ⟨fun h => (hKept h).1, hCount, fun h reply' hr => ?_⟩
      obtain rfl : reply = reply' := by simpa using hr
      exact ⟨c', rfl, hAttempt.replied (allReached_some.mp (hConnected h)).1 reply rfl⟩
    | cancelled =>
      exact ⟨fun h => (hKept h).1, hCount, nofun⟩
    | failed f =>
      dsimp only
      split
      · exact ⟨fun h => (hKept h).1, hCount, nofun⟩
      · exact ⟨fun h => (hKept h).2, executions_past.trans_le hCount, nofun⟩

/-- What a call leaves on its connections and makes the daemon run. -/
theorem call_spec (first second : Attempt) (p : ClientProxy) :
    CallSpec codec req (if retrySafeAfterSend req then 2 else 1) p
      (call codec req first second p) := by
  have hOne : 1 ≤ if retrySafeAfterSend req then 2 else 1 := by split <;> omega
  unfold call
  cases hConnect : p.ensureConnected first with
  | error e | cancelled => exact ⟨id, Nat.le_add_right _ _, nofun⟩
  | ok c =>
    obtain ⟨hConnected, hExecutions⟩ :
        (p.AllReached codec → AllReached codec ⟨some c, p.past⟩) ∧ _ := ensureConnected_ok hConnect
    dsimp only
    by_cases hAnchors : (requestUsesAnchors req && !c.capabilities.anchors) = true
    · rw [if_pos hAnchors]
      exact ⟨hConnected, hExecutions.le.trans (Nat.le_add_right _ _), nofun⟩
    rw [if_neg hAnchors]
    have hAttempt := attemptCall_spec codec req first c
    generalize attemptCall codec req first c = attempted at hAttempt
    obtain ⟨r, c'⟩ := attempted
    have hKept := fun h => AttemptSpec.kept hAttempt (hConnected h)
    have hDelivered : executions ⟨some c', p.past⟩ + c.delivered.length =
        p.executions + c'.delivered.length := by
      rw [← hExecutions, executions_some, executions_some]
      omega
    have hCount : executions ⟨some c', p.past⟩ ≤
        p.executions + if retrySafeAfterSend req then 2 else 1 := by
      have := hAttempt.delivered
      dsimp only at this
      omega
    cases r with
    | replied reply =>
      refine ⟨fun h => (hKept h).1, hCount, fun h reply' hr => ?_⟩
      obtain rfl : reply = reply' := by simpa using hr
      exact ⟨c', rfl, hAttempt.replied (allReached_some.mp (hConnected h)).1 reply rfl⟩
    | cancelled =>
      exact ⟨fun h => (hKept h).1, hCount, nofun⟩
    | failed f =>
      dsimp only
      by_cases hLocal : f.isLocalRejection = true
      · rw [if_pos hLocal]
        exact ⟨fun h => (hKept h).1, hCount, nofun⟩
      rw [if_neg hLocal]
      have hRetry : CallSpec codec req 1 ⟨none, c' :: p.past⟩
          (retry codec req second ⟨none, c' :: p.past⟩) := retry_spec second _
      cases f with
      | send e =>
        -- the write failed, so the retry is the only delivery
        have hUnsent := hAttempt.unsent e rfl
        dsimp only at hUnsent
        refine ⟨fun h => hRetry.reached (hKept h).2, ?_, fun h => hRetry.replied (hKept h).2⟩
        have hBound := hRetry.executions
        rw [executions_past] at hBound
        simp only [if_true]
        omega
      | recv e =>
        cases hSafe : retrySafeAfterSend req with
        | false =>
          refine ⟨fun h => (hKept h).2, ?_, nofun⟩
          rw [hSafe] at hCount
          exact executions_past.trans_le hCount
        | true =>
          refine ⟨fun h => hRetry.reached (hKept h).2, ?_, fun h => hRetry.replied (hKept h).2⟩
          have hBound := hRetry.executions
          have hFirst := hAttempt.delivered
          rw [executions_past] at hBound
          dsimp only at hFirst
          simp only [if_true]
          omega

/-- A call with the way its awaits end. -/
structure Call where
  req : Request
  first : Attempt
  second : Attempt

/-- A call is made and ends in some way. -/
def step (codec : Codec) (p : ClientProxy) (k : Call) : ClientProxy :=
  (call codec k.req k.first k.second p).2

/-- Every connection was driven by operations only, a call that returns a reply returns
the daemon's to its own request, and one whose request is not safe to send again delivers
at most one. -/
structure Faithful (codec : Codec) (p : ClientProxy) : Prop where
  orderly : p.AllReached codec
  pairs : ∀ k reply, (call codec k.req k.first k.second p).1 = .ok reply →
    ∃ c, (p.step codec k).client = some c ∧ c.delivered[reply.index]? = some k.req ∧
      c.delivered.length = reply.index + 1
  once : ∀ k, retrySafeAfterSend k.req = false → (p.step codec k).executions ≤ p.executions + 1

theorem AllReached.faithful (h : p.AllReached codec) : p.Faithful codec where
  orderly := h
  pairs k reply hOk := (call_spec k.first k.second p).replied h reply hOk
  once k hUnsafe := by
    have hBound : (p.step codec k).executions ≤
        p.executions + if retrySafeAfterSend k.req then 2 else 1 :=
      (call_spec k.first k.second p).executions
    rw [hUnsafe] at hBound
    exact hBound

end ClientProxy

open Machine

/-- On every connection, whatever operations run on it and however their awaits end, and
for every sequence of calls of a proxy, requests and responses stay paired, a connection
with an open exchange is not written to again, and a call that changes something runs at
most once. -/
theorem exchanges_stay_paired (codec : Codec) :
    (∀ (capabilities : Capabilities) (ops : List Conn.Op),
      ∀ c ∈ states (Conn.step codec) (.handshake capabilities) ops, c.Paired codec) ∧
    ∀ (c : Conn), Reached codec c → ∀ calls : List ClientProxy.Call,
      ∀ p ∈ states (ClientProxy.step codec) ⟨some c, []⟩ calls, p.Faithful codec := by
  constructor
  · intro capabilities ops c hc
    have hInv : ∀ c ∈ states (Conn.step codec) (.handshake capabilities) ops, c.Inv :=
      invariant_always (fun _ o h => Conn.inv_step h o) (Conn.inv_handshake capabilities)
    exact (hInv c hc).paired codec
  · intro c hc calls p hp
    have hStart : ClientProxy.AllReached codec ⟨some c, []⟩ :=
      ClientProxy.allReached_some.mpr ⟨hc, by simp⟩
    have hAll : ∀ p ∈ states (ClientProxy.step codec) ⟨some c, []⟩ calls, p.AllReached codec :=
      invariant_always (fun p k h => (ClientProxy.call_spec k.first k.second p).reached h) hStart
    exact (hAll p hp).faithful

/-- A deletion whose first write fails is sent again over a new connection, once. -/
theorem exchanges_stay_paired_retry :
    let codec : Codec := ⟨fun _ => .ok 10, 100⟩
    let p : ClientProxy := ⟨some (.handshake ⟨true, true, true⟩), []⟩
    let k : ClientProxy.Call :=
      ⟨.delete ⟨1⟩, ⟨.cancelled, .failed "closed", .cancelled⟩,
        ⟨.connected ⟨true, true, true⟩, .sent, .read .other⟩⟩
    (ClientProxy.call codec k.req k.first k.second p).1 = .ok ⟨.other, 0⟩ ∧
      (p.step codec k).executions = 1 ∧ p.Faithful codec ∧ (p.step codec k).Faithful codec := by
  intro codec p k
  have hRun := (exchanges_stay_paired codec).2 (.handshake ⟨true, true, true⟩) (.handshake _) [k]
  exact ⟨by decide, by decide, hRun p (by simp [states, p]), hRun _ (by simp [states, p])⟩

end RustyBrain.Mcp
