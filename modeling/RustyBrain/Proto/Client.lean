import RustyBrain.Lib.Machine
import RustyBrain.Proto.Messages

/-!
# rusty-brain — one client connection

`Client`: one request is sent, one response is read. Both may fail, and their futures may
be dropped at the await; a connection on which an exchange did not complete is poisoned.
The model follows a connection with what went over the wire: the requests whose write was
begun, those that reached the daemon as whole frames, and the responses read.

The daemon answers each request once and in order, so the response read after `n` others
is the reply to the `n`-th whole request. A write that returns an error delivered no whole
frame; one that is cancelled may have.
-/

namespace RustyBrain.Proto

open Machine

/-- The errors of a client's own, and those it makes of the daemon's error response. -/
inductive ClientError where
  | io (message : String)
  | serialization (message : String)
  | invalidArgument (message : String)
  | storage (message : String)
  | daemon (kind message : String)
  deriving DecidableEq

/-- `ConnectionState`. -/
inductive ConnectionState where
  | idle
  | awaitingResponse (subscribe : Bool)
  | streaming
  | poisoned
  deriving DecidableEq

/-- What the daemon advertised at the handshake. -/
structure Capabilities where
  anchors : Bool
  humanCuration : Bool
  legacyQuarantine : Bool
  deriving DecidableEq

/-- The length of a request's frame, or why it cannot be written, and the codec's limit. -/
structure Codec where
  encode : Request → Except String Nat
  maxFrameLength : Nat

/-- The responses a client tells apart. -/
inductive ResponseKind where
  | subscribeAck
  | error (kind message : String)
  | change
  | lagged
  | other
  deriving DecidableEq

/-- A response: its kind, and the place of the request it replies to. -/
structure Reply where
  kind : ResponseKind
  index : Nat
  deriving DecidableEq

/-- A connection after its handshake, and what went over it. -/
structure Conn where
  capabilities : Capabilities
  state : ConnectionState
  /-- The requests whose write was begun, in order. -/
  written : List Request
  /-- The requests that reached the daemon as whole frames, in order. -/
  delivered : List Request
  /-- The exchanges whose response was read. -/
  completed : Nat

/-- `Client::handshake` succeeded. -/
def Conn.handshake (capabilities : Capabilities) : Conn where
  capabilities := capabilities
  state := .idle
  written := []
  delivered := []
  completed := 0

/-- How the await of a write ends. -/
inductive SendOutcome where
  | sent
  | failed (message : String)
  | cancelled (delivered : Bool)
  deriving DecidableEq

/-- How the await of a read ends. -/
inductive ReadOutcome where
  | read (kind : ResponseKind)
  | failed (e : ClientError)
  | cancelled
  deriving DecidableEq

/-- How an operation ends: with a value, with an error, or dropped. -/
inductive Outcome (α : Type) where
  | ok (value : α)
  | error (e : ClientError)
  | cancelled
  deriving DecidableEq

namespace Conn

/-- The checks before anything is written. -/
def checkRequest (codec : Codec) (req : Request) (c : Conn) : Option ClientError :=
  if c.state ≠ .idle then
    some (.io "connection has an unfinished request, is streaming, or is broken")
  else if requestUsesLegacyQuarantine req && !c.capabilities.legacyQuarantine then
    some (.invalidArgument "daemon does not advertise legacy quarantine support")
  else if requestUsesHumanCuration req && !c.capabilities.humanCuration then
    some (.invalidArgument "daemon does not advertise human curation support")
  else
    match codec.encode req with
    | .error message => some (.serialization message)
    | .ok length =>
      if length > codec.maxFrameLength then
        some (.invalidArgument "request exceeds the maximum frame size")
      else none

def isSubscribe : Request → Bool
  | .subscribe _ => true
  | _ => false

/-- `send_request`. The connection is poisoned before the write and usable again only
after a whole one. -/
def sendRequest (codec : Codec) (req : Request) (outcome : SendOutcome) (c : Conn) :
    Outcome Unit × Conn :=
  match c.checkRequest codec req with
  | some e => (.error e, c)
  | none =>
    let c := { c with state := .poisoned, written := c.written ++ [req] }
    match outcome with
    | .sent =>
      (.ok (), { c with
        state := .awaitingResponse (isSubscribe req)
        delivered := c.delivered ++ [req] })
    | .failed message => (.error (.io message), c)
    | .cancelled delivered =>
      (.cancelled, if delivered then { c with delivered := c.delivered ++ [req] } else c)

/-- The state after a response. -/
def afterResponse (subscribe : Bool) (kind : ResponseKind) : ConnectionState :=
  if subscribe then
    match kind with
    | .subscribeAck => .streaming
    | .error _ _ => .idle
    | _ => .poisoned
  else .idle

/-- `recv_response`. -/
def recvResponse (outcome : ReadOutcome) (c : Conn) : Outcome Reply × Conn :=
  match c.state with
  | .awaitingResponse subscribe =>
    let c := { c with state := .poisoned }
    match outcome with
    | .read kind =>
      (.ok ⟨kind, c.completed⟩, { c with
        state := afterResponse subscribe kind
        completed := c.completed + 1 })
    | .failed e => (.error e, c)
    | .cancelled => (.cancelled, c)
  | _ => (.error (.io "connection has no readable pending response or is broken"), c)

/-- `recv_change`: a dropped read is resumed, an error on the stream ends it. -/
def recvChange (outcome : ReadOutcome) (c : Conn) : Outcome ResponseKind × Conn :=
  match c.state with
  | .streaming =>
    match outcome with
    | .read .change => (.ok .change, c)
    | .read .lagged => (.ok .lagged, c)
    | .read (.error kind message) => (.error (.daemon kind message), c)
    | .read _ =>
      (.error (.storage "unexpected frame on subscribe stream"), { c with state := .poisoned })
    | .failed e => (.error e, { c with state := .poisoned })
    | .cancelled => (.cancelled, c)
  | _ => (.error (.io "connection is not a readable subscribe stream"), c)

/-- An operation on the connection with the way its await ends. -/
inductive Op where
  | send (req : Request) (outcome : SendOutcome)
  | recv (outcome : ReadOutcome)
  | change (outcome : ReadOutcome)

def step (codec : Codec) (c : Conn) : Op → Conn
  | .send req outcome => (c.sendRequest codec req outcome).2
  | .recv outcome => (c.recvResponse outcome).2
  | .change outcome => (c.recvChange outcome).2

/-! ## Exchanges -/

/-- What a connection's state says about its exchanges. -/
structure Inv (c : Conn) : Prop where
  idle : c.state = .idle → c.written.length = c.completed ∧ c.delivered.length = c.completed
  awaiting : ∀ subscribe, c.state = .awaitingResponse subscribe →
    c.written.length = c.completed + 1 ∧ c.delivered.length = c.completed + 1 ∧
      c.delivered.getLast? = c.written.getLast?

/-- A new connection has no exchange open. -/
theorem inv_handshake (capabilities : Capabilities) : (handshake capabilities).Inv where
  idle _ := ⟨rfl, rfl⟩
  awaiting _ h := nomatch h

variable {c : Conn}

/-- A request passes the checks on an idle connection only. -/
theorem idle_of_checkRequest {codec : Codec} {req : Request}
    (h : c.checkRequest codec req = none) : c.state = .idle := by
  unfold checkRequest at h
  split at h
  · simp at h
  · next hState => exact not_not.mp hState

/-- The ways `send_request` ends: rejected before the write, or with a write begun on an
idle connection. -/
inductive SendStep (req : Request) (c : Conn) : Outcome Unit → Conn → Prop
  | rejected (e : ClientError) : SendStep req c (.error e) c
  | sent (hIdle : c.state = .idle) :
      SendStep req c (.ok ()) { c with
        state := .awaitingResponse (isSubscribe req)
        written := c.written ++ [req]
        delivered := c.delivered ++ [req] }
  | failed (hIdle : c.state = .idle) (e : ClientError) :
      SendStep req c (.error e) { c with state := .poisoned, written := c.written ++ [req] }
  | dropped (hIdle : c.state = .idle) :
      SendStep req c .cancelled { c with state := .poisoned, written := c.written ++ [req] }
  | droppedLate (hIdle : c.state = .idle) :
      SendStep req c .cancelled { c with
        state := .poisoned
        written := c.written ++ [req]
        delivered := c.delivered ++ [req] }

/-- What sending does to the connection, case by case. -/
theorem sendRequest_step (codec : Codec) (req : Request) (outcome : SendOutcome) (c : Conn) :
    SendStep req c (c.sendRequest codec req outcome).1 (c.sendRequest codec req outcome).2 := by
  unfold sendRequest
  cases hCheck : c.checkRequest codec req with
  | some e => exact .rejected e
  | none =>
    have hIdle : c.state = .idle := idle_of_checkRequest hCheck
    cases outcome with
    | sent => exact .sent hIdle
    | failed message => exact .failed hIdle (.io message)
    | cancelled delivered =>
      cases delivered
      · exact .dropped hIdle
      · exact .droppedLate hIdle

/-- The ways `recv_response` ends: refused, with the reply to the open exchange, or with
the connection poisoned. -/
inductive RecvStep (c : Conn) : Outcome Reply → Conn → Prop
  | refused (e : ClientError) : RecvStep c (.error e) c
  | read (subscribe : Bool) (hAwaiting : c.state = .awaitingResponse subscribe)
      (kind : ResponseKind) :
      RecvStep c (.ok ⟨kind, c.completed⟩) { c with
        state := afterResponse subscribe kind
        completed := c.completed + 1 }
  | failed (e : ClientError) : RecvStep c (.error e) { c with state := .poisoned }
  | dropped : RecvStep c .cancelled { c with state := .poisoned }

/-- What a read does to the connection, case by case. -/
theorem recvResponse_step (outcome : ReadOutcome) (c : Conn) :
    RecvStep c (c.recvResponse outcome).1 (c.recvResponse outcome).2 := by
  unfold recvResponse
  split
  · next subscribe hAwaiting =>
    cases outcome with
    | read kind => exact .read subscribe hAwaiting kind
    | failed e => exact .failed e
    | cancelled => exact .dropped
  · exact .refused _

/-- A poisoned connection promises nothing. -/
theorem Inv.of_poisoned (h : c.state = .poisoned) : c.Inv where
  idle hIdle := by simp [h] at hIdle
  awaiting _ hAwaiting := by simp [h] at hAwaiting

/-- Sending opens one exchange, or poisons the connection. -/
theorem Inv.send {req : Request} {c c' : Conn} {r : Outcome Unit} (h : c.Inv)
    (hStep : SendStep req c r c') : c'.Inv := by
  cases hStep with
  | rejected e => exact h
  | sent hIdle =>
    obtain ⟨hWritten, hDelivered⟩ := h.idle hIdle
    refine ⟨nofun, fun subscribe _ => ?_⟩
    simp [hWritten, hDelivered]
  | failed _ _ | dropped _ | droppedLate _ => exact .of_poisoned rfl

/-- No response leaves the connection waiting for another. -/
theorem afterResponse_ne_awaiting {subscribe : Bool} {kind : ResponseKind} {b : Bool} :
    afterResponse subscribe kind ≠ .awaitingResponse b := by
  unfold afterResponse
  cases subscribe <;> cases kind <;> simp

/-- A response closes the exchange it belongs to, or poisons the connection. -/
theorem Inv.recv {c c' : Conn} {r : Outcome Reply} (h : c.Inv) (hStep : RecvStep c r c') :
    c'.Inv := by
  cases hStep with
  | refused e => exact h
  | read subscribe hAwaiting kind =>
    obtain ⟨hWritten, hDelivered, -⟩ := h.awaiting subscribe hAwaiting
    exact ⟨fun _ => ⟨hWritten, hDelivered⟩, fun _ hState => absurd hState afterResponse_ne_awaiting⟩
  | failed e | dropped => exact .of_poisoned rfl

/-- Reading a change opens and closes no exchange. -/
theorem Inv.change (h : c.Inv) (outcome : ReadOutcome) :
    (c.recvChange outcome).2.Inv := by
  unfold recvChange
  split
  · split <;> first | exact h | exact .of_poisoned rfl
  · exact h

/-- Every operation keeps the invariant, whatever its outcome. -/
theorem inv_step {codec : Codec} (h : c.Inv) (o : Op) : (c.step codec o).Inv := by
  cases o with
  | send req outcome => exact h.send (sendRequest_step codec req outcome c)
  | recv outcome => exact h.recv (recvResponse_step outcome c)
  | change outcome => exact h.change outcome

/-- A response that is read is the daemon's reply to the request last sent, and a request
is written only when every exchange before it has completed. -/
structure Paired (codec : Codec) (c : Conn) : Prop where
  pairs : ∀ outcome reply, (c.recvResponse outcome).1 = .ok reply →
    ∃ req, c.written.getLast? = some req ∧ c.delivered[reply.index]? = some req
  silent : ∀ req outcome, (c.sendRequest codec req outcome).2.written ≠ c.written →
    c.completed = c.written.length

/-- The invariant is all that pairing rests on. -/
theorem Inv.paired (h : c.Inv) (codec : Codec) : c.Paired codec where
  pairs outcome reply hOk := by
    have hStep := recvResponse_step outcome c
    rw [hOk] at hStep
    generalize (c.recvResponse outcome).2 = c' at hStep
    cases hStep with
    | read subscribe hAwaiting kind =>
      obtain ⟨hWritten, hDelivered, hLast⟩ := h.awaiting subscribe hAwaiting
      have hSome : c.delivered.getLast?.isSome := by
        rw [List.getLast?_isSome]
        rintro hNil
        simp [hNil] at hDelivered
      obtain ⟨req, hReq⟩ := Option.isSome_iff_exists.mp hSome
      refine ⟨req, hLast ▸ hReq, ?_⟩
      rw [List.getLast?_eq_getElem?, hDelivered] at hReq
      simpa using hReq
  silent req outcome hWrote := by
    have hStep := sendRequest_step codec req outcome c
    generalize (c.sendRequest codec req outcome).1 = r at hStep
    generalize hc' : (c.sendRequest codec req outcome).2 = c' at hStep hWrote
    cases hStep with
    | rejected e => exact absurd rfl hWrote
    | sent hIdle | failed hIdle _ | dropped hIdle | droppedLate hIdle => exact (h.idle hIdle).1.symm

end Conn

end RustyBrain.Proto
