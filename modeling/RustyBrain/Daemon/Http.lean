import RustyBrain.Engine.Context
import RustyBrain.Install.Config
import RustyBrain.Proto.Messages

/-!
# rusty-brain — the gates of the HTTP listener

`process_request`: every HTTP request passes the Host gate, the Origin gate and the
namespace gate, is routed to a wire request, and only then dispatched, as a peer without
a verified credential. The module has the gates as the listener computes them, over
requests with any headers, repeated or unreadable ones included.

What reads a text or a body is not the listener's own and stands as a parameter
(`Parsers`): the address parsers of the standard library, JSON, and the decoding of a
wire request.
-/

namespace RustyBrain.Daemon.Http

open Engine Proto
open Install (Json)
open Transaction (except_bind_ok)

/-! ## Requests and responses -/

inductive Method where
  | get
  | post
  | other (name : String)
  deriving DecidableEq

/-- The bytes of a header field's value. -/
abbrev HeaderValue : Type := List UInt8

/-- `HeaderValue::to_str`: visible ASCII and tabs only. -/
def toStr (v : HeaderValue) : Option Text :=
  if v.all fun b => (32 ≤ b && b < 127) || b = 9 then
    some (v.map fun b => Char.ofNat b.toNat)
  else none

/-- A request: the authority of its target, if that has one, its header fields in order
under lower-case names, and its body, unless that is over the frame bound or breaks off. -/
structure HttpRequest where
  method : Method
  path : Text
  authority : Option Text
  headers : List (String × HeaderValue)
  body : Option (List UInt8)

/-- `get_all`. -/
def HttpRequest.values (req : HttpRequest) (name : String) : List HeaderValue :=
  (req.headers.filter fun h => h.1 = name).map Prod.snd

/-- `header_str`: the first field of the name, if it can be read. -/
def HttpRequest.headerStr (req : HttpRequest) (name : String) : Option Text :=
  (req.values name).head?.bind toStr

/-- A refusal. -/
structure HttpError where
  status : Nat
  kind : String
  message : String
  allow : Option Method := none
  deriving DecidableEq

/-- A request that is not well formed. -/
def badRequest (message : String) : HttpError where
  status := 400
  kind := "invalid_argument"
  message := message

structure Parsers where
  /-- The text is an IPv6 address, and that is the loopback address. -/
  ipv6Loopback : Text → Bool
  /-- The text is an IP address, and that is a loopback address. -/
  ipLoopback : Text → Bool
  /-- The digits of an address are read in either case. -/
  ipv6Loopback_lower : ∀ t, ipv6Loopback (t.map Char.toLower) = ipv6Loopback t
  ipLoopback_lower : ∀ t, ipLoopback (t.map Char.toLower) = ipLoopback t
  memoryId : Text → Option MemoryId
  json : List UInt8 → Except String Json
  request : Json → Except String Request

/-! ## Hosts and origins -/

/-- `split_once` on a character: the text before and after the first one. -/
def splitOnce (sep : Char) : Text → Option (Text × Text)
  | [] => none
  | c :: rest =>
    if c = sep then some ([], rest) else (splitOnce sep rest).map fun p => (c :: p.1, p.2)

/-- `rsplit_once` on a character. -/
def rsplitOnce (sep : Char) (t : Text) : Option (Text × Text) :=
  (splitOnce sep t.reverse).map fun p => (p.2.reverse, p.1.reverse)

/-- `split_once("://")`. -/
def splitScheme : Text → Option (Text × Text)
  | ':' :: '/' :: '/' :: rest => some ([], rest)
  | c :: rest => (splitScheme rest).map fun p => (c :: p.1, p.2)
  | [] => none

/-- A non-empty run of ASCII digits. -/
def isPort (t : Text) : Bool :=
  !t.isEmpty && t.all Char.isDigit

/-- `is_port_suffix`. -/
def isPortSuffix : Text → Bool
  | ':' :: port => isPort port
  | _ => false

def localhost : Text := ['l', 'o', 'c', 'a', 'l', 'h', 'o', 's', 't']

/-- A name without brackets or port. -/
def bareIsLoopback (ps : Parsers) (bare : Text) : Bool :=
  eqIgnoreAsciiCase bare localhost || ps.ipLoopback bare

/-- A bracketed IPv6 literal, after its opening bracket. -/
def literalIsLoopback (ps : Parsers) (rest : Text) : Bool :=
  match splitOnce ']' rest with
  | none => false
  | some (addr, after) => (after.isEmpty || isPortSuffix after) && ps.ipv6Loopback addr

/-- A host without brackets: its only colon may be the one before a port. -/
def plainIsLoopback (ps : Parsers) (host : Text) : Bool :=
  match rsplitOnce ':' host with
  | some (bare, port) => isPort port && bareIsLoopback ps bare
  | none => bareIsLoopback ps host

/-- `host_is_loopback`. -/
def hostIsLoopback (ps : Parsers) (host : Text) : Bool :=
  match trim host with
  | '[' :: rest => literalIsLoopback ps rest
  | host => plainIsLoopback ps host

/-- `origin_is_loopback`. -/
def originIsLoopback (ps : Parsers) (origin : Text) : Bool :=
  match splitScheme (trim origin) with
  | none => false
  | some (_, rest) =>
    let host := rest.takeWhile (· ≠ '/')
    !host.isEmpty && hostIsLoopback ps host

/-! ## The gates -/

/-- The Host field, of which there may be one. -/
def hostHeader (req : HttpRequest) : Except HttpError (Option Text) :=
  match req.values "host" with
  | [] => .ok none
  | [value] =>
    match toStr value with
    | some v => .ok (some v)
    | none => .error (badRequest "malformed Host header")
  | _ :: _ :: _ =>
    .error (badRequest "multiple Host headers are not allowed")

/-- What the request is addressed to: an authority in the target and a Host field must
agree. -/
def requestAuthority (req : HttpRequest) : Except HttpError (Option Text) :=
  match hostHeader req with
  | .error e => .error e
  | .ok host =>
    match req.authority, host with
    | some authority, some host =>
      if eqIgnoreAsciiCase authority host then .ok (some authority)
      else .error (badRequest "request-line authority and Host header disagree")
    | some authority, none => .ok (some authority)
    | none, host => .ok host

/-- The Host gate: one authority, and a loopback one. -/
def hostGate (ps : Parsers) (req : HttpRequest) : Except HttpError Unit :=
  match requestAuthority req with
  | .error e => .error e
  | .ok none =>
    .error (badRequest "missing Host header")
  | .ok (some host) =>
    if hostIsLoopback ps host then .ok ()
    else .error
      { status := 403, kind := "permission_denied",
        message := "Host must be a loopback literal (127.0.0.1, [::1], or localhost)" }

/-- The Origin gate. -/
def originGate (ps : Parsers) (req : HttpRequest) : Except HttpError Unit :=
  match req.headerStr "origin" with
  | some origin =>
    if originIsLoopback ps origin then .ok ()
    else .error
      { status := 403, kind := "permission_denied",
        message := "cross-origin requests are not allowed" }
  | none => .ok ()

/-- `validate_namespace`: the stored text of the namespace reads back as it. -/
def validateNamespace (ns : Namespace) : Except Error Namespace :=
  match Namespace.parseDbString ns.asDbString with
  | none => .error (.invalidNamespace ns.asDbString)
  | some parsed => if parsed = ns then .ok ns else .error (.invalidNamespace ns.asDbString)

/-- The namespace gate. -/
def namespaceGate (req : HttpRequest) : Except HttpError Namespace :=
  match req.headerStr "x-rusty-brain-namespace" with
  | none =>
    .error (badRequest ("missing x-rusty-brain-namespace header: it is required on " ++
          "every route (e.g. `global` or `project:name`) and, as a " ++
          "custom header, keeps browser no-cors requests out"))
  | some raw =>
    let parsed : Except Error Namespace :=
      match Namespace.parseDbString raw with
      | none => .error (.invalidNamespace raw)
      | some ns => validateNamespace ns
    match parsed with
    | .ok ns => .ok ns
    | .error e =>
      .error { status := 400, kind := "invalid_namespace", message := e.display }

/-! ## Routing -/

/-- Which wire operation a body decodes into. -/
inductive BodyKind where
  | ops
  | tagged (tag : String)

inductive Routed where
  | op (request : Request)
  | body (kind : BodyKind)

def methodNotAllowed (allowed : Method) : HttpError :=
  { status := 405, kind := "invalid_argument", message := "method not allowed for this path",
    allow := some allowed }

def someGet (method : Method) (request : Request) : Except HttpError Routed :=
  if method = .get then .ok (.op request) else .error (methodNotAllowed .get)

def somePost (method : Method) (kind : BodyKind) : Except HttpError Routed :=
  if method = .post then .ok (.body kind) else .error (methodNotAllowed .post)

/-- `route`: every path has one method. -/
def route (ps : Parsers) (req : HttpRequest) : Except HttpError Routed :=
  match String.ofList req.path with
  | "/ping" => someGet req.method .ping
  | "/context" => someGet req.method .context
  | "/recall" => somePost req.method (.tagged "Recall")
  | "/remember" => somePost req.method (.tagged "Remember")
  | "/feedback" => somePost req.method (.tagged "Feedback")
  | "/ops" => somePost req.method .ops
  | _ =>
    match List.isPrefixOf? "/memories/".toList req.path with
    | none => .error { status := 404, kind := "not_found", message := "unknown path" }
    | some idPart =>
      if req.method ≠ .get then .error (methodNotAllowed .get)
      else
        match ps.memoryId idPart with
        | some id => .ok (.op (.get id))
        | none =>
          .error (badRequest "invalid memory id")

/-- `MAX_FRAME_BYTES`. -/
def MAX_FRAME_BYTES : Nat := 1024 * 1024

def payloadTooLarge : HttpError :=
  { status := 413, kind := "invalid_argument",
    message := s!"request body exceeds {MAX_FRAME_BYTES} bytes" }

/-- `read_json_body`. -/
def readJsonBody (ps : Parsers) (req : HttpRequest) : Except HttpError Json :=
  let isJson := match req.headerStr "content-type" with
    | some ct =>
      eqIgnoreAsciiCase (trim (ct.takeWhile (· ≠ ';'))) "application/json".toList
    | none => false
  let declared := (req.headerStr "content-length").bind fun v => parseU64 (trim v)
  if !isJson then
    .error
      { status := 415, kind := "invalid_argument",
        message := "Content-Type must be application/json" }
  else if declared.any (MAX_FRAME_BYTES < ·) then .error payloadTooLarge
  else
    match req.body with
    | none => .error payloadTooLarge
    | some bytes =>
      match ps.json bytes with
      | .ok value => .ok value
      | .error e =>
        .error (badRequest ("malformed JSON body: " ++ e))

/-- `decode_op`: the tag of a shortcut endpoint replaces one in the body. -/
def decodeOp (ps : Parsers) (kind : BodyKind) (value : Json) : Except HttpError Request :=
  let tagged : Except HttpError Json := match kind, value with
    | .ops, value => .ok value
    | .tagged tag, .obj members => .ok (.obj (SortedMap.insert "op" (.str tag) members))
    | .tagged _, _ =>
      .error (badRequest "request body must be a JSON object")
  match tagged with
  | .error e => .error e
  | .ok tagged =>
    match ps.request tagged with
    | .ok op => .ok op
    | .error e =>
      .error (badRequest ("invalid request: " ++ e))

/-- The wire request of an HTTP request. -/
def wireRequest (ps : Parsers) (req : HttpRequest) : Except HttpError Request :=
  match route ps req with
  | .error e => .error e
  | .ok (.op request) => .ok request
  | .ok (.body kind) =>
    match readJsonBody ps req with
    | .error e => .error e
    | .ok value => decodeOp ps kind value

/-! ## Dispatch -/

/-- `process_request` up to dispatch: the namespace and the request it is called with. -/
def processRequest (ps : Parsers) (req : HttpRequest) : Except HttpError (Namespace × Request) := do
  hostGate ps req
  originGate ps req
  let ns ← namespaceGate req
  match ← wireRequest ps req with
  | .subscribe _ =>
    .error (badRequest "Subscribe is not supported over HTTP; use the UDS client")
  | op => .ok (ns, op)

/-- The identity of a peer that the kernel vouches for. -/
structure PeerIdentity where
  uid : Option Nat

/-- Every HTTP connection's identity. -/
def PeerIdentity.untrusted : PeerIdentity := ⟨none⟩

def PeerIdentity.isAdmin (processEuid : Nat) (peer : PeerIdentity) : Bool :=
  peer.uid.any (· = processEuid)

/-- How `dispatch` begins: what it goes on to execute, if anything. -/
def authorize (processEuid : Nat) (peer : PeerIdentity) (op : Request) : Result Request :=
  if isAdminOp op && !peer.isAdmin processEuid then
    .error (.permissionDenied ("this is an admin operation: it requires a kernel-verified peer " ++
      "uid matching the daemon's user"))
  else .ok op

/-! ## What the text checks accept -/

/-- A port after a host, or nothing. -/
def PortSuffix (t : Text) : Prop :=
  t = [] ∨ ∃ port, t = ':' :: port ∧ isPort port = true

/-- The text is, but for blanks around it, `localhost` or a loopback literal, with an
optional port. -/
def NamesLoopback (ps : Parsers) (host : Text) : Prop :=
  ∃ name port, trim host = name ++ port ∧ PortSuffix port ∧
    (eqIgnoreAsciiCase name localhost = true ∨ ps.ipLoopback name = true ∨
      ∃ addr, name = '[' :: addr ++ [']'] ∧ ps.ipv6Loopback addr = true)

/-- The text is `scheme://host` with a host that names the loopback, and perhaps a path. -/
def LoopbackOrigin (ps : Parsers) (origin : Text) : Prop :=
  ∃ scheme host path, trim origin = scheme ++ [':', '/', '/'] ++ host ++ path ∧
    (path = [] ∨ path.head? = some '/') ∧ '/' ∉ host ∧ host ≠ [] ∧ NamesLoopback ps host

variable {sep : Char}

/-- The parts and the separator are the text. -/
theorem splitOnce_some {t before after : Text}
    (h : splitOnce sep t = some (before, after)) : t = before ++ sep :: after := by
  induction t generalizing before with
  | nil => cases h
  | cons c rest ih =>
    simp only [splitOnce] at h
    split at h
    next hc =>
      cases h
      rw [hc, List.nil_append]
    next =>
      obtain ⟨⟨before', after'⟩, hSplit, hEq⟩ := Option.map_eq_some_iff.mp h
      cases hEq
      rw [ih hSplit, List.cons_append]

/-- So they are when it is split at the last separator. -/
theorem rsplitOnce_some {t before after : Text}
    (h : rsplitOnce sep t = some (before, after)) : t = before ++ sep :: after := by
  obtain ⟨⟨later, earlier⟩, hSplit, hEq⟩ := Option.map_eq_some_iff.mp h
  cases hEq
  have hRev := congrArg List.reverse (splitOnce_some hSplit)
  simpa using hRev

/-- What stands around the first `://`. -/
theorem splitScheme_some {t scheme rest : Text} (h : splitScheme t = some (scheme, rest)) :
    t = scheme ++ [':', '/', '/'] ++ rest := by
  fun_induction splitScheme t generalizing scheme with
  | case1 rest' =>
    cases h
    rfl
  | case2 c t _ ih =>
    obtain ⟨⟨scheme', rest'⟩, hSplit, hEq⟩ := Option.map_eq_some_iff.mp h
    cases hEq
    rw [ih hSplit]
    rfl
  | case3 => cases h

/-- What may follow a host name is nothing or a port. -/
theorem portSuffix_of_isPortSuffix {t : Text} (h : (t.isEmpty || isPortSuffix t) = true) :
    PortSuffix t := by
  match t, h with
  | [], _ => exact .inl rfl
  | c :: port, h =>
    right
    simp only [List.isEmpty_cons, Bool.false_or] at h
    unfold isPortSuffix at h
    split at h
    next p hEq =>
      cases hEq
      exact ⟨_, rfl, h⟩
    next => cases h

variable {ps : Parsers}

/-- A bare name is `localhost` or an address. -/
theorem bareIsLoopback_cases {bare : Text} (h : bareIsLoopback ps bare = true) :
    eqIgnoreAsciiCase bare localhost = true ∨ ps.ipLoopback bare = true :=
  (Bool.or_eq_true _ _).mp h

/-- What the host check accepts. -/
theorem hostIsLoopback_names {host : Text} (h : hostIsLoopback ps host = true) :
    NamesLoopback ps host := by
  unfold hostIsLoopback at h
  split at h
  next rest hHost =>
    unfold literalIsLoopback at h
    split at h
    next => cases h
    next addr after hSplit =>
      rw [Bool.and_eq_true] at h
      refine ⟨'[' :: addr ++ [']'], after, ?_, portSuffix_of_isPortSuffix h.1,
        .inr (.inr ⟨addr, rfl, h.2⟩)⟩
      rw [hHost, splitOnce_some hSplit]
      simp
  next =>
    unfold plainIsLoopback at h
    split at h
    next bare port hSplit =>
      rw [Bool.and_eq_true] at h
      have hBare := bareIsLoopback_cases h.2
      exact ⟨bare, ':' :: port, rsplitOnce_some hSplit, .inr ⟨port, rfl, h.1⟩,
        hBare.imp_right .inl⟩
    next =>
      have hBare := bareIsLoopback_cases h
      exact ⟨trim host, [], (List.append_nil _).symm, .inl rfl, hBare.imp_right .inl⟩

/-- What the origin check accepts. -/
theorem originIsLoopback_names {origin : Text} (h : originIsLoopback ps origin = true) :
    LoopbackOrigin ps origin := by
  unfold originIsLoopback at h
  split at h
  next => cases h
  next scheme rest hSplit =>
    simp only [Bool.and_eq_true, Bool.not_eq_true', List.isEmpty_eq_false_iff] at h
    refine ⟨scheme, rest.takeWhile (· ≠ '/'), rest.dropWhile (· ≠ '/'), ?_, ?_, ?_, h.1,
      hostIsLoopback_names h.2⟩
    · rw [splitScheme_some hSplit, List.append_assoc _ (rest.takeWhile _),
        List.takeWhile_append_dropWhile]
    · cases hPath : rest.dropWhile (· ≠ '/') with
      | nil => exact .inl rfl
      | cons c path =>
        right
        have hHead := List.head?_dropWhile_not (fun c : Char => decide (c ≠ '/')) rest
        rw [hPath] at hHead
        simpa using hHead
    · intro hMem
      have hNe := List.mem_takeWhile_imp hMem
      simp at hNe

/-! ## The host check does not see ASCII case -/

/-- Only the 26 capitals change, by 32. -/
theorem toLower_eq_or (c : Char) :
    c.toLower = c ∨ (65 ≤ c.toNat ∧ c.toNat ≤ 90 ∧ c.toLower.toNat = c.toNat + 32) := by
  by_cases hUpper : c.val ≥ 'A'.val ∧ c.val ≤ 'Z'.val
  · right
    have hLow : 65 ≤ c.val.toNat := hUpper.1
    have hHigh : c.val.toNat ≤ 90 := hUpper.2
    refine ⟨hLow, hHigh, ?_⟩
    unfold Char.toLower
    rw [dif_pos hUpper]
    show (c.val + ('a'.val - 'A'.val)).toNat = c.val.toNat + 32
    have hAdd : ('a'.val - 'A'.val : UInt32) = 32 := by decide
    rw [hAdd, UInt32.toNat_add]
    show (c.val.toNat + 32) % 2 ^ 32 = c.val.toNat + 32
    omega
  · left
    unfold Char.toLower
    rw [dif_neg hUpper]

/-- A character that is no letter comes from itself only. -/
theorem toLower_eq_iff (hSep : sep.toNat < 65 ∨ 90 < sep.toNat ∧ sep.toNat < 97)
    (c : Char) : c.toLower = sep ↔ c = sep := by
  rcases toLower_eq_or c with hEq | ⟨hLow, hHigh, hEq⟩
  · rw [hEq]
  · constructor
    · intro h
      rw [h] at hEq
      omega
    · intro h
      rw [h] at hLow hHigh
      omega

theorem isWhitespace_toLower (c : Char) : isWhitespace c.toLower = isWhitespace c := by
  rcases toLower_eq_or c with hEq | ⟨hLow, hHigh, hEq⟩
  · rw [hEq]
  · simp only [isWhitespace, hEq]
    rw [Bool.eq_iff_iff]
    simp only [Bool.or_eq_true, Bool.and_eq_true, decide_eq_true_eq, beq_iff_eq]
    omega

theorem isDigit_toLower (c : Char) : c.toLower.isDigit = c.isDigit := by
  have hDigit (c : Char) : c.isDigit = true ↔ 48 ≤ c.toNat ∧ c.toNat ≤ 57 := by
    simp only [Char.isDigit, Bool.and_eq_true, decide_eq_true_eq]
    exact Iff.rfl
  rcases toLower_eq_or c with hEq | ⟨hLow, hHigh, hEq⟩
  · rw [hEq]
  · rw [Bool.eq_iff_iff, hDigit, hDigit]
    omega

/-- Trimming does not see the case of letters. -/
theorem trim_lower (t : Text) : trim (t.map Char.toLower) = (trim t).map Char.toLower :=
  trim_map isWhitespace_toLower t

/-- Splitting at what is no letter does not see the case. -/
theorem splitOnce_lower
    (hSep : sep.toNat < 65 ∨ 90 < sep.toNat ∧ sep.toNat < 97) (t : Text) :
    splitOnce sep (t.map Char.toLower) =
      (splitOnce sep t).map (Prod.map (List.map Char.toLower) (List.map Char.toLower)) := by
  induction t with
  | nil => rfl
  | cons c rest ih =>
    rw [List.map_cons, splitOnce, splitOnce]
    by_cases hc : c = sep
    · rw [if_pos ((toLower_eq_iff hSep c).mpr hc), if_pos hc]
      rfl
    · rw [if_neg (fun h => hc ((toLower_eq_iff hSep c).mp h)), if_neg hc, ih]
      cases splitOnce sep rest <;> rfl

/-- Nor does splitting from the end. -/
theorem rsplitOnce_lower
    (hSep : sep.toNat < 65 ∨ 90 < sep.toNat ∧ sep.toNat < 97) (t : Text) :
    rsplitOnce sep (t.map Char.toLower) =
      (rsplitOnce sep t).map (Prod.map (List.map Char.toLower) (List.map Char.toLower)) := by
  unfold rsplitOnce
  rw [← List.map_reverse, splitOnce_lower hSep]
  cases splitOnce sep t.reverse with
  | none => rfl
  | some p => simp

theorem isPort_lower (t : Text) : isPort (t.map Char.toLower) = isPort t := by
  have hDigit : Char.isDigit ∘ Char.toLower = Char.isDigit := funext isDigit_toLower
  simp [isPort, hDigit]

theorem isPortSuffix_lower (t : Text) : isPortSuffix (t.map Char.toLower) = isPortSuffix t := by
  cases t with
  | nil => rfl
  | cons c port =>
    by_cases hc : c = ':'
    · rw [hc]
      exact isPort_lower port
    · have hLower : c.toLower ≠ ':' := fun h => hc ((toLower_eq_iff (by decide) c).mp h)
      rw [List.map_cons]
      simp [isPortSuffix, hc, hLower]

theorem eqIgnoreAsciiCase_iff (a b : Text) :
    eqIgnoreAsciiCase a b = true ↔ a.map Char.toLower = b.map Char.toLower := by
  simp [eqIgnoreAsciiCase]

theorem toLower_toLower (c : Char) : c.toLower.toLower = c.toLower := by
  rcases toLower_eq_or c with hEq | ⟨hLow, hHigh, hEq⟩
  · rw [hEq, hEq]
  · rcases toLower_eq_or c.toLower with hAgain | ⟨_, hHigh', _⟩
    · exact hAgain
    · omega

/-- The case of a bare name does not matter. -/
theorem bareIsLoopback_lower (ps : Parsers) (t : Text) :
    bareIsLoopback ps (t.map Char.toLower) = bareIsLoopback ps t := by
  have hMap : (t.map Char.toLower).map Char.toLower = t.map Char.toLower := by
    rw [List.map_map]
    exact List.map_congr_left fun c _ => toLower_toLower c
  simp only [bareIsLoopback, eqIgnoreAsciiCase, hMap, ps.ipLoopback_lower]

/-- Nor does that of a literal in brackets. -/
theorem literalIsLoopback_lower (ps : Parsers) (rest : Text) :
    literalIsLoopback ps (rest.map Char.toLower) = literalIsLoopback ps rest := by
  unfold literalIsLoopback
  rw [splitOnce_lower (by decide)]
  cases splitOnce ']' rest with
  | none => rfl
  | some p => simp [isPortSuffix_lower, ps.ipv6Loopback_lower]

/-- Nor does that of a name with a port. -/
theorem plainIsLoopback_lower (ps : Parsers) (host : Text) :
    plainIsLoopback ps (host.map Char.toLower) = plainIsLoopback ps host := by
  unfold plainIsLoopback
  rw [rsplitOnce_lower (by decide)]
  cases rsplitOnce ':' host with
  | none => exact bareIsLoopback_lower ps host
  | some p => simp [isPort_lower, bareIsLoopback_lower]

/-- The host check does not see the case of letters. -/
theorem hostIsLoopback_lower (ps : Parsers) (host : Text) :
    hostIsLoopback ps (host.map Char.toLower) = hostIsLoopback ps host := by
  unfold hostIsLoopback
  rw [trim_lower]
  cases trim host with
  | nil => rfl
  | cons c rest =>
    by_cases hc : c = '['
    · rw [hc]
      exact literalIsLoopback_lower ps rest
    · have hLower : c.toLower ≠ '[' := fun h => hc ((toLower_eq_iff (by decide) c).mp h)
      split
      next hEq => exact absurd (List.cons.inj hEq).1 hLower
      next =>
        split
        next hEq => exact absurd (List.cons.inj hEq).1 hc
        next => exact plainIsLoopback_lower ps (c :: rest)

/-- Hosts that agree but for ASCII case are loopback hosts together. -/
theorem hostIsLoopback_congr (ps : Parsers) {a b : Text} (h : eqIgnoreAsciiCase a b = true) :
    hostIsLoopback ps a = hostIsLoopback ps b := by
  rw [← hostIsLoopback_lower, (eqIgnoreAsciiCase_iff a b).mp h, hostIsLoopback_lower]

/-! ## What passing each gate means -/

variable {req : HttpRequest}

/-- There is no Host field, or one that can be read. -/
theorem hostHeader_ok {host : Option Text} (h : hostHeader req = .ok host) :
    (req.values "host" = [] ∧ host = none) ∨
      ∃ value text, req.values "host" = [value] ∧ toStr value = some text ∧ host = some text := by
  unfold hostHeader at h
  split at h
  next hNil =>
    cases h
    exact .inl ⟨hNil, rfl⟩
  next value hOne =>
    split at h
    next text hText =>
      cases h
      exact .inr ⟨value, text, hOne, hText, rfl⟩
    next => cases h
  next => cases h

/-- The request names one host, wherever it does, and that is a loopback host. -/
structure HostsLoopback (ps : Parsers) (req : HttpRequest) : Prop where
  one_host : (req.values "host").length ≤ 1
  host : ∀ value ∈ req.values "host", ∃ host, toStr value = some host ∧
    NamesLoopback ps host ∧
    ∀ authority, req.authority = some authority → eqIgnoreAsciiCase authority host = true
  authority : ∀ authority, req.authority = some authority → NamesLoopback ps authority
  addressed : req.authority = none → req.values "host" ≠ []

/-- The request is addressed by its authority, or else by its Host field. -/
theorem requestAuthority_ok {effective : Text} (h : requestAuthority req = .ok (some effective)) :
    ∃ host, hostHeader req = .ok host ∧ req.authority.or host = some effective ∧
      ∀ authority, req.authority = some authority → ∀ text, host = some text →
        eqIgnoreAsciiCase authority text = true := by
  unfold requestAuthority at h
  split at h
  next => cases h
  next host hHost =>
    refine ⟨host, hHost, ?_⟩
    cases hAuthority : req.authority <;> cases host <;> grind

/-- What passing the Host gate means. -/
theorem hostGate_ok (h : hostGate ps req = .ok ()) : HostsLoopback ps req := by
  unfold hostGate at h
  split at h
  next => cases h
  next => cases h
  next effective hRequest =>
    have hLoopback : hostIsLoopback ps effective = true := by
      by_contra hNot
      rw [if_neg hNot] at h
      cases h
    obtain ⟨host, hHost, hEffective, hAgree⟩ := requestAuthority_ok hRequest
    have hAuthority : ∀ authority, req.authority = some authority →
        hostIsLoopback ps authority = true := by
      intro authority hEq
      rw [hEq] at hEffective
      exact Option.some.inj hEffective ▸ hLoopback
    have hNames := fun authority hEq => hostIsLoopback_names (hAuthority authority hEq)
    -- the Host field is absent or the only one
    rcases hostHeader_ok hHost with ⟨hNone, rfl⟩ | ⟨value, text, hOne, hText, rfl⟩
    · refine ⟨by simp [hNone], by simp [hNone], hNames, fun hAbsent => ?_⟩
      rw [hAbsent] at hEffective
      cases hEffective
    · refine ⟨by simp [hOne], ?_, hNames, by simp [hOne]⟩
      intro value' hMem
      rw [hOne, List.mem_singleton] at hMem
      refine ⟨text, hMem ▸ hText, hostIsLoopback_names ?_, fun authority hEq =>
        hAgree authority hEq text rfl⟩
      cases hEq : req.authority with
      | none =>
        rw [hEq] at hEffective
        exact Option.some.inj hEffective ▸ hLoopback
      | some authority =>
        rw [← hostIsLoopback_congr ps (hAgree authority hEq text rfl)]
        exact hAuthority authority hEq

/-- The gate reads the first Origin field, and takes one it cannot read for none. -/
theorem originGate_ok (h : originGate ps req = .ok ()) :
    ∀ origin, req.headerStr "origin" = some origin → LoopbackOrigin ps origin := by
  intro origin hOrigin
  unfold originGate at h
  rw [hOrigin] at h
  simp only at h
  split at h
  next hLoopback => exact originIsLoopback_names hLoopback
  next => cases h

/-- What passing the namespace gate means. -/
theorem namespaceGate_ok (h : namespaceGate req = .ok ns) :
    ∃ raw, req.headerStr "x-rusty-brain-namespace" = some raw ∧
      Namespace.parseDbString raw = some ns ∧ validateNamespace ns = .ok ns := by
  unfold namespaceGate at h
  split at h
  next => cases h
  next raw hRaw =>
    refine ⟨raw, hRaw, ?_⟩
    cases hParse : Namespace.parseDbString raw with
    | none => simp [hParse] at h
    | some parsed =>
      cases hValid : validateNamespace parsed with
      | error e => simp [hParse, hValid] at h
      | ok found =>
        have hSame : parsed = found := by
          unfold validateNamespace at hValid
          grind
        have hFound : found = ns := by simpa [hParse, hValid] using h
        rw [hSame, hFound] at hValid ⊢
        exact ⟨rfl, hValid⟩

/-! ## Whole requests -/

/-- A request that is dispatched passed the three gates, and subscribes to nothing. -/
theorem processRequest_ok {op : Request} (h : processRequest ps req = .ok (ns, op)) :
    hostGate ps req = .ok () ∧ originGate ps req = .ok () ∧ namespaceGate req = .ok ns ∧
      ∀ since, op ≠ .subscribe since := by
  unfold processRequest at h
  obtain ⟨⟨⟩, hHost, h⟩ := except_bind_ok.mp h
  obtain ⟨⟨⟩, hOrigin, h⟩ := except_bind_ok.mp h
  obtain ⟨found, hNs, h⟩ := except_bind_ok.mp h
  obtain ⟨request, _, h⟩ := except_bind_ok.mp h
  split at h
  next => cases h
  next hNot =>
    cases h
    exact ⟨hHost, hOrigin, hNs, hNot⟩

/-- What a dispatched request may be relied on for: how it is addressed, every one of its
Origin fields, its namespace, and that dispatch executes neither an administrative request
nor a subscription. -/
structure Gated (ps : Parsers) (processEuid : Nat) (req : HttpRequest) (ns : Namespace)
    (op : Request) : Prop where
  hosts : HostsLoopback ps req
  origins : ∀ value ∈ req.values "origin", ∃ origin, toStr value = some origin ∧
    LoopbackOrigin ps origin
  namespaced : ∃ raw, req.headerStr "x-rusty-brain-namespace" = some raw ∧
    Namespace.parseDbString raw = some ns ∧ validateNamespace ns = .ok ns
  executed : ∀ executed, authorize processEuid .untrusted op = .ok executed →
    isAdminOp executed = false ∧ ∀ since, executed ≠ .subscribe since

/-- The first Origin field can be read, and the fields after it are loopback origins. -/
def OriginsSeen (ps : Parsers) (req : HttpRequest) : Prop :=
  ∀ first more, req.values "origin" = first :: more →
    (toStr first).isSome ∧
      ∀ value ∈ more, ∃ origin, toStr value = some origin ∧ LoopbackOrigin ps origin

/-- A peer without a credential runs what it sent, and that is no administration. -/
theorem authorize_untrusted {processEuid : Nat} {op executed : Request}
    (h : authorize processEuid .untrusted op = .ok executed) :
    executed = op ∧ isAdminOp op = false := by
  unfold authorize at h
  have hNever : PeerIdentity.isAdmin processEuid .untrusted = false := rfl
  rw [hNever, Bool.not_false, Bool.and_true] at h
  split at h
  next => cases h
  next hAdmin =>
    cases h
    exact ⟨rfl, Bool.eq_false_iff.mpr hAdmin⟩

/-- The gates are complete for exactly the dispatched requests whose Origin fields they
see: the Origin gate looks at the first field only, and lets one it cannot read pass. -/
theorem gated_iff_originsSeen {ps : Parsers} {processEuid : Nat} {req : HttpRequest}
    {ns : Namespace} {op : Request} (h : processRequest ps req = .ok (ns, op)) :
    Gated ps processEuid req ns op ↔ OriginsSeen ps req := by
  obtain ⟨hHost, hOrigin, hNs, hSubscribe⟩ := processRequest_ok h
  constructor
  · intro hGated first more hValues
    have hAll := hGated.origins
    rw [hValues] at hAll
    obtain ⟨origin, hText, _⟩ := hAll first List.mem_cons_self
    refine ⟨by rw [hText]; rfl, ?_⟩
    intro value hMem
    exact hAll value (List.mem_cons_of_mem _ hMem)
  · intro hSeen
    refine ⟨hostGate_ok hHost, ?_, namespaceGate_ok hNs, ?_⟩
    · cases hValues : req.values "origin" with
      | nil => simp
      | cons first more =>
        obtain ⟨hReadable, hMore⟩ := hSeen first more hValues
        obtain ⟨origin, hText⟩ := Option.isSome_iff_exists.mp hReadable
        -- the first field is the one the gate has checked
        have hFirst : req.headerStr "origin" = some origin := by
          rw [HttpRequest.headerStr, hValues]
          exact hText
        intro value hMem
        rcases List.mem_cons.mp hMem with hEq | hRest
        · rw [hEq]
          exact ⟨origin, hText, originGate_ok hOrigin origin hFirst⟩
        · exact hMore value hRest
    · intro executed hAuthorize
      obtain ⟨hEq, hAdmin⟩ := authorize_untrusted hAuthorize
      rw [hEq]
      exact ⟨hAdmin, hSubscribe⟩

theorem map_toLower_eq_iff {literal : Text}
    (hLiteral : ∀ c ∈ literal, c.toNat < 65 ∨ 90 < c.toNat ∧ c.toNat < 97) (t : Text) :
    t.map Char.toLower = literal ↔ t = literal := by
  induction literal generalizing t with
  | nil => exact List.map_eq_nil_iff
  | cons c literal ih =>
    rw [List.forall_mem_cons] at hLiteral
    cases t with
    | nil => simp
    | cons d t => rw [List.map_cons, List.cons.injEq, List.cons.injEq,
        toLower_eq_iff hLiteral.1, ih hLiteral.2]

/-- Parsers that know one loopback literal of each family, and no body. -/
def literalParsers : Parsers where
  ipv6Loopback t := t = [':', ':', '1']
  ipLoopback t := t = ['1', '2', '7', '.', '0', '.', '0', '.', '1']
  ipv6Loopback_lower t := decide_eq_decide.mpr (map_toLower_eq_iff (by simp) t)
  ipLoopback_lower t := decide_eq_decide.mpr (map_toLower_eq_iff (by simp) t)
  memoryId _ := none
  json _ := .error "EOF while parsing a value at line 1 column 0"
  request _ := .error "missing field `op`"

/-- A ping to the listener with the given Origin fields. -/
def pingFrom (origins : List String) : HttpRequest where
  method := .get
  path := "/ping".toList
  authority := none
  headers := [("host", "localhost:7777".toUTF8.toList),
    ("x-rusty-brain-namespace", "global".toUTF8.toList)] ++
    origins.map fun o => ("origin", o.toUTF8.toList)
  body := some []

theorem gated_iff_originsSeen_ping :
    Gated literalParsers 501 (pingFrom ["http://127.0.0.1:8080"]) .global .ping ↔
      OriginsSeen literalParsers (pingFrom ["http://127.0.0.1:8080"]) :=
  gated_iff_originsSeen (by decide +kernel)

/-- A second Origin field is not looked at, although the check refuses it. -/
theorem second_origin_unchecked :
    processRequest literalParsers (pingFrom ["http://localhost", "null"]) =
        .ok (.global, .ping) ∧
      originIsLoopback literalParsers "null".toList = false ∧
      ¬ Gated literalParsers 501 (pingFrom ["http://localhost", "null"]) .global .ping := by
  refine ⟨by decide +kernel, by decide +kernel, ?_⟩
  intro hGated
  have hMem : "null".toUTF8.toList ∈ (pingFrom ["http://localhost", "null"]).values "origin" := by
    decide +kernel
  obtain ⟨origin, hText, scheme, host, path, hSplit, _⟩ := hGated.origins _ hMem
  have hOrigin : toStr "null".toUTF8.toList = some "null".toList := by decide +kernel
  rw [hOrigin] at hText
  cases hText
  -- an origin has a colon after its scheme
  have hColon : ':' ∈ trim "null".toList := by
    rw [hSplit]
    simp
  exact absurd hColon (by decide +kernel)

end RustyBrain.Daemon.Http
