import RustyBrain.Lib.Framing
import RustyBrain.Types.Basic

/-!
# rusty-brain — the write gate

`write_gate.rs`: the per-namespace policy that every write passes before anything is
composed or stored, and its rejections.
-/

namespace RustyBrain

/-- `WriteChannel::as_str`. -/
def WriteChannel.asStr : WriteChannel → String
  | .hook => "hook"
  | .cli => "cli"
  | .mcp => "mcp"
  | .http => "http"

/-- `rb_types::WriteGatePolicy`, with its defaults. -/
structure WriteGatePolicy where
  allowedTypes : List MemoryType :=
    [.architectureDecision, .codePattern, .bugFix, .configuration, .constraint, .entity, .insight,
      .reference, .preference]
  maxContentBytes : Nat := 256 * 1024
  maxContextBytes : Nat := 64 * 1024
  minAnchors : Nat := 0
  permittedChannels : List WriteChannel := [.hook, .cli, .mcp, .http]
  allowUnverifiedChannel : Bool := true
  deriving DecidableEq, Repr

namespace WriteGatePolicy

/-- `channel_permitted`; `none` is a peer the daemon could not verify. -/
def channelPermitted (p : WriteGatePolicy) : Option WriteChannel → Bool
  | some c => c ∈ p.permittedChannels
  | none => p.allowUnverifiedChannel

/-- `type_allowed`. -/
def typeAllowed (p : WriteGatePolicy) (t : MemoryType) : Bool := t ∈ p.allowedTypes

end WriteGatePolicy

/-- `rb_types::WriteGateConfig`. -/
structure WriteGateConfig where
  default : WriteGatePolicy := {}
  namespaces : List (Namespace × WriteGatePolicy) := []
  deriving DecidableEq, Repr

/-- `policy_for`: the first entry of the namespace, or the default. -/
def WriteGateConfig.policyFor (c : WriteGateConfig) (ns : Namespace) : WriteGatePolicy :=
  ((c.namespaces.find? fun e => e.1 = ns).map Prod.snd).getD c.default

/-- `rb_types::WriteRejection`. -/
inductive WriteRejection where
  | channelNotPermitted (ns : Namespace) (channel : Option WriteChannel)
      (permitted : List WriteChannel) (unverifiedAllowed : Bool)
  | typeNotAllowed (ns : Namespace) (memoryType : MemoryType) (allowed : List MemoryType)
  | contentOversized (ns : Namespace) (bytes maxBytes : Nat)
  | contextOversized (ns : Namespace) (bytes maxBytes : Nat)
  | missingAnchors (ns : Namespace) (found required : Nat)
  deriving DecidableEq, Repr

namespace WriteRejection

/-- `WriteRejection::code`. -/
def code : WriteRejection → String
  | .channelNotPermitted .. => "channel_not_permitted"
  | .typeNotAllowed .. => "type_not_allowed"
  | .contentOversized .. => "content_oversized"
  | .contextOversized .. => "context_oversized"
  | .missingAnchors .. => "anchors_required"

/-- `WriteRejection::message`. -/
def message : WriteRejection → String
  | .channelNotPermitted ns channel permitted unverifiedAllowed =>
    "write on channel '" ++ (channel.map WriteChannel.asStr).getD "unverified" ++
      "' is not permitted for namespace '" ++ String.ofList ns.asDbString ++ "' (permitted: " ++
      ", ".intercalate (permitted.map WriteChannel.asStr) ++ "; unverified peers " ++
      (if unverifiedAllowed then "allowed" else "rejected") ++ ")"
  | .typeNotAllowed ns memoryType allowed =>
    "memory type '" ++ memoryType.asStr ++ "' is not allowed for namespace '" ++
      String.ofList ns.asDbString ++ "' (allowed: " ++
      ", ".intercalate (allowed.map MemoryType.asStr) ++ ")"
  | .contentOversized ns bytes maxBytes =>
    "content is " ++ toString bytes ++ " bytes; namespace '" ++ String.ofList ns.asDbString ++
      "' allows at most " ++ toString maxBytes
  | .contextOversized ns bytes maxBytes =>
    "context is " ++ toString bytes ++ " bytes; namespace '" ++ String.ofList ns.asDbString ++
      "' allows at most " ++ toString maxBytes
  | .missingAnchors ns found required =>
    "write carries " ++ toString found ++ " anchors; namespace '" ++ String.ofList ns.asDbString ++
      "' requires at least " ++ toString required

/-- The text of a rejection. -/
def display (r : WriteRejection) : String := "[write-gate:" ++ r.code ++ "] " ++ r.message

end WriteRejection

/-- `validate_write`: channel, type, content size, context size, anchors; the first
failure wins. -/
def validateWrite (p : WriteGatePolicy) (ns : Namespace) (channel : Option WriteChannel)
    (memoryType : MemoryType) (content : Text) (context : Option Text) (anchorCount : Nat) :
    Except WriteRejection Unit := do
  if p.channelPermitted channel = false then
    throw (.channelNotPermitted ns channel p.permittedChannels p.allowUnverifiedChannel)
  if p.typeAllowed memoryType = false then
    throw (.typeNotAllowed ns memoryType p.allowedTypes)
  if (Framing.utf8 content).length > p.maxContentBytes then
    throw (.contentOversized ns (Framing.utf8 content).length p.maxContentBytes)
  match context with
  | some ctx =>
    if (Framing.utf8 ctx).length > p.maxContextBytes then
      throw (.contextOversized ns (Framing.utf8 ctx).length p.maxContextBytes)
  | none => pure ()
  if anchorCount < p.minAnchors then
    throw (.missingAnchors ns anchorCount p.minAnchors)

end RustyBrain
