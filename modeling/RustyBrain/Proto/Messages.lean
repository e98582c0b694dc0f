import RustyBrain.Store.Retention
import RustyBrain.Types.Query
import RustyBrain.Types.Review

/-!
# rusty-brain — the requests of the daemon

`Request`, one constructor per operation, with the pure predicates that the client, the
adapter and the daemon decide by: which requests need a capability of the daemon, which
are administrative, and which may be sent again after a lost response.
-/

namespace RustyBrain.Proto

open Store

/-- `rb_types::CaptureEvidence`. -/
inductive CaptureEvidence where
  | measuredLocal (commands : List Text)
  | measuredCi (runRef : Text)
  | humanConfirmed (who : Option Text)
  deriving DecidableEq

/-- `rb_types::JobKind`. -/
inductive JobKind where
  | linkDecay | consolidation | importanceRecalibration | retention
  deriving DecidableEq

/-- The fields of `Request::Remember`. -/
structure RememberRequest where
  content : Text
  context : Option Text := none
  memoryType : MemoryType
  importance : Nat
  keywords : List Text := []
  tags : List Text := []
  relatedFiles : List Text := []
  confidence : Option ℚ := none
  supersedes : Option MemoryId := none
  anchors : List MemoryAnchor := []
  evidence : Option CaptureEvidence := none
  humanCurated : Option Bool := none
  allowCuratedSupersede : Option Bool := none
  legacyUnknown : Option Bool := none
  deriving DecidableEq

/-- `rb_proto::Request`. -/
inductive Request where
  | hasHistoricalDuplicate (content : Text)
  | remember (r : RememberRequest)
  | recall (query : Text) (memoryType : Option MemoryType) (tags : List Text) (limit : Nat)
      (filter : RecallFilter)
  | get (id : MemoryId)
  | list (minImportance : Option Nat) (limit : Nat) (filter : RecallFilter)
  | graph (id : MemoryId) (depth : Nat)
  | update (id : MemoryId) (updates : MemoryUpdates)
  | delete (id : MemoryId)
  | context
  | runJob (job : JobKind)
  | reembed (limit : Option Nat)
  | ping
  | subscribe (since : Option Nat)
  | namespaceRename (old new : Namespace) (merge : Bool)
  | link (source target : MemoryId) (linkType : LinkType) (reason : Option Text)
  | scrub
  | feedback (id : MemoryId) (kind : FeedbackKind)
  | stats (windowDays : Option Nat)
  | forget (policy : RetentionPolicy) (mode : ForgetMode) (dryRun : Bool)
  | history (id : MemoryId) (depth : Option Nat)
  | review (policy : Option ReviewPolicy) (dryRun : Bool) (since : Option Nat)
      (limit : Option Nat) (threshold : Option ℚ)
  | resolve (reason : ReviewReason) (ids : List MemoryId) (action : ReviewAction)
      (threshold : Option ℚ)
  deriving DecidableEq

/-- `request_uses_anchors`. -/
def requestUsesAnchors : Request → Bool
  | .remember r => !r.anchors.isEmpty
  | .recall _ _ _ _ filter => !filter.anchors.isEmpty
  | .list _ _ filter => !filter.anchors.isEmpty
  | _ => false

/-- `request_uses_human_curation`. -/
def requestUsesHumanCuration : Request → Bool
  | .remember r => r.humanCurated.isSome || r.allowCuratedSupersede.isSome
  | .update _ updates => updates.humanCurated.isSome
  | _ => false

/-- The requests that only a daemon with legacy quarantine understands. -/
def requestUsesLegacyQuarantine : Request → Bool
  | .remember r => r.legacyUnknown = some true
  | .hasHistoricalDuplicate _ => true
  | _ => false

/-- `is_admin_op`. -/
def isAdminOp : Request → Bool
  | .runJob _ => true
  | .reembed _ => true
  | .namespaceRename _ _ _ => true
  | .scrub => true
  | .forget _ mode dryRun => mode = .hard && !dryRun
  | _ => false

/-- `retry_safe_after_send`: the daemon cannot have changed anything for these. -/
def retrySafeAfterSend : Request → Bool
  | .ping => true
  | .recall .. => true
  | .get _ => true
  | .list .. => true
  | .graph .. => true
  | .context => true
  | _ => false

end RustyBrain.Proto
