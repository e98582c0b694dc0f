import RustyBrain.Types.Update
import RustyBrain.Types.WriteGate
import RustyBrain.Lib.Transaction

/-!
# rusty-brain — composing a memory

`MemoryEngine::compose_note`: what a memory that was asked for becomes before it is
written, for `remember` and for the review merge alike.
-/

namespace RustyBrain.Engine

open List
open Transaction (except_bind_ok)

/-! ## Heuristic enrichment -/

/-- `default_summary`: the first 150 characters of the trimmed content. -/
def defaultSummary (content : Text) : Text := (trim content).take 150

/-- A default summary has no character that the content has not. -/
theorem mem_of_mem_defaultSummary {content : Text} {x : Char} (h : x ∈ defaultSummary content) :
    x ∈ content :=
  (trim_isInfix content).subset (mem_of_mem_take h)

/-- The maximal runs of characters that `keep` accepts, empty runs included, as
`str::split` hands them out. -/
def splitRuns (keep : Char → Bool) : Text → List Text
  | [] => [[]]
  | c :: rest =>
    match splitRuns keep rest with
    | run :: runs => if keep c then (c :: run) :: runs else [] :: run :: runs
    | [] => [[c]]

/-- The loop of `derive_keywords`: tokens of at least four characters, each once, at
most five. -/
def collectKeywords (lowercase : Text → Text) : List Text → List Text → List Text
  | out, [] => out
  | out, raw :: rest =>
    if raw.length < 4 then collectKeywords lowercase out rest
    else
      let token := lowercase raw
      let out := if token ∈ out then out else out ++ [token]
      if out.length = 5 then out else collectKeywords lowercase out rest

/-- Every keyword is a token in lower case. -/
theorem mem_collectKeywords {lowercase : Text → Text} {out raws : List Text} {k : Text}
    (h : k ∈ collectKeywords lowercase out raws) : k ∈ out ∨ ∃ raw ∈ raws, k = lowercase raw := by
  induction raws generalizing out with
  | nil => exact .inl h
  | cons raw rest ih =>
    have hLater : (k ∈ out ∨ ∃ r ∈ rest, k = lowercase r) →
        k ∈ out ∨ ∃ r ∈ raw :: rest, k = lowercase r :=
      Or.imp_right fun ⟨r, hr, hk⟩ => ⟨r, mem_cons_of_mem _ hr, hk⟩
    have hToken : ∀ {out' : List Text},
        out' = (if lowercase raw ∈ out then out else out ++ [lowercase raw]) →
        k ∈ out' → k ∈ out ∨ ∃ r ∈ raw :: rest, k = lowercase r := by
      rintro out' rfl hk
      split at hk
      · exact .inl hk
      · rcases mem_append.mp hk with hOut | hNew
        · exact .inl hOut
        · exact .inr ⟨raw, mem_cons_self, mem_singleton.mp hNew⟩
    unfold collectKeywords at h
    split at h
    · exact hLater (ih h)
    · dsimp only at h
      generalize hOut' : (if lowercase raw ∈ out then out else out ++ [lowercase raw]) = out' at h
      split at h
      · exact hToken hOut'.symm h
      · rcases ih h with hOut | hRest
        · exact hToken hOut'.symm hOut
        · exact hLater (.inr hRest)

/-! ## The engine -/

/-- `Enrichment`, the fields that the engine applies. -/
structure Enrichment where
  summary : Option Text := none
  keywords : List Text := []
  tags : List Text := []
  confidence : Option ℚ := none
  deriving DecidableEq

/-- `MemoryEngine`, the parts that composing reads. Unicode classification and case
mapping, the optional enricher and the embedder come from outside. -/
structure MemoryEngine where
  ns : Namespace
  writeGate : WriteGateConfig := {}
  fixedNow : Option DateTime := none
  isAlphanumeric : Char → Bool
  toLowercase : Text → Text
  enrich : Option (Text → Option Text → Option Enrichment)
  modelId : Text
  /-- the vectors returned for one document, or an error -/
  embed : Text → Result (List Embedding)

/-- `Provenance`. -/
structure Provenance where
  originUser : Option Text := none
  originHost : Option Text := none
  originAgent : Option Text := none
  originSource : Option Text := none
  channel : Option WriteChannel := none
  sessionId : Option Text := none
  deriving DecidableEq

/-- `RememberInput`. -/
structure RememberInput where
  content : Text
  context : Option Text := none
  memoryType : MemoryType
  importance : Nat
  keywords : List Text := []
  tags : List Text := []
  relatedFiles : List Text := []
  humanCurated : Bool := false
  legacyUnknown : Bool := false
  confidence : Option ℚ := none
  provenance : Provenance := {}
  anchors : List MemoryAnchor := []
  trustClass : Option TrustClass := none
  deriving DecidableEq

/-- `TrustClass::context_default`. -/
def contextDefault (originSource : Option Text) : TrustClass :=
  if originSource = some ['j', 'o', 'b'] then .inferredActivity else .agentAttested

/-- `derive_keywords`. -/
def MemoryEngine.deriveKeywords (engine : MemoryEngine) (content : Text) : List Text :=
  collectKeywords engine.toLowercase [] (splitRuns engine.isAlphanumeric content)

/-- The keywords of the caller, of the enricher, or derived. -/
def MemoryEngine.keywordsFor (engine : MemoryEngine) (input : RememberInput) (en : Option Enrichment) :
    List Text :=
  if input.keywords ≠ [] then input.keywords
  else
    match en with
    | some e => if e.keywords ≠ [] then e.keywords else engine.deriveKeywords input.content
    | none => engine.deriveKeywords input.content

/-- The summary of the enricher, or the default one. -/
def MemoryEngine.summaryFor (engine : MemoryEngine) (content : Text) (context : Option Text) : Text :=
  ((engine.enrich.bind fun f => f content context).bind Enrichment.summary).getD
    (defaultSummary content)

/-- The confidence of the caller, or a valid one of the enricher, or full trust. -/
def confidenceFor (input : RememberInput) (en : Option Enrichment) : ℚ :=
  match input.confidence with
  | some c => c
  | none =>
    match en.bind Enrichment.confidence with
    | some c => if (validateConfidence c).isOk then c else 1
    | none => 1

/-- The note of a validated input, with the id and the clock read outside. -/
def MemoryEngine.noteFor (engine : MemoryEngine) (id : MemoryId) (clock : DateTime) (input : RememberInput) :
    MemoryNote :=
  let en := engine.enrich.bind fun f => f input.content input.context
  let now := engine.fixedNow.getD clock
  { MemoryNote.new id now engine.ns input.content input.memoryType input.importance with
    humanCurated := input.humanCurated
    confidence := confidenceFor input en
    originUser := input.provenance.originUser
    originHost := input.provenance.originHost
    originAgent := input.provenance.originAgent
    originSource := input.provenance.originSource
    originChannel := input.provenance.channel
    legacyUnknown := input.legacyUnknown
    sessionId := input.provenance.sessionId
    summary := engine.summaryFor input.content input.context
    trustClass := input.trustClass.getD (contextDefault input.provenance.originSource)
    keywords := engine.keywordsFor input en
    tags := if input.tags ≠ [] then input.tags else (en.map Enrichment.tags).getD []
    relatedFiles := input.relatedFiles
    anchors := input.anchors
    context := input.context.getD []
    embeddingModel := engine.modelId
    embeddingInputVersion := embeddingInputVersion }

/-- The document that is embedded for a note. -/
def inputOf (n : MemoryNote) : Text := embeddingInput n.content n.keywords n.tags n.context

/-- The write gate of the engine's namespace, with its rejection as an error. -/
def MemoryEngine.checkGate (engine : MemoryEngine) (input : RememberInput) : Result Unit :=
  match validateWrite (engine.writeGate.policyFor engine.ns) engine.ns input.provenance.channel
      input.memoryType input.content input.context input.anchors.length with
  | .error rejection => .error (.invalidArgument rejection.display)
  | .ok () => .ok ()

/-- `compose_note`. -/
def MemoryEngine.composeNote (engine : MemoryEngine) (id : MemoryId) (clock : DateTime)
    (input : RememberInput) : Result (MemoryNote × Option Embedding) := do
  engine.checkGate input
  validateImportance input.importance
  input.confidence.elim (pure ()) validateConfidence
  input.anchors.forM MemoryAnchor.validate
  let note := engine.noteFor id clock input
  let embeddings ← engine.embed (inputOf note)
  pure (note, embeddings.getLast?)

/-! ## What a composed note is -/

section

variable {engine : MemoryEngine} {id : MemoryId} {clock : DateTime} {input : RememberInput}
  {n : MemoryNote} {e : Option Embedding}

section

variable (h : engine.composeNote id clock input = .ok (n, e))

include h

/-- A composed note is the note of the input, and its vector the last one the embedder
returned for the note's own document. -/
theorem composeNote_ok :
    n = engine.noteFor id clock input ∧
      ∃ vs, engine.embed (inputOf n) = .ok vs ∧ e = vs.getLast? := by
  simp only [MemoryEngine.composeNote, except_bind_ok] at h
  obtain ⟨_, -, _, -, _, -, _, -, vs, hEmbed, hPair⟩ := h
  obtain ⟨rfl, rfl⟩ := Prod.mk.inj (Except.ok.inj hPair)
  exact ⟨rfl, vs, hEmbed, rfl⟩

/-- A composed note is active, unsuperseded and has no links. -/
theorem composeNote_fresh :
    n.Fresh ∧ n.links = [] := by
  obtain ⟨rfl, -⟩ := composeNote_ok h
  exact ⟨⟨rfl, rfl⟩, rfl⟩

/-- A composed note carries the current stamp, and its vector is the embedding of its own input. -/
theorem composeNote_stamped :
    n.embeddingModel = engine.modelId ∧ n.embeddingInputVersion = embeddingInputVersion ∧
      ∀ v ∈ e, ∃ vs, engine.embed (inputOf n) = .ok vs ∧ vs.getLast? = some v := by
  obtain ⟨hNote, vs, hEmbed, rfl⟩ := composeNote_ok h
  refine ⟨?_, ?_, fun v hv => ⟨vs, hEmbed, hv⟩⟩
  · rw [hNote]
    rfl
  · rw [hNote]
    rfl

end

end

end RustyBrain.Engine
