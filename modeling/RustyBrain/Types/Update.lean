import RustyBrain.Lib.Framing
import RustyBrain.Types.Note

/-!
# rusty-brain — updates, feedback and embedding inputs

What callers hand to the store besides notes: partial updates, access bumps and
feedback; the `f32` arithmetic of a feedback nudge; and the two functions of a note
that a re-embedding compares and embeds.

## Results

* `fingerprintBytes_inj` — the framed bytes behind the fingerprint determine the
  content, keywords, tags and context they were made from.
-/

namespace RustyBrain

/-! ## Single-precision arithmetic -/

open List

/-- The nearest integer, a tie going to the even one. -/
def roundHalfEven (q : ℚ) : ℤ :=
  let n := ⌊q⌋
  if q - n < 1 / 2 then n
  else if 1 / 2 < q - n then n + 1
  else if n % 2 = 0 then n else n + 1

/-- The `f32` nearest to `q`, for values within the exponent range: 24 significant
bits, and no finer than the smallest subnormal. -/
def f32Round (q : ℚ) : ℚ :=
  if q = 0 then 0
  else
    let ulp : ℚ := 2 ^ (max (Int.log 2 |q| - 23) (-149))
    roundHalfEven (q / ulp) * ulp

/-- `FeedbackKind::confidence_delta`: the `f32` values of 0.05, -0.30 and -0.15. -/
def FeedbackKind.confidenceDelta : FeedbackKind → ℚ
  | .helpful => 13421773 / 2 ^ 28
  | .wrong => -(10066330 / 2 ^ 25)
  | .stale => -(10066330 / 2 ^ 26)

/-- `f32::clamp(0.0, 1.0)`. -/
def clampUnit (q : ℚ) : ℚ := max 0 (min q 1)

/-- The confidence after one feedback. -/
def FeedbackKind.nudge (kind : FeedbackKind) (current : ℚ) : ℚ :=
  clampUnit (f32Round (current + kind.confidenceDelta))

/-! ## Updates -/

/-- `rb_types::MemoryUpdates`: a partial update; `none` leaves a field as it is. -/
structure MemoryUpdates where
  content : Option Text := none
  summary : Option Text := none
  importance : Option Nat := none
  tags : Option (List Text) := none
  context : Option Text := none
  confidence : Option ℚ := none
  humanCurated : Option Bool := none
  deriving DecidableEq

/-- The update names no field at all. -/
def MemoryUpdates.isEmpty (u : MemoryUpdates) : Bool :=
  u.content.isNone && u.summary.isNone && u.importance.isNone && u.tags.isNone &&
    u.context.isNone && u.confidence.isNone && u.humanCurated.isNone

/-- The update touches a field that feeds the embedding. -/
def MemoryUpdates.touchesInput (u : MemoryUpdates) : Bool :=
  u.content.isSome || u.tags.isSome || u.context.isSome

/-- `rb_store::AccessBump`. -/
structure AccessBump where
  id : MemoryId
  count : Nat
  lastAccessedAt : Int
  deriving DecidableEq, Repr

/-! ## The input of an embedding -/

/-- `EMBEDDING_INPUT_VERSION`, the text `v2-composite`. -/
def embeddingInputVersion : Text :=
  ['v', '2', '-', 'c', 'o', 'm', 'p', 'o', 's', 'i', 't', 'e']

/-- `join_non_empty`: the trimmed entries that are not blank, a space between. -/
def joinNonEmpty (items : List Text) : Text :=
  List.intercalate [' '] ((items.map trim).filter fun t => t ≠ [])

/-- `embedding_input`: content, keywords, tags and context, the blank ones left out,
each on its own line. -/
def embeddingInput (content : Text) (keywords tags : List Text) (context : Text) : Text :=
  let parts :=
    (if trim content ≠ [] then [content] else []) ++
    (if joinNonEmpty keywords ≠ [] then [joinNonEmpty keywords] else []) ++
    (if joinNonEmpty tags ≠ [] then [joinNonEmpty tags] else []) ++
    (if trim context ≠ [] then [trim context] else [])
  List.intercalate ['\n'] parts

/-- The bytes that `EmbeddingInputFingerprint::from` hashes: four framed lists, a
scalar field being a list of one. -/
def fingerprintBytes (content : Text) (keywords tags : List Text) (context : Text) :
    List UInt8 :=
  [[content], keywords, tags, [context]].flatMap fun fields =>
    Framing.frames (fields.map Framing.utf8)

/-- Texts and lists that a 64-bit machine can hold: their lengths in bytes and in
elements fit 64 bits. -/
def Addressable (content : Text) (keywords tags : List Text) (context : Text) : Prop :=
  ∀ fields ∈ [[content], keywords, tags, [context]], Framing.Fits (fields.map Framing.utf8)

theorem map_utf8_injective {xs ys : List Text}
    (h : xs.map Framing.utf8 = ys.map Framing.utf8) : xs = ys :=
  map_injective_iff.mpr (fun _ _ => Framing.utf8_injective) h

/-- **Key theorem:** equal fingerprint bytes come from equal fields. -/
theorem fingerprintBytes_inj {c₁ c₂ x₁ x₂ : Text} {k₁ k₂ t₁ t₂ : List Text}
    (h₁ : Addressable c₁ k₁ t₁ x₁) (h₂ : Addressable c₂ k₂ t₂ x₂)
    (h : fingerprintBytes c₁ k₁ t₁ x₁ = fingerprintBytes c₂ k₂ t₂ x₂) :
    c₁ = c₂ ∧ k₁ = k₂ ∧ t₁ = t₂ ∧ x₁ = x₂ := by
  simp only [fingerprintBytes, flatMap_cons, flatMap_nil] at h
  simp only [Addressable, mem_cons, not_mem_nil, or_false, forall_eq_or_imp,
    forall_eq] at h₁ h₂
  -- the four lists are cut off the front one after the other
  obtain ⟨hc, h⟩ := Framing.frames_append_inj h₁.1 h₂.1 h
  obtain ⟨hk, h⟩ := Framing.frames_append_inj h₁.2.1 h₂.2.1 h
  obtain ⟨ht, h⟩ := Framing.frames_append_inj h₁.2.2.1 h₂.2.2.1 h
  obtain ⟨hx, -⟩ := Framing.frames_append_inj h₁.2.2.2 h₂.2.2.2 h
  have hc' := map_utf8_injective hc
  have hx' := map_utf8_injective hx
  simp only [List.cons.injEq, and_true] at hc' hx'
  exact ⟨hc', map_utf8_injective hk, map_utf8_injective ht, hx'⟩

end RustyBrain
