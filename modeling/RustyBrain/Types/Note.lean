import RustyBrain.Types.Basic

/-!
# rusty-brain — notes, links and anchors

`MemoryNote` and the values it carries, as callers hand them to the store and as
the store hands them back.

## Results

* `normalizeAnchorValue_idem` — normalising an anchor value twice is normalising it
  once, so a stored value and a filter value meet in one form.
-/

namespace RustyBrain

variable {fuel : Nat}
/-! ## Anchors -/

open List

/-- The loop of `normalize_anchor_value` that strips leading `./` segments. Every
turn takes two characters, so as much fuel as there is text always suffices. -/
def stripDotSlash : Nat → Text → Text
  | fuel + 1, '.' :: '/' :: rest => stripDotSlash fuel (trimStart rest)
  | _, v => v

/-- `normalize_anchor_value`: trim, and for a file strip leading `./` segments. -/
def normalizeAnchorValue (kind : AnchorKind) (raw : Text) : Text :=
  let v := trim raw
  if kind = .file then stripDotSlash v.length v else v

/-- No white space at either end. -/
def Trimmed (t : Text) : Prop := trimStart t = t ∧ t.rdropWhile isWhitespace = t

theorem trim_of_trimmed {t : Text} (h : Trimmed t) : trim t = t := by
  rw [trim, h.1, h.2]

/-- A text that starts with no white space still starts with none once it was cut
at its end. -/
theorem trimStart_rdropWhile {t : Text} (h : trimStart t = t) :
    trimStart (t.rdropWhile isWhitespace) = t.rdropWhile isWhitespace := by
  have hHead := dropWhile_eq_self_iff.mp h
  refine dropWhile_eq_self_iff.mpr fun hl => ?_
  have hPre : t.rdropWhile isWhitespace <+: t := rdropWhile_prefix _ _
  have hPos : 0 < t.length := lt_of_lt_of_le hl hPre.length_le
  have hSame : (t.rdropWhile isWhitespace)[0] = t[0] := hPre.getElem hl
  rw [hSame]
  exact hHead hPos

theorem trim_trimmed (t : Text) : Trimmed (trim t) :=
  ⟨trimStart_rdropWhile (dropWhile_idempotent _ _), rdropWhile_idempotent _ _⟩

/-- A map of the characters that keeps white space commutes with trimming. -/
theorem trim_map {f : Char → Char} (h : ∀ c, isWhitespace (f c) = isWhitespace c) (t : Text) :
    trim (t.map f) = (trim t).map f := by
  have hBlank : isWhitespace ∘ f = isWhitespace := funext h
  unfold trim trimStart List.rdropWhile
  rw [dropWhile_map, hBlank, ← map_reverse, dropWhile_map, hBlank,
    map_reverse]

/-- The end of a text is the end of each of its suffixes. -/
theorem rdropWhile_suffix {s t : Text} (hSuf : s <:+ t)
    (h : t.rdropWhile isWhitespace = t) : s.rdropWhile isWhitespace = s := by
  refine rdropWhile_eq_self_iff.mpr fun hs => ?_
  obtain ⟨u, rfl⟩ := hSuf
  have hLast := rdropWhile_eq_self_iff.mp h (by simp [hs])
  simpa [getLast_append_of_ne_nil, hs] using hLast

theorem trimStart_suffix (t : Text) : trimStart t <:+ t := dropWhile_suffix _

theorem trim_isInfix (t : Text) : trim t <:+: t := by
  have hEnd : trim t <+: trimStart t := rdropWhile_prefix _ _
  exact hEnd.isInfix.trans (trimStart_suffix t).isInfix

theorem stripDotSlash_trimmed {v : Text} (h : Trimmed v) :
    Trimmed (stripDotSlash fuel v) := by
  induction fuel generalizing v with
  | zero => simpa [stripDotSlash] using h
  | succ fuel ih =>
    unfold stripDotSlash
    split
    · next rest hEq =>
      cases hEq
      refine ih ⟨dropWhile_idempotent _ _, rdropWhile_suffix ?_ h.2⟩
      exact (trimStart_suffix rest).trans ⟨['.', '/'], rfl⟩
    · exact h

/-- With enough fuel the loop leaves no leading `./`. -/
theorem stripDotSlash_done {v rest : Text} (hFuel : v.length ≤ fuel) :
    stripDotSlash fuel v ≠ '.' :: '/' :: rest := by
  induction fuel generalizing v with
  | zero =>
    have hNil : v = [] := eq_nil_of_length_eq_zero (by omega)
    subst hNil
    simp [stripDotSlash]
  | succ fuel ih =>
    unfold stripDotSlash
    split
    · next rest' hEq =>
      cases hEq
      refine ih ?_
      have hLen := (trimStart_suffix rest').length_le
      simp only [length_cons] at hFuel
      omega
    · next hNot =>
      intro hEq
      exact hNot fuel rest rfl hEq

theorem stripDotSlash_of_not {v : Text} (h : ∀ rest, v ≠ '.' :: '/' :: rest) :
    stripDotSlash fuel v = v := by
  unfold stripDotSlash
  split
  · next rest => exact absurd rfl (h rest)
  · rfl

/-- **Key lemma:** normalising is idempotent. -/
theorem normalizeAnchorValue_idem (kind : AnchorKind) (raw : Text) :
    normalizeAnchorValue kind (normalizeAnchorValue kind raw) =
      normalizeAnchorValue kind raw := by
  by_cases hKind : kind = .file
  · have hTrim : Trimmed (stripDotSlash (trim raw).length (trim raw)) :=
      stripDotSlash_trimmed (trim_trimmed raw)
    have hDone : ∀ rest, stripDotSlash (trim raw).length (trim raw) ≠ '.' :: '/' :: rest :=
      fun rest => stripDotSlash_done le_rfl
    simp only [normalizeAnchorValue, hKind, if_true]
    rw [trim_of_trimmed hTrim, stripDotSlash_of_not hDone]
  · simp only [normalizeAnchorValue, hKind, if_false]
    exact trim_of_trimmed (trim_trimmed raw)

/-- `rb_types::MemoryAnchor`: a link from a memory to a code location. -/
structure MemoryAnchor where
  kind : AnchorKind
  value : Text
  startLine : Option Nat := none
  endLine : Option Nat := none
  deriving DecidableEq, Repr

namespace MemoryAnchor

/-- `MemoryAnchor::validate`: a non-empty value; lines only on files, counted from
one, in order, and no end without a start. -/
def validate (a : MemoryAnchor) : Result Unit :=
  if trim a.value = [] then
    .error (.invalidArgument (a.kind.kindStr ++ " anchor value must not be empty"))
  else if a.kind ≠ .file ∧ (a.startLine.isSome ∨ a.endLine.isSome) then
    .error (.invalidArgument
      ("line ranges are only valid on file anchors, not " ++ a.kind.kindStr))
  else if a.endLine.isSome ∧ a.startLine.isNone then
    .error (.invalidArgument "anchor end_line requires a start_line")
  else if a.startLine = some 0 ∨ a.endLine = some 0 then
    .error (.invalidArgument "anchor lines are 1-based; 0 is invalid")
  else
    match a.startLine, a.endLine with
    | some start, some last =>
      if start > last then
        .error (.invalidArgument s!"anchor line range {start}-{last} is inverted")
      else .ok ()
    | _, _ => .ok ()

end MemoryAnchor

/-! ## Links and notes -/

/-- `rb_types::MemoryLink`: a directed, typed edge between two memories. -/
structure MemoryLink where
  sourceId : MemoryId
  targetId : MemoryId
  linkType : LinkType
  strength : ℚ
  reason : Text
  createdAt : DateTime
  deriving DecidableEq

/-- The bits of the `f32` values of a vector, as the vector table stores them. -/
abbrev Embedding := List (BitVec 32)

/-- `rb_types::MemoryNote`. -/
structure MemoryNote where
  id : MemoryId
  ns : Namespace
  createdAt : DateTime
  updatedAt : DateTime
  content : Text
  summary : Text := []
  keywords : List Text := []
  tags : List Text := []
  humanCurated : Bool := false
  context : Text := []
  memoryType : MemoryType
  importance : Nat
  confidence : ℚ := 1
  relatedFiles : List Text := []
  accessCount : Nat := 0
  lastAccessedAt : Option DateTime := none
  archivedAt : Option DateTime := none
  supersededBy : Option MemoryId := none
  embeddingModel : Text := []
  embeddingInputVersion : Text := []
  links : List MemoryLink := []
  originUser : Option Text := none
  originHost : Option Text := none
  originAgent : Option Text := none
  originSource : Option Text := none
  originChannel : Option WriteChannel := none
  legacyUnknown : Bool := false
  sessionId : Option Text := none
  anchors : List MemoryAnchor := []
  trustClass : TrustClass := .agentAttested
  deriving DecidableEq

namespace MemoryNote

/-- `MemoryNote::new`: a fresh active memory with the defaults of the type. The id
and the clock are read outside. -/
def new (id : MemoryId) (now : DateTime) (ns : Namespace) (content : Text)
    (memoryType : MemoryType) (importance : Nat) : MemoryNote where
  id := id
  ns := ns
  createdAt := now
  updatedAt := now
  content := content
  memoryType := memoryType
  importance := importance

/-- `MemoryNote::is_quarantined`: rows of unknown history and rows that came in
over HTTP are withheld from recall. -/
def isQuarantined (n : MemoryNote) : Bool :=
  n.legacyUnknown ||
    match n.originChannel with
    | some .http => true
    | some _ => false
    | none => n.originSource == some ['h', 't', 't', 'p']

/-- A memory of no particular kind. -/
def plain (id : Nat) : MemoryNote := new ⟨id⟩ ⟨0, 0⟩ .global ['a'] .insight 5

/-- A note as a caller composes it: neither archived nor superseded yet. -/
def Fresh (n : MemoryNote) : Prop := n.archivedAt = none ∧ n.supersededBy = none
  deriving Decidable

end MemoryNote

/-- `RECALL_MIN_ELIGIBLE_CONFIDENCE`: the second `f32` above the one nearest to 0.1,
which is 13421773 / 2^27. -/
def recallMinEligibleConfidence : ℚ := 13421775 / 134217728

end RustyBrain
