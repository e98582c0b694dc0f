import Mathlib

/-!
# rusty-brain — scalar types of `rb-types`

Identifiers, namespaces, time stamps, the closed enumerations whose stored text
the SQL `CHECK` constraints pin, and the error type that every operation returns.

* Text is a list of characters, so that what a function does to a string can be
  followed character by character.
* A `f32` that has passed validation is finite, and is modelled by the rational
  number it denotes.
* A column whose text is pinned by a `CHECK` to the `as_str` values of an
  enumeration holds the enumeration itself.
-/

namespace RustyBrain

open List

/-- A Rust `String`, as its characters. -/
abbrev Text := List Char

instance : LawfulBEq Text := inferInstance

/-! ## Characters and trimming -/

/-- `char::is_whitespace`: the Unicode `White_Space` property. -/
def isWhitespace (c : Char) : Bool :=
  let n := c.toNat
  (9 ≤ n && n ≤ 13) || n == 0x20 || n == 0x85 || n == 0xA0 || n == 0x1680 ||
    (0x2000 ≤ n && n ≤ 0x200A) || n == 0x2028 || n == 0x2029 || n == 0x202F ||
    n == 0x205F || n == 0x3000

/-- `str::trim_start`. -/
def trimStart (t : Text) : Text :=
  t.dropWhile isWhitespace

/-- `str::trim`. -/
def trim (t : Text) : Text :=
  (trimStart t).rdropWhile isWhitespace

/-- `str::parse::<u64>`: digits after an optional plus sign, within range. -/
def parseU64 (t : Text) : Option Nat :=
  let digits := match t with
    | '+' :: rest => rest
    | _ => t
  let n := digits.foldl (fun n c => 10 * n + (c.toNat - '0'.toNat)) 0
  if !digits.isEmpty && digits.all Char.isDigit && n < 2 ^ 64 then some n else none

/-! ## Time -/

/-- `chrono::DateTime<Utc>`: whole seconds since the epoch and the nanoseconds
within that second. -/
structure DateTime where
  secs : Int
  subsecNanos : Nat
  deriving DecidableEq, Repr

namespace DateTime

/-- Instants are ordered by the second, then within the second. -/
instance : LE DateTime :=
  ⟨fun a b => a.secs < b.secs ∨ (a.secs = b.secs ∧ a.subsecNanos ≤ b.subsecNanos)⟩

instance (a b : DateTime) : Decidable (a ≤ b) :=
  inferInstanceAs (Decidable (_ ∨ _))

/-- The smallest and the largest second `chrono` can represent. -/
def minTimestamp : Int := -8334601228800

@[inherit_doc minTimestamp]
def maxTimestamp : Int := 8210266876799

/-- `DateTime::from_timestamp(secs, 0)`, which fails outside `chrono`'s range. -/
def fromTs (secs : Int) : Option DateTime :=
  if minTimestamp ≤ secs ∧ secs ≤ maxTimestamp then some ⟨secs, 0⟩ else none

theorem fromTs_eq_some {secs : Int} {t : DateTime} (h : fromTs secs = some t) :
    t = ⟨secs, 0⟩ := by
  unfold fromTs at h
  split at h
  · exact (Option.some.inj h).symm
  · cases h

end DateTime

/-! ## Identifiers and namespaces -/

/-- A version-4 UUID, as its 128-bit number. The stored hyphenated lower-case
text orders ids the way the number does. -/
structure MemoryId where
  uuid : Nat
  deriving DecidableEq, Repr

/-- The hyphenated text of an id, 8-4-4-4-12 hexadecimal digits. -/
def MemoryId.display (id : MemoryId) : String :=
  let digits := Nat.toDigits 16 id.uuid
  let hex := List.replicate (32 - digits.length) '0' ++ digits
  let part (i n : Nat) : List Char := (hex.drop i).take n
  String.ofList (part 0 8 ++ '-' :: part 8 4 ++ '-' :: part 12 4 ++ '-' :: part 16 4 ++
    '-' :: part 20 12)

/-- `rb_types::Namespace`. -/
inductive Namespace where
  | global
  | project (name : Text)
  | session (project sessionId : Text)
  deriving DecidableEq, Repr

namespace Namespace

/-- `global`, the stored text of the global namespace. -/
def globalTag : Text := ['g', 'l', 'o', 'b', 'a', 'l']

/-- `project:`, which the name of a project follows. -/
def projectTag : Text := ['p', 'r', 'o', 'j', 'e', 'c', 't', ':']

/-- `session:`, which the project and the id of a session follow. -/
def sessionTag : Text := ['s', 'e', 's', 's', 'i', 'o', 'n', ':']

/-- The exact text stored in a `namespace` column. -/
def asDbString : Namespace → Text
  | global => globalTag
  | project name => projectTag ++ name
  | session proj sessionId => sessionTag ++ (proj ++ ':' :: sessionId)

/-- `split_once(':')`: the text before and after the first colon. -/
def splitOnceColon : Text → Option (Text × Text)
  | [] => none
  | c :: rest =>
    if c = ':' then some ([], rest)
    else (splitOnceColon rest).map fun p => (c :: p.1, p.2)

/-- Read a stored namespace back; fails closed on anything unrecognised. -/
def parseDbString (s : Text) : Option Namespace :=
  if s = globalTag then some global
  else
    match List.isPrefixOf? projectTag s with
    | some name => if name = [] then none else some (project name)
    | none =>
      match List.isPrefixOf? sessionTag s with
      | some rest =>
        match splitOnceColon rest with
        | some (proj, sessionId) =>
          if proj ≠ [] ∧ sessionId ≠ [] then some (session proj sessionId) else none
        | none => none
      | none => none

/-- The namespaces whose stored text reads back: no empty part, and no colon in
the project of a session. -/
def WellFormed : Namespace → Prop
  | global => True
  | project name => name ≠ []
  | session proj sessionId => proj ≠ [] ∧ ':' ∉ proj ∧ sessionId ≠ []

instance : DecidablePred WellFormed
  | global => inferInstanceAs (Decidable True)
  | project _ => inferInstanceAs (Decidable (_ ≠ _))
  | session _ _ => inferInstanceAs (Decidable (_ ∧ _ ∧ _))

theorem splitOnceColon_append {proj rest : Text} (hProj : ':' ∉ proj) :
    splitOnceColon (proj ++ ':' :: rest) = some (proj, rest) := by
  induction proj with
  | nil => rfl
  | cons c proj ih =>
    have hc : c ≠ ':' := fun h => hProj (h ▸ mem_cons_self)
    have hRest : ':' ∉ proj := fun h => hProj (mem_cons_of_mem _ h)
    simp [splitOnceColon, hc, ih hRest]

/-- A well-formed namespace reads back from the text it is stored as. -/
theorem parseDbString_asDbString {ns : Namespace} (hNs : ns.WellFormed) :
    parseDbString ns.asDbString = some ns := by
  cases ns with
  | global => rfl
  | project name =>
    have hName : name ≠ [] := hNs
    simp [parseDbString, asDbString, globalTag, projectTag, List.isPrefixOf?, hName]
  | session proj sessionId =>
    obtain ⟨hProj, hColon, hSession⟩ := hNs
    simp [parseDbString, asDbString, globalTag, projectTag, sessionTag, List.isPrefixOf?,
      splitOnceColon_append hColon, hProj, hSession]

theorem splitOnceColon_some {s proj rest : Text} (h : splitOnceColon s = some (proj, rest)) :
    s = proj ++ ':' :: rest := by
  induction s generalizing proj with
  | nil => cases h
  | cons c s ih =>
    simp only [splitOnceColon] at h
    split at h
    next hc =>
      cases h
      rw [hc, nil_append]
    next =>
      obtain ⟨⟨proj', rest'⟩, hSplit, hEq⟩ := Option.map_eq_some_iff.mp h
      cases hEq
      rw [ih hSplit, cons_append]

/-- A stored text that reads back is the text of the namespace it reads back as. -/
theorem asDbString_of_parse {s : Text} {ns : Namespace} (h : parseDbString s = some ns) :
    s = ns.asDbString := by
  unfold parseDbString at h
  split at h
  next hGlobal =>
    cases h
    exact hGlobal
  next =>
    split at h
    next name hPrefix =>
      split at h
      · cases h
      · cases h
        exact (isPrefixOf?_eq_some_iff_append_eq.mp hPrefix).symm
    next =>
      split at h
      next rest hPrefix =>
        split at h
        next proj sessionId hSplit =>
          split at h
          · cases h
            rw [asDbString, ← splitOnceColon_some hSplit]
            exact (isPrefixOf?_eq_some_iff_append_eq.mp hPrefix).symm
          · cases h
        · cases h
      · cases h

end Namespace

/-! ## Enumerations -/

/-- `rb_types::MemoryType`. -/
inductive MemoryType where
  | architectureDecision | codePattern | bugFix | configuration | constraint
  | entity | insight | reference | preference
  deriving DecidableEq, Repr

/-- `rb_types::LinkType`. -/
inductive LinkType where
  | extends | contradicts | implements | references | supersedes
  deriving DecidableEq, Repr

/-- The stored text of a link type. -/
def LinkType.asStr : LinkType → String
  | .extends => "extends"
  | .contradicts => "contradicts"
  | .implements => "implements"
  | .references => "references"
  | .supersedes => "supersedes"

/-- `MemoryType::as_str`. -/
def MemoryType.asStr : MemoryType → String
  | .architectureDecision => "architecture_decision"
  | .codePattern => "code_pattern"
  | .bugFix => "bug_fix"
  | .configuration => "configuration"
  | .constraint => "constraint"
  | .entity => "entity"
  | .insight => "insight"
  | .reference => "reference"
  | .preference => "preference"

/-- `rb_types::TrustClass`. -/
inductive TrustClass where
  | inferredActivity | agentAttested | humanConfirmed | measuredLocal | measuredCi
  deriving DecidableEq, Repr

/-- The place of a class on the trust ladder, which orders the classes. -/
def TrustClass.rank : TrustClass → Nat
  | .inferredActivity => 0
  | .agentAttested => 1
  | .humanConfirmed => 2
  | .measuredLocal => 3
  | .measuredCi => 4

/-- The weaker of two classes. -/
def TrustClass.weaker (a b : TrustClass) : TrustClass := if b.rank < a.rank then b else a

/-- `rb_types::WriteChannel`. -/
inductive WriteChannel where
  | hook | cli | mcp | http
  deriving DecidableEq, Repr

/-- `rb_types::FeedbackKind`. -/
inductive FeedbackKind where
  | helpful | wrong | stale
  deriving DecidableEq, Repr

/-- `rb_types::AnchorKind`. -/
inductive AnchorKind where
  | file | commit | symbol
  deriving DecidableEq, Repr

/-- `kind_str`: the stored and displayed text of an anchor kind. -/
def AnchorKind.kindStr : AnchorKind → String
  | .file => "file"
  | .commit => "commit"
  | .symbol => "symbol"

/-! ## Errors -/

/-- `rb_types::Error`, the variants that the modelled operations return. -/
inductive Error where
  | storage (message : String)
  | notFound (id : MemoryId)
  | invalidNamespace (text : Text)
  | serialization (message : String)
  | dimensionMismatch (expected got : Nat)
  | invalidArgument (message : String)
  | stalePlan (message : String)
  | permissionDenied (message : String)
  | migration (message : String)
  deriving DecidableEq, Repr

/-- The text of an error. -/
def Error.display : Error → String
  | .storage m => "storage error: " ++ m
  | .notFound id => "memory not found: " ++ id.display
  | .invalidNamespace t => "invalid namespace: " ++ String.ofList t
  | .serialization m => "serialization error: " ++ m
  | .dimensionMismatch expected got =>
    s!"embedding dimension mismatch: expected {expected}, got {got}"
  | .invalidArgument m => "invalid argument: " ++ m
  | .stalePlan m => "stale plan: " ++ m
  | .permissionDenied m => "permission denied: " ++ m
  | .migration m => "migration error: " ++ m

/-- `rb_types::Result`. -/
abbrev Result (α : Type) := Except Error α

/-! ## Validated ranges -/

/-- `validate_importance`. -/
def validateImportance (importance : Nat) : Result Unit :=
  if 1 ≤ importance ∧ importance ≤ 10 then .ok ()
  else .error (.invalidArgument s!"importance {importance} is out of range 1..=10")

/-- `validate_confidence`; the text shows the value as a fraction. -/
def validateConfidence (confidence : ℚ) : Result Unit :=
  if 0 ≤ confidence ∧ confidence ≤ 1 then .ok ()
  else .error (.invalidArgument
    ("confidence " ++ toString confidence ++ " out of range 0.0..=1.0"))

end RustyBrain
