import RustyBrain.Types.Basic
import RustyBrain.Lib.Framing

/-!
# rusty-brain — which namespace a directory maps to

The model of `rb-config`'s `resolve_namespace_in`: an explicit name, the configuration committed
at `HEAD`, the nearest `CLAUDE.md` up to the git toplevel, the name of the toplevel, the name of
the start directory, the global namespace, in this order.

A directory is given by the names on the way to it from the root, as the working directory of a
process is, and a path has no `..` in it. What git answers (`git_root`, `head_config`) and what
`toml` reads out of a committed file are parameters. The working tree is a function from paths to
files, so that two trees with the same names are two such functions.
-/

namespace RustyBrain.Config

open List
open Framing (utf8)

/-! ## Paths and files -/

/-- A name of the file system: a text, or bytes that are no text together with what
`to_string_lossy` makes of them. -/
inductive Name where
  | text (t : Text)
  | raw (bytes : List UInt8) (lossy : Text)
  deriving DecidableEq, Repr

/-- `OsStr::to_str`. -/
def Name.toStr : Name → Option Text
  | .text t => some t
  | .raw _ _ => none

/-- `OsStr::to_string_lossy`. -/
def Name.toStringLossy : Name → Text
  | .text t => t
  | .raw _ lossy => lossy

/-- An absolute path, as its names from the root on. -/
abbrev Path := List Name

/-- `Path::join` with one name. -/
def Path.join (dir : Path) (name : String) : Path := dir ++ [.text name.toList]

/-- `Path::ancestors`: the path itself, its parent, and so on to the root. -/
def Path.ancestors (p : Path) : List Path := p.inits.reverse

/-- What stands at a path. A regular file that is no UTF-8 has no text. -/
inductive File where
  /-- Nothing, or nothing that may be opened. -/
  | unavailable
  /-- A directory, a pipe, a device. -/
  | special
  | regular (content : Option Text)
  deriving DecidableEq, Repr

/-- The working tree, and the file system around it. -/
abbrev Tree := Path → File

variable {top : Path} {tree tree' : Tree}

/-- `std::io::ErrorKind`, as far as the code tells the kinds apart. -/
inductive ErrorKind where
  | invalidData
  | other
  deriving DecidableEq, Repr

/-- `MAX_NAMESPACE_FILE_BYTES`. -/
def maxNamespaceFileBytes : Nat := 1024 * 1024

/-- `read_namespace_file`. Text that is cut within a character by the limit is as invalid as
text over the limit. -/
def readNamespaceFile (tree : Tree) (path : Path) : Except ErrorKind Text :=
  match tree path with
  | .unavailable => .error .other
  | .special => .error .invalidData
  | .regular none => .error .invalidData
  | .regular (some text) =>
    if (utf8 text).length > maxNamespaceFileBytes then .error .invalidData else .ok text

/-- `REPO_CONFIG_FILE`. -/
def repoConfigFile : String := ".rusty-brain.toml"

/-! ## Frontmatter -/

/-- A line feed, which ends a line. -/
def lineFeed : Char := Char.ofNat 10

/-- `str::lines`, with the characters of the current line in reverse. A carriage return right
before the line feed goes with it; what follows the last line feed is a line unless it is empty. -/
def linesFrom (line : Text) : Text → List Text
  | [] => if line.isEmpty then [] else [line.reverse]
  | c :: rest =>
    if c = lineFeed then
      (if line.head? = some (Char.ofNat 13) then line.tail else line).reverse :: linesFrom [] rest
    else linesFrom (c :: line) rest

@[inherit_doc linesFrom]
def lines (t : Text) : List Text := linesFrom [] t

/-- A quotation mark that may stand around the value of `project:`. -/
def isQuote (c : Char) : Bool := c == Char.ofNat 34 || c == Char.ofNat 39

/-- The loop of `project_from_frontmatter` over the lines after the first. -/
def projectOfLines : List Text → Option Text
  | [] => none
  | line :: rest =>
    let trimmed := trim line
    if trimmed = "---".toList then none
    else match List.isPrefixOf? "project:".toList trimmed with
      | some found =>
        let value := trim (((trim found).dropWhile isQuote).rdropWhile isQuote)
        if value ≠ [] then some value else none
      | none => projectOfLines rest

/-- `project_from_frontmatter`. -/
def projectFromFrontmatter (text : Text) : Option Text :=
  match lines text with
  | [] => none
  | first :: rest => if trim first = "---".toList then projectOfLines rest else none

/-- The loop of `frontmatter_project_within`: the nearest `CLAUDE.md` governs, also when it is
unusable, and the walk ends at the toplevel. -/
def nearestProject (tree : Tree) (toplevel : Path) : List Path → Option Text
  | [] => none
  | dir :: rest =>
    match readNamespaceFile tree (dir.join "CLAUDE.md") with
    | .ok text => projectFromFrontmatter text
    | .error .invalidData => none
    | .error .other => if dir = toplevel then none else nearestProject tree toplevel rest

/-- `frontmatter_project_within`. -/
def frontmatterProjectWithin (tree : Tree) (start toplevel : Path) : Option Text :=
  if !toplevel.isPrefixOf start then
    match readNamespaceFile tree (toplevel.join "CLAUDE.md") with
    | .ok text => projectFromFrontmatter text
    | .error _ => none
  else nearestProject tree toplevel start.ancestors

/-! ## Pins and the committed configuration -/

/-- `NamespacePins`. -/
structure NamespacePins where
  pins : List (Text × Text)
  deriving DecidableEq, Repr

/-- `pin_key`: the path as lossy text. -/
def pinKey (dir : Path) : Text :=
  if dir.isEmpty then ['/'] else dir.flatMap fun name => '/' :: name.toStringLossy

/-- `NamespacePins::pinned`. -/
def NamespacePins.pinned (p : NamespacePins) (dir : Path) : Option Text :=
  p.pins.lookup (pinKey dir)

/-- `dir_name`. -/
def dirName (p : Path) : Option Text :=
  ((p.getLast?.bind Name.toStr).map trim).filter fun s => !s.isEmpty

/-- `RepoConfigDivergenceKind`. -/
inductive RepoConfigDivergenceKind where
  | untracked
  | modified
  deriving DecidableEq, Repr

/-- `RepoConfigDivergence`. -/
structure RepoConfigDivergence where
  toplevel : Path
  kind : RepoConfigDivergenceKind
  deriving DecidableEq, Repr

/-- `UnpinnedOverride`. -/
structure UnpinnedOverride where
  claimed : Text
  used : Text
  toplevel : Path
  deriving DecidableEq, Repr

/-- `NamespaceResolution`. -/
structure NamespaceResolution where
  ns : Namespace
  unpinnedOverride : Option UnpinnedOverride
  repoConfigDivergence : Option RepoConfigDivergence
  deriving DecidableEq, Repr

/-- `repo_config_divergence`. -/
def repoConfigDivergence (tree : Tree) (toplevel : Path) (committed : Option Text) :
    Option RepoConfigDivergence :=
  match readNamespaceFile tree (toplevel.join repoConfigFile) with
  | .error _ => none
  | .ok worktree =>
    match committed with
    | none => some ⟨toplevel, .untracked⟩
    | some blob => if blob ≠ worktree then some ⟨toplevel, .modified⟩ else none

/-- `resolved_with`. -/
def resolvedWith (ns : Namespace) (divergence : Option RepoConfigDivergence) :
    NamespaceResolution :=
  ⟨ns, none, divergence⟩

/-- What lies outside the code: the toplevel git finds, the content of the configuration file at
`HEAD`, and the `namespace` key that `toml` reads out of such a content. -/
structure Outside where
  gitRoot : Path → Option Path
  headConfig : Path → Option Text
  tomlNamespace : Text → Option (Option Text)

/-- `repo_config_namespace`. -/
def repoConfigNamespace (o : Outside) (text : Text) : Option Text :=
  (((o.tomlNamespace text).bind id).map trim).filter fun s => !s.isEmpty

/-- The last branch of `resolve_namespace_in`: the name of the start directory, else global. -/
def startNamespace (start : Path) : Namespace :=
  match dirName start with
  | some name => .project name
  | none => .global

/-- Branches three and four of `resolve_namespace_in`, for a toplevel with the name `used`. -/
def frontmatterResolution (tree : Tree) (start : Path) (pins : NamespacePins) (top : Path)
    (used : Text) (divergence : Option RepoConfigDivergence) : NamespaceResolution :=
  match frontmatterProjectWithin tree start top with
  | some claimed =>
    if claimed = used then resolvedWith (.project claimed) divergence
    else if pins.pinned top = some claimed then resolvedWith (.project claimed) divergence
    else ⟨.project used, some ⟨claimed, used, top⟩, divergence⟩
  | none => resolvedWith (.project used) divergence

/-- `resolve_namespace_in`. -/
def resolveNamespaceIn (o : Outside) (tree : Tree) (start : Path) (explicit : Option Text)
    (pins : NamespacePins) : NamespaceResolution :=
  match (explicit.map trim).filter fun s => !s.isEmpty with
  | some name => resolvedWith (.project name) none
  | none =>
    match o.gitRoot start with
    | none => resolvedWith (startNamespace start) none
    | some top =>
      let committed := o.headConfig top
      let divergence := repoConfigDivergence tree top committed
      match committed.bind (repoConfigNamespace o) with
      | some name => resolvedWith (.project name) divergence
      | none =>
        match dirName top with
        | some used => frontmatterResolution tree start pins top used divergence
        | none => resolvedWith (startNamespace start) divergence

/-! ## Which files are read -/

/-- Two trees hold the same files at and below a directory. -/
def AgreeBelow (top : Path) (tree tree' : Tree) : Prop :=
  ∀ p, top <+: p → tree p = tree' p

theorem readNamespaceFile_agree {top dir : Path}
    (hAgree : AgreeBelow top tree tree') (hBelow : top <+: dir) (name : String) :
    readNamespaceFile tree (dir.join name) = readNamespaceFile tree' (dir.join name) := by
  have hFile : tree (dir.join name) = tree' (dir.join name) :=
    hAgree _ (hBelow.trans (prefix_append dir _))
  unfold readNamespaceFile
  rw [hFile]

/-- Directories in the order of the walk: the toplevel is among them, and every one before it is
below it. -/
def EndsAt (top : Path) : List Path → Prop
  | [] => False
  | dir :: rest => top <+: dir ∧ (dir = top ∨ EndsAt top rest)

theorem endsAt_ancestors {top start : Path} (hBelow : top <+: start) :
    EndsAt top start.ancestors := by
  -- the walk shortens the path by its last name, so the induction is on the end of the path
  induction start using List.reverseRecOn with
  | nil =>
    have hTop : top = [] := prefix_nil.mp hBelow
    subst hTop
    exact ⟨prefix_rfl, Or.inl rfl⟩
  | append_singleton start name ih =>
    have hSteps : Path.ancestors (start ++ [name]) =
        (start ++ [name]) :: Path.ancestors start := by
      simp [Path.ancestors, inits_append]
    rw [hSteps]
    refine ⟨hBelow, ?_⟩
    rcases prefix_concat_iff.mp hBelow with rfl | hAbove
    · exact Or.inl rfl
    · exact Or.inr (ih hAbove)

theorem nearestProject_agree (hAgree : AgreeBelow top tree tree') :
    ∀ {dirs : List Path}, EndsAt top dirs →
      nearestProject tree top dirs = nearestProject tree' top dirs
  | dir :: rest, ⟨hBelow, hRest⟩ => by
    unfold nearestProject
    rw [readNamespaceFile_agree hAgree hBelow]
    split
    · rfl
    · rfl
    · split
      · rfl
      · rename_i hNotTop
        exact nearestProject_agree hAgree (hRest.resolve_left hNotTop)

theorem frontmatterProjectWithin_agree (hAgree : AgreeBelow top tree tree') (start : Path) :
    frontmatterProjectWithin tree start top = frontmatterProjectWithin tree' start top := by
  unfold frontmatterProjectWithin
  split
  · rw [readNamespaceFile_agree hAgree prefix_rfl]
  · rename_i hUnder
    have hBelow : top <+: start := by simpa using hUnder
    exact nearestProject_agree hAgree (endsAt_ancestors hBelow)

/-- Files outside the toplevel do not matter, for the namespace or for what is reported. -/
theorem resolveNamespaceIn_reads (o : Outside) {start : Path}
    (explicit : Option Text) (pins : NamespacePins)
    (hAgree : ∀ top, o.gitRoot start = some top → AgreeBelow top tree tree') :
    resolveNamespaceIn o tree start explicit pins =
      resolveNamespaceIn o tree' start explicit pins := by
  unfold resolveNamespaceIn
  cases hRoot : o.gitRoot start with
  | none => rfl
  | some top =>
    have hTop := hAgree top hRoot
    simp only [repoConfigDivergence, frontmatterResolution,
      frontmatterProjectWithin_agree hTop, readNamespaceFile_agree hTop prefix_rfl]

/-! ## What the contents of files can choose -/

/-- The namespaces that a toplevel may give without a committed name: its own name, and the name
the user has pinned for it. -/
inductive Allowed (pins : NamespacePins) (top : Path) (used : Text) : Namespace → Prop
  | ownName : Allowed pins top used (.project used)
  | pinned {claimed : Text} (hPin : pins.pinned top = some claimed) :
      Allowed pins top used (.project claimed)

theorem frontmatterResolution_allowed (tree : Tree) (start : Path) (pins : NamespacePins)
    (top : Path) (used : Text) (divergence : Option RepoConfigDivergence) :
    Allowed pins top used
      (frontmatterResolution tree start pins top used divergence).ns := by
  unfold frontmatterResolution
  split
  · split
    · rename_i hSame
      subst hSame
      exact .ownName
    · split
      · rename_i hPin
        exact .pinned hPin
      · exact .ownName
  · exact .ownName

/-- Without an explicit name, either the contents of files do not matter for the namespace at
all, or what they choose is allowed by the toplevel and its pin. -/
theorem resolveNamespaceIn_namespace (o : Outside) (start : Path) {explicit : Option Text}
    (pins : NamespacePins) (hNone : ∀ s ∈ explicit, trim s = []) :
    (∃ ns, ∀ tree, (resolveNamespaceIn o tree start explicit pins).ns = ns) ∨
      ∃ top used, o.gitRoot start = some top ∧ dirName top = some used ∧
        ∀ tree, Allowed pins top used
          (resolveNamespaceIn o tree start explicit pins).ns := by
  have hBlank : (explicit.map trim).filter (fun s => !s.isEmpty) = none := by
    cases explicit with
    | none => rfl
    | some s => simp [hNone s rfl]
  unfold resolveNamespaceIn
  simp only [hBlank]
  cases hRoot : o.gitRoot start with
  | none => exact Or.inl ⟨startNamespace start, fun tree => rfl⟩
  | some top =>
    dsimp only
    cases hName : (o.headConfig top).bind (repoConfigNamespace o) with
    | some name => exact Or.inl ⟨.project name, fun tree => rfl⟩
    | none =>
      cases hUsed : dirName top with
      | none => exact Or.inl ⟨startNamespace start, fun tree => rfl⟩
      | some used =>
        refine Or.inr ⟨top, used, rfl, hUsed, fun tree => ?_⟩
        exact frontmatterResolution_allowed tree start pins top used _

/-- Two allowed namespaces differ only by a switch between the name of the toplevel and its
pin. -/
theorem Allowed.switch {pins : NamespacePins} {used : Text} {ns ns' : Namespace}
    (h : Allowed pins top used ns) (h' : Allowed pins top used ns') :
    ns = ns' ∨ ∃ pin, pins.pinned top = some pin ∧
      ((ns = .project used ∧ ns' = .project pin) ∨ (ns = .project pin ∧ ns' = .project used)) := by
  cases h with
  | ownName =>
    cases h' with
    | ownName => exact Or.inl rfl
    | pinned hPin => exact Or.inr ⟨_, hPin, Or.inl ⟨rfl, rfl⟩⟩
  | pinned hPin =>
    cases h' with
    | ownName => exact Or.inr ⟨_, hPin, Or.inr ⟨rfl, rfl⟩⟩
    | pinned hPin' =>
      have hSame := Option.some.inj (hPin.symm.trans hPin')
      exact Or.inl (congrArg Namespace.project hSame)

/-- A working tree cannot redirect its namespace. Two trees that differ in nothing but the
contents of their files resolve to the same namespace, or the one to the name of the toplevel and
the other to what the user has pinned for it; and trees that agree at and below the toplevel
resolve alike in all respects. -/
theorem worktree_cannot_redirect (o : Outside) (tree tree' : Tree) (start : Path)
    (explicit : Option Text) (pins : NamespacePins) (hNone : ∀ s ∈ explicit, trim s = []) :
    ((resolveNamespaceIn o tree start explicit pins).ns =
        (resolveNamespaceIn o tree' start explicit pins).ns ∨
      ∃ top used pin, o.gitRoot start = some top ∧ dirName top = some used ∧
        pins.pinned top = some pin ∧
        (((resolveNamespaceIn o tree start explicit pins).ns = .project used ∧
            (resolveNamespaceIn o tree' start explicit pins).ns = .project pin) ∨
          ((resolveNamespaceIn o tree start explicit pins).ns = .project pin ∧
            (resolveNamespaceIn o tree' start explicit pins).ns = .project used))) ∧
    ((∀ top, o.gitRoot start = some top → ∀ p, top <+: p → tree p = tree' p) →
      resolveNamespaceIn o tree start explicit pins =
        resolveNamespaceIn o tree' start explicit pins) := by
  refine ⟨?_, fun hAgree => resolveNamespaceIn_reads o explicit pins hAgree⟩
  rcases resolveNamespaceIn_namespace o start pins hNone with
    ⟨ns, hFixed⟩ | ⟨top, used, hRoot, hUsed, hAllowed⟩
  · exact Or.inl ((hFixed tree).trans (hFixed tree').symm)
  · rcases (hAllowed tree).switch (hAllowed tree') with hSame | ⟨pin, hPin, hSwitch⟩
    · exact Or.inl hSame
    · exact Or.inr ⟨top, used, pin, hRoot, hUsed, hPin, hSwitch⟩

/-- A repository at `/brain` without a committed configuration, whose toplevel is pinned to
`mind`. -/
def pinnedOutside : Outside where
  gitRoot _ := some [.text "brain".toList]
  headConfig _ := none
  tomlNamespace _ := none

@[inherit_doc pinnedOutside]
def pinnedPins : NamespacePins := ⟨[("/brain".toList, "mind".toList)]⟩

/-- The tree whose only file is a `CLAUDE.md` in the toplevel that claims `project`. -/
def claimingTree (project : String) : Tree := fun p =>
  if p = Path.join [.text "brain".toList] "CLAUDE.md" then
    .regular (some ("---\nproject: " ++ project ++ "\n---\n").toList)
  else .unavailable

/-- The allowed switch does happen, for a blank explicit name, and a claim that is not pinned
does not redirect. -/
theorem worktree_cannot_redirect_pinned :
    (resolveNamespaceIn pinnedOutside (claimingTree "mind") [.text "brain".toList] (some [' '])
        pinnedPins).ns = .project "mind".toList ∧
      (resolveNamespaceIn pinnedOutside (claimingTree "other") [.text "brain".toList] (some [' '])
        pinnedPins).ns = .project "brain".toList ∧
      ((resolveNamespaceIn pinnedOutside (claimingTree "mind") [.text "brain".toList]
          (some [' ']) pinnedPins).ns =
        (resolveNamespaceIn pinnedOutside (claimingTree "other") [.text "brain".toList]
          (some [' ']) pinnedPins).ns ∨
        ∃ top used pin, pinnedOutside.gitRoot [.text "brain".toList] = some top ∧
          dirName top = some used ∧ pinnedPins.pinned top = some pin) := by
  have hBlank : ∀ s ∈ some [' '], trim s = [] := by
    intro s hs
    cases hs
    decide
  have hBoth := worktree_cannot_redirect pinnedOutside (claimingTree "mind")
    (claimingTree "other") [.text "brain".toList] (some [' ']) pinnedPins hBlank
  refine ⟨by decide +kernel, by decide +kernel, ?_⟩
  rcases hBoth.1 with hSame | ⟨top, used, pin, hRoot, hUsed, hPin, -⟩
  · exact Or.inl hSame
  · exact Or.inr ⟨top, used, pin, hRoot, hUsed, hPin⟩

end RustyBrain.Config
