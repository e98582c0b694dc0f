import RustyBrain.Config.Namespace
import RustyBrain.Install.Config

/-!
# rusty-brain — the files that a patch touches

The capture hook records which files an edit tool touched. A patch is text that names its files
in structural lines and carries the files' content in the lines between them, and only the first
may reach the memory.

## Results

* `content_names_no_file` — what a patch carries of a file changes no list, and no list repeats.
-/

namespace RustyBrain.Hooks

open List Config
open Install (Json)

variable {paths : List Text} {p q line : Text}

/-- `tool_input.get(field).and_then(|v| v.as_str())`. -/
def strField (input : Json) (field : String) : Option Text :=
  match input.get field with
  | some (.str s) => some s.toList
  | _ => none

/-- `str::strip_prefix`. -/
def strip (start : String) (line : Text) : Option Text := List.isPrefixOf? start.toList line

/-- `strip_prefix` on a character, then `strip_suffix` on another. -/
def stripAround (first last : Char) : Text → Option Text
  | [] => none
  | c :: rest => if c = first ∧ rest.getLast? = some last then some rest.dropLast else none

/-- Leading `./` segments go. -/
def stripDots : Text → Text
  | '.' :: '/' :: rest => stripDots rest
  | path => path

/-- `path.split('/').any(|segment| segment == "..")`. -/
def hasParent (path : Text) : Bool := (path.splitOn '/').any (· = ['.', '.'])

/-- A path goes behind the ones before it, unless it is one of them. -/
def pushNew (paths : List Text) (path : Text) : List Text :=
  if path ∈ paths then paths else paths ++ [path]

/-! ## V4A patches -/

/-- `safe_patch_path`. -/
def safePatchPath (raw : Text) : Option Text :=
  let path := stripDots (trim raw)
  if path = [] ∨ path.head? = some '/' then none
  else if hasParent path then none
  else some path

/-- What `v4a_patch_paths` knows between two lines. -/
structure V4a where
  paths : List Text := []
  inHunk : Bool := false
  /-- The line before was an `*** Update File:` header. -/
  moveAllowed : Bool := false

namespace V4a

/-- The `push` of `v4a_patch_paths`. -/
def push (paths : List Text) (raw : Text) : List Text :=
  match safePatchPath raw with
  | some path => pushNew paths path
  | none => paths

/-- A line of a hunk's body: file content, or a context line whose space was cut. -/
def isBody (line : Text) : Bool := line.head? ∈ [none, some ' ', some '+', some '-']

def moveTo : String := "*** Move to:"

def updateFile : String := "*** Update File:"

/-- One line of `v4a_patch_paths`. -/
def step (s : V4a) (line : Text) : V4a :=
  if s.inHunk ∧ isBody line then s
  else if (strip "@@" line).isSome then { s with inHunk := true, moveAllowed := false }
  else match strip moveTo line with
    | some rest => { paths := if s.moveAllowed then push s.paths rest else s.paths }
    | none =>
      match ["*** Add File:", updateFile, "*** Delete File:"].findSome?
          fun op => (strip op line).map (op, ·) with
      | some (op, rest) => { paths := push s.paths rest, moveAllowed := op = updateFile }
      | none => { paths := s.paths }

end V4a

def v4aPatchPaths (patchText : Text) : List Text :=
  ((lines patchText).foldl V4a.step {}).paths

/-! ## Hashline patches -/

/-- `char::is_control`. -/
def isControl (c : Char) : Bool := c.toNat < 32 || (127 ≤ c.toNat && c.toNat < 160)

/-- `u8::is_ascii_hexdigit`. -/
def isHexDigit (c : Char) : Bool := c.isDigit || ('a' ≤ c && c ≤ 'f') || ('A' ≤ c && c ≤ 'F')

/-- What `hashline_patch_paths` knows between two lines. -/
structure Hashline where
  paths : List Text := []
  inSection : Bool := false
  /-- The loop was left. -/
  ended : Bool := false
  deriving DecidableEq

namespace Hashline

/-- The `push` of `hashline_patch_paths`: an absolute path is permitted. -/
def push (paths : List Text) (raw : Text) : List Text :=
  let path := trim raw
  if path = [] ∨ path.any isControl ∨ hasParent path then paths
  else if stripDots path = [] then paths
  else pushNew paths (stripDots path)

/-- A double quotation mark. -/
def quote : Char := Char.ofNat 34

/-- One line of `hashline_patch_paths`. A header that splits at its last `#` with none before that
has one `#`. -/
def step (s : Hashline) (line : Text) : Hashline :=
  if s.ended then s
  else if line = "*** End Patch".toList then { s with ended := true }
  else if line.head? = some '+' then s
  else match stripAround '[' ']' line with
    | some header =>
      match header.splitOn '#' with
      | [path, tag] =>
        if tag.length = 4 ∧ tag.all isHexDigit then
          { s with paths := push s.paths path, inSection := true }
        else { s with inSection := false }
      | _ => { s with inSection := false }
    | none =>
      if s.inSection then
        match strip "MV " line with
        | some destination =>
          let destination := trim destination
          { s with paths := push s.paths ((stripAround quote quote destination).getD destination) }
        | none =>
          if line = "REM".toList ∨ (strip "PUT " line).isSome ∨ (strip "CUT " line).isSome then s
          else { s with inSection := false }
      else s

end Hashline

def beginPatch : Text := "*** Begin Patch".toList

def hashlinePatchPaths (patchText : Text) : List Text :=
  match lines patchText with
  | first :: rest => if first = beginPatch then (rest.foldl Hashline.step {}).paths else []
  | [] => []

/-! ## The paths of a tool call -/

/-- The paths of the first of the fields whose patch names any. -/
def firstPaths (parse : Text → List Text) (input : Json) (fields : List String) :
    Option (List Text) :=
  (fields.filterMap fun field => (strField input field).map parse).find? (· ≠ [])

/-- `edited_paths`. -/
def editedPaths (toolInput : Json) : List Text :=
  match ["file_path", "path"].findSome? (strField toolInput) with
  | some path => [path]
  | none =>
    match firstPaths hashlinePatchPaths toolInput ["input", "patch"] with
    | some paths => paths
    | none =>
      (firstPaths v4aPatchPaths toolInput ["patchText", "command", "input"]).getD
        [(strField toolInput "file_path").getD "unknown".toList]

/-! ## Content lines -/

/-- A line without what it carries of a file behind its marker. -/
def bare : Text → Text
  | [] => []
  | c :: text => if c = ' ' ∨ c = '+' ∨ c = '-' then [c] else c :: text

/-- A line and what is left of it are one, or have one marker. -/
theorem bare_cases (line : Text) : bare line = line ∨
    ∃ c text, (c = ' ' ∨ c = '+' ∨ c = '-') ∧ line = c :: text ∧ bare line = [c] := by
  cases line with
  | nil => exact .inl rfl
  | cons c text =>
    by_cases hc : c = ' ' ∨ c = '+' ∨ c = '-'
    · exact .inr ⟨c, text, hc, rfl, if_pos hc⟩
    · exact .inl (if_neg hc)

/-- The text of a content line does not change what the parser has read. -/
theorem V4a.step_bare (s : V4a) (line : Text) : s.step (bare line) = s.step line := by
  rcases bare_cases line with hEq | ⟨c, text, hc, rfl, hBare⟩
  · rw [hEq]
  · rw [hBare]
    obtain rfl | rfl | rfl := hc <;> simp [step, isBody, strip, moveTo, updateFile, isPrefixOf?]

/-- Nor does it change what the other one has. -/
theorem Hashline.step_bare (s : Hashline) (line : Text) : s.step (bare line) = s.step line := by
  rcases bare_cases line with hEq | ⟨c, text, hc, rfl, hBare⟩
  · rw [hEq]
  · rw [hBare]
    obtain rfl | rfl | rfl := hc <;> simp [step, strip, stripAround, isPrefixOf?]

theorem bare_eq_beginPatch : bare line = beginPatch ↔ line = beginPatch := by
  rcases bare_cases line with hEq | ⟨c, text, hc, rfl, hBare⟩
  · rw [hEq]
  · rw [hBare]
    unfold beginPatch
    obtain rfl | rfl | rfl := hc <;> simp

/-- The two patches agree but for the text of their content lines. -/
def SameV4a (p q : Text) : Prop := (lines p).map bare = (lines q).map bare

/-- A patch that opens as one is read from its first line on. -/
theorem hashlinePatchPaths_eq (p : Text) : hashlinePatchPaths p =
    if (lines p).head? = some beginPatch then ((lines p).foldl Hashline.step {}).paths else [] := by
  have hFirst : Hashline.step {} beginPatch = {} := by decide +kernel
  unfold hashlinePatchPaths
  split
  · rename_i first rest hLines
    simp only [hLines, head?_cons, Option.some.injEq, foldl_cons]
    refine ite_congr rfl (fun hEq => ?_) fun _ => rfl
    rw [hEq, hFirst]
  · rename_i hLines
    simp [hLines]

/-- The fold over the lines sees only what is left of them. -/
theorem SameV4a.v4aPatchPaths (h : SameV4a p q) :
    Hooks.v4aPatchPaths p = Hooks.v4aPatchPaths q := by
  have hBare (t : Text) : (lines t).foldl V4a.step {} = ((lines t).map bare).foldl V4a.step {} := by
    simp only [foldl_map, V4a.step_bare]
  rw [Hooks.v4aPatchPaths, Hooks.v4aPatchPaths, hBare, h, ← hBare]

/-- So does the other one, and the opening line is no content. -/
theorem SameV4a.hashlinePatchPaths (h : SameV4a p q) :
    Hooks.hashlinePatchPaths p = Hooks.hashlinePatchPaths q := by
  have hBare (t : Text) : Hooks.hashlinePatchPaths t =
      if ((lines t).map bare).head? = some beginPatch then
        (((lines t).map bare).foldl Hashline.step {}).paths else [] := by
    simp only [hashlinePatchPaths_eq, foldl_map, Hashline.step_bare, head?_map,
      Option.map_eq_some_iff, bare_eq_beginPatch, exists_eq_right]
  rw [hBare, h, ← hBare]

/-! ## Rows of replacement text -/

/-- The lines of a patch but for its replacement text. -/
def rows (p : Text) : List Text := (lines p).filter fun line => line.head? ≠ some '+'

/-- The patch opens as a hashline patch, and if it names a file, then as one. -/
def IsHashline (p : Text) : Prop :=
  (lines p).head? = some beginPatch ∧ (hashlinePatchPaths p ≠ [] ∨ v4aPatchPaths p = [])

/-- The lines around a patch. -/
def frame : List Text := [beginPatch, "*** End Patch".toList]

/-- The lines of the format: its frame, the header of a section, the operations of one, and rows
of replacement text. -/
def HashlineLine (line : Text) : Prop :=
  line ∈ frame ∨ line = "REM".toList ∨ (stripAround '[' ']' line).isSome ∨
    ∃ op ∈ ["MV ", "PUT ", "CUT ", "+"], op.toList <+: line
  deriving Decidable

/-- Only the frame has stars. -/
theorem HashlineLine.head (h : HashlineLine line) : line ∈ frame ∨ line.head? ≠ some '*' := by
  rcases h with hFrame | hRem | hHeader | ⟨op, hOp, rest, hLine⟩
  · exact .inl hFrame
  · rw [hRem]
    decide +kernel
  · cases line with
    | nil => simp
    | cons c text =>
      -- a header starts with its bracket
      refine .inr fun hStar => ?_
      simp [stripAround, Option.some.inj hStar] at hHeader
  · have hOps : ∀ op ∈ ["MV ", "PUT ", "CUT ", "+"], ∀ rest, (op.toList ++ rest).head? ≠ some '*' := by
      simp
    exact .inr (hLine ▸ hOps op hOp rest)

/-- A line of the format names no file to the other parser. -/
theorem V4a.step_hashline (s : V4a) (h : HashlineLine line) : (s.step line).paths = s.paths := by
  rcases h.head with hFrame | hStar
  · -- the stars of the frame are followed by other words than those of a V4A header
    have hNone : ∀ line ∈ frame, isBody line = false ∧ strip "@@" line = none ∧
        strip moveTo line = none ∧ strip "*** Add File:" line = none ∧
          strip updateFile line = none ∧ strip "*** Delete File:" line = none := by
      decide +kernel
    simp [step, hNone line hFrame]
  · cases line with
    | nil => simp [step, isBody, strip, moveTo, updateFile, isPrefixOf?, apply_ite V4a.paths]
    | cons c text =>
      have hc : ('*' == c) = false := beq_false_of_ne fun hEq => hStar (hEq ▸ rfl)
      simp [step, strip, moveTo, updateFile, isPrefixOf?, hc, apply_ite V4a.paths]

/-- A patch of such lines is no V4A patch. -/
theorem IsHashline.of_lines (hOpens : (lines p).head? = some beginPatch)
    (h : ∀ line ∈ lines p, HashlineLine line) : IsHashline p :=
  ⟨hOpens, .inr (foldlRecOn (motive := fun s : V4a => s.paths = []) _ _ rfl
    fun s hs line hLine => (s.step_hashline (h line hLine)).trans hs)⟩

/-- Two hashline patches agree but for their rows of replacement text. -/
def SameHashline (p q : Text) : Prop := IsHashline p ∧ IsHashline q ∧ rows p = rows q

/-- A row of replacement text is skipped. -/
theorem SameHashline.hashlinePatchPaths (h : SameHashline p q) :
    Hooks.hashlinePatchPaths p = Hooks.hashlinePatchPaths q := by
  have hSkip : (fun s line => if line.head? ≠ some '+' then Hashline.step s line else s) =
      Hashline.step := by
    funext s line
    split
    · rfl
    · rename_i hPlus
      obtain ⟨text, rfl⟩ := head?_eq_some_iff.mp (not_not.mp hPlus)
      simp [Hashline.step]
  have hRows {t : Text} (hOpens : (lines t).head? = some beginPatch) :
      Hooks.hashlinePatchPaths t = ((rows t).foldl Hashline.step {}).paths := by
    rw [hashlinePatchPaths_eq, if_pos hOpens, rows, foldl_filter]
    simp only [decide_eq_true_eq, hSkip]
  rw [hRows h.1.1, hRows h.2.1.1, h.2.2]

/-- Where neither patch names a file as a hashline patch, neither does as a V4A patch. -/
theorem SameHashline.v4aPatchPaths (h : SameHashline p q)
    (hNone : Hooks.hashlinePatchPaths p = []) : Hooks.v4aPatchPaths p = Hooks.v4aPatchPaths q := by
  have hNone' : Hooks.hashlinePatchPaths q = [] := h.hashlinePatchPaths.symm.trans hNone
  rw [h.1.2.resolve_left (not_not.mpr hNone), h.2.1.2.resolve_left (not_not.mpr hNone')]

/-! ## What is listed -/

/-- The path is not empty, relative and free of parent segments. -/
def SafePath (path : Text) : Prop := path ≠ [] ∧ path.head? ≠ some '/' ∧ ¬ hasParent path

theorem nodup_pushNew (h : paths.Nodup) (path : Text) : (pushNew paths path).Nodup := by
  unfold pushNew
  split
  · exact h
  · rename_i hNew
    exact h.append (nodup_singleton _) (disjoint_singleton.mpr hNew)

/-- What is kept of a path is safe. -/
theorem safePatchPath_safe {raw path : Text} (h : safePatchPath raw = some path) :
    SafePath path := by
  simp only [safePatchPath] at h
  split at h
  · cases h
  · split at h
    · cases h
    · rename_i hStart hParent
      cases h
      exact ⟨fun hNil => hStart (.inl hNil), fun hRoot => hStart (.inr hRoot), hParent⟩

/-- What `v4a_patch_paths` has listed so far. -/
def V4a.Listed (paths : List Text) : Prop := paths.Nodup ∧ ∀ path ∈ paths, SafePath path

/-- What is pushed is safe, and new. -/
theorem V4a.push_listed (h : Listed paths) (raw : Text) :
    Listed (push paths raw) := by
  unfold push
  split
  · rename_i path hSafe
    refine ⟨nodup_pushNew h.1 path, fun x hx => ?_⟩
    unfold pushNew at hx
    split at hx
    · exact h.2 x hx
    · rw [mem_append, mem_singleton] at hx
      rcases hx with hx | rfl
      · exact h.2 x hx
      · exact safePatchPath_safe hSafe
  · exact h

-- every branch keeps the paths or pushes one
theorem V4a.step_listed {s : V4a} (h : Listed s.paths) (line : Text) :
    Listed (s.step line).paths := by
  unfold step
  repeat' split
  all_goals first | exact h | exact push_listed h _

theorem v4aPatchPaths_listed (p : Text) : V4a.Listed (v4aPatchPaths p) :=
  foldlRecOn (motive := fun s : V4a => V4a.Listed s.paths) _ _ ⟨nodup_nil, nofun⟩
    fun _ h line _ => V4a.step_listed h line

theorem Hashline.push_nodup (h : paths.Nodup) (raw : Text) : (push paths raw).Nodup := by
  simp only [push]
  split_ifs
  · exact h
  · exact h
  · exact nodup_pushNew h _

/-- Every line leaves each path listed once. -/
theorem Hashline.step_nodup {s : Hashline} (h : s.paths.Nodup) (line : Text) :
    (s.step line).paths.Nodup := by
  unfold step
  repeat' split
  all_goals first | exact h | exact push_nodup h _

/-- The induction is on the lines. -/
theorem hashlinePatchPaths_nodup (p : Text) : (hashlinePatchPaths p).Nodup := by
  unfold hashlinePatchPaths
  split
  · split
    · exact foldlRecOn (motive := fun s : Hashline => s.paths.Nodup) _ _ nodup_nil
        fun _ h line _ => Hashline.step_nodup h line
    · exact nodup_nil
  · exact nodup_nil

/-! ## The recorded list -/

/-- Two tool calls agree but for the content that their patches carry. A hashline patch comes
under `input` or `patch`. -/
structure SameInput (i j : Json) : Prop where
  paths : ∀ field ∈ ["file_path", "path"], strField i field = strField j field
  v4a : ∀ field ∈ ["patchText", "command"], Option.Rel SameV4a (strField i field) (strField j field)
  patches : ∀ field ∈ ["input", "patch"],
    Option.Rel (fun p q => SameV4a p q ∨ SameHashline p q) (strField i field) (strField j field)

section

variable {parse : Text → List Text} {i j : Json} {fields : List String}

/-- What is found depends on what the fields give. -/
theorem firstPaths_congr
    (h : ∀ field ∈ fields, (strField i field).map parse = (strField j field).map parse) :
    firstPaths parse i fields = firstPaths parse j fields := by
  rw [firstPaths, firstPaths, filterMap_congr h]

/-- What is found is what one of the fields gives. -/
theorem firstPaths_some (h : firstPaths parse i fields = some paths) :
    ∃ p, parse p = paths := by
  obtain ⟨field, -, hField⟩ := mem_filterMap.mp (mem_of_find?_eq_some h)
  obtain ⟨p, -, hp⟩ := Option.map_eq_some_iff.mp hField
  exact ⟨p, hp⟩

/-- When nothing is found, no field gives a path. -/
theorem firstPaths_none (h : firstPaths parse i fields = none) {field : String}
    (hField : field ∈ fields) {p : Text} (hp : strField i field = some p) : parse p = [] := by
  have hMem : parse p ∈ fields.filterMap fun field => (strField i field).map parse :=
    mem_filterMap.mpr ⟨field, hField, by rw [hp]; rfl⟩
  simpa using find?_eq_none.mp h _ hMem

theorem map_eq_of_rel {R : Text → Text → Prop} {a b : Option Text} (h : Option.Rel R a b)
    (hSame : ∀ p, a = some p → ∀ q, R p q → parse p = parse q) : a.map parse = b.map parse := by
  cases h with
  | none => rfl
  | some hR => exact congrArg some (hSame _ rfl _ hR)

end

/-- The fields are asked in one order, and each gives the same on both sides. -/
theorem SameInput.editedPaths {i j : Json} (h : SameInput i j) :
    Hooks.editedPaths i = Hooks.editedPaths j := by
  have hHashline : firstPaths hashlinePatchPaths i ["input", "patch"] =
      firstPaths hashlinePatchPaths j ["input", "patch"] :=
    firstPaths_congr fun field hField => map_eq_of_rel (h.patches field hField) fun p _ q hSame =>
      hSame.elim (·.hashlinePatchPaths) (·.hashlinePatchPaths)
  have hFile := h.paths "file_path" (by simp)
  have hPath := h.paths "path" (by simp)
  simp only [Hooks.editedPaths, findSome?_cons, findSome?_nil, hFile, hPath, ← hHashline]
  split
  · rfl
  · split
    · rfl
    · -- no hashline patch named a file, and the other patches are read
      rename_i hNone
      refine congrArg (Option.getD · _) (firstPaths_congr ?_)
      simp only [forall_mem_cons, not_mem_nil, false_implies, implies_true, and_true]
      refine ⟨map_eq_of_rel (h.v4a _ (by simp)) fun p _ q hSame => hSame.v4aPatchPaths,
        map_eq_of_rel (h.v4a _ (by simp)) fun p _ q hSame => hSame.v4aPatchPaths,
        map_eq_of_rel (h.patches _ (by simp)) fun p hp q hSame => ?_⟩
      rcases hSame with hSame | hSame
      · exact hSame.v4aPatchPaths
      · exact hSame.v4aPatchPaths (firstPaths_none hNone (by simp) hp)

/-- Whichever parser gives the list, it has no path twice. -/
theorem editedPaths_nodup (i : Json) : (editedPaths i).Nodup := by
  unfold editedPaths
  split
  · exact nodup_singleton _
  · split
    · rename_i hFound
      obtain ⟨p, rfl⟩ := firstPaths_some hFound
      exact hashlinePatchPaths_nodup p
    · cases hFound : firstPaths v4aPatchPaths i ["patchText", "command", "input"] with
      | none => exact nodup_singleton _
      | some paths =>
        obtain ⟨p, rfl⟩ := firstPaths_some hFound
        exact (v4aPatchPaths_listed p).1

/-- **Patch contents cannot invent touched files.** Tool calls that agree but for the content of
their patches record one list; nothing is listed twice in it, and where neither a field nor a
hashline patch names a path, every path of it is safe. -/
theorem content_names_no_file (i j : Json) :
    (SameInput i j → editedPaths i = editedPaths j) ∧ (editedPaths i).Nodup ∧
      (["file_path", "path"].findSome? (strField i) = none →
        firstPaths hashlinePatchPaths i ["input", "patch"] = none →
        ∀ path ∈ editedPaths i, SafePath path) := by
  refine ⟨SameInput.editedPaths, editedPaths_nodup i, fun hDirect hHashline path hPath => ?_⟩
  simp only [editedPaths, hDirect, hHashline] at hPath
  cases hFound : firstPaths v4aPatchPaths i ["patchText", "command", "input"] with
  | none =>
    have hFile : strField i "file_path" = none := findSome?_eq_none_iff.mp hDirect _ (by simp)
    rw [hFound, hFile] at hPath
    obtain rfl := mem_singleton.mp hPath
    unfold SafePath
    decide +kernel
  | some paths =>
    obtain ⟨p, rfl⟩ := firstPaths_some hFound
    rw [hFound] at hPath
    exact (v4aPatchPaths_listed p).2 path hPath

/-- A patch that moves a file and adds a line to it. -/
def movingPatch (added : String) : String := "*** Update File: a\n*** Move to: ./b\n@@\n+" ++ added

def moving (added : String) : Json := .obj [("command", .str (movingPatch added))]

/-- A hashline patch that puts a line into a file. -/
def puttingPatch (added : String) : String := "*** Begin Patch\n[./a#12ab]\nPUT 1\n+" ++ added

def putting (added : String) : Json := .obj [("input", .str (puttingPatch added))]

theorem content_names_no_file_moving :
    editedPaths (moving "*** Add File: /c") = editedPaths (moving "d") ∧
      editedPaths (moving "d") = [['a'], ['b']] ∧ (∀ path ∈ editedPaths (moving "d"), SafePath path) ∧
      editedPaths (putting "[c#12ab]") = editedPaths (putting "d") ∧
      editedPaths (putting "d") = [['a']] := by
  have hField (name text field : String) : strField (.obj [(name, .str text)]) field =
      if name = field then some text.toList else none := by
    by_cases h : name = field <;> simp [strField, Json.get, SortedMap.lookup, h]
  have hLines : SameV4a (movingPatch "d").toList (movingPatch "*** Add File: /c").toList := by
    unfold SameV4a
    decide +kernel
  have hSame : SameInput (moving "d") (moving "*** Add File: /c") := by
    constructor <;> simp [moving, hField, hLines]
  have hPut : ∀ added ∈ ["d", "[c#12ab]"], IsHashline (puttingPatch added).toList := by
    intro added hAdded
    refine .of_lines ?_ ?_ <;> revert added <;> decide +kernel
  have hRows : SameHashline (puttingPatch "d").toList (puttingPatch "[c#12ab]").toList :=
    ⟨hPut _ (by simp), hPut _ (by simp), by decide +kernel⟩
  have hSame' : SameInput (putting "d") (putting "[c#12ab]") := by
    constructor <;> simp [putting, hField, hRows]
  obtain ⟨hEq, -, hSafe⟩ := content_names_no_file (moving "d") (moving "*** Add File: /c")
  exact ⟨(hEq hSame).symm, by decide +kernel, hSafe (by decide +kernel) (by decide +kernel),
    ((content_names_no_file _ _).1 hSame').symm, by decide +kernel⟩

end RustyBrain.Hooks
