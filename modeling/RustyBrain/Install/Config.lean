import RustyBrain.Lib.SortedMap

/-!
# The installer's edits of an agent's JSON configuration

`install` deep-merges a fragment into the user's configuration and unions
permission strings into `permissions.allow`; `uninstall` strips what carries the
sentinel and removes the same strings by value. The module holds the two
directions as the writer and the uninstaller compute them, on JSON values: the
text of the file, its backup and the atomic write are left out.

An object is `serde_json`'s ordered map, so it is the key-sorted list of its
members (`Json.Ordered`), and equality of values is equality of trees.
-/

namespace RustyBrain.Install

/-- `serde_json::Number`: a non-negative integer, a negative one, or a float. -/
inductive Number where
  | posInt (n : Nat)
  | negInt (n : Int)
  | float (q : ℚ)
deriving DecidableEq

/-- `serde_json::Value`. -/
inductive Json where
  | null
  | bool (b : Bool)
  | number (n : Number)
  | str (s : String)
  | arr (items : List Json)
  | obj (members : List (String × Json))

/-- The members of an object, by key. -/
abbrev Members : Type := List (String × Json)

/-- The key that marks what the installer owns. -/
def SENTINEL : String := "rusty-brain"

open SortedMap

namespace Json

/-- Induction over a JSON tree: a property of every item and of every member's
value passes to the container. -/
@[elab_as_elim]
theorem induct {P : Json → Prop} (null : P .null) (bool : ∀ b, P (.bool b))
    (number : ∀ n, P (.number n)) (str : ∀ s, P (.str s))
    (arr : ∀ items, (∀ v ∈ items, P v) → P (.arr items))
    (obj : ∀ members : Members, (∀ e ∈ members, P e.2) → P (.obj members)) (v : Json) : P v := by
  refine @Json.rec P (fun items => ∀ v ∈ items, P v) (fun members => ∀ e ∈ members, P e.2)
    (fun e => P e.2) null bool number str arr obj ?_ ?_ ?_ ?_ ?_ v
  · simp
  · intro v items hv hItems w hw
    rcases List.mem_cons.mp hw with rfl | hw
    · exact hv
    · exact hItems w hw
  · simp
  · intro e members he hMembers e' he'
    rcases List.mem_cons.mp he' with rfl | he'
    · exact he
    · exact hMembers e' he'
  · exact fun _ _ hv => hv

/-- Every object of the tree lists its members in key order. -/
inductive Ordered : Json → Prop
  | null : Ordered .null
  | bool (b : Bool) : Ordered (.bool b)
  | number (n : Number) : Ordered (.number n)
  | str (s : String) : Ordered (.str s)
  | arr (items : List Json) (h : ∀ v ∈ items, Ordered v) : Ordered (.arr items)
  | obj (members : Members) (hSorted : Sorted members) (h : ∀ e ∈ members, Ordered e.2) :
      Ordered (.obj members)

theorem arr_or (v : Json) : (∃ a, v = .arr a) ∨ ∀ a, v ≠ .arr a := by
  cases v <;> simp

theorem obj_or (v : Json) : (∃ m, v = .obj m) ∨ ∀ m, v ≠ .obj m := by
  cases v <;> simp

/-- `value.get(key)`: the member of an object; other values have none. -/
def get (key : String) : Json → Option Json
  | .obj members => lookup key members
  | _ => none

/-- `as_bool`. -/
def asBool : Json → Option Bool
  | .bool b => some b
  | _ => none

/-- The value is marked as ours: an object with `SENTINEL: true`. -/
def isSentinel (value : Json) : Bool :=
  ((value.get SENTINEL).bind asBool).getD false

/-- Coarse structural kind of a value. -/
inductive Kind where
  | null
  | scalar
  | array
  | object
deriving DecidableEq

def kindOf : Json → Kind
  | .null => .null
  | .arr _ => .array
  | .obj _ => .object
  | _ => .scalar

def isNonemptyContainer : Json → Bool
  | .arr a => !a.isEmpty
  | .obj o => !o.isEmpty
  | _ => false

def isEmptyContainer : Json → Bool
  | .arr a => a.isEmpty
  | .obj o => o.isEmpty
  | _ => false

/-- The value is the string `s`. -/
def isStr (s : String) : Json → Bool
  | .str t => t = s
  | _ => false

end Json

open Json

/-! ## Merging -/

mutual

/-- Deep-merge `fragment` into `base`, stripping prior sentinel items of arrays. -/
def mergeValue : Json → Json → Json
  | .obj b, .obj f => .obj (mergeMembers b f)
  | .arr b, .arr f => .arr (b.filter (fun e => !e.isSentinel) ++ f)
  | base, fragment =>
    let sameScalar := kindOf base = .scalar ∧ kindOf fragment = .scalar
    if kindOf base = .null ∨ sameScalar ∨ ¬base.isNonemptyContainer then fragment else base

/-- The loop over the fragment's members. -/
def mergeMembers (b : Members) : Members → Members
  | [] => b
  | (k, fv) :: f =>
    let merged := match lookup k b with
      | some bv => mergeValue bv fv
      | none => fv
    mergeMembers (insert k merged b) f

end

/-! ## Stripping -/

mutual

/-- Strip what carries the sentinel; the flag tells whether anything was removed. -/
def stripSentinelTracked : Json → Json × Bool
  | .arr items => (.arr (stripItems items).1, (stripItems items).2)
  | .obj map => (.obj (stripMembers map).1, (stripMembers map).2)
  | other => (other, false)

/-- The loop over an array: marked items are dropped. -/
def stripItems : List Json → List Json × Bool
  | [] => ([], false)
  | e :: items =>
    if e.isSentinel then ((stripItems items).1, true)
    else
      let (child, childRemoved) := stripSentinelTracked e
      (child :: (stripItems items).1, childRemoved || (stripItems items).2)

/-- The loop over an object: the sentinel key goes, and a container goes when it
is our removal that emptied it. -/
def stripMembers : Members → Members × Bool
  | [] => ([], false)
  | (k, v) :: map =>
    if k = SENTINEL then ((stripMembers map).1, true)
    else
      let (cleaned, childRemoved) := stripSentinelTracked v
      let emptiedByUs := childRemoved && cleaned.isEmptyContainer
      (if emptiedByUs then (stripMembers map).1 else (k, cleaned) :: (stripMembers map).1,
        childRemoved || (stripMembers map).2)

end

def stripSentinel (value : Json) : Json :=
  (stripSentinelTracked value).1

/-! ## Permission entries -/

/-- Push each entry the array does not hold yet; the flag tells whether one was. -/
def pushMissing (entries : List String) (allow : List Json) : List Json × Bool :=
  entries.foldl
    (fun (allow, changed) e =>
      if allow.any (isStr e) then (allow, changed) else (allow ++ [.str e], true))
    (allow, false)

/-- Union `entries` into `permissions.allow`; a malformed file, `permissions` or
`allow` is left as it is. -/
def ensureAllowEntries (entries : List String) (config : Json) : Json :=
  if entries.isEmpty then config
  else
    let root? : Option Members := match config with
      | .obj m => some m
      | .null => some []
      | _ => none
    match root? with
    | none => config
    | some root =>
      match (lookup "permissions" root).getD (.obj []) with
      | .obj perms =>
        match (lookup "allow" perms).getD (.arr []) with
        | .arr allow =>
          let (allow, changed) := pushMissing entries allow
          if changed then
            .obj (insert "permissions" (.obj (insert "allow" (.arr allow) perms)) root)
          else config
        | _ => config
      | _ => config

/-- Remove `entries` from `permissions.allow`, pruning what that emptied. -/
def removeAllowEntries (entries : List String) (config : Json) : Json :=
  if entries.isEmpty then config
  else
    match config with
    | .obj root =>
      match lookup "permissions" root with
      | some (.obj perms) =>
        match lookup "allow" perms with
        | some (.arr allow) =>
          let retained := allow.filter fun v => !entries.any fun e => isStr e v
          if retained.length = allow.length then config
          else
            let perms := if retained.isEmpty then erase "allow" perms
              else insert "allow" (.arr retained) perms
            .obj (if perms.isEmpty then erase "permissions" root
              else insert "permissions" (.obj perms) root)
        | _ => config
      | _ => config
    | _ => config

/-! ## The two directions -/

/-- A configuration object. -/
structure Document where
  members : Members
  ordered : (Json.obj members).Ordered

def Document.value (config : Document) : Json :=
  .obj config.members

/-- The JSON part of an installer's fragment: what is merged, and the strings for
`permissions.allow`. -/
structure HookFragment where
  merge : Json
  ordered : merge.Ordered
  allowEntries : List String

/-- Install: merge, then the allow entries. -/
def install (fragment : HookFragment) (config : Json) : Json :=
  ensureAllowEntries fragment.allowEntries (mergeValue config fragment.merge)

/-- Uninstall: strip, then the allow entries. -/
def uninstall (fragment : HookFragment) (config : Json) : Json :=
  removeAllowEntries fragment.allowEntries (stripSentinel config)

/-! ## What a merge holds -/

/-- A fragment's value over what the user has under its key. -/
def mergedAt : Option Json → Json → Json
  | some bv, fv => mergeValue bv fv
  | none, fv => fv

theorem mergeMembers_cons (b : Members) (k : String) (fv : Json) (f : Members) :
    mergeMembers b ((k, fv) :: f) = mergeMembers (insert k (mergedAt (lookup k b) fv) b) f := by
  rw [mergeMembers]
  cases lookup k b <;> rfl

theorem sorted_mergeMembers {b f : Members} (hb : Sorted b) : Sorted (mergeMembers b f) := by
  induction f generalizing b with
  | nil => rwa [mergeMembers]
  | cons e f ih =>
    rw [mergeMembers_cons]
    exact ih (hb.insert _ _)

/-- What a merged object holds under each key. -/
theorem merge_lookup {f : Members} (hf : Sorted f) (b : Members) (k : String) :
    lookup k (mergeMembers b f) =
      match lookup k f with
      | none => lookup k b
      | some fv => some (mergedAt (lookup k b) fv) := by
  induction f generalizing b with
  | nil => rw [mergeMembers, lookup_nil]
  | cons e f ih =>
    obtain ⟨k', fv⟩ := e
    obtain ⟨hHead, hTail⟩ := List.pairwise_cons.mp hf
    rw [mergeMembers_cons, ih hTail, lookup_insert, lookup_cons]
    by_cases hk : k' = k
    · -- the fragment names a key once, so the rest of the loop leaves it alone
      subst hk
      rw [lookup_eq_none fun e he => (hHead e he).ne', if_pos rfl, if_pos rfl]
    · rw [if_neg hk, if_neg hk]

/-! ## What a strip leaves -/

/-- Our removal is what emptied the value. -/
def emptied (stripped : Json × Bool) : Bool :=
  stripped.2 && stripped.1.isEmptyContainer

/-- What stripping an object leaves of the member `k`. -/
def kept (k : String) (v : Json) : Option Json :=
  if k = SENTINEL then none
  else if emptied (stripSentinelTracked v) then none
  else some (stripSentinelTracked v).1

/-- Stripping an object rewrites it member by member. -/
theorem stripMembers_eq (m : Members) : (stripMembers m).1 = keep kept m := by
  induction m with
  | nil => rfl
  | cons e m ih =>
    obtain ⟨k, v⟩ := e
    rw [stripMembers, keep, List.filterMap_cons, ← keep, ← ih]
    by_cases hk : k = SENTINEL
    · simp [kept, hk]
    · cases hEmptied : emptied (stripSentinelTracked v) with
      | true =>
        rw [show kept k v = none by simp [kept, hEmptied]]
        simp only [emptied] at hEmptied
        simp [hk, hEmptied]
      | false =>
        rw [show kept k v = some (stripSentinelTracked v).1 by simp [kept, hk, hEmptied]]
        simp only [emptied] at hEmptied
        simp [hk, hEmptied]

theorem stripMembers_removed {m : Members} {e : String × Json} (he : e ∈ m)
    (hGone : kept e.1 e.2 = none) : (stripMembers m).2 = true := by
  induction m with
  | nil => simp at he
  | cons e' m ih =>
    obtain ⟨k, v⟩ := e'
    rw [stripMembers]
    by_cases hk : k = SENTINEL
    · rw [if_pos hk]
    · rw [if_neg hk]
      rcases List.mem_cons.mp he with rfl | he
      · simp only [kept, if_neg hk, emptied] at hGone
        simp_all
      · simp [ih he]

theorem stripItems_append (a b : List Json) :
    stripItems (a ++ b) =
      ((stripItems a).1 ++ (stripItems b).1, (stripItems a).2 || (stripItems b).2) := by
  induction a with
  | nil => simp [stripItems]
  | cons e a ih =>
    rw [List.cons_append, stripItems, stripItems, ih]
    split <;> simp [Bool.or_assoc]

variable {items : List Json}

/-- Marked items all go. -/
theorem stripItems_marked (h : ∀ v ∈ items, v.isSentinel = true) :
    stripItems items = ([], !items.isEmpty) := by
  induction items with
  | nil => rfl
  | cons e items ih =>
    rw [stripItems, if_pos (h e List.mem_cons_self),
      ih fun v hv => h v (List.mem_cons_of_mem _ hv)]
    rfl

/-- No object of the tree has a member under the sentinel key. -/
inductive Json.Clean : Json → Prop
  | null : Clean .null
  | bool (b : Bool) : Clean (.bool b)
  | number (n : Number) : Clean (.number n)
  | str (s : String) : Clean (.str s)
  | arr (items : List Json) (h : ∀ v ∈ items, Clean v) : Clean (.arr items)
  | obj (members : Members) (hKeys : ∀ e ∈ members, e.1 ≠ SENTINEL)
      (h : ∀ e ∈ members, Clean e.2) : Clean (.obj members)

theorem Json.Clean.not_isSentinel {v : Json} (h : v.Clean) : v.isSentinel = false := by
  cases h with
  | obj members hKeys _ => simp [isSentinel, Json.get, lookup_eq_none hKeys]
  | _ => rfl

theorem stripItems_clean
    (h : ∀ v ∈ items, v.isSentinel = false ∧ stripSentinelTracked v = (v, false)) :
    stripItems items = (items, false) := by
  induction items with
  | nil => rfl
  | cons e items ih =>
    obtain ⟨hMark, hStrip⟩ := h e List.mem_cons_self
    rw [stripItems, ih fun v hv => h v (List.mem_cons_of_mem _ hv), hMark, hStrip]
    rfl

theorem stripMembers_clean {m : Members}
    (h : ∀ e ∈ m, e.1 ≠ SENTINEL ∧ stripSentinelTracked e.2 = (e.2, false)) :
    stripMembers m = (m, false) := by
  induction m with
  | nil => rfl
  | cons e m ih =>
    obtain ⟨hKey, hStrip⟩ := h e List.mem_cons_self
    rw [stripMembers, ih fun v hv => h v (List.mem_cons_of_mem _ hv), if_neg hKey, hStrip]
    rfl

/-- A tree without the sentinel key is left as it is. -/
theorem Json.Clean.strip {v : Json} (h : v.Clean) : stripSentinelTracked v = (v, false) := by
  induction h with
  | arr items h ih =>
    rw [stripSentinelTracked, stripItems_clean fun v hv => ⟨(h v hv).not_isSentinel, ih v hv⟩]
  | obj members hKeys _ ih =>
    rw [stripSentinelTracked, stripMembers_clean fun e he => ⟨hKeys e he, ih e he⟩]
  | _ => rw [stripSentinelTracked] <;> simp

theorem clean_stripItems
    (h : ∀ v ∈ items, (stripSentinelTracked v).1.Clean) : ∀ v ∈ (stripItems items).1, v.Clean := by
  induction items with
  | nil => simp [stripItems]
  | cons e items ih =>
    have hTail := ih fun v hv => h v (List.mem_cons_of_mem _ hv)
    rw [stripItems]
    split
    · exact hTail
    · intro v hv
      rcases List.mem_cons.mp hv with rfl | hv
      · exact h e List.mem_cons_self
      · exact hTail v hv

theorem kept_eq_some {k : String} {v w : Json} (h : kept k v = some w) :
    k ≠ SENTINEL ∧ w = (stripSentinelTracked v).1 := by
  unfold kept at h
  split_ifs at h with hk hEmptied
  exact ⟨hk, (Option.some.inj h).symm⟩

/-- A strip leaves the sentinel key nowhere. -/
theorem Json.clean_strip (v : Json) : (stripSentinelTracked v).1.Clean := by
  induction v using Json.induct with
  | null => exact .null
  | bool b => exact .bool b
  | number n => exact .number n
  | str s => exact .str s
  | arr items ih =>
    rw [stripSentinelTracked]
    exact .arr _ (clean_stripItems ih)
  | obj members ih =>
    rw [stripSentinelTracked, stripMembers_eq]
    have hMember : ∀ e ∈ keep kept members, e.1 ≠ SENTINEL ∧ e.2.Clean := by
      intro e he
      obtain ⟨w, hMem, hKept⟩ := mem_keep.mp he
      obtain ⟨hKey, hEq⟩ := kept_eq_some hKept
      exact ⟨hKey, hEq ▸ ih _ hMem⟩
    exact .obj _ (fun e he => (hMember e he).1) (fun e he => (hMember e he).2)

end RustyBrain.Install
