import RustyBrain.Install.Fits

/-!
# Installing and uninstalling, as one round trip

Whether `uninstall` gives back the configuration `install` was given. The
permission strings carry no mark: they are added by value behind the user's own
items of `permissions.allow` and removed by value, and a level that this leaves
empty is pruned, so they have conditions of their own (`PermissionsFit`) beside
those of the merge.

* `root_restored_iff` — when the whole root comes back.
-/

namespace RustyBrain.Install

open SortedMap Json

variable {added : List Json} {k : String} {fv v : Json} {m perms root : Members} {allow : List Json}

/-! ## The permission entries -/

theorem isStr_iff {s : String} : isStr s v = true ↔ v = .str s := by
  cases v <;> simp [isStr]

/-- The value is one of the entries. -/
def isEntry (entries : List String) (v : Json) : Bool :=
  entries.any fun e => isStr e v

theorem isEntry_iff {entries : List String} :
    isEntry entries v = true ↔ ∃ e ∈ entries, v = .str e := by
  simp [isEntry, isStr_iff]

variable (entries : List String)

/-- The induction is on the entries; what is added is new. -/
theorem pushMissing_foldl (allow : List Json) (changed : Bool) :
    ∃ added : List Json,
      entries.foldl
          (fun (allow, changed) e =>
            if allow.any (isStr e) then (allow, changed) else (allow ++ [.str e], true))
          (allow, changed) = (allow ++ added, changed || !added.isEmpty) ∧
      (∀ v ∈ added, isEntry entries v = true) ∧ ∀ e ∈ entries, .str e ∈ allow ++ added := by
  induction entries generalizing allow changed with
  | nil => exact ⟨[], by simp⟩
  | cons e entries ih =>
    rw [List.foldl_cons]
    by_cases hHeld : allow.any (isStr e) = true
    · obtain ⟨added, hFold, hEntries, hHolds⟩ := ih allow changed
      refine ⟨added, by simpa only [hHeld, if_true] using hFold, ?_, ?_⟩
      · intro v hv
        obtain ⟨e', he', rfl⟩ := isEntry_iff.mp (hEntries v hv)
        exact isEntry_iff.mpr ⟨e', List.mem_cons_of_mem _ he', rfl⟩
      · intro e' he'
        rcases List.mem_cons.mp he' with rfl | he'
        · obtain ⟨v, hv, hStr⟩ := List.any_eq_true.mp hHeld
          exact List.mem_append_left _ (isStr_iff.mp hStr ▸ hv)
        · exact hHolds e' he'
    · obtain ⟨added, hFold, hEntries, hHolds⟩ := ih (allow ++ [.str e]) true
      refine ⟨.str e :: added, ?_, ?_, ?_⟩
      · simpa [hHeld] using hFold
      · intro v hv
        rcases List.mem_cons.mp hv with rfl | hv
        · exact isEntry_iff.mpr ⟨e, List.mem_cons_self, rfl⟩
        · obtain ⟨e', he', rfl⟩ := isEntry_iff.mp (hEntries v hv)
          exact isEntry_iff.mpr ⟨e', List.mem_cons_of_mem _ he', rfl⟩
      · intro e' he'
        rcases List.mem_cons.mp he' with rfl | he'
        · simp
        · simpa using hHolds e' he'

/-- What `pushMissing` appends: entries only, and so many that each is held. -/
theorem pushMissing_spec (allow : List Json) :
    ∃ added : List Json, pushMissing entries allow = (allow ++ added, !added.isEmpty) ∧
      (∀ v ∈ added, isEntry entries v = true) ∧ ∀ e ∈ entries, .str e ∈ allow ++ added := by
  obtain ⟨added, hFold, hEntries, hHolds⟩ := pushMissing_foldl entries allow false
  exact ⟨added, by rw [pushMissing, hFold, Bool.false_or], hEntries, hHolds⟩

variable {entries}

theorem insert_lookup (hm : Sorted m) (h : lookup k m = some v) :
    insert k v m = m := by
  refine (hm.insert k v).ext hm fun j => ?_
  rw [lookup_insert]
  split_ifs with hj
  · rw [← hj, h]
  · rfl

/-- A root object whose `permissions.allow` the installer can extend: both levels
are absent or of the right kind. -/
structure Extendable (root perms : Members) (allow : List Json) : Prop where
  permissions : (lookup "permissions" root).getD (.obj []) = .obj perms
  allow : (lookup "allow" perms).getD (.arr []) = .arr allow

/-- Adding the entries: `permissions.allow` holds them all, behind what was there. -/
theorem ensureAllowEntries_extendable (hne : entries ≠ [])
    (h : Extendable root perms allow) (hRoot : Sorted root) (hPerms : Sorted perms) :
    ∃ added : List Json, (∀ v ∈ added, isEntry entries v = true) ∧
      (∀ e ∈ entries, .str e ∈ allow ++ added) ∧
      ensureAllowEntries entries (.obj root) =
        .obj (insert "permissions" (.obj (insert "allow" (.arr (allow ++ added)) perms)) root) := by
  obtain ⟨added, hPush, hEntries, hHolds⟩ := pushMissing_spec entries allow
  refine ⟨added, hEntries, hHolds, ?_⟩
  have hEnsure : ensureAllowEntries entries (.obj root) =
      if (!added.isEmpty) = true then
        .obj (insert "permissions" (.obj (insert "allow" (.arr (allow ++ added)) perms)) root)
      else .obj root := by
    rw [ensureAllowEntries, if_neg (by simpa using hne)]
    simp only [h.permissions, h.allow, hPush]
  rw [hEnsure]
  cases added with
  | cons v added => simp
  | nil =>
    -- nothing to write: the entries are there, so both levels are
    obtain ⟨e, he⟩ := List.exists_mem_of_ne_nil entries hne
    have hMem : Json.str e ∈ allow := by simpa using hHolds e he
    have hAllow : lookup "allow" perms = some (.arr allow) := by
      cases hl : lookup "allow" perms with
      | none =>
        have := h.allow
        rw [hl, Option.getD_none, Json.arr.injEq] at this
        rw [← this] at hMem
        simp at hMem
      | some v => rw [← h.allow, hl, Option.getD_some]
    have hPermissions : lookup "permissions" root = some (.obj perms) := by
      cases hl : lookup "permissions" root with
      | none =>
        have := h.permissions
        rw [hl, Option.getD_none, Json.obj.injEq] at this
        rw [← this] at hAllow
        simp at hAllow
      | some v => rw [← h.permissions, hl, Option.getD_some]
    simp [insert_lookup hPerms hAllow, insert_lookup hRoot hPermissions]

theorem stripItems_str {s : String} {items : List Json} (h : .str s ∈ items) :
    .str s ∈ (stripItems items).1 := by
  induction items with
  | nil => simp at h
  | cons e items ih =>
    rw [stripItems]
    rcases List.mem_cons.mp h with rfl | h
    · simp [isSentinel, Json.get, stripSentinelTracked]
    · split
      · exact ih h
      · exact List.mem_cons_of_mem _ (ih h)

theorem stripItems_entries
    (h : ∀ v ∈ added, isEntry entries v = true) : stripItems added = (added, false) := by
  refine stripItems_clean fun v hv => ?_
  obtain ⟨e, -, rfl⟩ := isEntry_iff.mp (h v hv)
  exact ⟨rfl, rfl⟩

/-- The user's own items of `allow`: what a strip leaves, less the entries. -/
def retained (entries : List String) (allow : List Json) : List Json :=
  (stripItems allow).1.filter fun v => !isEntry entries v

/-- What was added is what is taken out. -/
theorem retained_append (h : ∀ v ∈ added, isEntry entries v = true) :
    retained entries (allow ++ added) = retained entries allow := by
  have hNone : added.filter (fun v => !isEntry entries v) = [] := by
    refine List.filter_eq_nil_iff.mpr fun v hv => ?_
    rw [h v hv]
    simp
  rw [retained, retained, stripItems_append, stripItems_entries h, List.filter_append, hNone,
    List.append_nil]

/-- An object as a member of another: an empty one is not kept. -/
def nonempty (members : Members) : Option Json :=
  if members.isEmpty then none else some (.obj members)

/-- What the two steps leave of a `permissions` object whose `allow` was extended. -/
def remaining (entries : List String) (perms : Members) (allow : List Json) : Members :=
  if (retained entries allow).isEmpty then erase "allow" (keep kept perms)
  else insert "allow" (.arr (retained entries allow)) (keep kept perms)

theorem sorted_remaining (h : Sorted perms) :
    Sorted (remaining entries perms allow) :=
  (h.keep kept).ite _ _ _

theorem lookup_remaining (h : Sorted perms) (k : String) :
    lookup k (remaining entries perms allow) =
      if k = "allow" then
        if (retained entries allow).isEmpty then none else some (.arr (retained entries allow))
      else (lookup k perms).bind (kept k) := by
  rw [remaining, lookup_ite, h.lookup_keep]

/-- What the two steps leave of `permissions`. -/
def permissionsLeft (entries : List String) : Option Json → Option Json
  | none => none
  | some (.obj p) =>
    match lookup "allow" p with
    | none => nonempty (remaining entries p [])
    | some (.arr a) => nonempty (remaining entries p a)
    | some _ => kept "permissions" (.obj p)
  | some v => kept "permissions" v

theorem permissionsLeft_array {a : List Json} (h : (lookup "allow" m).getD (.arr []) = .arr a) :
    permissionsLeft entries (some (.obj m)) = nonempty (remaining entries m a) := by
  cases hl : lookup "allow" m with
  | none =>
    rw [hl, Option.getD_none, Json.arr.injEq] at h
    simp [permissionsLeft, hl, h]
  | some v =>
    rw [hl, Option.getD_some] at h
    simp [permissionsLeft, hl, h]

theorem Extendable.left (h : Extendable root perms allow) :
    permissionsLeft entries (lookup "permissions" root) = nonempty (remaining entries perms allow) := by
  cases hl : lookup "permissions" root with
  | none =>
    obtain ⟨hPerms, hAllow⟩ := h
    rw [hl, Option.getD_none, Json.obj.injEq] at hPerms
    subst hPerms
    rw [← Json.arr.inj hAllow]
    rfl
  | some v =>
    have hv : v = .obj perms := by rw [← h.permissions, hl, Option.getD_some]
    rw [hv, permissionsLeft_array h.allow]

/-- The root after the two steps: every other key is as stripped. -/
structure UninstalledRoot (entries : List String) (m r : Members) : Prop where
  sorted : Sorted r
  others : ∀ k, k ≠ "permissions" → lookup k r = (lookup k m).bind (kept k)
  permissions : lookup "permissions" r = permissionsLeft entries (lookup "permissions" m)

/-- The strip leaves the list of entries, so that the removal finds it. -/
theorem allow_kept (hne : entries ≠ [])
    (h : ∀ e ∈ entries, .str e ∈ allow) :
    kept "allow" (.arr allow) = some (.arr (stripItems allow).1) ∧
      (retained entries allow).length ≠ (stripItems allow).1.length := by
  obtain ⟨e, he⟩ := List.exists_mem_of_ne_nil entries hne
  have hMem : Json.str e ∈ (stripItems allow).1 := stripItems_str (h e he)
  constructor
  · refine kept_eq_some_iff.mpr ⟨by decide, ?_, by rw [stripSentinelTracked]⟩
    rw [stripSentinelTracked, emptied]
    have : ((stripItems allow).1).isEmpty = false := by
      cases hItems : (stripItems allow).1 with
      | nil => rw [hItems] at hMem; simp at hMem
      | cons v items => rfl
    simp [isEmptyContainer, this]
  · intro hLen
    have := List.length_filter_eq_length_iff.mp hLen _ hMem
    rw [isEntry_iff.mpr ⟨e, he, rfl⟩] at this
    simp at this

/-- Uninstalling after the entries were added behind the user's own. -/
theorem uninstalledRoot_extendable (hne : entries ≠ [])
    (h : Extendable root perms allow) (hRoot : Sorted root) (hPerms : Sorted perms) :
    ∃ r : Members, removeAllowEntries entries
        (stripSentinel (ensureAllowEntries entries (.obj root))) = .obj r ∧
      UninstalledRoot entries root r := by
  obtain ⟨added, hEntries, hHolds, hEnsure⟩ := ensureAllowEntries_extendable hne h hRoot hPerms
  obtain ⟨hAllowKept, hLen⟩ := allow_kept hne hHolds
  generalize hp : insert "allow" (Json.arr (allow ++ added)) perms = p at hEnsure
  have hpSorted : Sorted p := hp ▸ hPerms.insert _ _
  have hAllow : lookup "allow" (keep kept p) = some (.arr (stripItems (allow ++ added)).1) := by
    rw [hpSorted.lookup_keep, ← hp, lookup_insert, if_pos rfl, Option.bind_some, hAllowKept]
  -- `allow` holds an entry, so the strip prunes neither level
  have hPermsKept : kept "permissions" (.obj p) = some (.obj (keep kept p)) := by
    refine kept_eq_some_iff.mpr ⟨by decide, ?_, by rw [stripSentinelTracked, stripMembers_eq]⟩
    rw [stripSentinelTracked, emptied, stripMembers_eq]
    cases hk : keep kept p with
    | nil => rw [hk] at hAllow; simp at hAllow
    | cons e l => simp [isEmptyContainer]
  have hInserted : Sorted (insert "permissions" (Json.obj p) root) := hRoot.insert _ _
  have hStrip : stripSentinel (ensureAllowEntries entries (.obj root)) =
      .obj (keep kept (insert "permissions" (.obj p) root)) := by
    rw [hEnsure, stripSentinel, stripSentinelTracked, stripMembers_eq]
  have hPermissions : lookup "permissions" (keep kept (insert "permissions" (Json.obj p) root)) =
      some (.obj (keep kept p)) := by
    rw [hInserted.lookup_keep, lookup_insert, if_pos rfl, Option.bind_some, hPermsKept]
  have hOthers : ∀ k, k ≠ "permissions" →
      lookup k (keep kept (insert "permissions" (Json.obj p) root)) =
        (lookup k root).bind (kept k) := by
    intro k hk
    rw [hInserted.lookup_keep, lookup_insert, if_neg hk.symm]
  -- the removal then leaves the user's own items
  have hRemaining : (if (retained entries (allow ++ added)).isEmpty then
        erase "allow" (keep kept p)
      else insert "allow" (.arr (retained entries (allow ++ added))) (keep kept p)) =
      remaining entries perms allow := by
    rw [retained_append hEntries]
    refine ((hpSorted.keep kept).ite _ _ _).ext (sorted_remaining hPerms) fun k => ?_
    rw [lookup_remaining hPerms, lookup_ite]
    refine ite_congr rfl (fun _ => rfl) fun hk => ?_
    rw [hpSorted.lookup_keep, ← hp, lookup_insert, if_neg (Ne.symm hk)]
  have hRemove : removeAllowEntries entries
      (.obj (keep kept (insert "permissions" (.obj p) root))) =
      .obj (if (remaining entries perms allow).isEmpty then
          erase "permissions" (keep kept (insert "permissions" (.obj p) root))
        else insert "permissions" (.obj (remaining entries perms allow))
          (keep kept (insert "permissions" (.obj p) root))) := by
    rw [removeAllowEntries, if_neg (by simpa using hne)]
    simp only [hPermissions, hAllow]
    rw [if_neg, ← hRemaining]
    · rfl
    · exact hLen
  rw [hStrip, hRemove]
  refine ⟨_, rfl, ?_, ?_, ?_⟩
  · exact (hInserted.keep kept).ite _ _ _
  · intro k hk
    rw [lookup_ite, if_neg hk, hOthers k hk]
  · rw [h.left, nonempty, lookup_ite, if_pos rfl]

theorem stripped_not_obj (h : ∀ p, v ≠ .obj p) (q : Members) :
    (stripSentinelTracked v).1 ≠ .obj q := by
  cases v <;> simp_all [stripSentinelTracked]

theorem stripped_not_arr (h : ∀ a, v ≠ .arr a) (b : List Json) :
    (stripSentinelTracked v).1 ≠ .arr b := by
  cases v <;> simp_all [stripSentinelTracked]

/-- A malformed `permissions` or `allow`: neither step touches the file, so the
root is as stripped. -/
theorem uninstalledRoot_malformed (hRoot : Sorted root)
    (hEnsure : ensureAllowEntries entries (.obj root) = .obj root)
    (hRemove : ∀ p a, (lookup "permissions" root).bind (kept "permissions") = some (.obj p) →
      lookup "allow" p ≠ some (.arr a)) :
    removeAllowEntries entries (stripSentinel (ensureAllowEntries entries (.obj root))) =
      .obj (keep kept root) := by
  rw [hEnsure, stripSentinel, stripSentinelTracked, stripMembers_eq, removeAllowEntries]
  split
  · rfl
  · simp only [hRoot.lookup_keep]
    split
    · next p hp =>
      split
      · next a ha => exact absurd ha (hRemove p a hp)
      · rfl
    · rfl

/-- What stripping and removing leave under each key of the root. -/
theorem uninstalledRoot (hne : entries ≠ []) (hm : (Json.obj m).Ordered) :
    ∃ r : Members, removeAllowEntries entries
        (stripSentinel (ensureAllowEntries entries (.obj m))) = .obj r ∧
      UninstalledRoot entries m r := by
  obtain - | - | - | - | - | ⟨_, hmSorted, hmValues⟩ := hm
  have hNonempty : ¬entries.isEmpty = true := by simpa using hne
  -- where neither step acts, the root is as stripped
  have hStripped : removeAllowEntries entries
        (stripSentinel (ensureAllowEntries entries (.obj m))) = .obj (keep kept m) →
      permissionsLeft entries (lookup "permissions" m) =
        (lookup "permissions" m).bind (kept "permissions") →
      ∃ r : Members, removeAllowEntries entries
          (stripSentinel (ensureAllowEntries entries (.obj m))) = .obj r ∧
        UninstalledRoot entries m r := fun hEq hLeft =>
    ⟨_, hEq, hmSorted.keep kept, fun k _ => hmSorted.lookup_keep kept k,
      by rw [hmSorted.lookup_keep, hLeft]⟩
  cases hl : lookup "permissions" m with
  | none => exact uninstalledRoot_extendable hne ⟨by rw [hl]; rfl, rfl⟩ hmSorted List.Pairwise.nil
  | some v =>
    rcases v.obj_or with ⟨p, rfl⟩ | hObj
    · have hp : (Json.obj p).Ordered := hmValues _ (mem_of_lookup hl)
      obtain - | - | - | - | - | ⟨_, hpSorted, -⟩ := hp
      rcases ((lookup "allow" p).getD (.arr [])).arr_or with ⟨a, ha⟩ | hNot
      · exact uninstalledRoot_extendable hne ⟨by rw [hl]; rfl, ha⟩ hmSorted hpSorted
      · cases ha : lookup "allow" p with
        | none => exact absurd (by rw [ha]; rfl) (hNot [])
        | some w =>
          have hArr : ∀ a, w ≠ .arr a := by simpa [ha] using hNot
          refine hStripped (uninstalledRoot_malformed hmSorted ?_ ?_) ?_
          · rw [ensureAllowEntries, if_neg hNonempty]
            cases w <;> simp_all
          · intro q a hq hqa
            rw [hl, Option.bind_some] at hq
            obtain ⟨-, hq⟩ := kept_eq_some hq
            rw [stripSentinelTracked, stripMembers_eq, Json.obj.injEq] at hq
            rw [hq, hpSorted.lookup_keep, ha, Option.bind_some] at hqa
            exact stripped_not_arr hArr a (kept_eq_some hqa).2.symm
          · rw [hl, permissionsLeft, ha]
            cases w <;> simp_all
    · refine hStripped (uninstalledRoot_malformed hmSorted ?_ ?_) ?_
      · rw [ensureAllowEntries, if_neg hNonempty]
        cases v <;> simp_all
      · intro q a hq _
        rw [hl, Option.bind_some] at hq
        exact stripped_not_obj hObj q (kept_eq_some hq).2.symm
      · rw [hl]
        cases v <;> simp_all [permissionsLeft]

/-! ## The whole round trip -/

/-- The user's `permissions` object against the fragment's, when entries are added:
an `allow` array of the user's is not empty and holds none of the entries, and the
object itself is not empty. -/
def AllowFits (entries : List String) (p f : Members) : Prop :=
  match lookup "allow" p, lookup "allow" f with
  | some (.arr xs), _ =>
    FitsMembers p (erase "allow" f) ∧ xs ≠ [] ∧ ∀ v ∈ xs, isEntry entries v = false
  | none, none => FitsMembers p (erase "allow" f) ∧ p ≠ []
  | none, some (.arr _) => FitsMembers p (erase "allow" f) ∧ p ≠ []
  | _, _ => Fits (.obj p) (.obj f)

/-- What the user and the fragment have under `permissions`, when entries are added. -/
def PermissionsFit (entries : List String) : Option Json → Option Json → Prop
  | none, none => True
  | none, some (.obj f) =>
    match lookup "allow" f with
    | none => FitsMembers [] (erase "allow" f)
    | some (.arr _) => FitsMembers [] (erase "allow" f)
    | some _ => Vanishes (.obj f)
  | none, some fv => Vanishes fv
  | some (.obj p), some (.obj f) => AllowFits entries p f
  | some (.obj p), _ => AllowFits entries p []
  | some _, none => True
  | some bv, some fv => Fits bv fv

/-- The members of a fragment, and the entries, against those of the user's root. -/
def RootFits (entries : List String) (b f : Members) : Prop :=
  if entries.isEmpty then FitsMembers b f
  else FitsMembers b (erase "permissions" f) ∧
    PermissionsFit entries (lookup "permissions" b) (lookup "permissions" f)

section Permissions

variable {b f : Members}

theorem erase_fits_iff (hf : Sorted f) (key : String) :
    FitsMembers b (erase key f) ↔
      ∀ k, k ≠ key → ∀ fv, lookup k f = some fv → FitsAt k (lookup k b) fv := by
  rw [fitsMembers_lookup (hf.erase key)]
  refine forall_congr' fun k => ?_
  by_cases hk : k = key
  · simp [lookup_erase, hk]
  · simp [lookup_erase, hk]

theorem nonempty_eq_some {p : Members} : nonempty m = some (.obj p) ↔ m = p ∧ p ≠ [] := by
  unfold nonempty
  cases m with
  | nil => simp
  | cons e m =>
    simp only [List.isEmpty_cons, Bool.false_eq_true, if_false, Option.some.injEq, Json.obj.injEq]
    constructor
    · rintro rfl
      simp
    · exact fun h => h.1

theorem nonempty_eq_none : nonempty m = none ↔ m = [] := by
  unfold nonempty
  cases m <;> simp

theorem remaining_eq_iff {p : Members} (hm : Sorted m) (hp : Sorted p) :
    remaining entries m allow = p ↔
      (∀ k, k ≠ "allow" → (lookup k m).bind (kept k) = lookup k p) ∧
        (if (retained entries allow).isEmpty then none
          else some (Json.arr (retained entries allow))) = lookup "allow" p := by
  constructor
  · rintro rfl
    refine ⟨fun k hk => ?_, ?_⟩
    · rw [lookup_remaining hm, if_neg hk]
    · rw [lookup_remaining hm, if_pos rfl]
  · rintro ⟨hOthers, hAllow⟩
    refine (sorted_remaining hm).ext hp fun k => ?_
    rw [lookup_remaining hm]
    by_cases hk : k = "allow"
    · rw [if_pos hk, hk, hAllow]
    · rw [if_neg hk, hOthers k hk]

theorem retained_marked {ys : List Json} (h : ∀ v ∈ ys, v.isSentinel = true) :
    retained entries ys = [] := by
  rw [retained, stripItems_marked h]
  rfl

theorem retained_clean_append {xs ys : List Json} (hx : ∀ v ∈ xs, v.Clean)
    (h : ∀ v ∈ ys, v.isSentinel = true) :
    retained entries (xs ++ ys) = xs.filter fun v => !isEntry entries v := by
  rw [retained, stripItems_append, stripItems_marked h,
    stripItems_clean fun v hv => ⟨(hx v hv).not_isSentinel, (hx v hv).strip⟩]
  simp

/-- The user's array comes back exactly when it is not empty and holds no entry. -/
theorem own_items_restored {xs : List Json} :
    (if (xs.filter fun v => !isEntry entries v).isEmpty then none
        else some (Json.arr (xs.filter fun v => !isEntry entries v))) = some (.arr xs) ↔
      xs ≠ [] ∧ ∀ v ∈ xs, isEntry entries v = false := by
  constructor
  · intro h
    split_ifs at h with hEmpty
    have hEq : xs.filter (fun v => !isEntry entries v) = xs := by simpa using h
    refine ⟨?_, fun v hv => ?_⟩
    · rintro rfl
      simp at hEmpty
    · simpa using List.filter_eq_self.mp hEq v hv
  · rintro ⟨hNe, hNone⟩
    have hEq : xs.filter (fun v => !isEntry entries v) = xs :=
      List.filter_eq_self.mpr fun v hv => by rw [hNone v hv]; rfl
    rw [hEq, if_neg (by simpa using hNe)]

/-- An `allow` that is no array is only stripped. -/
theorem permissionsLeft_malformed {w : Json} (h : lookup "allow" m = some w)
    (hw : ∀ a, w ≠ .arr a) :
    permissionsLeft entries (some (.obj m)) = kept "permissions" (.obj m) := by
  cases w <;> simp_all [permissionsLeft]

theorem Fits.at_key (hk : k ≠ SENTINEL) (h : Fits (.obj b) (.obj f)) {bv : Json}
    (hb : lookup k b = some bv) (hf : lookup k f = some fv) : Fits bv fv := by
  rw [Fits, fitsMembers_iff] at h
  have hAt := h.1 _ (mem_of_lookup hf)
  rw [hb, FitsAt] at hAt
  exact hAt.resolve_left hk

section

variable (hb : (Json.obj b).Clean)
  (hbo : (Json.obj b).Ordered)
  (hf : MarkedArrays (.obj f))
  (hfo : (Json.obj f).Ordered)

include hb hbo hf hfo

/-- What both sides have under one key. -/
theorem value_restored_iff {fv bv : Json} (hlf : lookup k f = some fv)
    (hlb : lookup k b = some bv) : StripsTo (mergeValue bv fv) bv ↔ Fits bv fv := by
  obtain - | - | - | - | - | ⟨_, -, hbValues⟩ := hbo
  obtain - | - | - | - | - | ⟨_, -, hfValues⟩ := hfo
  obtain - | - | - | - | - | ⟨_, hMarked⟩ := hf
  exact merged_restored_iff (clean_members hb hlb).2 (hbValues _ (mem_of_lookup hlb))
    (hMarked _ (mem_of_lookup hlf)) (hfValues _ (mem_of_lookup hlf))

/-- All keys but one of a merged object are restored exactly when the fragment's
other members fit. -/
theorem others_restored_iff (key : String) :
    (∀ k, k ≠ key → (lookup k (mergeMembers b f)).bind (kept k) = lookup k b) ↔
      FitsMembers b (erase key f) := by
  have hfs : Sorted f := by cases hfo; assumption
  have hMarked : ∀ e ∈ f, MarkedArrays e.2 := by cases hf; assumption
  rw [erase_fits_iff hfs]
  exact forall₂_congr fun k _ => key_restored_iff hb hfs hMarked k fun fv bv =>
    value_restored_iff hb hbo hf hfo

/-- Objects on both sides, `allow` absent or an array once merged. -/
theorem permissions_restored_of_array {a : List Json}
    (ha : (lookup "allow" (mergeMembers b f)).getD (.arr []) = .arr a) :
    permissionsLeft entries (some (.obj (mergeMembers b f))) = some (.obj b) ↔
      FitsMembers b (erase "allow" f) ∧
        ((if (retained entries a).isEmpty then none else some (Json.arr (retained entries a))) =
          lookup "allow" b) ∧ b ≠ [] := by
  have hbs : Sorted b := by cases hbo; assumption
  rw [permissionsLeft_array ha, nonempty_eq_some, remaining_eq_iff (sorted_mergeMembers hbs) hbs,
    others_restored_iff hb hbo hf hfo, and_assoc]

/-- Objects on both sides, `allow` malformed once merged. -/
theorem permissions_restored_of_malformed {w : Json}
    (hl : lookup "allow" (mergeMembers b f) = some w) (hw : ∀ a, w ≠ .arr a) :
    permissionsLeft entries (some (.obj (mergeMembers b f))) = some (.obj b) ↔
      Fits (.obj b) (.obj f) := by
  rw [permissionsLeft_malformed hl hw, kept_stripsTo (by decide), ← mergeValue]
  exact merged_restored_iff hb hbo hf hfo

theorem permissions_restored_iff :
    permissionsLeft entries (some (.obj (mergeMembers b f))) = some (.obj b) ↔
      AllowFits entries b f := by
  have hArray := @permissions_restored_of_array entries b f hb hbo hf hfo
  have hMalformed := @permissions_restored_of_malformed entries b f hb hbo hf hfo
  have hfs : Sorted f := by cases hfo; assumption
  have hMarked : ∀ ys, lookup "allow" f = some (.arr ys) → ∀ v ∈ ys, v.isSentinel = true := by
    intro ys hys
    obtain - | - | - | - | - | ⟨_, hMembers⟩ := hf
    obtain - | - | - | - | ⟨_, hItems⟩ := hMembers _ (mem_of_lookup hys)
    exact hItems
  have hMerged := merge_lookup hfs b "allow"
  cases hx : lookup "allow" b with
  | none =>
    cases hy : lookup "allow" f with
    | none =>
      simp only [hx, hy] at hMerged
      rw [hArray (a := []) (by rw [hMerged]; rfl), AllowFits, hx, hy]
      simp [retained, stripItems]
    | some fv =>
      simp only [hx, hy, mergedAt] at hMerged
      rcases fv.arr_or with ⟨ys, rfl⟩ | hfv
      · rw [hArray (a := ys) (by rw [hMerged]; rfl), AllowFits, hx, hy,
          retained_marked (hMarked ys hy)]
        simp
      · rw [hMalformed hMerged hfv, AllowFits, hx, hy]
        cases fv <;> simp_all
  | some bv =>
    have hbNe : b ≠ [] := by
      rintro rfl
      simp at hx
    rcases bv.arr_or with ⟨xs, rfl⟩ | hbv
    · have hClean : ∀ v ∈ xs, v.Clean := by
        obtain - | - | - | - | ⟨_, h⟩ := (clean_members hb hx).2
        exact h
      -- whatever array `allow` is merged to, the user's own items are what is left
      have hOwn : ∀ ys, (∀ v ∈ ys, v.isSentinel = true) →
          lookup "allow" (mergeMembers b f) = some (.arr (xs ++ ys)) →
          (permissionsLeft entries (some (.obj (mergeMembers b f))) = some (.obj b) ↔
            AllowFits entries b f) := by
        intro ys hys hl
        rw [hArray (by rw [hl]; rfl), retained_clean_append hClean hys, hx, own_items_restored,
          AllowFits, hx]
        simp [hbNe]
      cases hy : lookup "allow" f with
      | none =>
        simp only [hx, hy] at hMerged
        exact hOwn [] (by simp) (by rw [hMerged, List.append_nil])
      | some fv =>
        simp only [hx, hy, mergedAt] at hMerged
        rcases fv.arr_or with ⟨ys, rfl⟩ | hfv
        · refine hOwn ys (hMarked ys hy) ?_
          have hKeep : xs.filter (fun e => !e.isSentinel) = xs := by
            refine List.filter_eq_self.mpr fun v hv => ?_
            rw [(hClean v hv).not_isSentinel]
            rfl
          rw [hMerged, mergeValue, hKeep]
        · have hMismatch : mergeValue (.arr xs) fv = if xs.isEmpty then fv else .arr xs := by
            rw [mergeValue_mismatch (by simp) fun _ y h => hfv y h.2]
            cases xs <;> rfl
          cases xs with
          | cons x xs =>
            refine hOwn [] (by simp) ?_
            rw [hMerged, List.append_nil, hMismatch]
            rfl
          | nil =>
            -- the fragment overwrote the user's empty array
            have hNot : ¬Fits (.obj b) (.obj f) := by
              intro h
              have := h.at_key (by decide) hx hy
              rw [fits_mismatch (by simp) fun _ y h => hfv y h.2] at this
              rcases this with h | h
              · simp [isNonemptyContainer] at h
              · exact hfv _ h.symm
            rw [hMismatch] at hMerged
            rw [hMalformed hMerged hfv, AllowFits, hx]
            simp [hNot]
    · have hFits : AllowFits entries b f = Fits (.obj b) (.obj f) := by
        rw [AllowFits, hx]
        cases bv <;> simp_all
      rw [hFits]
      cases hy : lookup "allow" f with
      | none =>
        simp only [hx, hy] at hMerged
        exact hMalformed hMerged hbv
      | some fv =>
        simp only [hx, hy, mergedAt] at hMerged
        rcases (mergeValue bv fv).arr_or with ⟨a, ha⟩ | hm
        · -- the fragment's array took the place of the user's value
          rw [ha] at hMerged
          rw [hArray (by rw [hMerged]; rfl), hx]
          refine iff_of_false ?_ ?_
          · rintro ⟨-, h, -⟩
            split_ifs at h
            exact hbv _ (Option.some.inj h).symm
          · intro h
            have hStrips := (value_restored_iff hb hbo hf hfo hy hx).mpr
              (h.at_key (by decide) hx hy)
            rw [ha, StripsTo, stripSentinelTracked] at hStrips
            exact hbv _ hStrips.2.symm
        · exact hMalformed hMerged hm

end

theorem mergeMembers_nil_left (hf : Sorted f) : mergeMembers [] f = f := by
  refine (sorted_mergeMembers List.Pairwise.nil).ext hf fun k => ?_
  rw [merge_lookup hf]
  cases lookup k f <;> rfl

/-- `permissions` of the fragment alone: whether anything of it stays behind. -/
theorem fragment_permissions_gone_iff (hf : MarkedArrays fv) (hfo : fv.Ordered) :
    permissionsLeft entries (some fv) = none ↔ PermissionsFit entries none (some fv) := by
  have hClean : (Json.obj []).Clean := .obj _ (by simp) (by simp)
  have hOrdered : (Json.obj []).Ordered := .obj _ List.Pairwise.nil (by simp)
  have hKept : kept "permissions" fv = none ↔ Vanishes fv := by
    rw [kept_eq_none_iff, emptied_iff_vanishes hf, or_iff_right (by decide)]
  cases fv with
  | obj f =>
    have hfs : Sorted f := by cases hfo; assumption
    -- an `allow` array of the fragment's holds marked items only, and nothing of it stays
    have hGone : ∀ a, (lookup "allow" f).getD (.arr []) = .arr a → retained entries a = [] →
        (permissionsLeft entries (some (.obj f)) = none ↔ FitsMembers [] (erase "allow" f)) := by
      intro a ha hRetained
      rw [permissionsLeft_array ha, nonempty_eq_none, remaining_eq_iff hfs List.Pairwise.nil,
        ← others_restored_iff hClean hOrdered hf hfo, mergeMembers_nil_left hfs, hRetained]
      simp
    cases hl : lookup "allow" f with
    | none =>
      rw [PermissionsFit, hl]
      exact hGone [] (by rw [hl]; rfl) rfl
    | some w =>
      rcases w.arr_or with ⟨a, rfl⟩ | hw
      · obtain - | - | - | - | - | ⟨_, hMarked⟩ := hf
        obtain - | - | - | - | ⟨_, hItems⟩ := hMarked _ (mem_of_lookup hl)
        rw [PermissionsFit, hl]
        exact hGone a (by rw [hl]; rfl) (retained_marked hItems)
      · rw [permissionsLeft_malformed hl hw, hKept, PermissionsFit, hl]
        cases w <;> simp_all
  | _ => exact hKept

theorem permissionsLeft_obj_ne (hv : ∀ p, v ≠ .obj p) :
    permissionsLeft entries (some (.obj m)) ≠ some v := by
  have hNonempty : ∀ m, nonempty m ≠ some v := by
    intro m h
    unfold nonempty at h
    split_ifs at h
    exact hv _ (Option.some.inj h).symm
  intro h
  cases hl : lookup "allow" m with
  | none =>
    rw [permissionsLeft_array (by rw [hl]; rfl)] at h
    exact hNonempty _ h
  | some w =>
    rcases w.arr_or with ⟨a, rfl⟩ | hw
    · rw [permissionsLeft_array (by rw [hl]; rfl)] at h
      exact hNonempty _ h
    · rw [permissionsLeft_malformed hl hw] at h
      have := (kept_eq_some h).2
      rw [stripSentinelTracked] at this
      exact hv _ this

theorem permissionsLeft_other (hv : ∀ p, v ≠ .obj p) :
    permissionsLeft entries (some v) = kept "permissions" v := by
  cases v <;> simp_all [permissionsLeft]

/-- `permissions` on both sides. -/
theorem both_permissions_restored_iff {bv : Json} (hb : bv.Clean) (hbo : bv.Ordered)
    (hf : MarkedArrays fv) (hfo : fv.Ordered) :
    permissionsLeft entries (some (mergeValue bv fv)) = some bv ↔
      PermissionsFit entries (some bv) (some fv) := by
  rcases bv.obj_or with ⟨p, rfl⟩ | hbv
  · rcases fv.obj_or with ⟨f, rfl⟩ | hfv
    · rw [mergeValue, PermissionsFit]
      exact permissions_restored_iff hb hbo hf hfo
    · have hFit : PermissionsFit entries (some (.obj p)) (some fv) = AllowFits entries p [] := by
        cases fv <;> simp_all [PermissionsFit]
      have hMismatch : mergeValue (.obj p) fv = if p.isEmpty then fv else .obj p := by
        rw [mergeValue_mismatch (fun _ y h => hfv y h.2) (by simp)]
        cases p <;> rfl
      rw [hFit, hMismatch]
      cases p with
      | nil =>
        -- the fragment overwrote the user's empty object
        refine iff_of_false (fun h => ?_) (by simp [AllowFits])
        rw [List.isEmpty_nil, if_pos rfl, permissionsLeft_other hfv] at h
        exact stripped_not_obj hfv _ (kept_eq_some h).2.symm
      | cons e p =>
        exact permissions_restored_iff (f := []) hb hbo (.obj _ (by simp))
          (.obj _ List.Pairwise.nil (by simp))
  · have hFit : PermissionsFit entries (some bv) (some fv) = Fits bv fv := by
      cases bv <;> simp_all [PermissionsFit]
    rw [hFit]
    rcases (mergeValue bv fv).obj_or with ⟨m, hm⟩ | hm
    · rw [hm]
      refine iff_of_false (permissionsLeft_obj_ne hbv) fun h => ?_
      have hStrips := (merged_restored_iff hb hbo hf hfo).mpr h
      rw [hm, StripsTo, stripSentinelTracked] at hStrips
      exact hbv _ hStrips.2.symm
    · rw [permissionsLeft_other hm, kept_stripsTo (by decide)]
      exact merged_restored_iff hb hbo hf hfo

/-- `permissions` comes back exactly when what the two sides have there fits. -/
theorem permissionsLeft_merged_iff (hb : (Json.obj b).Clean) (hbo : (Json.obj b).Ordered)
    (hf : MarkedArrays (.obj f)) (hfo : (Json.obj f).Ordered) :
    permissionsLeft entries (lookup "permissions" (mergeMembers b f)) = lookup "permissions" b ↔
      PermissionsFit entries (lookup "permissions" b) (lookup "permissions" f) := by
  obtain - | - | - | - | - | ⟨_, hbs, hbValues⟩ := hbo
  obtain - | - | - | - | - | ⟨_, hfs, hfValues⟩ := hfo
  obtain - | - | - | - | - | ⟨_, hMarked⟩ := hf
  rw [merge_lookup hfs]
  cases hy : lookup "permissions" f with
  | none =>
    cases hx : lookup "permissions" b with
    | none => simp [permissionsLeft, PermissionsFit]
    | some bv =>
      have hClean := (clean_members hb hx).2
      have hOrdered := hbValues _ (mem_of_lookup hx)
      cases bv with
      | obj p =>
        exact permissions_restored_iff (f := []) hClean hOrdered (.obj _ (by simp))
          (.obj _ List.Pairwise.nil (by simp))
      | _ =>
        simp only [permissionsLeft, PermissionsFit, iff_true]
        exact (kept_stripsTo (by decide)).mpr (hClean.stripsTo.mpr rfl)
  | some fv =>
    have hfv := hMarked _ (mem_of_lookup hy)
    have hfvOrdered := hfValues _ (mem_of_lookup hy)
    cases hx : lookup "permissions" b with
    | none =>
      simp only [mergedAt]
      exact fragment_permissions_gone_iff hfv hfvOrdered
    | some bv =>
      simp only [mergedAt]
      exact both_permissions_restored_iff (clean_members hb hx).2
        (hbValues _ (mem_of_lookup hx)) hfv hfvOrdered

end Permissions

/-- The whole root comes back exactly when the fragment and the entries fit it. -/
theorem root_restored_iff {b f : Members} (hb : (Json.obj b).Clean)
    (hbo : (Json.obj b).Ordered) (hf : MarkedArrays (.obj f)) (hfo : (Json.obj f).Ordered) :
    removeAllowEntries entries
        (stripSentinel (ensureAllowEntries entries (.obj (mergeMembers b f)))) = .obj b ↔
      RootFits entries b f := by
  have hbs : Sorted b := by cases hbo; assumption
  have hfs : Sorted f := by cases hfo; assumption
  have hMarked : ∀ e ∈ f, MarkedArrays e.2 := by cases hf; assumption
  unfold RootFits
  cases entries with
  | nil =>
    have hEnsure : ∀ v, ensureAllowEntries [] v = v := fun _ => rfl
    have hRemove : ∀ v, removeAllowEntries [] v = v := fun _ => rfl
    rw [hEnsure, hRemove, List.isEmpty_nil, if_pos rfl, stripSentinel, stripSentinelTracked,
      Json.obj.injEq]
    exact members_restored_iff hb hbs hfs hMarked fun k fv bv => value_restored_iff hb hbo hf hfo
  | cons e entries =>
    have hMerged : (Json.obj (mergeMembers b f)).Ordered := by
      rw [← mergeValue]
      exact ordered_mergeValue hbo hfo
    obtain ⟨r, hEq, hRoot⟩ := uninstalledRoot (List.cons_ne_nil e entries) hMerged
    rw [hEq, Json.obj.injEq, List.isEmpty_cons, if_neg Bool.false_ne_true,
      ← others_restored_iff hb hbo hf hfo, ← permissionsLeft_merged_iff hb hbo hf hfo]
    constructor
    · rintro rfl
      exact ⟨fun k hk => (hRoot.others k hk).symm, hRoot.permissions.symm⟩
    · rintro ⟨hOthers, hPerms⟩
      refine hRoot.sorted.ext hbs fun k => ?_
      by_cases hk : k = "permissions"
      · rw [hk, hRoot.permissions, hPerms]
      · rw [hRoot.others k hk, hOthers k hk]

theorem clean_removeAllowEntries (h : v.Clean) :
    (removeAllowEntries entries v).Clean := by
  have hErase : ∀ {m : Members} (k : String), (Json.obj m).Clean → (Json.obj (erase k m)).Clean := by
    rintro m k (_ | _ | _ | _ | _ | ⟨_, hKeys, hValues⟩)
    exact .obj _ (fun e he => hKeys e (List.mem_of_mem_filter he))
      (fun e he => hValues e (List.mem_of_mem_filter he))
  have hInsert : ∀ {m : Members} {k : String} {w : Json}, k ≠ SENTINEL → w.Clean →
      (Json.obj m).Clean → (Json.obj (insert k w m)).Clean := by
    rintro m k w hk hw (_ | _ | _ | _ | _ | ⟨_, hKeys, hValues⟩)
    refine .obj _ (fun e he => ?_) (fun e he => ?_) <;> rcases mem_insert he with rfl | he
    · exact hk
    · exact hKeys e he
    · exact hw
    · exact hValues e he
  unfold removeAllowEntries
  split
  · exact h
  split
  case h_2 => exact h
  next root =>
  split
  case h_2 => exact h
  next perms hPerms =>
  split
  case h_2 => exact h
  next allow hAllow =>
  have hPermsClean := (clean_members h hPerms).2
  have hItems : ∀ v ∈ allow, v.Clean := by
    obtain - | - | - | - | ⟨_, hItems⟩ := (clean_members hPermsClean hAllow).2
    exact hItems
  dsimp only
  split
  · exact h
  · have hPermission : ∀ {w : Json}, w.Clean → (Json.obj (insert "permissions" w root)).Clean :=
      fun hw => hInsert (by decide) hw h
    split
    · split
      · exact hErase _ h
      · exact hPermission (hErase _ hPermsClean)
    · split
      · exact hErase _ h
      · refine hPermission (hInsert (by decide) ?_ hPermsClean)
        exact .arr _ fun v hv => hItems v (List.mem_of_mem_filter hv)

/-- When `uninstall` gives back the configuration. A fragment that is no object is
merged only into an empty configuration, which it overwrites; adding entries then
turns `null` into an object again, and nothing else. -/
def RoundTrips (fragment : HookFragment) (config : Document) : Prop :=
  config.value.Clean ∧
    match fragment.merge with
    | .obj f => RootFits fragment.allowEntries config.members f
    | .null =>
      if config.members.isEmpty then fragment.allowEntries ≠ []
      else RootFits fragment.allowEntries config.members []
    | _ => config.members ≠ [] ∧ RootFits fragment.allowEntries config.members []

theorem ensureAllowEntries_null (hne : entries ≠ []) :
    ensureAllowEntries entries .null = ensureAllowEntries entries (.obj []) := by
  obtain ⟨added, hPush, -, hHolds⟩ := pushMissing_spec entries []
  obtain ⟨e, he⟩ := List.exists_mem_of_ne_nil entries hne
  have hAdded : added ≠ [] := by
    rintro rfl
    simpa using hHolds e he
  have hEmpty : added.isEmpty = false := by simpa using hAdded
  simp [ensureAllowEntries, hPush, hEmpty, hne]

/-- A value that is no object stays one through both steps, `null` apart. -/
theorem uninstalled_not_obj (hObj : ∀ p, v ≠ .obj p)
    (hNull : v = .null → entries = []) (q : Members) :
    removeAllowEntries entries (stripSentinel (ensureAllowEntries entries v)) ≠ .obj q := by
  have hEnsure : ensureAllowEntries entries v = v := by
    unfold ensureAllowEntries
    cases v <;> simp_all
  have hRemove : ∀ w : Json, (∀ p, w ≠ .obj p) → removeAllowEntries entries w = w := by
    intro w hw
    unfold removeAllowEntries
    cases w <;> simp_all
  rw [hEnsure, stripSentinel, hRemove _ (stripped_not_obj hObj)]
  exact stripped_not_obj hObj q

/-- Uninstalling gives back the user's configuration exactly when the fragment and
its entries fit it. -/
theorem uninstall_restores_iff (fragment : HookFragment) (config : Document)
    (hMarked : MarkedArrays fragment.merge) :
    uninstall fragment (install fragment config.value) = config.value ↔
      RoundTrips fragment config := by
  -- nothing a strip leaves holds the sentinel key, so a configuration that has it is lost
  have hClean : uninstall fragment (install fragment config.value) = config.value →
      config.value.Clean := by
    intro h
    rw [← h]
    exact clean_removeAllowEntries (clean_strip _)
  obtain ⟨merge, hfo, entries⟩ := fragment
  obtain ⟨b, hbo⟩ := config
  have hNilMarked : MarkedArrays (.obj []) := .obj _ (by simp)
  have hNilOrdered : (Json.obj []).Ordered := .obj _ List.Pairwise.nil (by simp)
  -- a fragment that is no object leaves a non-empty configuration as it is
  have hOther : (∀ f, merge ≠ .obj f) → b ≠ [] →
      mergeValue (.obj b) merge = .obj (mergeMembers b []) := by
    intro hm hb
    rw [mergeValue_mismatch (fun _ y h => hm y h.2) (by simp), mergeMembers]
    cases b with
    | nil => exact absurd rfl hb
    | cons e b => rfl
  have hOverwritten : (∀ f, merge ≠ .obj f) → mergeValue (.obj []) merge = merge := by
    intro hm
    rw [mergeValue_mismatch (fun _ y h => hm y h.2) (by simp)]
    rfl
  simp only [RoundTrips, install, uninstall, Document.value] at hClean ⊢
  suffices h : (Json.obj b).Clean → (removeAllowEntries entries (stripSentinel
      (ensureAllowEntries entries (mergeValue (.obj b) merge))) = .obj b ↔ _) from
    ⟨fun hEq => ⟨hClean hEq, (h (hClean hEq)).mp hEq⟩, fun hFits => (h hFits.1).mpr hFits.2⟩
  intro hb
  cases merge with
  | obj f =>
    rw [mergeValue]
    exact root_restored_iff hb hbo hMarked hfo
  | null =>
    cases b with
    | nil =>
      rw [hOverwritten (by simp), List.isEmpty_nil, if_pos rfl]
      constructor
      · rintro h rfl
        exact uninstalled_not_obj (by simp) (by simp) _ h
      · intro hne
        rw [ensureAllowEntries_null hne]
        refine (root_restored_iff hb hbo hNilMarked hNilOrdered).mpr ?_
        simp [RootFits, hne, erase, FitsMembers, PermissionsFit]
    | cons e b =>
      rw [hOther (by simp) (by simp)]
      exact root_restored_iff hb hbo hNilMarked hNilOrdered
  | _ =>
    cases b with
    | nil =>
      rw [hOverwritten (by simp)]
      refine iff_of_false (uninstalled_not_obj (by simp) (by simp) _) (by simp)
    | cons e b =>
      rw [hOther (by simp) (by simp)]
      simpa using root_restored_iff hb hbo hNilMarked hNilOrdered

theorem Json.Ordered.single {key : String} {v : Json} (h : v.Ordered) :
    (Json.obj [(key, v)]).Ordered :=
  .obj _ (by simp [Sorted]) (List.forall_mem_singleton.mpr h)

/-- A fragment of one marked hook group, with one permission entry. -/
def stopHook : HookFragment where
  merge := .obj [("hooks", .obj [("Stop", .arr [.obj [(SENTINEL, .bool true)]])])]
  ordered := .single (.single (.arr _ (List.forall_mem_singleton.mpr (.single (.bool true)))))
  allowEntries := ["mcp__rusty-brain__recall"]

theorem stopHook_marked : MarkedArrays stopHook.merge := by
  refine .obj _ (List.forall_mem_singleton.mpr ?_)
  refine .obj _ (List.forall_mem_singleton.mpr ?_)
  refine .arr _ (List.forall_mem_singleton.mpr ?_)
  rfl

/-- A configuration whose user allows `tool`. -/
def allowing (tool : String) : Document where
  members := [("permissions", .obj [("allow", .arr [.str tool])])]
  ordered := .single (.single (.arr _ (List.forall_mem_singleton.mpr (.str tool))))

theorem allowing_clean (tool : String) : (allowing tool).value.Clean := by
  refine .obj _ (by simp [allowing, SENTINEL]) (List.forall_mem_singleton.mpr ?_)
  refine .obj _ (by simp [SENTINEL]) (List.forall_mem_singleton.mpr ?_)
  refine .arr _ (List.forall_mem_singleton.mpr ?_)
  exact .str tool

/-- The user's own items come back beside the entry. -/
theorem uninstall_restores_iff_bash :
    uninstall stopHook (install stopHook (allowing "Bash").value) = (allowing "Bash").value := by
  refine (uninstall_restores_iff stopHook (allowing "Bash") stopHook_marked).mpr ?_
  refine ⟨allowing_clean _, ?_⟩
  simp [stopHook, allowing, RootFits, erase, FitsMembers, lookup, Vanishes, VanishMembers,
    PermissionsFit, AllowFits, isEntry, isStr]

/-- An entry the user already had goes with ours. -/
theorem uninstall_loses_user_entry :
    (allowing "mcp__rusty-brain__recall").value.Clean ∧ MarkedArrays stopHook.merge ∧
      uninstall stopHook (install stopHook (allowing "mcp__rusty-brain__recall").value) = .obj [] ∧
      uninstall stopHook (install stopHook (allowing "mcp__rusty-brain__recall").value) ≠
        (allowing "mcp__rusty-brain__recall").value := by
  have hResult :
      uninstall stopHook (install stopHook (allowing "mcp__rusty-brain__recall").value) = .obj [] := by
    rfl
  refine ⟨allowing_clean _, stopHook_marked, hResult, ?_⟩
  rw [hResult]
  simp [Document.value, allowing]

end RustyBrain.Install
