import RustyBrain.Install.Fits

/-!
# Installing over an earlier installation

A merge drops the marked items of an array only where the new fragment has an array as well.
What it does to the arrays of a configuration is said one path of keys at a time, and from
that follow the three things expected of installing again: a second merge changes nothing,
the user's own items stay as they are, and the items of an earlier fragment are replaced. The
last holds wherever the later fragment has an array at the place, and only there.
-/

namespace RustyBrain.Install

open SortedMap Json

variable {p : List String}

/-- The array that a path of keys leads to. -/
def Json.arrayAt : List String → Json → Option (List Json)
  | [], .arr items => some items
  | k :: p, .obj m => (lookup k m).bind (arrayAt p)
  | _, _ => none

/-- Its items. -/
def Json.items (p : List String) (v : Json) : List Json := (v.arrayAt p).getD []

/-- A merge puts the array that a fragment has at the path: no container of another kind that
is not empty stands in the way. -/
def Json.admits : List String → Json → Bool
  | [], .arr _ => true
  | k :: p, .obj m =>
    match lookup k m with
    | some v => v.admits p
    | none => true
  | _, v => !v.isNonemptyContainer

/-- A fragment of the installer. -/
structure OwnedFragment where
  value : Json
  ordered : value.Ordered
  marked : MarkedArrays value

/-! ## One path of a merge -/

variable {b f : Json}

theorem items_obj (k : String) (p : List String) (m : Members) :
    (Json.obj m).items (k :: p) = ((lookup k m).map (Json.items p)).getD [] := by
  rw [Json.items, Json.arrayAt]
  cases lookup k m <;> rfl

theorem admits_of_items (h : b.items p ≠ []) : b.admits p = true := by
  induction p generalizing b with
  | nil => cases b <;> simp_all [Json.items, Json.arrayAt, Json.admits]
  | cons k p ih =>
    cases b with
    | obj m =>
      rw [items_obj] at h
      unfold Json.admits
      cases hl : lookup k m with
      | none => rfl
      | some v =>
        rw [hl] at h
        exact ih h
    | _ => exact absurd rfl h

/-- Values of different kinds. -/
theorem items_mismatch (p : List String) (hObj : ∀ x y, ¬(b = .obj x ∧ f = .obj y))
    (hArr : ∀ x y, ¬(b = .arr x ∧ f = .arr y)) :
    (mergeValue b f).items p = if (f.arrayAt p).isSome ∧ b.admits p then
      (b.items p).filter (fun e => !e.isSentinel) ++ f.items p else b.items p := by
  rw [mergeValue_mismatch hObj hArr]
  cases hKept : b.isNonemptyContainer with
  | true =>
    -- the fragment's array is of another kind than what is kept
    cases p <;> cases b <;> cases f <;>
      simp_all [Json.items, Json.arrayAt, Json.admits, isNonemptyContainer]
  | false =>
    have hNone : b.items p = [] ∧ b.admits p = true := by
      cases p <;> cases b <;> simp_all [Json.items, Json.arrayAt, Json.admits, isNonemptyContainer]
    rw [hNone.1, hNone.2]
    cases hArray : f.arrayAt p <;> simp [Json.items, hArray]

theorem merge_kinds (b f : Json) : (∃ x y, b = .obj x ∧ f = .obj y) ∨
    (∃ x y, b = .arr x ∧ f = .arr y) ∨
    (∀ x y, ¬(b = .obj x ∧ f = .obj y)) ∧ ∀ x y, ¬(b = .arr x ∧ f = .arr y) := by
  by_cases hObj : ∃ x y, b = .obj x ∧ f = .obj y
  · exact .inl hObj
  · by_cases hArr : ∃ x y, b = .arr x ∧ f = .arr y
    · exact .inr (.inl hArr)
    · exact .inr (.inr ⟨fun x y h => hObj ⟨x, y, h⟩, fun x y h => hArr ⟨x, y, h⟩⟩)

/-- What a merge leaves at the end of a path: the fragment's items behind the user's where it
has an array and gets through to it, and otherwise what was there. -/
theorem items_mergeValue (hf : f.Ordered) (p : List String) :
    (mergeValue b f).items p = if (f.arrayAt p).isSome ∧ b.admits p then
      (b.items p).filter (fun e => !e.isSentinel) ++ f.items p else b.items p := by
  induction p generalizing b f with
  | nil =>
    rcases merge_kinds b f with ⟨x, y, rfl, rfl⟩ | ⟨x, y, rfl, rfl⟩ | ⟨hObj, hArr⟩
    · simp [mergeValue, Json.items, Json.arrayAt]
    · simp [mergeValue, Json.items, Json.arrayAt, Json.admits]
    · exact items_mismatch _ hObj hArr
  | cons k p ih =>
    rcases merge_kinds b f with ⟨x, y, rfl, rfl⟩ | ⟨x, y, rfl, rfl⟩ | ⟨hObj, hArr⟩
    · obtain - | - | - | - | - | ⟨_, hSorted, hValues⟩ := hf
      rw [mergeValue, items_obj, merge_lookup hSorted, items_obj, items_obj, Json.arrayAt,
        Json.admits]
      cases hlf : lookup k y with
      | none => simp
      | some fv =>
        cases hlb : lookup k x with
        | none => cases hArray : fv.arrayAt p <;> simp [mergedAt, Json.items, hArray]
        | some bv => exact ih (hValues _ (mem_of_lookup hlf))
    · simp [mergeValue, Json.items, Json.arrayAt]
    · exact items_mismatch _ hObj hArr

/-! ## Merging again -/

theorem filter_marked {items : List Json} (h : ∀ e ∈ items, e.isSentinel = true) :
    items.filter (fun e => !e.isSentinel) = [] := by
  simpa [List.filter_eq_nil_iff] using h

theorem mergeValue_self (hf : MarkedArrays f) (hfo : f.Ordered) : mergeValue f f = f := by
  induction hf with
  | arr items hMarked => rw [mergeValue, filter_marked hMarked, List.nil_append]
  | obj members _ ih =>
    obtain - | - | - | - | - | ⟨_, hSorted, hValues⟩ := hfo
    rw [mergeValue]
    refine congrArg _ ((sorted_mergeMembers hSorted).ext hSorted fun k => ?_)
    rw [merge_lookup hSorted]
    cases hl : lookup k members with
    | none => rfl
    | some v =>
      have hMem := mem_of_lookup hl
      exact congrArg some (ih _ hMem (hValues _ hMem))
  | _ => rw [mergeValue_mismatch (by simp) (by simp), ite_self]

theorem mismatch_twice (hObj : ∀ x y, ¬(b = .obj x ∧ f = .obj y))
    (hArr : ∀ x y, ¬(b = .arr x ∧ f = .arr y)) (hSelf : mergeValue f f = f) :
    mergeValue (mergeValue b f) f = mergeValue b f := by
  have hMerged := mergeValue_mismatch hObj hArr
  split_ifs at hMerged with hKept
  · rw [hMerged, hMerged]
  · rw [hMerged, hSelf]

/-- Merging again changes nothing. -/
theorem mergeValue_twice (hf : MarkedArrays f) (hfo : f.Ordered) (hb : b.Ordered) :
    mergeValue (mergeValue b f) f = mergeValue b f := by
  have hSelf := mergeValue_self hf hfo
  induction hf generalizing b with
  | arr items hMarked =>
    cases b with
    | arr xs => simp [mergeValue, filter_marked hMarked]
    | _ => exact mismatch_twice (by simp) (by simp) hSelf
  | obj members hMarked ih =>
    cases b with
    | obj m =>
      obtain - | - | - | - | - | ⟨_, hSorted, hValues⟩ := hfo
      obtain - | - | - | - | - | ⟨_, hm, hOrdered⟩ := hb
      simp only [mergeValue]
      have hOnce := sorted_mergeMembers (f := members) hm
      refine congrArg _ ((sorted_mergeMembers hOnce).ext hOnce fun k => ?_)
      rw [merge_lookup hSorted, merge_lookup hSorted]
      cases hl : lookup k members with
      | none => rfl
      | some fv =>
        have hMem := mem_of_lookup hl
        have hOwn := mergeValue_self (hMarked _ hMem) (hValues _ hMem)
        refine congrArg some ?_
        cases hlm : lookup k m with
        | none => exact hOwn
        | some bv => exact ih _ hMem (hValues _ hMem) (hOrdered _ (mem_of_lookup hlm)) hOwn
    | _ => exact mismatch_twice (by simp) (by simp) hSelf
  | _ => exact mismatch_twice (by simp) (by simp) hSelf

/-! ## The items of the user and of the fragments -/

theorem items_marked (hf : MarkedArrays f) (p : List String) :
    ∀ e ∈ f.items p, e.isSentinel = true := by
  induction p generalizing f with
  | nil =>
    cases hf with
    | arr items hMarked => exact hMarked
    | _ => exact fun e he => nomatch he
  | cons k p ih =>
    cases hf with
    | obj members hMarked =>
      rw [items_obj]
      cases hl : lookup k members with
      | none => exact fun e he => nomatch he
      | some v => exact ih (hMarked _ (mem_of_lookup hl))
    | _ => exact fun e he => nomatch he

theorem items_unmarked (f : OwnedFragment) (p : List String) :
    ((mergeValue b f.value).items p).filter (fun e => !e.isSentinel) =
      (b.items p).filter fun e => !e.isSentinel := by
  rw [items_mergeValue f.ordered]
  split_ifs
  · rw [List.filter_append, filter_marked (items_marked f.marked p), List.filter_filter]
    simp
  · rfl

/-- Any number of merges leave the user's items. -/
theorem items_unmarked_fold (fs : List OwnedFragment) (p : List String) :
    ((fs.foldl (fun v f => mergeValue v f.value) b).items p).filter (fun e => !e.isSentinel) =
      (b.items p).filter fun e => !e.isSentinel := by
  induction fs generalizing b with
  | nil => rfl
  | cons f fs ih => rw [List.foldl_cons, ih, items_unmarked]

/-- What is left of a fragment's item when another fragment is merged over it. -/
theorem items_replaced_iff {f g : OwnedFragment} {e : Json}
    (he : e ∈ f.value.items p) (hGone : e ∉ g.value.items p) :
    e ∉ (mergeValue (mergeValue b f.value) g.value).items p ↔
      (b.admits p = true → (g.value.arrayAt p).isSome) := by
  have hMark := items_marked f.marked p e he
  have hArray : (f.value.arrayAt p).isSome := by
    cases h : f.value.arrayAt p with
    | none => simp [Json.items, h] at he
    | some items => rfl
  have hFirst := items_mergeValue (b := b) f.ordered p
  rw [items_mergeValue g.ordered]
  by_cases hAdmits : b.admits p = true
  · rw [if_pos ⟨hArray, hAdmits⟩] at hFirst
    have hIn : e ∈ (mergeValue b f.value).items p := hFirst ▸ List.mem_append_right _ he
    have hThrough := admits_of_items (List.ne_nil_of_mem hIn)
    simp only [hThrough, and_true, hAdmits, true_imp_iff]
    split_ifs with hOver
    · simp [hGone, hMark, hOver]
    · simp [hIn, hOver]
  · -- nothing of the fragment got there
    have hNone : b.items p = [] := by
      by_contra hSome
      exact hAdmits (admits_of_items hSome)
    rw [if_neg (fun h => hAdmits h.2), hNone] at hFirst
    rw [hFirst]
    split_ifs <;> simp [hGone, hAdmits]

/-- Installing again: the second merge of a fragment changes nothing and the user's items
stay, in their order, through any merges; and a later fragment replaces an earlier one
exactly when it has an array wherever the earlier one put items. -/
theorem reinstall_replaces_iff (b : { v : Json // v.Ordered }) (f g : OwnedFragment) :
    (mergeValue (mergeValue b f.value) f.value = mergeValue b f.value ∧
      (∀ p, ∀ e ∈ f.value.items p, e ∉ g.value.items p →
        e ∉ (mergeValue (mergeValue b f.value) g.value).items p) ∧
      ∀ (fs : List OwnedFragment) p,
        ((fs.foldl (fun v f => mergeValue v f.value) b.1).items p).filter
            (fun e => !e.isSentinel) =
          (b.1.items p).filter fun e => !e.isSentinel) ↔
      ∀ p, b.1.admits p = true → f.value.items p ≠ [] → (g.value.arrayAt p).isSome := by
  constructor
  · rintro ⟨-, hReplaced, -⟩ p hAdmits hItems
    obtain ⟨e, he⟩ := List.exists_mem_of_ne_nil _ hItems
    by_contra hNone
    have hGone : e ∉ g.value.items p := by simp_all [Json.items]
    exact hNone ((items_replaced_iff he hGone).mp (hReplaced p e he hGone) hAdmits)
  · intro hPlaces
    refine ⟨mergeValue_twice f.marked f.ordered b.2, ?_, fun fs p => items_unmarked_fold fs p⟩
    intro p e he hGone
    exact (items_replaced_iff he hGone).mpr fun hAdmits =>
      hPlaces p hAdmits (List.ne_nil_of_mem he)

/-- The entry of a command, as the installer marks it. -/
def hookOf (command : String) : Json := .obj [("command", .str command), (SENTINEL, .bool true)]

/-- A release that installs one hook. -/
def release (event command : String) : OwnedFragment where
  value := .obj [(event, .arr [hookOf command])]
  ordered := by
    refine .obj _ (List.pairwise_singleton _ _) ?_
    simp only [List.mem_singleton, forall_eq]
    refine .arr _ ?_
    simp only [List.mem_singleton, forall_eq]
    have hKeys : "command" < SENTINEL := by decide
    refine .obj _ (List.pairwise_pair.mpr hKeys) ?_
    simp [Ordered.str, Ordered.bool]
  marked := by
    refine .obj _ ?_
    simp only [List.mem_singleton, forall_eq]
    refine .arr _ ?_
    simp [hookOf, isSentinel, Json.get, lookup, SENTINEL, asBool]

/-- The next release has another command for the event: the result, in an empty configuration. -/
theorem reinstall_replaces_iff_release :
    hookOf "flush" ∉ (mergeValue (mergeValue (.obj []) (release "Stop" "flush").value)
      (release "Stop" "save").value).items ["Stop"] := by
  have hEmpty : (Json.obj []).Ordered := .obj [] .nil nofun
  -- the only array of the first release is at the event, where the second has one too
  have hPlaces : ∀ p, (Json.obj []).admits p = true → (release "Stop" "flush").value.items p ≠ [] →
      ((release "Stop" "save").value.arrayAt p).isSome := by
    rintro (_ | ⟨k, _ | ⟨k', p⟩⟩) - hItems
    · exact absurd rfl hItems
    · by_cases hk : "Stop" = k <;> simp_all [release, Json.items, Json.arrayAt, lookup]
    · by_cases hk : "Stop" = k <;> simp_all [release, Json.items, Json.arrayAt, lookup]
  have hReplaced := ((reinstall_replaces_iff ⟨_, hEmpty⟩ (release "Stop" "flush")
    (release "Stop" "save")).mpr hPlaces).2.1
  refine hReplaced ["Stop"] (hookOf "flush") ?_ ?_ <;>
    simp [release, Json.items, Json.arrayAt, lookup, hookOf]

/-- The next release has no hook for the event, and the command nowhere: the entry stays. -/
theorem dropped_hook_remains :
    hookOf "flush" ∈ (release "Stop" "flush").value.items ["Stop"] ∧
      (∀ p, hookOf "flush" ∉ (release "Start" "save").value.items p) ∧
      hookOf "flush" ∈ (mergeValue (mergeValue (.obj []) (release "Stop" "flush").value)
        (release "Start" "save").value).items ["Stop"] := by
  have hOrder : ¬ "Stop" < "Start" := by decide
  refine ⟨?_, ?_, ?_⟩
  · simp [release, Json.items, Json.arrayAt, lookup]
  · -- its only array has another entry
    rintro (_ | ⟨k, _ | ⟨k', p⟩⟩)
    · exact List.not_mem_nil
    all_goals by_cases hk : "Start" = k <;> simp [release, Json.items, Json.arrayAt, lookup, hk, hookOf]
  · simp [release, mergeValue, mergeMembers, Json.items, Json.arrayAt, lookup, SortedMap.insert, hOrder]

end RustyBrain.Install
