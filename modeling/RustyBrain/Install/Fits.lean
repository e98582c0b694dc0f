import RustyBrain.Install.Config

/-!
# What a strip gives back of a merge

A strip takes out what is marked, and a merge marks nothing of the user's, so
whether the user's value comes back is decided one key of the fragment at a time:
`Vanishes` says that a value of the fragment goes away whole, `Fits` that it can be
taken out of the user's value again.

* `merged_restored_iff` — a merged value is stripped back to the user's exactly
  when the fragment fits.
-/

namespace RustyBrain.Install

open SortedMap Json

variable {b f : Members} {k : String}

/-! ## Conditions on a fragment -/

/-- Every item of an array reached through the fragment's objects is marked. -/
inductive MarkedArrays : Json → Prop
  | null : MarkedArrays .null
  | bool (b : Bool) : MarkedArrays (.bool b)
  | number (n : Number) : MarkedArrays (.number n)
  | str (s : String) : MarkedArrays (.str s)
  | arr (items : List Json) (h : ∀ v ∈ items, v.isSentinel = true) : MarkedArrays (.arr items)
  | obj (members : Members) (h : ∀ e ∈ members, MarkedArrays e.2) : MarkedArrays (.obj members)

mutual

/-- A value made of marked items only: a strip prunes it whole. Scalars and empty
containers carry no mark and stay. -/
def Vanishes : Json → Prop
  | .arr items => items ≠ []
  | .obj f => f ≠ [] ∧ VanishMembers f
  | _ => False

def VanishMembers : Members → Prop
  | [] => True
  | (k, v) :: f => (k = SENTINEL ∨ Vanishes v) ∧ VanishMembers f

end

mutual

/-- The fragment's value can be taken out of the user's again: containers of one
kind merge and come apart unless the user's is empty, a non-empty container of
another kind is kept over the fragment's value, and anything else is overwritten. -/
def Fits : Json → Json → Prop
  | .obj b, .obj f => FitsMembers b f ∧ (b = [] → f = [])
  | .arr b, .arr f => b = [] → f = []
  | base, fragment => base.isNonemptyContainer = true ∨ base = fragment

def FitsMembers (b : Members) : Members → Prop
  | [] => True
  | (k, fv) :: f =>
    (k = SENTINEL ∨ match lookup k b with
      | some bv => Fits bv fv
      | none => Vanishes fv) ∧ FitsMembers b f

end

/-- One member of the fragment against what the user has under its key. -/
def FitsAt (k : String) : Option Json → Json → Prop
  | some bv, fv => k = SENTINEL ∨ Fits bv fv
  | none, fv => k = SENTINEL ∨ Vanishes fv

theorem vanishMembers_iff {f : Members} :
    VanishMembers f ↔ ∀ e ∈ f, e.1 = SENTINEL ∨ Vanishes e.2 := by
  induction f with
  | nil => simp [VanishMembers]
  | cons e f ih => simp [VanishMembers, ih]

theorem fitsMembers_iff :
    FitsMembers b f ↔ ∀ e ∈ f, FitsAt e.1 (lookup e.1 b) e.2 := by
  induction f with
  | nil => simp [FitsMembers]
  | cons e f ih =>
    obtain ⟨k, fv⟩ := e
    rw [FitsMembers, ih, List.forall_mem_cons]
    cases lookup k b <;> rfl

/-! ## Pruning -/

/-- A member goes with the sentinel, or when a strip empties it. -/
theorem kept_eq_none_iff {v : Json} :
    kept k v = none ↔ k = SENTINEL ∨ emptied (stripSentinelTracked v) = true := by
  unfold kept
  split_ifs <;> simp_all

theorem kept_eq_some_iff {v w : Json} :
    kept k v = some w ↔
      k ≠ SENTINEL ∧ emptied (stripSentinelTracked v) = false ∧ (stripSentinelTracked v).1 = w := by
  unfold kept
  split_ifs <;> simp_all

theorem stripMembers_emptied {m : Members} :
    ((stripMembers m).2 = true ∧ (stripMembers m).1 = []) ↔
      m ≠ [] ∧ ∀ e ∈ m, kept e.1 e.2 = none := by
  rw [stripMembers_eq, keep_eq_nil]
  constructor
  · rintro ⟨hRemoved, hGone⟩
    refine ⟨?_, hGone⟩
    rintro rfl
    simp [stripMembers] at hRemoved
  · rintro ⟨hNe, hGone⟩
    obtain ⟨e, he⟩ := List.exists_mem_of_ne_nil m hNe
    exact ⟨stripMembers_removed he (hGone e he), hGone⟩

theorem emptied_obj_iff {m : Members} :
    emptied (stripSentinelTracked (.obj m)) = true ↔ m ≠ [] ∧ ∀ e ∈ m, kept e.1 e.2 = none := by
  rw [stripSentinelTracked, emptied, ← stripMembers_emptied]
  simp [isEmptyContainer]

/-- A fragment's value is pruned exactly when it vanishes. -/
theorem emptied_iff_vanishes {v : Json} (h : MarkedArrays v) :
    emptied (stripSentinelTracked v) = true ↔ Vanishes v := by
  induction h with
  | arr items hMarked =>
    rw [stripSentinelTracked, stripItems_marked hMarked, Vanishes]
    simp [emptied, isEmptyContainer]
  | obj members _ ih =>
    rw [emptied_obj_iff, Vanishes, vanishMembers_iff]
    refine and_congr_right fun _ => forall₂_congr fun e he => ?_
    rw [kept_eq_none_iff, ih e he]
  | _ => simp [stripSentinelTracked, emptied, Vanishes]

/-! ## Merging and stripping one value -/

/-- Stripping `m` leaves `b`, and does not prune it. -/
def StripsTo (m b : Json) : Prop :=
  emptied (stripSentinelTracked m) = false ∧ (stripSentinelTracked m).1 = b

/-- A strip leaves a value without sentinels as it is. -/
theorem Json.Clean.stripsTo {b c : Json} (h : b.Clean) : StripsTo b c ↔ b = c := by
  simp [StripsTo, h.strip, emptied]

/-- So it leaves a scalar. -/
theorem scalar_stripsTo {m b : Json} (hArr : ∀ items, m ≠ .arr items) (hObj : ∀ f, m ≠ .obj f) :
    StripsTo m b ↔ m = b := by
  have hStrip : stripSentinelTracked m = (m, false) := by
    cases m <;> simp_all [stripSentinelTracked]
  simp [StripsTo, hStrip, emptied]

/-- What a merge does with values of different kinds. -/
theorem mergeValue_mismatch {b f : Json} (hObj : ∀ x y, ¬(b = .obj x ∧ f = .obj y))
    (hArr : ∀ x y, ¬(b = .arr x ∧ f = .arr y)) :
    mergeValue b f = if b.isNonemptyContainer then b else f := by
  cases b <;> cases f <;> simp_all [mergeValue, kindOf, isNonemptyContainer]

/-- Values that are not merged fit when the user's is kept or was the fragment's. -/
theorem fits_mismatch {b f : Json} (hObj : ∀ x y, ¬(b = .obj x ∧ f = .obj y))
    (hArr : ∀ x y, ¬(b = .arr x ∧ f = .arr y)) :
    Fits b f ↔ b.isNonemptyContainer = true ∨ b = f := by
  cases b <;> cases f <;> simp_all [Fits]

/-- Values of different kinds: the user's non-empty container is kept, and what
the fragment overwrote does not come back. -/
theorem mismatch_restored_iff {b f : Json} (hb : b.Clean)
    (hObj : ∀ x y, ¬(b = .obj x ∧ f = .obj y)) (hArr : ∀ x y, ¬(b = .arr x ∧ f = .arr y)) :
    StripsTo (mergeValue b f) b ↔ Fits b f := by
  rw [mergeValue_mismatch hObj hArr, fits_mismatch hObj hArr]
  by_cases hNe : b.isNonemptyContainer = true
  · simp [hNe, hb.stripsTo]
  · simp only [hNe, Bool.false_eq_true, if_false, false_or]
    cases f with
    | arr items =>
      have hb' : ∀ x, b ≠ .arr x := fun x hx => hArr x items ⟨hx, rfl⟩
      simp only [StripsTo, stripSentinelTracked]
      exact ⟨fun h => absurd h.2.symm (hb' _), fun h => absurd h (hb' _)⟩
    | obj members =>
      have hb' : ∀ x, b ≠ .obj x := fun x hx => hObj x members ⟨hx, rfl⟩
      simp only [StripsTo, stripSentinelTracked]
      exact ⟨fun h => absurd h.2.symm (hb' _), fun h => absurd h (hb' _)⟩
    | _ =>
      rw [scalar_stripsTo (by simp) (by simp)]
      exact eq_comm

theorem kept_stripsTo (hk : k ≠ SENTINEL) {m b : Json} :
    kept k m = some b ↔ StripsTo m b := by
  rw [kept_eq_some_iff, StripsTo]
  exact ⟨fun h => h.2, fun h => ⟨hk, h⟩⟩

theorem clean_members {b : Members} (h : (Json.obj b).Clean) {bv : Json}
    (hl : lookup k b = some bv) : k ≠ SENTINEL ∧ bv.Clean := by
  cases h with
  | obj _ hKeys hValues => exact ⟨hKeys _ (mem_of_lookup hl), hValues _ (mem_of_lookup hl)⟩

/-- One key of a merged object: it is stripped back to what the user had exactly
when the fragment's member, if there is one, fits. -/
theorem key_restored_iff (hb : (Json.obj b).Clean) (hf : Sorted f)
    (hMarked : ∀ e ∈ f, MarkedArrays e.2) (k : String)
    (hValue : ∀ fv bv, lookup k f = some fv → lookup k b = some bv →
      (StripsTo (mergeValue bv fv) bv ↔ Fits bv fv)) :
    (lookup k (mergeMembers b f)).bind (kept k) = lookup k b ↔
      ∀ fv, lookup k f = some fv → FitsAt k (lookup k b) fv := by
  rw [merge_lookup hf]
  cases hlf : lookup k f with
  | none =>
    -- a key of the user's alone: it is clean, and a strip keeps it
    simp only [reduceCtorEq, false_implies, implies_true, iff_true]
    cases hlb : lookup k b with
    | none => rfl
    | some bv =>
      obtain ⟨hk, hClean⟩ := clean_members hb hlb
      exact (kept_stripsTo hk).mpr (hClean.stripsTo.mpr rfl)
  | some fv =>
    simp only [Option.bind_some, Option.some.injEq, forall_eq']
    cases hlb : lookup k b with
    | none =>
      rw [mergedAt, kept_eq_none_iff, emptied_iff_vanishes (hMarked _ (mem_of_lookup hlf)), FitsAt]
    | some bv =>
      obtain ⟨hk, -⟩ := clean_members hb hlb
      rw [mergedAt, kept_stripsTo hk, hValue fv bv hlf hlb, FitsAt, or_iff_right hk]

theorem fitsMembers_lookup (hf : Sorted f) :
    FitsMembers b f ↔ ∀ k fv, lookup k f = some fv → FitsAt k (lookup k b) fv := by
  rw [fitsMembers_iff]
  exact ⟨fun h k fv hl => h _ (mem_of_lookup hl), fun h e he => h e.1 e.2 (hf.lookup_of_mem he)⟩

/-- An object comes back when each of its keys does. -/
theorem members_restored_iff (hb : (Json.obj b).Clean) (hbs : Sorted b)
    (hf : Sorted f) (hMarked : ∀ e ∈ f, MarkedArrays e.2)
    (hValue : ∀ k fv bv, lookup k f = some fv → lookup k b = some bv →
      (StripsTo (mergeValue bv fv) bv ↔ Fits bv fv)) :
    (stripMembers (mergeMembers b f)).1 = b ↔ FitsMembers b f := by
  have hMerged : Sorted (mergeMembers b f) := sorted_mergeMembers hbs
  rw [stripMembers_eq, fitsMembers_lookup hf]
  calc keep kept (mergeMembers b f) = b
      ↔ ∀ k, (lookup k (mergeMembers b f)).bind (kept k) = lookup k b := by
        constructor
        · intro hEq k
          rw [← hMerged.lookup_keep, hEq]
        · intro hEq
          refine (hMerged.keep kept).ext hbs fun k => ?_
          rw [hMerged.lookup_keep, hEq k]
    _ ↔ ∀ k fv, lookup k f = some fv → FitsAt k (lookup k b) fv :=
        forall_congr' fun k => key_restored_iff hb hf hMarked k (hValue k)

theorem mergeMembers_eq_nil (hf : Sorted f) (h : mergeMembers b f = []) :
    f = [] := by
  refine eq_nil_of_lookup hf fun k => ?_
  have hl := merge_lookup hf b k
  rw [h, lookup_nil] at hl
  cases hlf : lookup k f with
  | none => rfl
  | some fv => simp [hlf] at hl

/-- A merged value is stripped back to the user's exactly when the fragment fits. -/
theorem merged_restored_iff {b f : Json} (hb : b.Clean) (hbo : b.Ordered) (hf : MarkedArrays f)
    (hfo : f.Ordered) : StripsTo (mergeValue b f) b ↔ Fits b f := by
  induction f using Json.induct generalizing b with
  | arr f _ =>
    cases b with
    | arr b =>
      cases hf with
      | arr _ hMarked =>
        cases hb with
        | arr _ hClean =>
          have hKeep : b.filter (fun e => !e.isSentinel) = b := by
            refine List.filter_eq_self.mpr fun v hv => ?_
            rw [(hClean v hv).not_isSentinel]
            rfl
          have hStrip : stripItems (b ++ f) = (b, !f.isEmpty) := by
            rw [stripItems_append, stripItems_marked hMarked, stripItems_clean fun v hv =>
              ⟨(hClean v hv).not_isSentinel, (hClean v hv).strip⟩]
            simp
          rw [mergeValue, hKeep, Fits, StripsTo, stripSentinelTracked, hStrip]
          simp only [emptied, isEmptyContainer, and_true]
          cases b <;> cases f <;> simp
    | _ => exact mismatch_restored_iff hb (by simp) (by simp)
  | obj f ih =>
    cases b with
    | obj b =>
      cases hf with
      | obj _ hMarked =>
        cases hbo with
        | obj _ hbs hbOrdered =>
          cases hfo with
          | obj _ hfs hfOrdered =>
            have hMembers := members_restored_iff hb hbs hfs hMarked fun k fv bv hlf hlb =>
              ih _ (mem_of_lookup hlf) (clean_members hb hlb).2 (hbOrdered _ (mem_of_lookup hlb))
                (hMarked _ (mem_of_lookup hlf)) (hfOrdered _ (mem_of_lookup hlf))
            rw [mergeValue, Fits, ← hMembers, StripsTo]
            -- the user's empty object survives only when nothing was merged into it
            have hEmpty : (stripMembers (mergeMembers b f)).1 = b →
                (emptied (stripSentinelTracked (.obj (mergeMembers b f))) = false ↔
                  (b = [] → f = [])) := by
              intro hEq
              rw [stripSentinelTracked, hEq, emptied]
              constructor
              · rintro hKept rfl
                by_contra hf'
                have hNe : mergeMembers [] f ≠ [] := fun h => hf' (mergeMembers_eq_nil hfs h)
                rw [stripMembers_eq, keep_eq_nil] at hEq
                have := (stripMembers_emptied.mpr ⟨hNe, hEq⟩).1
                simp [this, isEmptyContainer] at hKept
              · intro hNe
                cases b with
                | nil => simp [hNe rfl, mergeMembers, stripMembers]
                | cons e b => simp [isEmptyContainer]
            rw [stripSentinelTracked] at hEmpty ⊢
            constructor
            · rintro ⟨hKept, hEq⟩
              have hEq' := Json.obj.inj hEq
              exact ⟨hEq', (hEmpty hEq').mp hKept⟩
            · rintro ⟨hEq, hNe⟩
              exact ⟨(hEmpty hEq).mpr hNe, congrArg Json.obj hEq⟩
    | _ => exact mismatch_restored_iff hb (by simp) (by simp)
  | _ => exact mismatch_restored_iff hb (by simp) (by simp)

theorem ordered_mergeValue {b f : Json} (hb : b.Ordered) (hf : f.Ordered) :
    (mergeValue b f).Ordered := by
  induction f using Json.induct generalizing b with
  | obj f ih =>
    cases b with
    | obj b =>
      obtain - | - | - | - | - | ⟨_, hbs, hbValues⟩ := hb
      obtain - | - | - | - | - | ⟨_, hfs, hfValues⟩ := hf
      have hMerged : Sorted (mergeMembers b f) := sorted_mergeMembers hbs
      rw [mergeValue]
      refine .obj _ hMerged fun e he => ?_
      have hl := hMerged.lookup_of_mem he
      rw [merge_lookup hfs] at hl
      cases hlf : lookup e.1 f with
      | none =>
        rw [hlf] at hl
        exact hbValues _ (mem_of_lookup hl)
      | some fv =>
        rw [hlf] at hl
        have hfv := mem_of_lookup hlf
        cases hlb : lookup e.1 b with
        | none =>
          rw [hlb] at hl
          exact Option.some.inj hl ▸ hfValues _ hfv
        | some bv =>
          rw [hlb] at hl
          exact Option.some.inj hl ▸ ih _ hfv (hbValues _ (mem_of_lookup hlb)) (hfValues _ hfv)
    | _ =>
      rw [mergeValue_mismatch (by simp) (by simp)]
      split <;> assumption
  | arr f _ =>
    cases b with
    | arr b =>
      obtain - | - | - | - | ⟨_, hbValues⟩ := hb
      obtain - | - | - | - | ⟨_, hfValues⟩ := hf
      rw [mergeValue]
      refine .arr _ fun v hv => ?_
      rcases List.mem_append.mp hv with hv | hv
      · exact hbValues v (List.mem_of_mem_filter hv)
      · exact hfValues v hv
    | _ =>
      rw [mergeValue_mismatch (by simp) (by simp)]
      split <;> assumption
  | _ =>
    rw [mergeValue_mismatch (by simp) (by simp)]
    split <;> assumption

end RustyBrain.Install
