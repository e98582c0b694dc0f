import RustyBrain.Daemon.Requests
import RustyBrain.Store.Oplog
import RustyBrain.Store.Search

/-!
# rusty-brain — anchors that are remembered

An anchor comes in as the caller spells it. `MemoryAnchor::validate` looks at the spelling, what
is stored and what a filter compares is the spelling once it was normalised. What stays of an
anchor under `./` segments alone is nothing, and validation does not see it.
-/

namespace RustyBrain

variable {a : MemoryAnchor}

/-- Nothing but `./` segments, with white space behind them. -/
inductive DotSlashes : Text → Prop
  | nil : DotSlashes []
  | segment {rest : Text} : DotSlashes (trimStart rest) → DotSlashes ('.' :: '/' :: rest)

theorem stripDotSlash_eq_nil {fuel : Nat} {v : Text} (hFuel : v.length ≤ fuel) :
    stripDotSlash fuel v = [] ↔ DotSlashes v := by
  induction fuel generalizing v with
  | zero =>
    obtain rfl := List.length_eq_zero_iff.mp (Nat.le_zero.mp hFuel)
    exact iff_of_true rfl .nil
  | succ fuel ih =>
    unfold stripDotSlash
    split
    · -- one segment goes, and the rest is shorter
      rename_i rest hEq
      cases hEq
      have hShorter : (trimStart rest).length ≤ fuel := by
        have hLength := (trimStart_suffix rest).length_le
        simp only [List.length_cons] at hFuel
        omega
      rw [ih hShorter]
      constructor
      · exact .segment
      · rintro ⟨⟩
        assumption
    · rename_i hNot
      constructor
      · rintro rfl
        exact .nil
      · rintro (_ | hRest)
        · rfl
        · exact absurd rfl (hNot _ _ rfl)

/-- The values that validation accepts and normalisation empties. -/
theorem normalizeAnchorValue_eq_nil {kind : AnchorKind} {raw : Text} (hRaw : trim raw ≠ []) :
    normalizeAnchorValue kind raw = [] ↔ kind = .file ∧ DotSlashes (trim raw) := by
  unfold normalizeAnchorValue
  by_cases hFile : kind = .file
  · rw [if_pos hFile, stripDotSlash_eq_nil le_rfl, and_iff_right hFile]
  · rw [if_neg hFile]
    exact iff_of_false hRaw fun h => hFile h.1

theorem MemoryAnchor.validate_value (h : a.validate = .ok ()) : trim a.value ≠ [] := by
  intro hNil
  rw [MemoryAnchor.validate, if_pos hNil] at h
  cases h

end RustyBrain

namespace RustyBrain.Store

open Transaction List

/-! ## What an insert adds to the anchors -/

variable {n : MemoryNote} {db db' : Db}

theorem retired_sameAnchors (db : Db) (old new : MemoryId) (now : Int) :
    (db.retired old new now).anchors = db.anchors ∧
      (db.retired old new now).memories.map (fun m => (m.memoryId, m.ns)) =
        db.memories.map fun m => (m.memoryId, m.ns) := by
  constructor
  · unfold Db.retired Db.appended
    split <;> rfl
  · rw [Db.retired, Db.appended_memories]
    show ((db.setMemories (Takes old) (MemoryRow.superseded new now)).memories).map _ = _
    simp only [Db.setMemories, map_map]
    refine map_congr_left fun m _ => ?_
    simp only [Function.comp_apply]
    split <;> rfl

/-- What an insert leaves of a note: its row, and one row for each of its stored anchors. -/
structure Kept (n : MemoryNote) (db db' : Db) : Prop where
  new : n.id ∉ db.ids
  row : ∃ m ∈ db'.memories, m.memoryId = n.id ∧ m.ns = n.ns.asDbString
  rows : ∃ rows, db'.anchors = db.anchors ++ rows ∧ RowsOf n (distinctAnchors [] n.anchors) rows

theorem insertMemoryTxBody_kept {now : Int} {u : Unit}
    (h : Runs (insertMemoryTxBody now n e) db u db') : Kept n db db' := by
  have hAdds := insertMemoryTxBody_adds h
  obtain ⟨rows, hRows, hAnchors⟩ := hAdds.rows
  refine ⟨hAdds.new, ⟨noteRow n, ?_, rfl, rfl⟩, rows, hAnchors, hRows⟩
  rw [hAdds.memories]
  exact mem_append_right _ mem_cons_self

/-- A replacement is kept too; its target loses neither its id nor its namespace. -/
theorem insertSupersedingMemory_kept {now : Int} {old : MemoryId}
    {allow : Bool} {seqs : Nat × Option Nat}
    (h : Runs (insertSupersedingMemory now n e old allow) db seqs db') : Kept n db db' := by
  obtain ⟨target, d, -, -, hBody, -, hRetire⟩ := insertSupersedingMemory_runs h
  have hKept := insertMemoryTxBody_kept hBody
  rcases retireTarget_runs hRetire with ⟨-, rfl⟩ | ⟨-, -, _, -, hSup, -⟩
  · exact hKept
  obtain ⟨-, -, -, rfl⟩ := supersedeInTx_runs hSup
  obtain ⟨hAnchors, hMemories⟩ := retired_sameAnchors d old n.id now
  obtain ⟨m, hm, hId, hNs⟩ := hKept.row
  have hPair : (n.id, n.ns.asDbString) ∈
      (d.retired old n.id now).memories.map fun m => (m.memoryId, m.ns) := by
    rw [hMemories]
    exact mem_map.mpr ⟨m, hm, by rw [hId, hNs]⟩
  obtain ⟨m', hm', hEq⟩ := mem_map.mp hPair
  refine ⟨hKept.new, ⟨m', hm', congrArg Prod.fst hEq, congrArg Prod.snd hEq⟩, ?_⟩
  obtain ⟨rows, hRows, hAll⟩ := hKept.rows
  exact ⟨rows, hAnchors.trans hRows, hAll⟩

/-! ## The anchors of a memory -/

theorem decodeAnchor_anchorRow (n : MemoryNote) (a : MemoryAnchor) (i : Nat) :
    decodeAnchor (anchorRow n a i) = .ok a := by
  unfold decodeAnchor
  rw [anchorRow_value]
  rfl

/-- **Key lemma:** an inserted memory has the anchors of its note, normalised and each once. -/
theorem Kept.loadAnchors (h : Kept n db db') (hWf : db.Wf) :
    db'.loadAnchors n.id = .ok (distinctAnchors [] n.anchors) := by
  obtain ⟨rows, hRows, hAll⟩ := h.rows
  -- no anchor of the store before belongs to the new id
  have hOld : db.anchors.filter (fun a => a.memoryId = n.id) = [] := by
    refine filter_eq_nil_iff.mpr fun a ha hOwn => h.new ?_
    obtain ⟨-, -, r, hr, hOwner, -⟩ := hWf.anchors a ha
    exact Db.mem_ids.mpr ⟨r, hr, hOwner.trans (of_decide_eq_true hOwn)⟩
  unfold Db.loadAnchors
  rw [hRows, filter_append, hOld, nil_append]
  clear hRows
  generalize distinctAnchors [] n.anchors = anchors at hAll
  induction hAll with
  | nil => rfl
  | @cons a r anchors rows hRow _ ih =>
    obtain ⟨i, rfl⟩ := hRow
    have hOwn : decide ((anchorRow n a i).memoryId = n.id) = true := decide_eq_true rfl
    rw [filter_cons, if_pos hOwn, mapM_cons, decodeAnchor_anchorRow, ih]
    rfl

/-- A filter that is spelled like an anchor of the note finds its row. -/
theorem Kept.anchorTerm (h : Kept n db db') (ha : a ∈ n.anchors) (hKind : g.kind = a.kind)
    (hAlike : normalizeAnchorValue g.kind g.value = normalizeAnchorValue a.kind a.value)
    (hm : m.memoryId = n.id) : db'.AnchorTerm n.ns g m := by
  obtain ⟨rows, hRows, hAll⟩ := h.rows
  have hStored : normalizedAnchor a ∈ distinctAnchors [] n.anchors :=
    mem_distinctAnchors_iff.mpr ⟨not_mem_nil, a, ha, rfl⟩
  obtain ⟨r, hr, i, rfl⟩ : ∃ r ∈ rows, ∃ i, r = anchorRow n (normalizedAnchor a) i := by
    clear hRows
    generalize distinctAnchors [] n.anchors = anchors at hAll hStored
    induction hAll with
    | nil => cases hStored
    | @cons b r anchors rows hRow _ ih =>
      rcases mem_cons.mp hStored with rfl | hStored
      · exact ⟨r, mem_cons_self, hRow⟩
      · obtain ⟨r', hr', hEq⟩ := ih hStored
        exact ⟨r', mem_cons_of_mem _ hr', hEq⟩
  refine ⟨_, hRows ▸ mem_append_right _ hr, hm.symm, rfl, hKind.symm, ?_⟩
  rw [hAlike, hKind]
  by_cases hFile : a.kind = .file
  · simp [anchorRow, normalizedAnchor, hFile]
  · simp [anchorRow, normalizedAnchor, hFile]

end RustyBrain.Store

namespace RustyBrain.Daemon

open Store Engine Proto Transaction Sessions List

/-! ## Remembered anchors -/

/-- A remember that completes has inserted a note of the connection's namespace with the anchors of
the request, each of which passed validation. -/
theorem dispatchRemember_kept {c : Connection} {o : Outside} {r : RememberRequest}
    {id : MemoryId} (h : Completes (dispatchRemember c o r) db id db') :
    (∀ a ∈ r.anchors, a.validate = .ok ()) ∧
      ∃ n, n.id = id ∧ n.ns = c.engine.ns ∧ n.anchors = r.anchors ∧ Kept n db db' := by
  simp only [dispatchRemember, rememberInner, lift, completes_bind, completes_view, completes_call,
    completes_pure] at h
  obtain ⟨input, _, ⟨hInput, rfl⟩, ⟨n, e⟩, _, ⟨hNote, rfl⟩, _, _, hWrite, rfl, rfl⟩ := h
  obtain ⟨_, -, rfl⟩ := rememberInput_ok hInput
  have hValid : ∀ a ∈ r.anchors, a.validate = .ok () := by
    simp only [MemoryEngine.composeNote, except_bind_ok] at hNote
    obtain ⟨_, -, _, -, _, -, _, hForM, -⟩ := hNote
    exact fun a ha => except_forM_each hForM ha
  obtain ⟨rfl, -⟩ := composeNote_ok hNote
  refine ⟨hValid, _, rfl, rfl, rfl, ?_⟩
  cases hTarget : r.supersedes with
  | none =>
    rw [hTarget] at hWrite
    obtain ⟨_, _, hCheck, hBody⟩ := runs_bind.mp hWrite
    obtain rfl := validateNote_runs hCheck
    exact insertMemoryTxBody_kept hBody
  | some old =>
    rw [hTarget] at hWrite
    obtain ⟨seqs, hRun⟩ := runs_discard.mp hWrite
    exact insertSupersedingMemory_kept hRun

/-- An anchor of a remembered memory stays meaningful and findable. It is stored under a value that
is not empty and is its own normal form; whatever else the request spells alike is stored under the
same value, and no anchor is stored twice; and a valid filter that is spelled alike excludes the
memory from no listing and no recall. -/
structure Findable (db : Db) (ns : Namespace) (id : MemoryId) (raws : List MemoryAnchor)
    (a : MemoryAnchor) : Prop where
  present : ∃ m ∈ db.memories, m.memoryId = id ∧ m.ns = ns.asDbString
  stored : ∃ anchors, db.loadAnchors id = .ok anchors ∧ anchors.Nodup ∧ normalizedAnchor a ∈ anchors ∧
    ∀ b ∈ raws, b.kind = a.kind → normalizeAnchorValue b.kind b.value = normalizeAnchorValue a.kind a.value →
      { b with value := (normalizedAnchor a).value } ∈ anchors
  nonempty : (normalizedAnchor a).value ≠ []
  stable : normalizedAnchor (normalizedAnchor a) = normalizedAnchor a
  selected : ∀ g : AnchorFilter, g.kind = a.kind →
    normalizeAnchorValue g.kind g.value = normalizeAnchorValue a.kind a.value → g.validate = .ok () →
      ∀ m ∈ db.memories, m.memoryId = id → ∀ f : RecallFilter,
        (db.ListTerms ns { f with anchors := g :: f.anchors } m ↔ db.ListTerms ns f m) ∧
          (db.RecallTerms ns { f with anchors := g :: f.anchors } m ↔ db.RecallTerms ns f m)

/-- An anchor term that holds can be left out of a filter. -/
theorem filterTerms_cons {db : Db} {ns : Namespace} (h : db.AnchorTerm ns g m) (f : RecallFilter) :
    db.FilterTerms ns { f with anchors := g :: f.anchors } m ↔ db.FilterTerms ns f m := by
  have hPlain : PlainTerms ns { f with anchors := g :: f.anchors } m ↔ PlainTerms ns f m := Iff.rfl
  unfold Db.FilterTerms
  rw [hPlain]
  simp only [forall_mem_cons, and_iff_right h]

/-- **Remembered anchors.** Among the anchors that a remember stores, exactly those stay meaningful
and findable that are not a file spelled with nothing but `./` segments. -/
theorem remembered_anchor_findable_iff {c : Connection} {o : Outside} {r : RememberRequest} {db db' : Db}
    {id : MemoryId} (hWf : db.Wf) (h : Completes (dispatchRemember c o r) db id db') {a : MemoryAnchor}
    (ha : a ∈ r.anchors) :
    Findable db' c.engine.ns id r.anchors a ↔ ¬ (a.kind = .file ∧ DotSlashes (trim a.value)) := by
  obtain ⟨hValid, n, rfl, hNs, hAnchors, hKept⟩ := dispatchRemember_kept h
  have hEmpty : normalizeAnchorValue a.kind a.value = [] ↔ a.kind = .file ∧ DotSlashes (trim a.value) :=
    normalizeAnchorValue_eq_nil (MemoryAnchor.validate_value (hValid a ha))
  constructor
  · intro hFind hDots
    exact hFind.nonempty (hEmpty.mpr hDots)
  · intro hNot
    have hMem : ∀ b ∈ r.anchors, normalizedAnchor b ∈ distinctAnchors [] n.anchors := by
      intro b hb
      exact mem_distinctAnchors_iff.mpr ⟨not_mem_nil, b, hAnchors ▸ hb, rfl⟩
    refine ⟨?_, ⟨_, hKept.loadAnchors hWf, distinctAnchors_nodup _ _, hMem a ha, ?_⟩,
      fun hNil => hNot (hEmpty.mp hNil), ?_, ?_⟩
    · rw [← hNs]
      exact hKept.row
    · intro b hb _ hAlike
      have hStored := hMem b hb
      rw [normalizedAnchor, hAlike] at hStored
      exact hStored
    · unfold normalizedAnchor
      rw [normalizeAnchorValue_idem]
    · intro g hKind hAlike _ m _ hm f
      have hTerm : db'.AnchorTerm c.engine.ns g m := hNs ▸ hKept.anchorTerm (hAnchors ▸ ha) hKind hAlike hm
      exact ⟨and_congr (filterTerms_cons hTerm f) Iff.rfl, and_congr (filterTerms_cons hTerm f) Iff.rfl⟩

/-- A memory with a file for its anchor. -/
def fileRequest (value : Text) : RememberRequest where
  content := ['a']
  memoryType := .insight
  importance := 5
  anchors := [⟨.file, value, none, none⟩]

/-- What comes of the request in an empty store. -/
def fileRemembered (value : Text) : Except Error MemoryId × Db :=
  outcome (dispatchRemember alignedConnection undisturbed (fileRequest value)) (.init [] 2 none)

/-- A file under the current directory is stored without the dot, and found. -/
theorem remembered_anchor_findable_dotSlash :
    ∃ id db', Completes (dispatchRemember alignedConnection undisturbed (fileRequest ['.', '/', 'a']))
        (.init [] 2 none) id db' ∧
      Findable db' .global id (fileRequest ['.', '/', 'a']).anchors ⟨.file, ['.', '/', 'a'], none, none⟩ := by
  have hOk : (fileRemembered ['.', '/', 'a']).1.isOk = true := by decide +kernel
  obtain ⟨id, -, hRun⟩ := completes_of_isOk hOk
  refine ⟨id, _, hRun, ?_⟩
  refine (remembered_anchor_findable_iff (Db.init_wf _ _ _) hRun mem_cons_self).mpr ?_
  rintro ⟨-, hDots⟩
  -- one segment goes, and the name of the file is left
  have hTrim : trim ['.', '/', 'a'] = ['.', '/', 'a'] := by decide
  rw [hTrim] at hDots
  cases hDots with
  | segment hRest => cases hRest

/-- The current directory itself passes validation, and is stored under the empty value. -/
theorem currentDirectory_not_findable :
    ∃ id db', Completes (dispatchRemember alignedConnection undisturbed (fileRequest ['.', '/']))
        (.init [] 2 none) id db' ∧ db'.anchors.map AnchorRow.path = [some []] ∧
      ¬ Findable db' .global id (fileRequest ['.', '/']).anchors ⟨.file, ['.', '/'], none, none⟩ := by
  have hOk : (fileRemembered ['.', '/']).1.isOk = true := by decide +kernel
  have hRows : (fileRemembered ['.', '/']).2.anchors.map AnchorRow.path = [some []] := by decide +kernel
  obtain ⟨id, -, hRun⟩ := completes_of_isOk hOk
  refine ⟨id, _, hRun, hRows, fun hFind => hFind.nonempty ?_⟩
  decide

end RustyBrain.Daemon
