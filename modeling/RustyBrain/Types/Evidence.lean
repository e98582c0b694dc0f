import RustyBrain.Types.Update
import RustyBrain.Types.WriteGate

/-!
# rusty-brain — the evidence behind a context entry

`ContextEntry::fingerprint_for` hashes what a note says, where it comes from and how current it
is, so that a preview can be compared with the note it was made from without a copy of the note.
Only the bytes are modelled; SHA-256 and the cut to eight of its bytes are not.

The `f32` of a confidence is hashed by its bits, which stand beside the note here. Whether a note
is contested is computed at each read and stands beside it too.
-/

namespace RustyBrain

open Framing List

variable {r s : List UInt8}

/-- `TrustClass::as_str`. -/
def TrustClass.asStr : TrustClass → String
  | .measuredCi => "measured_ci"
  | .measuredLocal => "measured_local"
  | .humanConfirmed => "human_confirmed"
  | .agentAttested => "agent_attested"
  | .inferredActivity => "inferred_activity"

/-! ## The bytes -/

/-- A text after its length in bytes. -/
def textBytes (t : Text) : List UInt8 := frame (utf8 t)

/-- The bytes of one anchor. A commit is followed by whether the head of the repository is
known. -/
def anchorBytes (headKnown : Bool) (a : MemoryAnchor) : List UInt8 :=
  [a.kind.kindStr.toList, a.value].flatMap textBytes ++
    [a.startLine, a.endLine].flatMap (optional (leBytes 4)) ++
      if a.kind = .commit then [flag headKnown] else []

/-- The bytes that `ContextEntry::fingerprint_for` hashes. -/
def fingerprintForBytes (m : MemoryNote) (confidence : BitVec 32) (contested stale headKnown : Bool) :
    List UInt8 :=
  utf8 "rusty-brain-context-fingerprint-v1".toList ++
  ([[m.content], [m.context], [m.summary], m.keywords, m.tags, m.relatedFiles].flatMap fun fields =>
    frames (fields.map utf8)) ++
  [m.memoryType.asStr.toList, m.trustClass.asStr.toList].flatMap textBytes ++
  [UInt8.ofNat m.importance] ++
  leBytes 4 confidence.toNat ++
  [flag m.humanCurated, flag contested, flag m.legacyUnknown, flag stale] ++
  [m.originUser, m.originHost, m.originAgent, m.originSource,
    m.originChannel.map fun c => c.asStr.toList, m.sessionId].flatMap (optional textBytes) ++
  (le64 m.anchors.length ++ m.anchors.flatMap (anchorBytes headKnown))

/-- An anchor whose fields fit their types on a 64-bit machine. -/
structure MemoryAnchor.Fits (a : MemoryAnchor) : Prop where
  value : (utf8 a.value).length < 2 ^ 64
  startLine : ∀ n ∈ a.startLine, n < 256 ^ 4
  endLine : ∀ n ∈ a.endLine, n < 256 ^ 4

/-- A note whose fields fit their types on a 64-bit machine: lengths in 64 bits, the importance in
eight, lines in 32. -/
structure MemoryNote.Fits (m : MemoryNote) : Prop where
  texts : ∀ fields ∈ [[m.content], [m.context], [m.summary], m.keywords, m.tags, m.relatedFiles],
    Framing.Fits (fields.map utf8)
  importance : m.importance < 256
  origins : ∀ o ∈ [m.originUser, m.originHost, m.originAgent, m.originSource, m.sessionId],
    ∀ t ∈ o, (utf8 t).length < 2 ^ 64
  anchors : m.anchors.length < 2 ^ 64 ∧ ∀ a ∈ m.anchors, a.Fits

/-- Two notes that say the same, with the same provenance and the same anchors. -/
structure SameEvidence (m n : MemoryNote) : Prop where
  content : m.content = n.content
  context : m.context = n.context
  summary : m.summary = n.summary
  keywords : m.keywords = n.keywords
  tags : m.tags = n.tags
  relatedFiles : m.relatedFiles = n.relatedFiles
  memoryType : m.memoryType = n.memoryType
  trustClass : m.trustClass = n.trustClass
  importance : m.importance = n.importance
  humanCurated : m.humanCurated = n.humanCurated
  legacyUnknown : m.legacyUnknown = n.legacyUnknown
  originUser : m.originUser = n.originUser
  originHost : m.originHost = n.originHost
  originAgent : m.originAgent = n.originAgent
  originSource : m.originSource = n.originSource
  originChannel : m.originChannel = n.originChannel
  sessionId : m.sessionId = n.sessionId
  anchors : m.anchors = n.anchors

/-! ## Codes of the parts -/

theorem cuts_textBytes : Cuts (fun t : Text => (utf8 t).length < 2 ^ 64) textBytes :=
  cuts_frame.comp (fun _ h => h) fun _ _ h => utf8_injective h

theorem cuts_texts : Cuts (fun ts : List Text => Framing.Fits (ts.map utf8)) fun ts => frames (ts.map utf8) :=
  Cuts.comp (f := List.map utf8) cuts_frame.counted (fun _ h => h) fun _ _ h => map_utf8_injective h

/-- The texts of an enumeration are short and tell its values apart. -/
theorem cuts_names {α : Type} {name : α → String}
    (hShort : ∀ a, (utf8 (name a).toList).length < 2 ^ 64 := by intro a; cases a <;> decide)
    (hInj : ∀ a b, name a = name b → a = b := by intro a b; cases a <;> cases b <;> decide) : Cuts (fun _ : α => True) fun a => textBytes (name a).toList :=
  cuts_textBytes.comp (fun a _ => hShort a) fun a b h => hInj a b (String.toList_inj.mp h)

theorem cuts_memoryType : Cuts (fun _ : MemoryType => True) fun k => textBytes k.asStr.toList :=
  cuts_names

theorem cuts_trustClass : Cuts (fun _ : TrustClass => True) fun k => textBytes k.asStr.toList :=
  cuts_names

theorem cuts_writeChannel : Cuts (fun _ : WriteChannel => True) fun k => textBytes k.asStr.toList :=
  cuts_names

/-- The channel is written as the text of an optional field. -/
theorem cuts_channel {x y : Option WriteChannel}
    (h : optional textBytes (x.map fun c => c.asStr.toList) ++ r =
      optional textBytes (y.map fun c => c.asStr.toList) ++ s) : x = y ∧ r = s := by
  have hCode : ∀ z : Option WriteChannel, optional textBytes (z.map fun c => c.asStr.toList) =
      optional (fun c : WriteChannel => textBytes c.asStr.toList) z := by
    intro z
    cases z <;> rfl
  rw [hCode, hCode] at h
  exact cuts_writeChannel.optional (fun _ _ => trivial) (fun _ _ => trivial) h

theorem cuts_anchorKind : Cuts (fun _ : AnchorKind => True) fun k => textBytes k.kindStr.toList :=
  cuts_names

/-! ## Anchors -/

/-- An anchor together with the marker behind it. -/
def marked (headKnown : Bool) (a : MemoryAnchor) : MemoryAnchor × Option Bool :=
  (a, if a.kind = .commit then some headKnown else none)

/-- The bytes of an anchor up to its marker. -/
def anchorFields (a : MemoryAnchor) : List UInt8 :=
  textBytes a.kind.kindStr.toList ++ (textBytes a.value ++
    (optional (leBytes 4) a.startLine ++ optional (leBytes 4) a.endLine))

theorem cuts_anchorFields : Cuts MemoryAnchor.Fits anchorFields := by
  intro a b r s ha hb h
  simp only [anchorFields, append_assoc] at h
  obtain ⟨hKind, hAfterKind⟩ := cuts_anchorKind trivial trivial h
  obtain ⟨hValue, hAfterValue⟩ := cuts_textBytes ha.value hb.value hAfterKind
  obtain ⟨hStart, hAfterStart⟩ := (cuts_leBytes 4).optional ha.startLine hb.startLine hAfterValue
  obtain ⟨hEnd, hRest⟩ := (cuts_leBytes 4).optional ha.endLine hb.endLine hAfterStart
  refine ⟨?_, hRest⟩
  cases a
  cases b
  simp only at hKind hValue hStart hEnd
  rw [hKind, hValue, hStart, hEnd]

/-- The bytes of an anchor and its marker. -/
def markedBytes (x : MemoryAnchor × Option Bool) : List UInt8 :=
  anchorFields x.1 ++ (x.2.map flag).toList

/-- **Key lemma:** the kind of an anchor says whether a marker follows, so an anchor and its marker
can be cut off together. -/
theorem cuts_markedBytes :
    Cuts (fun x : MemoryAnchor × Option Bool => x.1.Fits ∧ (x.2.isSome = true ↔ x.1.kind = .commit))
      markedBytes := by
  have hMark : ∀ a : MemoryAnchor, a.Fits → Cuts (fun x : Option Bool => x.isSome = true ↔ a.kind = .commit)
      fun x => (x.map flag).toList := by
    intro a _ x y r s hx hy h
    cases x with
    | none =>
      cases y with
      | none => exact ⟨rfl, h⟩
      | some b => exact absurd (hx.mpr (hy.mp rfl)) Bool.false_ne_true
    | some b =>
      cases y with
      | none => exact absurd (hy.mpr (hx.mp rfl)) Bool.false_ne_true
      | some c =>
        obtain ⟨hFlag, hRest⟩ := List.cons.inj h
        exact ⟨congrArg some (flag_inj hFlag), hRest⟩
  exact cuts_anchorFields.pair hMark

theorem anchorBytes_eq (headKnown : Bool) (a : MemoryAnchor) :
    anchorBytes headKnown a = markedBytes (marked headKnown a) := by
  unfold anchorBytes markedBytes marked anchorFields
  by_cases hCommit : a.kind = .commit
  · simp [hCommit]
  · simp [hCommit]

/-- Anchors and what is said about the head can be cut off a text. -/
theorem anchors_append_inj {known known' : Bool} {xs ys : List MemoryAnchor}
    (hxs : xs.length < 2 ^ 64 ∧ ∀ a ∈ xs, a.Fits) (hys : ys.length < 2 ^ 64 ∧ ∀ a ∈ ys, a.Fits)
    (h : le64 xs.length ++ xs.flatMap (anchorBytes known) ++ r =
      le64 ys.length ++ ys.flatMap (anchorBytes known') ++ s) :
    xs = ys ∧ ((∃ a ∈ xs, a.kind = .commit) → known = known') ∧ r = s := by
  have hCode : ∀ (k : Bool) (zs : List MemoryAnchor), le64 zs.length ++ zs.flatMap (anchorBytes k) =
      le64 (zs.map (marked k)).length ++ (zs.map (marked k)).flatMap markedBytes := by
    intro k zs
    have hBytes : anchorBytes k = fun a => markedBytes (marked k a) := funext (anchorBytes_eq k)
    rw [length_map, flatMap_map, hBytes]
  have hMarked : ∀ (k : Bool) (zs : List MemoryAnchor), zs.length < 2 ^ 64 ∧ (∀ a ∈ zs, a.Fits) →
      (zs.map (marked k)).length < 2 ^ 64 ∧ ∀ x ∈ zs.map (marked k),
        x.1.Fits ∧ (x.2.isSome = true ↔ x.1.kind = .commit) := by
    intro k zs hzs
    refine ⟨by rw [length_map]; exact hzs.1, fun x hx => ?_⟩
    obtain ⟨a, ha, rfl⟩ := mem_map.mp hx
    refine ⟨hzs.2 a ha, ?_⟩
    unfold marked
    by_cases hCommit : a.kind = .commit
    · simp [hCommit]
    · simp [hCommit]
  rw [hCode, hCode] at h
  obtain ⟨hLists, hRest⟩ := cuts_markedBytes.counted (hMarked known xs hxs) (hMarked known' ys hys) h
  have hSame : xs = ys := by
    have hFirst := congrArg (List.map Prod.fst) hLists
    simpa [map_map, Function.comp_def, marked] using hFirst
  refine ⟨hSame, fun ⟨a, ha, hCommit⟩ => ?_, hRest⟩
  -- one commit is enough to read off the marker
  subst hSame
  have hMark := map_inj_left.mp hLists a ha
  simp only [marked, if_pos hCommit, Prod.mk.injEq, Option.some.injEq, true_and] at hMark
  exact hMark

/-! ## The whole evidence -/

theorem ofNat_importance_inj {m n : Nat} (hm : m < 256) (hn : n < 256)
    (h : UInt8.ofNat m = UInt8.ofNat n) : m = n := by
  have hBytes := congrArg UInt8.toNat h
  simp only [UInt8.toNat_ofNat'] at hBytes
  omega

/-- **Key theorem:** equal bytes come from equal evidence, and from the same knowledge of the head
where a commit depends on it. -/
theorem fingerprintForBytes_inj {m n : MemoryNote} {confidence confidence' : BitVec 32}
    {contested contested' stale stale' known known' : Bool} (hm : m.Fits) (hn : n.Fits)
    (h : fingerprintForBytes m confidence contested stale known =
      fingerprintForBytes n confidence' contested' stale' known') :
    SameEvidence m n ∧ confidence = confidence' ∧ contested = contested' ∧ stale = stale' ∧
      ((∃ a ∈ m.anchors, a.kind = .commit) → known = known') := by
  have hmTexts := hm.texts
  have hnTexts := hn.texts
  have hmOrigins := hm.origins
  have hnOrigins := hn.origins
  simp only [mem_cons, not_mem_nil, or_false, forall_eq_or_imp,
    forall_eq] at hmTexts hnTexts hmOrigins hnOrigins
  simp only [fingerprintForBytes, flatMap_cons, flatMap_nil, append_nil,
    append_assoc, cons_append, nil_append] at h
  -- the parts are cut off the front one after the other
  have h₀ := append_cancel_left h
  obtain ⟨hContent, h₁⟩ := cuts_texts hmTexts.1 hnTexts.1 h₀
  obtain ⟨hContext, h₂⟩ := cuts_texts hmTexts.2.1 hnTexts.2.1 h₁
  obtain ⟨hSummary, h₃⟩ := cuts_texts hmTexts.2.2.1 hnTexts.2.2.1 h₂
  obtain ⟨hKeywords, h₄⟩ := cuts_texts hmTexts.2.2.2.1 hnTexts.2.2.2.1 h₃
  obtain ⟨hTags, h₅⟩ := cuts_texts hmTexts.2.2.2.2.1 hnTexts.2.2.2.2.1 h₄
  obtain ⟨hFiles, h₆⟩ := cuts_texts hmTexts.2.2.2.2.2 hnTexts.2.2.2.2.2 h₅
  obtain ⟨hType, h₇⟩ := cuts_memoryType trivial trivial h₆
  obtain ⟨hTrust, h₈⟩ := cuts_trustClass trivial trivial h₇
  obtain ⟨hImportance, h₉⟩ := List.cons.inj h₈
  obtain ⟨hConfidence, h₁₀⟩ := cuts_leBytes 4 confidence.isLt confidence'.isLt h₉
  obtain ⟨hCurated, h₁₁⟩ := List.cons.inj h₁₀
  obtain ⟨hContested, h₁₂⟩ := List.cons.inj h₁₁
  obtain ⟨hLegacy, h₁₃⟩ := List.cons.inj h₁₂
  obtain ⟨hStale, h₁₄⟩ := List.cons.inj h₁₃
  obtain ⟨hUser, h₁₅⟩ := cuts_textBytes.optional hmOrigins.1 hnOrigins.1 h₁₄
  obtain ⟨hHost, h₁₆⟩ := cuts_textBytes.optional hmOrigins.2.1 hnOrigins.2.1 h₁₅
  obtain ⟨hAgent, h₁₇⟩ := cuts_textBytes.optional hmOrigins.2.2.1 hnOrigins.2.2.1 h₁₆
  obtain ⟨hSource, h₁₈⟩ := cuts_textBytes.optional hmOrigins.2.2.2.1 hnOrigins.2.2.2.1 h₁₇
  obtain ⟨hChannel, h₁₉⟩ := cuts_channel h₁₈
  obtain ⟨hSession, h₂₀⟩ := cuts_textBytes.optional hmOrigins.2.2.2.2 hnOrigins.2.2.2.2 h₁₉
  rw [← append_nil (m.anchors.flatMap _), ← append_nil (n.anchors.flatMap _),
    ← append_assoc, ← append_assoc] at h₂₀
  obtain ⟨hAnchors, hKnown, -⟩ := anchors_append_inj hm.anchors hn.anchors h₂₀
  exact ⟨{
    content := (List.cons.inj hContent).1
    context := (List.cons.inj hContext).1
    summary := (List.cons.inj hSummary).1
    keywords := hKeywords
    tags := hTags
    relatedFiles := hFiles
    memoryType := hType
    trustClass := hTrust
    importance := ofNat_importance_inj hm.importance hn.importance hImportance
    humanCurated := flag_inj hCurated
    legacyUnknown := flag_inj hLegacy
    originUser := hUser
    originHost := hHost
    originAgent := hAgent
    originSource := hSource
    originChannel := hChannel
    sessionId := hSession
    anchors := hAnchors }, BitVec.eq_of_toNat_eq hConfidence, flag_inj hContested, flag_inj hStale, hKnown⟩

/-- **Fingerprints are unambiguous.** The bytes behind both fingerprints determine the fields they
are made of; where a note has a commit, also whether the head of the repository is known. -/
theorem fingerprints_unambiguous :
    Set.InjOn (fun x : Text × List Text × List Text × Text => fingerprintBytes x.1 x.2.1 x.2.2.1 x.2.2.2)
      { x | Addressable x.1 x.2.1 x.2.2.1 x.2.2.2 } ∧
    ∀ (m n : MemoryNote) (confidence confidence' : BitVec 32)
      (contested contested' stale stale' known known' : Bool), m.Fits → n.Fits →
        fingerprintForBytes m confidence contested stale known =
          fingerprintForBytes n confidence' contested' stale' known' →
        SameEvidence m n ∧ confidence = confidence' ∧ contested = contested' ∧ stale = stale' ∧
          ((∃ a ∈ m.anchors, a.kind = .commit) → known = known') := by
  constructor
  · rintro ⟨c, k, t, x⟩ hLeft ⟨c', k', t', x'⟩ hRight h
    obtain ⟨rfl, rfl, rfl, rfl⟩ := fingerprintBytes_inj hLeft hRight h
    rfl
  · intro m n confidence confidence' contested contested' stale stale' known known' hm hn h
    exact fingerprintForBytes_inj hm hn h

/-- A note bound to a commit. -/
def commitNote : MemoryNote where
  id := ⟨1⟩
  ns := .global
  createdAt := ⟨0, 0⟩
  updatedAt := ⟨0, 0⟩
  content := ['a']
  memoryType := .insight
  importance := 5
  anchors := [⟨.commit, ['c'], none, none⟩]

theorem commitNote_fits : commitNote.Fits where
  texts := by
    intro fields hFields
    simp only [commitNote, mem_cons, not_mem_nil, or_false] at hFields
    rcases hFields with rfl | rfl | rfl | rfl | rfl | rfl <;> exact ⟨by decide, by decide⟩
  importance := by decide
  origins := by
    intro o ho t ht
    simp only [commitNote, mem_cons, not_mem_nil, or_false, or_self] at ho
    subst ho
    cases ht
  anchors := by
    refine ⟨by decide, fun a ha => ?_⟩
    obtain rfl := mem_singleton.mp ha
    exact ⟨by decide, nofun, nofun⟩

/-- Two keywords are not one, and an unknown head does not look like a known one. -/
theorem fingerprints_unambiguous_commitNote :
    fingerprintBytes [] [['a'], ['b']] [] [] ≠ fingerprintBytes [] [['a', 'b']] [] [] ∧
      fingerprintForBytes commitNote 0 false false true ≠
        fingerprintForBytes commitNote 0 false false false := by
  have hSmall : ∀ keywords ∈ [[['a'], ['b']], [['a', 'b']]], Addressable [] keywords [] [] := by
    intro keywords hKeywords fields hFields
    simp only [mem_cons, not_mem_nil, or_false] at hKeywords hFields
    rcases hKeywords with rfl | rfl <;>
      rcases hFields with rfl | rfl | rfl | rfl <;> exact ⟨by decide, by decide⟩
  constructor
  · intro h
    have hTwo := hSmall [['a'], ['b']] (by decide)
    have hOne := hSmall [['a', 'b']] (by decide)
    have hSame : (([] : Text), [['a'], ['b']], ([] : List Text), ([] : Text)) =
        ([], [['a', 'b']], [], []) := fingerprints_unambiguous.1 hTwo hOne h
    exact absurd hSame (by decide)
  · intro h
    have hKnown := (fingerprints_unambiguous.2 commitNote commitNote 0 0 false false false false true
      false commitNote_fits commitNote_fits h).2.2.2.2
    exact absurd (hKnown ⟨_, mem_singleton.mpr rfl, rfl⟩) (by decide)

end RustyBrain
