import RustyBrain.Daemon.Requests
import RustyBrain.Lib.RelyGuarantee

/-!
# rusty-brain — trust is not self-promoted

Any number of connections remember, update and merge memories of one store. The class of a
memory is fixed when it is written: a remember gets the class that its source and evidence
derive, and a merge the weaker class of its two members. `Vouched` says which texts may
stand under a class: what requests of at least that class brought, and what the daemon
derives from such texts.

An update rewrites the summary or the context of a memory of any class and is asked for no
evidence, so the texts stay vouched for only in the runs in which no update rewrites them in
a memory above attested.
-/

namespace RustyBrain.Daemon.Trust

open Store Engine Proto Transaction Sessions RelyGuarantee List

variable {db : Db} {c : TrustClass}

/-! ## Requests and the texts they vouch for -/

/-- A remember request, with the source its connection declared. -/
structure Received where
  source : Option Text
  request : RememberRequest
  deriving DecidableEq

/-- The class that the request derives. -/
def Received.trustClass (q : Received) : Result TrustClass :=
  deriveTrustClass q.source q.request.evidence (q.request.anchors.any fun a => a.kind = .commit)

/-- The request derives at least the class `c`. -/
def Received.Backs (q : Received) (c : TrustClass) : Prop :=
  ∃ d, q.trustClass = .ok d ∧ c.rank ≤ d.rank

section Vouched

variable {ι : Type} (daemon : ι → Connection)

/-- The texts that may stand under the class `c`: the content and context of requests that
derive at least `c`, and what the daemon makes of such texts. -/
inductive Vouched (requests : List Received) (c : TrustClass) : Text → Prop
  | empty : Vouched requests c []
  | content {q : Received} (hq : q ∈ requests) (hBacks : q.Backs c) :
      Vouched requests c q.request.content
  | context {q : Received} {t : Text} (hq : q ∈ requests) (hBacks : q.Backs c)
      (ht : q.request.context = some t) : Vouched requests c t
  | summary {i : ι} {content : Text} {context : Option Text} (hContent : Vouched requests c content)
      (hContext : ∀ t, context = some t → Vouched requests c t) :
      Vouched requests c ((daemon i).engine.summaryFor content context)
  | merged {a b : Text} (ha : Vouched requests c a) (hb : Vouched requests c b) :
      Vouched requests c (a ++ mergeSeparator ++ b)

variable {daemon} {requests requests' : List Received} {c d : TrustClass} {t : Text}

theorem Received.Backs.weaken {q : Received} (h : q.Backs c) (hle : d.rank ≤ c.rank) : q.Backs d := by
  obtain ⟨e, hClass, hRank⟩ := h
  exact ⟨e, hClass, hle.trans hRank⟩

/-- A text vouched for stays so under a weaker class. -/
theorem Vouched.weaken (h : Vouched daemon requests c t) (hle : d.rank ≤ c.rank) :
    Vouched daemon requests d t := by
  induction h with
  | empty => exact .empty
  | content hq hBacks => exact .content hq (hBacks.weaken hle)
  | context hq hBacks ht => exact .context hq (hBacks.weaken hle) ht
  | summary _ _ ihContent ihContext => exact .summary ihContent ihContext
  | merged _ _ iha ihb => exact .merged iha ihb

/-- A text vouched for stays so as more requests come in. -/
theorem Vouched.mono (h : Vouched daemon requests c t) (hSub : requests ⊆ requests') :
    Vouched daemon requests' c t := by
  induction h with
  | empty => exact .empty
  | content hq hBacks => exact .content (hSub hq) hBacks
  | context hq hBacks ht => exact .context (hSub hq) hBacks ht
  | summary _ _ ihContent ihContext => exact .summary ihContent ihContext
  | merged _ _ iha ihb => exact .merged iha ihb

end Vouched

/-! ## The system -/

/-- The store, and the remember requests it has received so far. -/
structure History where
  db : Db
  requests : List Received

/-- A merge between its reads and its write: the two members as they were read. -/
structure Merge where
  key : String
  ids : List MemoryId
  threshold : ℚ
  explicit : Bool
  a : MemoryNote
  b : MemoryNote

/-- What a connection does next. A merge, asked for by a person or planned by a policy, reads
its members in one turn and writes in another; an `aside` is any other operation of the store
that inserts nothing and rewrites no text. -/
inductive Turn where
  | remember (o : Outside) (r : RememberRequest)
  | update (now : Int) (id : MemoryId) (updates : MemoryUpdates)
  | readMerge (reason : ReviewReason) (ids : List MemoryId) (threshold : ℚ) (explicit : Bool)
  | writeMerge (o : Outside)
  | aside (op : Op) (hKeeps : op.rewords = false) (hInserts : op.inserted = none)

/-- The first half of `apply_review_action` for a merge: everything it reads. -/
def readMembers (c : Connection) (reason : ReviewReason) (ids : List MemoryId) :
    DaemonM (List MemoryNote) := do
  lift (ReviewAction.merge.validate reason ids)
  checkContradiction direct c reason ids
  memberNotes direct c ids

/-- One turn of a connection. -/
def move {ι : Type} (daemon : ι → Connection) (i : ι) :
    Turn → History → Option Merge → History × Option Merge
  | .remember o r, h, m =>
    (⟨(outcome (dispatchRemember (daemon i) o r) h.db).2,
      h.requests ++ [⟨(daemon i).provenance.originSource, r⟩]⟩, m)
  | .update now id updates, h, m =>
    (⟨(outcome (dispatchUpdate (daemon i) now id updates) h.db).2, h.requests⟩, m)
  | .readMerge reason ids threshold explicit, h, _ =>
    (h, match (outcome (readMembers (daemon i) reason ids) h.db).1 with
      | .ok (a :: b :: _) => some ⟨reviewItemKey reason ids, ids, threshold, explicit, a, b⟩
      | _ => none)
  | .writeMerge o, h, some m =>
    (⟨(outcome (applyMerge direct (daemon i) o.drawn m.key m.ids m.threshold m.explicit m.a m.b) h.db).2,
      h.requests⟩, none)
  | .writeMerge _, h, none => (h, none)
  | .aside op _ _, h, m => (⟨op.run (daemon i).env h.db, h.requests⟩, m)

/-- A memory above attested has texts that are vouched for under its class. -/
def Backed {ι : Type} (daemon : ι → Connection) (requests : List Received) (c : TrustClass)
    (t : Text) : Prop :=
  TrustClass.agentAttested.rank < c.rank → Vouched daemon requests c t

/-- Every memory above attested shows only texts that requests of at least its class brought
or that were derived from such texts; and no request of the model-facing surfaces, and none
without evidence, is among those. -/
structure NoSelfPromotion {ι : Type} (daemon : ι → Connection) (h : History) : Prop where
  content : ∀ r ∈ h.db.memories, Backed daemon h.requests r.trustClass r.content
  summary : ∀ r ∈ h.db.memories, Backed daemon h.requests r.trustClass r.summary
  evidenced : ∀ q ∈ h.requests, ∀ c : TrustClass, TrustClass.agentAttested.rank < c.rank →
    q.Backs c → q.request.evidence.isSome = true ∧
      (q.source = some hookSource ∨ q.source = some cliSource)

/-- An update leaves the summary and the context of memories above attested alone. -/
def SparesTrusted {ι : Type} (w : World ι History (Option Merge)) : ι × Turn → Prop
  | (_, .update _ id updates) =>
    updates.summary.isSome = true ∨ updates.context.isSome = true →
      ∀ r ∈ w.shared.db.memories, r.memoryId = id →
        r.trustClass.rank ≤ TrustClass.agentAttested.rank
  | _ => True

/-! ## What each turn leaves -/

section

variable {ι : Type} {daemon : ι → Connection} {requests requests' : List Received}

/-- The three texts of a wording that a summary can be made of or be. -/
structure TextsBacked (daemon : ι → Connection) (requests : List Received) (w : Wording) : Prop where
  content : Backed daemon requests w.trustClass w.content
  summary : Backed daemon requests w.trustClass w.summary
  context : Backed daemon requests w.trustClass w.context

/-- Every memory of the store has backed texts. -/
def Sound (daemon : ι → Connection) (db : Db) (requests : List Received) : Prop :=
  ∀ r ∈ db.memories, TextsBacked daemon requests r.wording

/-- The members that a merge has read have backed texts. -/
def Merge.Sound (daemon : ι → Connection) (requests : List Received) (m : Merge) : Prop :=
  ∀ n, n = m.a ∨ n = m.b →
    Backed daemon requests n.trustClass n.content ∧ Backed daemon requests n.trustClass n.context

theorem TextsBacked.mono {w : Wording} (h : TextsBacked daemon requests w)
    (hSub : requests ⊆ requests') : TextsBacked daemon requests' w where
  content := fun hAbove => (h.content hAbove).mono hSub
  summary := fun hAbove => (h.summary hAbove).mono hSub
  context := fun hAbove => (h.context hAbove).mono hSub

theorem Merge.Sound.mono {m : Merge} (h : m.Sound daemon requests) (hSub : requests ⊆ requests') :
    m.Sound daemon requests' := by
  intro n hn
  obtain ⟨hContent, hContext⟩ := h n hn
  exact ⟨fun hAbove => (hContent hAbove).mono hSub, fun hAbove => (hContext hAbove).mono hSub⟩

variable {i : ι}

/-- A composed note is backed when its content and its context are. -/
theorem noteFor_backed {id : MemoryId} {clock : DateTime} {input : RememberInput}
    (hClass : input.trustClass = some c)
    (hContent : Backed daemon requests c input.content)
    (hContext : ∀ t, input.context = some t → Backed daemon requests c t) :
    TextsBacked daemon requests (noteRow ((daemon i).engine.noteFor id clock input)).wording := by
  have hTrust : (noteRow ((daemon i).engine.noteFor id clock input)).wording.trustClass = c := by
    show input.trustClass.getD _ = c
    rw [hClass]
    rfl
  constructor
  · rw [hTrust]
    exact hContent
  · rw [hTrust]
    exact fun hAbove => .summary (hContent hAbove) fun t ht => hContext t ht hAbove
  · rw [hTrust]
    intro hAbove
    show Vouched daemon requests c (input.context.getD [])
    cases hCase : input.context with
    | none => exact .empty
    | some t => exact hContext t hCase hAbove

/-- A remember brings texts of its own request, under the class the request derives. -/
theorem remember_backed (o : Outside) (r : RememberRequest)
    (h : Sound daemon db requests) :
    Sound daemon (outcome (dispatchRemember (daemon i) o r) db).2
      (requests ++ [⟨(daemon i).provenance.originSource, r⟩]) := by
  have hSub : requests ⊆ requests ++ [⟨(daemon i).provenance.originSource, r⟩] :=
    subset_append_left _ _
  refine dispatchRemember_wordings (fun s hs => (h s hs).mono hSub) fun input hInput => ?_
  obtain ⟨c, hClass, rfl⟩ := rememberInput_ok hInput
  have hMem : (⟨(daemon i).provenance.originSource, r⟩ : Received) ∈
      requests ++ [⟨(daemon i).provenance.originSource, r⟩] :=
    mem_append_right _ mem_cons_self
  have hBacks : (⟨(daemon i).provenance.originSource, r⟩ : Received).Backs c := ⟨c, hClass, le_refl _⟩
  exact noteFor_backed rfl (fun _ => .content hMem hBacks) fun t ht _ => .context hMem hBacks ht

/-- An update that spares the memories above attested leaves their texts. -/
theorem update_backed {now : Int} {id : MemoryId} {updates : MemoryUpdates}
    (h : Sound daemon db requests)
    (hSpares : updates.summary.isSome = true ∨ updates.context.isSome = true →
      ∀ r ∈ db.memories, r.memoryId = id → r.trustClass.rank ≤ TrustClass.agentAttested.rank) :
    Sound daemon (outcome (dispatchUpdate (daemon i) now id updates) db).2 requests := by
  intro s hs
  rcases dispatchUpdate_rows s hs with hOld | ⟨r, hr, hId, hContent, rfl⟩
  · exact h s hOld
  · by_cases hWrites : updates.summary.isSome = true ∨ updates.context.isSome = true
    · -- the row is not above attested, before and after
      have hLow : r.trustClass.rank ≤ TrustClass.agentAttested.rank := hSpares hWrites r hr hId
      exact ⟨fun hAbove => absurd hAbove (Nat.not_lt.mpr hLow),
        fun hAbove => absurd hAbove (Nat.not_lt.mpr hLow),
        fun hAbove => absurd hAbove (Nat.not_lt.mpr hLow)⟩
    · obtain ⟨hSummary, hContext⟩ := not_or.mp hWrites
      rw [Option.not_isSome_iff_eq_none] at hSummary hContext
      obtain ⟨hC, hS, hX⟩ := h r hr
      refine ⟨?_, ?_, ?_⟩
      · show Backed daemon requests r.trustClass (updates.content.getD r.content)
        rw [hContent]
        exact hC
      · show Backed daemon requests r.trustClass (updates.summary.getD r.summary)
        rw [hSummary]
        exact hS
      · show Backed daemon requests r.trustClass (updates.context.getD r.context)
        rw [hContext]
        exact hX

/-- A member of a sound store has backed texts. -/
theorem member_backed {id : MemoryId} {n : MemoryNote}
    (h : Sound daemon db requests) (hMember : member (daemon i).engine db id = .ok n) :
    Backed daemon requests n.trustClass n.content ∧ Backed daemon requests n.trustClass n.context := by
  obtain ⟨r, hFind, -, hDecodes⟩ := member_row hMember
  obtain ⟨hContent, -, hContext⟩ := h r (Db.find_some hFind).1
  rw [hDecodes.trustClass, hDecodes.content, hDecodes.context]
  exact ⟨hContent, hContext⟩

/-- What a merge has read is backed. -/
theorem readMembers_backed {reason : ReviewReason} {ids : List MemoryId}
    {notes : List MemoryNote} (h : Sound daemon db requests)
    (hRead : (outcome (readMembers (daemon i) reason ids) db).1 = .ok notes) :
    ∀ n ∈ notes, Backed daemon requests n.trustClass n.content ∧
      Backed daemon requests n.trustClass n.context := by
  have hCompletes : Completes (readMembers (daemon i) reason ids) db notes
      (outcome (readMembers (daemon i) reason ids) db).2 := Prod.ext hRead rfl
  simp only [readMembers, completes_bind, lift, completes_view] at hCompletes
  obtain ⟨⟨⟩, _, ⟨hValid, rfl⟩, h'⟩ := hCompletes
  -- only near-duplicates pass, so the re-check of a contradiction reads nothing
  obtain ⟨rfl, a, b, rfl, -⟩ := validate_merge_iff.mp hValid
  simp only [checkContradiction, completes_pure, completes_memberNotes] at h'
  obtain ⟨_, _, ⟨-, rfl⟩, hNotes, -⟩ := h'
  obtain ⟨na, nb, hA, hB, rfl⟩ := mapM_pair hNotes
  intro n hn
  rcases mem_pair.mp hn with rfl | rfl
  · exact member_backed h hA
  · exact member_backed h hB

/-- The write of a merge changes nothing or runs the merge of the composed note. -/
theorem applyMerge_cases (c : Connection) (o : Outside) (m : Merge) (db : Db) :
    (outcome (applyMerge direct c o.drawn m.key m.ids m.threshold m.explicit m.a m.b) db).2 = db ∨
      ∃ note e details,
        c.engine.composeNote o.freshId o.clock (mergeInput c.provenance m.a m.b) = .ok (note, e) ∧
        (outcome (applyMerge direct c o.drawn m.key m.ids m.threshold m.explicit m.a m.b) db).2 =
          (Op.reviewMerge c.engine.ns m.a.id m.b.id m.threshold note e details m.explicit
            o.clock).run c.env db := by
  unfold applyMerge
  by_cases hQuarantine : m.a.isQuarantined = true ∨ m.b.isQuarantined = true
  · rw [if_pos hQuarantine]
    exact .inl rfl
  · rw [if_neg hQuarantine]
    cases hNote : c.engine.composeNote o.drawn.freshId o.drawn.composedAt
        (mergeInput c.provenance m.a m.b) with
    | error e =>
      rw [outcome_bind_of_error (outcome_lift _ _)]
      exact .inl rfl
    | ok composed =>
      obtain ⟨note, e⟩ := composed
      rw [outcome_bind_of_ok (outcome_lift _ _)]
      exact .inr ⟨note, e, _, hNote, outcome_bind_pure _ _ _⟩

theorem weaker_rank_le (a b : TrustClass) :
    (a.weaker b).rank ≤ a.rank ∧ (a.weaker b).rank ≤ b.rank := by
  unfold TrustClass.weaker
  split
  · omega
  · omega

/-- A merge of two backed members is backed: its class is the weaker of theirs. -/
theorem merge_backed {o : Outside} {m : Merge} (h : Sound daemon db requests)
    (hMerge : m.Sound daemon requests) :
    Sound daemon (outcome (applyMerge direct (daemon i) o.drawn m.key m.ids m.threshold m.explicit
      m.a m.b) db).2 requests := by
  rcases applyMerge_cases (daemon i) o m db with hSame | ⟨note, e, details, hNote, hRun⟩
  · rw [hSame]
    exact h
  · rw [hRun]
    obtain ⟨rfl, -⟩ := composeNote_ok hNote
    refine Op.run_wordings rfl (fun n e' hInserted => ?_) h
    cases hInserted
    obtain ⟨hLeA, hLeB⟩ := weaker_rank_le m.a.trustClass m.b.trustClass
    obtain ⟨hContentA, hContextA⟩ := hMerge m.a (.inl rfl)
    obtain ⟨hContentB, hContextB⟩ := hMerge m.b (.inr rfl)
    refine noteFor_backed rfl ?_ ?_
    · intro hAbove
      have hA := (hContentA (hAbove.trans_le hLeA)).weaken hLeA
      have hB := (hContentB (hAbove.trans_le hLeB)).weaken hLeB
      show Vouched daemon requests _ (if m.a.content = m.b.content then m.a.content
        else m.a.content ++ mergeSeparator ++ m.b.content)
      split
      · exact hA
      · exact .merged hA hB
    · intro t ht hAbove
      -- the context is the first of the two that is not empty
      have hFound : [m.a.context, m.b.context].find? (fun c => c ≠ []) = some t := ht
      have hMem : t ∈ [m.a.context, m.b.context] := mem_of_find?_eq_some hFound
      rcases mem_pair.mp hMem with rfl | rfl
      · exact (hContextA (hAbove.trans_le hLeA)).weaken hLeA
      · exact (hContextB (hAbove.trans_le hLeB)).weaken hLeB

end

/-! ## Whole runs -/

section

variable {ι : Type} {daemon : ι → Connection}

/-- What a connection knows about the merge it is in the middle of. -/
def Holding (daemon : ι → Connection) (h : History) (m : Option Merge) : Prop :=
  ∀ merge, m = some merge → merge.Sound daemon h.requests

/-- One turn that spares the memories above attested keeps every text backed, and forgets no
request. -/
theorem move_sound (w : World ι History (Option Merge)) (turn : ι × Turn) (hOk : SparesTrusted w turn)
    (hSound : Sound daemon w.shared.db w.shared.requests)
    (hHolding : Holding daemon w.shared (w.party turn.1)) :
    let after := move daemon turn.1 turn.2 w.shared (w.party turn.1)
    Sound daemon after.1.db after.1.requests ∧ w.shared.requests ⊆ after.1.requests ∧
      Holding daemon after.1 after.2 := by
  obtain ⟨i, turn⟩ := turn
  cases turn with
  | remember o r =>
    have hSub : w.shared.requests ⊆ w.shared.requests ++ [⟨(daemon i).provenance.originSource, r⟩] :=
      subset_append_left _ _
    exact ⟨remember_backed o r hSound, hSub, fun m hm => (hHolding m hm).mono hSub⟩
  | update now id updates => exact ⟨update_backed hSound hOk, List.Subset.refl _, hHolding⟩
  | readMerge reason ids threshold explicit =>
    refine ⟨hSound, List.Subset.refl _, ?_⟩
    intro m hm
    simp only [move] at hm
    split at hm
    next a b rest hRead =>
      cases hm
      have hBacked := readMembers_backed hSound hRead
      rintro n (rfl | rfl)
      · exact hBacked _ mem_cons_self
      · exact hBacked _ (mem_cons_of_mem _ mem_cons_self)
    next => cases hm
  | writeMerge o =>
    cases hParty : w.party i with
    | none => exact ⟨hSound, List.Subset.refl _, fun m hm => nomatch hm⟩
    | some m =>
      exact ⟨merge_backed hSound (hHolding m hParty), List.Subset.refl _, fun m hm => nomatch hm⟩
  | aside op hKeeps hInserts =>
    refine ⟨Op.run_wordings hKeeps (fun n e hInserted => ?_) hSound, List.Subset.refl _, hHolding⟩
    cases hInserts.symm.trans hInserted

/-- A new store, before any request, with no merge begun. -/
def start (siteId : Text) (dim : Nat) (model : Option Text) : World ι History (Option Merge) where
  shared := ⟨Db.init siteId dim model, []⟩
  party := fun _ => none

/-- In every run whose updates leave the summary and the context of memories above attested
alone, no text is ever presented under a class that its request did not derive. -/
theorem trust_not_self_promoted [DecidableEq ι] {siteId : Text} {dim : Nat} {model : Option Text}
    {turns : List (ι × Turn)}
    (hRun : Machine.Along (World.step (move daemon)) SparesTrusted (start siteId dim model) turns) :
    ∀ w ∈ Machine.states (World.step (move daemon)) (start siteId dim model) turns,
      NoSelfPromotion daemon w.shared := by
  have hStart : Holds (fun h : History => Sound daemon h.db h.requests) (fun _ => Holding daemon)
      (start siteId dim model : World ι History (Option Merge)) :=
    ⟨fun r hr => (nomatch hr), fun _ m hm => nomatch hm⟩
  intro w hw
  obtain ⟨hSound, -⟩ := along (G := fun h h' => h.requests ⊆ h'.requests) move_sound
    (fun _ _ _ _ hSub hHolding m hm => (hHolding m hm).mono hSub) hStart hRun w hw
  exact
    { content := fun r hr => (hSound r hr).content
      summary := fun r hr => (hSound r hr).summary
      evidenced := fun q _ c hAbove hBacks => by
        obtain ⟨d, hClass, hRank⟩ := hBacks
        exact deriveTrustClass_above hClass (hAbove.trans_le hRank) }

end

/-! ## A desk with two clients -/

/-- The command line and a model, each on a connection of its own, over the global
namespace. -/
inductive Client where
  | cli | mcp
  deriving DecidableEq

/-- The daemon of the two clients; it derives no keywords and has no enricher. -/
def desk (client : Client) : Connection where
  env := .blank
  engine :=
    { ns := .global
      isAlphanumeric := fun _ => false
      toLowercase := id
      enrich := none
      modelId := []
      embed := fun _ => .ok [] }
  provenance := udsProvenance none none
    { source := some (match client with | .cli => cliSource | .mcp => mcpSource) }

/-- A memory that a person confirms. -/
def confirmation : RememberRequest where
  content := ['a']
  memoryType := .insight
  importance := 5
  evidence := some (.humanConfirmed none)

/-- The confirmation comes in on the command line. -/
def confirmed : Turn := .remember ⟨⟨1⟩, ⟨0, 0⟩, []⟩ confirmation

/-- The model remembers something of its own. -/
def noted : Turn :=
  .remember ⟨⟨2⟩, ⟨0, 0⟩, []⟩ { content := ['b'], memoryType := .insight, importance := 5 }

/-- An update gives a memory the summary `X`. -/
def resummarised (id : MemoryId) : Turn := .update 1 id { summary := some ['X'] }

/-- The result for a run in which the model rewrites the summary of its own memory: the
confirmed memory keeps its texts. -/
theorem trust_not_self_promoted_desk :
    (Machine.states (World.step (move desk)) (start [] 0 none)
      [(.cli, confirmed), (.mcp, noted), (.mcp, resummarised ⟨2⟩)]).length = 4 ∧
    ∀ w ∈ Machine.states (World.step (move desk)) (start [] 0 none)
        [(.cli, confirmed), (.mcp, noted), (.mcp, resummarised ⟨2⟩)],
      NoSelfPromotion desk w.shared := by
  refine ⟨rfl, trust_not_self_promoted ⟨trivial, trivial, fun _ => ?_, trivial⟩⟩
  decide +kernel

/-- The model rewrites the summary of the memory that a person confirmed, and the memory
presents it as confirmed. -/
def promoted : World Client History (Option Merge) :=
  [(.cli, confirmed), (.mcp, resummarised ⟨1⟩)].foldl (World.step (move desk)) (start [] 0 none)

/-- Whatever the desk vouches for after that one confirmation has no `X` in it. -/
theorem no_X_vouched {t : Text}
    (h : Vouched desk [⟨some cliSource, confirmation⟩] c t) : 'X' ∉ t := by
  induction h with
  | empty => exact not_mem_nil
  | content hq hBacks =>
    rw [mem_singleton.mp hq]
    decide
  | context hq hBacks ht =>
    rw [mem_singleton.mp hq] at ht
    cases ht
  | @summary i content context _ _ ihContent _ =>
    -- without an enricher the summary is a part of the content
    intro hX
    exact ihContent (mem_of_mem_defaultSummary hX)
  | merged _ _ iha ihb =>
    intro hX
    rcases mem_append.mp hX with hLeft | hRight
    · rcases mem_append.mp hLeft with ha | hSep
      · exact iha ha
      · revert hSep
        decide
    · exact ihb hRight

theorem model_summary_presented_as_confirmed : ¬ NoSelfPromotion desk promoted.shared := by
  intro h
  have hRequests : promoted.shared.requests = [⟨some cliSource, confirmation⟩] := rfl
  have hRow : ∃ r ∈ promoted.shared.db.memories, r.trustClass = .humanConfirmed ∧
      r.summary = ['X'] := by decide +kernel
  obtain ⟨r, hr, hClass, hSummary⟩ := hRow
  have hVouched := h.summary r hr (by rw [hClass]; decide)
  rw [hRequests, hSummary] at hVouched
  exact no_X_vouched hVouched mem_cons_self

end RustyBrain.Daemon.Trust
