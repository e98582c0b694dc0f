import RustyBrain.Daemon.Requests
import RustyBrain.Engine.Recall
import RustyBrain.Lib.Machine

/-!
# rusty-brain — texts from the HTTP channel

Local clients and HTTP clients remember, update and link memories of one store. A memory
that came in over HTTP is quarantined for good: no recall returns it and no project context
lists it. `LocalText` says which texts a local client is behind: those of its requests, and
what the engine derives from them.

The quarantine is a mark of the memory and not of its texts. An update over HTTP rewrites the
summary, the context or the tags of a memory that a local client wrote, which is not
quarantined, and so its texts do reach retrieval. They do not in the runs in which no update
over HTTP does that.
-/

namespace RustyBrain.Daemon.Quarantine

open Store Engine Proto Transaction Sessions List

variable {t : Text} {id : MemoryId} {clock : DateTime} {input : RememberInput} {m : MemoryRow}
  {engine : MemoryEngine} {n : MemoryNote}

/-! ## Clients -/

/-- How a client is connected. -/
inductive Surface where
  | uds (identity : ClientIdentity)
  | http
  deriving DecidableEq

/-- The provenance that the daemon stamps on what a client writes. -/
def Surface.provenance (user host : Option Text) : Surface → Provenance
  | .uds identity => udsProvenance user host identity
  | .http => httpProvenance user host

/-- A daemon and its clients, each with the engine of its namespace. -/
structure Site (ι : Type) where
  env : Env
  user : Option Text
  host : Option Text
  engine : ι → MemoryEngine
  surface : ι → Surface

variable {ι : Type}

/-- The connection of a client. -/
def Site.connection (site : Site ι) (i : ι) : Connection where
  env := site.env
  engine := site.engine i
  provenance := (site.surface i).provenance site.user site.host

/-! ## Requests and the texts local clients are behind -/

/-- A request that brings texts. -/
inductive Written where
  | remembered (r : RememberRequest)
  | updated (updates : MemoryUpdates)

/-- Everything the engine may derive from a content and its context: the summary, keywords
and tags. -/
def derivedTexts (engine : MemoryEngine) (content : Text) (context : Option Text) : List Text :=
  let en := engine.enrich.bind fun f => f content context
  engine.summaryFor content context :: engine.deriveKeywords content ++
    (en.map Enrichment.keywords).getD [] ++ (en.map Enrichment.tags).getD []

/-- The texts that the requests of local clients wrote, and what was derived from them. -/
inductive LocalText (site : Site ι) (log : List Written) : Text → Prop
  | empty : LocalText site log []
  | content {r : RememberRequest} (h : .remembered r ∈ log) : LocalText site log r.content
  | context {r : RememberRequest} {t : Text} (h : .remembered r ∈ log) (ht : r.context = some t) :
      LocalText site log t
  | keyword {r : RememberRequest} {t : Text} (h : .remembered r ∈ log) (ht : t ∈ r.keywords) :
      LocalText site log t
  | tag {r : RememberRequest} {t : Text} (h : .remembered r ∈ log) (ht : t ∈ r.tags) :
      LocalText site log t
  | newSummary {u : MemoryUpdates} {t : Text} (h : .updated u ∈ log) (ht : u.summary = some t) :
      LocalText site log t
  | newContext {u : MemoryUpdates} {t : Text} (h : .updated u ∈ log) (ht : u.context = some t) :
      LocalText site log t
  | newTag {u : MemoryUpdates} {ts : List Text} {t : Text} (h : .updated u ∈ log)
      (hts : u.tags = some ts) (ht : t ∈ ts) : LocalText site log t
  | derived {i : ι} {content : Text} {context : Option Text} {t : Text}
      (hContent : LocalText site log content)
      (hContext : ∀ c, context = some c → LocalText site log c)
      (ht : t ∈ derivedTexts (site.engine i) content context) : LocalText site log t

theorem LocalText.mono {site : Site ι} {log log' : List Written} (h : LocalText site log t)
    (hSub : log ⊆ log') : LocalText site log' t := by
  induction h with
  | empty => exact .empty
  | content h => exact .content (hSub h)
  | context h ht => exact .context (hSub h) ht
  | keyword h ht => exact .keyword (hSub h) ht
  | tag h ht => exact .tag (hSub h) ht
  | newSummary h ht => exact .newSummary (hSub h) ht
  | newContext h ht => exact .newContext (hSub h) ht
  | newTag h hts ht => exact .newTag (hSub h) hts ht
  | derived _ _ ht ihContent ihContext => exact .derived ihContent ihContext ht

/-- Every text of a memory has a local client behind it. -/
structure LocalNote (site : Site ι) (log : List Written) (n : MemoryNote) : Prop where
  content : LocalText site log n.content
  summary : LocalText site log n.summary
  context : LocalText site log n.context
  keywords : ∀ k ∈ n.keywords, LocalText site log k
  tags : ∀ t ∈ n.tags, LocalText site log t

/-! ## Histories -/

/-- What a client does next; an `aside` is any other operation of the store that inserts
nothing and rewrites no text. -/
inductive Turn where
  | remember (o : Outside) (r : RememberRequest)
  | update (now : Int) (id : MemoryId) (updates : MemoryUpdates)
  | link (clock : DateTime) (source target : MemoryId) (linkType : LinkType) (reason : Option Text)
  | aside (op : Op) (hKeeps : op.rewords = false) (hInserts : op.inserted = none)

/-- The store, and what local clients have asked it to write so far. -/
structure History where
  db : Db
  log : List Written

/-- The log after one more request; requests over HTTP are no part of it. -/
def Site.logged (site : Site ι) (i : ι) (log : List Written) (w : Written) : List Written :=
  if site.surface i = .http then log else log ++ [w]

/-- One turn of a client. -/
def Site.step (site : Site ι) (h : History) : ι × Turn → History
  | (i, .remember o r) =>
    ⟨(outcome (dispatchRemember (site.connection i) o r) h.db).2, site.logged i h.log (.remembered r)⟩
  | (i, .update now id updates) =>
    ⟨(outcome (dispatchUpdate (site.connection i) now id updates) h.db).2,
      site.logged i h.log (.updated updates)⟩
  | (i, .link clock source target linkType reason) =>
    ⟨(outcome (engineLink (site.connection i) clock source target linkType reason) h.db).2, h.log⟩
  | (_, .aside op _ _) => ⟨op.run site.env h.db, h.log⟩

/-- The notes that a recall or a project context whose reads meet the store `db` hands out. -/
inductive Retrieved (engine : MemoryEngine) (db : Db) : MemoryNote → Prop
  | recalled {env : Env} {ranker : Ranker} {reads : RecallReads} {query : Text} {limit : Nat}
      {filter : RecallFilter} {out : RecallOutcome} {r : SearchResult} (hAt : reads.fetch = db)
      (h : engine.recallWithStatus env ranker reads query limit filter = .ok out)
      (hr : r ∈ out.results) : Retrieved engine db r.memory
  | listed {notes : List MemoryNote} {n : MemoryNote}
      (h : db.listFiltered engine.ns contextFilter 50 = .ok notes) (hn : n ∈ notes) :
      Retrieved engine db n

/-- Whatever is retrieved now has only texts that a local client is behind. -/
def OnlyLocalTexts (site : Site ι) (h : History) : Prop :=
  ∀ i n, Retrieved (site.engine i) h.db n → LocalNote site h.log n

/-- The row is withheld from retrieval because of where it came from. -/
def Wording.quarantined (w : Wording) : Bool :=
  w.legacyUnknown ||
    match w.originChannel with
    | some .http => true
    | some _ => false
    | none => w.originSource == some httpSource

/-- An update over HTTP leaves the texts of memories outside quarantine alone. -/
def SparesEligible (site : Site ι) (h : History) : ι × Turn → Prop
  | (i, .update _ id updates) =>
    site.surface i = .http →
      updates.summary.isSome = true ∨ updates.context.isSome = true ∨ updates.tags.isSome = true →
      ∀ r ∈ h.db.memories, r.memoryId = id → Wording.quarantined r.wording = true
  | _ => True

/-! ## What each turn leaves -/

section

variable {site : Site ι} {log log' : List Written} {db : Db}

/-- The texts of a row, the list columns as they are read. -/
structure LocalWording (site : Site ι) (log : List Written) (w : Wording) : Prop where
  content : LocalText site log w.content
  summary : LocalText site log w.summary
  context : LocalText site log w.context
  keywords : ∀ ks, JsonStrings.decode w.keywords = some ks → ∀ k ∈ ks, LocalText site log k
  tags : ∀ ts, JsonStrings.decode w.tags = some ts → ∀ t ∈ ts, LocalText site log t

/-- Every memory outside quarantine has only local texts. -/
def Sound (site : Site ι) (db : Db) (log : List Written) : Prop :=
  ∀ r ∈ db.memories, Wording.quarantined r.wording = false → LocalWording site log r.wording

theorem LocalWording.mono {w : Wording} (h : LocalWording site log w) (hSub : log ⊆ log') :
    LocalWording site log' w where
  content := h.content.mono hSub
  summary := h.summary.mono hSub
  context := h.context.mono hSub
  keywords := fun ks hks k hk => (h.keywords ks hks k hk).mono hSub
  tags := fun ts hts t ht => (h.tags ts hts t ht).mono hSub

theorem Sound.mono (h : Sound site db log) (hSub : log ⊆ log') : Sound site db log' :=
  fun r hr hOutside => (h r hr hOutside).mono hSub

theorem logged_subset (site : Site ι) (i : ι) (log : List Written) (w : Written) :
    log ⊆ site.logged i log w := by
  unfold Site.logged
  split
  · exact List.Subset.refl _
  · exact subset_append_left _ _

/-- A request of a local client is in the log. -/
theorem mem_logged {i : ι} (hLocal : site.surface i ≠ .http) (log : List Written) (w : Written) :
    w ∈ site.logged i log w := by
  unfold Site.logged
  rw [if_neg hLocal]
  exact mem_append_right _ mem_cons_self

/-- What came in over HTTP is quarantined. -/
theorem http_quarantined {i : ι} (hHttp : site.surface i = .http)
    (hProvenance : input.provenance = (site.connection i).provenance) :
    Wording.quarantined (noteRow ((site.engine i).noteFor id clock input)).wording = true := by
  have hChannel : ((site.engine i).noteFor id clock input).originChannel = some .http := by
    show input.provenance.channel = some .http
    rw [hProvenance]
    show ((site.surface i).provenance site.user site.host).channel = some .http
    rw [hHttp]
    rfl
  unfold Wording.quarantined
  show (_ || match ((site.engine i).noteFor id clock input).originChannel with
    | some .http => true
    | some _ => false
    | none => _) = true
  rw [hChannel, Bool.or_true]

/-- The keywords and tags of a composed note are those of the request or derived. -/
theorem noteFor_keywords {k : Text} (hk : k ∈ (engine.noteFor id clock input).keywords) :
    k ∈ input.keywords ∨ k ∈ derivedTexts engine input.content input.context := by
  have hKeywords : k ∈ engine.keywordsFor input (engine.enrich.bind fun f => f input.content
      input.context) := hk
  unfold MemoryEngine.keywordsFor at hKeywords
  unfold derivedTexts
  split at hKeywords
  · exact .inl hKeywords
  · right
    split at hKeywords
    next e he =>
      split at hKeywords
      · simp [he, hKeywords]
      · simp [hKeywords]
    next => simp [hKeywords]

theorem noteFor_tags (ht : t ∈ (engine.noteFor id clock input).tags) :
    t ∈ input.tags ∨ t ∈ derivedTexts engine input.content input.context := by
  have hTags : t ∈ (if input.tags ≠ [] then input.tags else
      ((engine.enrich.bind fun f => f input.content input.context).map Enrichment.tags).getD []) := ht
  unfold derivedTexts
  split at hTags
  · exact .inl hTags
  · right
    exact mem_append_right _ hTags

/-- A remember brings local texts, or a memory in quarantine. -/
theorem remember_local (i : ι) (o : Outside) (r : RememberRequest) (h : Sound site db log) :
    Sound site (outcome (dispatchRemember (site.connection i) o r) db).2
      (site.logged i log (.remembered r)) := by
  have hOld : Sound site db (site.logged i log (.remembered r)) := h.mono (logged_subset ..)
  refine dispatchRemember_wordings (I := fun w => Wording.quarantined w = false →
    LocalWording site _ w) hOld fun input hInput hOutside => ?_
  obtain ⟨c, -, rfl⟩ := rememberInput_ok hInput
  by_cases hHttp : site.surface i = .http
  · exact absurd (hOutside.symm.trans (http_quarantined hHttp rfl)) Bool.false_ne_true
  · have hMem := mem_logged hHttp log (.remembered r)
    have hContent : LocalText site (site.logged i log (.remembered r)) r.content := .content hMem
    have hContext : ∀ t, r.context = some t →
        LocalText site (site.logged i log (.remembered r)) t := fun t ht => .context hMem ht
    refine ⟨hContent, .derived (i := i) hContent hContext mem_cons_self, ?_, ?_, ?_⟩
    · show LocalText site _ (r.context.getD [])
      cases hCase : r.context with
      | none => exact .empty
      | some t => exact hContext t hCase
    · intro ks hks k hk
      obtain rfl := Option.some.inj ((JsonStrings.decode_encode _).symm.trans hks)
      rcases noteFor_keywords hk with hGiven | hDerived
      · exact .keyword hMem hGiven
      · exact .derived hContent hContext hDerived
    · intro ts hts t ht
      obtain rfl := Option.some.inj ((JsonStrings.decode_encode _).symm.trans hts)
      rcases noteFor_tags ht with hGiven | hDerived
      · exact .tag hMem hGiven
      · exact .derived hContent hContext hDerived

/-- An update of a local client brings local texts; one over HTTP that spares the memories
outside quarantine changes only memories in it. -/
theorem update_local (i : ι) (now : Int) (id : MemoryId) (updates : MemoryUpdates)
    (h : Sound site db log)
    (hSpares : site.surface i = .http →
      updates.summary.isSome = true ∨ updates.context.isSome = true ∨ updates.tags.isSome = true →
      ∀ r ∈ db.memories, r.memoryId = id → Wording.quarantined r.wording = true) :
    Sound site (outcome (dispatchUpdate (site.connection i) now id updates) db).2
      (site.logged i log (.updated updates)) := by
  have hOld : Sound site db (site.logged i log (.updated updates)) := h.mono (logged_subset ..)
  intro s hs hOutside
  rcases dispatchUpdate_rows s hs with hKept | ⟨r, hr, hId, hContent, rfl⟩
  · exact hOld s hKept hOutside
  · -- an update does not move a memory out of quarantine
    have hBefore : Wording.quarantined r.wording = false := hOutside
    obtain ⟨hC, hS, hX, hK, hT⟩ := hOld r hr hBefore
    have hLocal : updates.summary.isSome = true ∨ updates.context.isSome = true ∨
        updates.tags.isSome = true → site.surface i ≠ .http := by
      intro hSets hHttp
      exact absurd (hBefore.symm.trans (hSpares hHttp hSets r hr hId)) Bool.false_ne_true
    refine ⟨?_, ?_, ?_, hK, ?_⟩
    · show LocalText site _ (updates.content.getD r.content)
      rw [hContent]
      exact hC
    · show LocalText site _ (updates.summary.getD r.summary)
      cases hCase : updates.summary with
      | none => exact hS
      | some t =>
        exact .newSummary (mem_logged (hLocal (.inl (by rw [hCase]; rfl))) log _) hCase
    · show LocalText site _ (updates.context.getD r.context)
      cases hCase : updates.context with
      | none => exact hX
      | some t =>
        exact .newContext (mem_logged (hLocal (.inr (.inl (by rw [hCase]; rfl)))) log _) hCase
    · intro ts hts t ht
      have hRead : JsonStrings.decode ((updates.tags.map jsonArray).getD r.tags) = some ts := hts
      cases hCase : updates.tags with
      | none =>
        rw [hCase] at hRead
        exact hT ts hRead t ht
      | some tags =>
        rw [hCase] at hRead
        obtain rfl := Option.some.inj ((JsonStrings.decode_encode _).symm.trans hRead)
        exact .newTag (mem_logged (hLocal (.inr (.inr (by rw [hCase]; rfl)))) log _) hCase ht

/-- One turn that spares the memories outside quarantine keeps their texts local. -/
theorem step_sound (h : History) (turn : ι × Turn) (hOk : SparesEligible site h turn)
    (hSound : Sound site h.db h.log) :
    Sound site (site.step h turn).db (site.step h turn).log := by
  obtain ⟨i, turn⟩ := turn
  -- an operation that inserts nothing brings no wording
  have hAside : ∀ {op : Op}, op.rewords = false → op.inserted = none →
      Sound site (op.run site.env h.db) h.log := by
    intro op hKeeps hInserts
    refine Op.run_wordings (I := fun w => Wording.quarantined w = false → LocalWording site _ w)
      hKeeps (fun n e hInserted => ?_) hSound
    cases hInserts.symm.trans hInserted
  cases turn with
  | remember o r => exact remember_local i o r hSound
  | update now id updates => exact update_local i now id updates hSound hOk
  | link clock source target linkType reason =>
    show Sound site (outcome (engineLink (site.connection i) clock source target linkType reason)
      h.db).2 h.log
    rcases engineLink_cases (site.connection i) clock source target linkType reason h.db with
      hSame | hRun
    · rw [hSame]
      exact hSound
    · rw [hRun]
      exact hAside rfl rfl
  | aside op hKeeps hInserts => exact hAside hKeeps hInserts

end

/-! ## Retrieval -/

theorem quarantined_of_decodes (h : Decodes m n) :
    Wording.quarantined m.wording = n.isQuarantined := by
  unfold Wording.quarantined MemoryNote.isQuarantined
  rw [h.legacyUnknown, h.originChannel, h.originSource]
  rfl

theorem rowToNote_summary {db : Db} (h : db.rowToNote m = .ok n) :
    n.summary = m.summary := by
  simp only [Db.rowToNote, rowToBareNote, except_bind_ok] at h
  obtain ⟨bare, ⟨_, -, _, -, _, -, _, -, _, -, _, -, _, -, _, -, hBare⟩, _, -, _, -, h⟩ := h
  cases hBare
  cases h
  rfl

/-- Whatever is retrieved is the note of a row outside quarantine. -/
theorem retrieved_row {db : Db} (h : Retrieved engine db n) :
    ∃ m ∈ db.memories, db.rowToNote m = .ok n ∧ Wording.quarantined m.wording = false := by
  cases h with
  | recalled hAt h hr =>
    obtain ⟨hRecallable, m, hm, -, hNote⟩ := recallWithStatus_results h _ hr
    rw [hAt] at hm hNote
    refine ⟨m, hm, hNote, ?_⟩
    rw [quarantined_of_decodes (Db.rowToNote_decodes hNote)]
    unfold MemoryEngine.recallable at hRecallable
    simp only [Bool.and_eq_true, Bool.not_eq_true'] at hRecallable
    exact hRecallable.1.2
  | listed h hn =>
    simp only [Db.listFiltered, except_bind_ok] at h
    obtain ⟨_, -, h⟩ := h
    split at h
    · obtain ⟨m, hm, hNote⟩ := (except_mapM_mem h).mp hn
      have hListed := (mem_insertionSort _).mp (mem_of_mem_take hm)
      obtain ⟨hRow, hTerms⟩ := mem_filter.mp hListed
      have hEligible : EligibleTerms m := (of_decide_eq_true hTerms).2 rfl
      refine ⟨m, hRow, hNote, ?_⟩
      rw [quarantined_of_decodes (Db.rowToNote_decodes hNote)]
      exact ((eligibleTerms_iff (Db.rowToNote_decodes hNote)).mp hEligible).1
    · cases h

/-- A new store before any request. -/
def start (siteId : Text) (dim : Nat) (model : Option Text) : History := ⟨Db.init siteId dim model, []⟩

/-- In every run in which no update over HTTP rewrites the summary, the context or the tags of
a memory outside quarantine, whatever a recall returns or a project context lists has only
texts that local clients are behind. -/
theorem http_texts_not_retrieved {site : Site ι} {siteId : Text} {dim : Nat} {model : Option Text}
    {turns : List (ι × Turn)}
    (hRun : Machine.Along site.step (SparesEligible site) (start siteId dim model) turns) :
    ∀ h ∈ Machine.states site.step (start siteId dim model) turns, OnlyLocalTexts site h := by
  have hSound := Machine.invariant_along step_sound
    (I := fun h : History => Sound site h.db h.log) (fun r hr => absurd hr not_mem_nil) hRun
  intro h hh i n hRetrieved
  obtain ⟨m, hm, hNote, hOutside⟩ := retrieved_row hRetrieved
  have hDecodes := Db.rowToNote_decodes hNote
  obtain ⟨hC, hS, hX, hK, hT⟩ := hSound h hh m hm hOutside
  exact
    { content := hDecodes.content ▸ hC
      summary := (rowToNote_summary hNote) ▸ hS
      context := hDecodes.context ▸ hX
      keywords := hK _ hDecodes.keywords
      tags := hT _ hDecodes.tags }

/-! ## A local and an HTTP client -/

/-- The command line and an HTTP client, over the global namespace; the engine has no enricher,
and its case mapping leaves no keyword but the empty one. -/
def pair : Site Bool where
  env := .blank
  user := none
  host := none
  engine := fun _ =>
    { ns := .global
      isAlphanumeric := Char.isAlphanum
      toLowercase := fun _ => []
      enrich := none
      modelId := []
      embed := fun _ => .ok [] }
  surface := fun isLocal => if isLocal then .uds { source := some cliSource } else .http

/-- A constraint that is remembered. -/
def rule (content : Text) : RememberRequest where
  content := content
  memoryType := .constraint
  importance := 5

/-- The result for a run in which the HTTP client rewrites its own memory. -/
theorem http_texts_not_retrieved_pair :
    (Machine.states pair.step (start [] 0 none)
        [(true, .remember ⟨⟨1⟩, ⟨0, 0⟩, []⟩ (rule ['a'])),
          (false, .remember ⟨⟨2⟩, ⟨0, 0⟩, []⟩ (rule ['b'])),
          (false, .update 1 ⟨2⟩ { summary := some ['X'] })]).length = 4 ∧
    ∀ h ∈ Machine.states pair.step (start [] 0 none)
        [(true, .remember ⟨⟨1⟩, ⟨0, 0⟩, []⟩ (rule ['a'])),
          (false, .remember ⟨⟨2⟩, ⟨0, 0⟩, []⟩ (rule ['b'])),
          (false, .update 1 ⟨2⟩ { summary := some ['X'] })],
      OnlyLocalTexts pair h := by
  refine ⟨rfl, http_texts_not_retrieved ⟨trivial, trivial, fun _ _ => ?_, trivial⟩⟩
  decide +kernel

/-- The HTTP client rewrites the summary of the memory that the command line wrote. -/
def rewritten : History :=
  [(true, .remember ⟨⟨1⟩, ⟨0, 0⟩, []⟩ (rule ['a'])),
    (false, .update 1 ⟨1⟩ { summary := some ['X'] })].foldl pair.step (start [] 0 none)

/-- Nothing with an `X` in it comes from the one local request of that run. -/
theorem no_X_local (h : LocalText pair [.remembered (rule ['a'])] t) : 'X' ∉ t := by
  have hOnly : ∀ {r : RememberRequest}, .remembered r ∈ [Written.remembered (rule ['a'])] →
      r = rule ['a'] := by
    intro r hr
    exact Written.remembered.inj (mem_singleton.mp hr)
  have hNoUpdate : ∀ {u : MemoryUpdates}, ¬ .updated u ∈ [Written.remembered (rule ['a'])] := by
    intro u hu
    cases mem_singleton.mp hu
  induction h with
  | empty => exact not_mem_nil
  | content h =>
    rw [hOnly h]
    decide
  | context h ht | keyword h ht | tag h ht =>
    rw [hOnly h] at ht
    cases ht
  | newSummary h _ | newContext h _ | newTag h _ _ => exact absurd h hNoUpdate
  | @derived i content context t _ _ ht ihContent _ =>
    have hCases : t ∈ defaultSummary content :: (pair.engine i).deriveKeywords content := by
      simpa [derivedTexts, pair, MemoryEngine.summaryFor] using ht
    rcases mem_cons.mp hCases with rfl | hKeyword
    · exact fun hX => ihContent (mem_of_mem_defaultSummary hX)
    · rcases mem_collectKeywords hKeyword with hNone | ⟨_, -, rfl⟩
      · cases hNone
      · exact not_mem_nil

theorem http_summary_listed : ¬ OnlyLocalTexts pair rewritten := by
  intro h
  have hSummaries : ((rewritten.db.listFiltered .global contextFilter 50).map fun notes =>
      notes.map MemoryNote.summary) = .ok [['X']] := by decide +kernel
  cases hList : rewritten.db.listFiltered .global contextFilter 50 with
  | error e =>
    rw [hList] at hSummaries
    cases hSummaries
  | ok notes =>
    rw [hList] at hSummaries
    have hMap : notes.map MemoryNote.summary = [['X']] := Except.ok.inj hSummaries
    obtain ⟨n, hn, hSummary⟩ : ∃ n ∈ notes, n.summary = ['X'] :=
      mem_map.mp (hMap ▸ mem_cons_self)
    have hNote := h true n (.listed hList hn)
    exact no_X_local hNote.summary (hSummary ▸ mem_cons_self)

end RustyBrain.Daemon.Quarantine
