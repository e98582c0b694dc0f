import RustyBrain.Lib.Feed
import RustyBrain.Store.System

/-!
# rusty-brain — the log as a change feed

`oplog.rs`: the rows of the log replayed as change events, page by page; and what each write
operation adds to the log.

## Results

* `insertMemoryTxBody_gains`, `retired_gains`, `archiveWithDetails_gains`,
  `sweepLoop_gains`, … — the rows that an operation adds, in their order.
-/

namespace RustyBrain.Store

open Transaction List

variable {f : MemoryRow → MemoryRow} {id : MemoryId} {m : MemoryRow} {op : OplogOp} {ns : Namespace}
  {n : MemoryNote} {b : Bool} {details : OplogDetails} {db db' : Db}

/-! ## Change events -/

/-- `rb_types::ChangeKind`. -/
inductive ChangeKind where
  | created | updated | archived
  deriving DecidableEq, Repr

/-- `rb_types::MemoryChanged`. -/
structure MemoryChanged where
  id : MemoryId
  ns : Namespace
  kind : ChangeKind
  seq : Option Nat
  deriving DecidableEq

/-- The kind of event that a row of the log is replayed as. -/
def OplogOp.changeKind : OplogOp → ChangeKind
  | .insert => .created
  | .archive | .supersede | .purge => .archived
  | _ => .updated

/-- `last_oplog_seq`. -/
def Db.lastOplogSeq (db : Db) : Nat := (db.oplog.map OplogRow.seq).max?.getD 0

/-- `OplogReplayPage`. -/
structure OplogReplayPage where
  changes : List MemoryChanged
  scanned : Nat
  lastSeq : Nat
  deriving DecidableEq

/-- The rows of the log under a namespace, oldest first. -/
def Db.oplogOf (db : Db) (ns : Namespace) : List OplogRow :=
  (db.oplog.filter fun r => r.ns = ns.asDbString).insertionSort fun a b => a.seq ≤ b.seq

/-- The event that a row about one memory is replayed as. -/
def OplogRow.replayed (ns : Namespace) (r : OplogRow) : Option MemoryChanged :=
  r.memoryId.map fun id => ⟨id, ns, r.op.changeKind, some r.seq⟩

/-- `oplog_changes_since`. -/
def Db.oplogChangesSince (db : Db) (ns : Namespace) (after limit : Nat) : OplogReplayPage :=
  let rows := Feed.page OplogRow.seq (db.oplogOf ns) after limit
  { changes := rows.filterMap (OplogRow.replayed ns)
    scanned := rows.length
    lastSeq := rows.foldl (fun last r => max last r.seq) after }

/-! ## Rows gained -/

/-- The log grew by `rows`, numbered upwards from where it was. -/
structure Gains (rows : List OplogRow) (db db' : Db) : Prop where
  oplog : db'.oplog = db.oplog ++ rows
  sorted : rows.Pairwise fun a b => a.seq < b.seq
  above : ∀ r ∈ rows, db.lastSeq < r.seq
  upTo : ∀ r ∈ rows, r.seq ≤ db'.lastSeq
  grows : db.lastSeq ≤ db'.lastSeq

theorem Gains.nil (hOplog : db'.oplog = db.oplog) (hSeq : db'.lastSeq = db.lastSeq) :
    Gains [] db db' :=
  ⟨by rw [hOplog, append_nil], .nil, nofun, nofun, hSeq.ge⟩

/-- Rows follow rows. -/
theorem Gains.trans {rows rows' : List OplogRow} {db db' db'' : Db} (h : Gains rows db db')
    (h' : Gains rows' db' db'') : Gains (rows ++ rows') db db'' where
  oplog := by rw [h'.oplog, h.oplog, append_assoc]
  sorted := pairwise_append.mpr ⟨h.sorted, h'.sorted,
    fun a ha b hb => (h.upTo a ha).trans_lt (h'.above b hb)⟩
  above := fun r hr => (mem_append.mp hr).elim (h.above r) fun hr =>
    h.grows.trans_lt (h'.above r hr)
  upTo := fun r hr => (mem_append.mp hr).elim (fun hr => (h.upTo r hr).trans h'.grows) (h'.upTo r)
  grows := h.grows.trans h'.grows

/-- No row is numbered above the counter. -/
def Db.Bounded (db : Db) : Prop := ∀ r ∈ db.oplog, r.seq ≤ db.lastSeq

/-- New rows are numbered on. -/
theorem Gains.bounded {rows : List OplogRow} (h : Gains rows db db')
    (hBounded : db.Bounded) : db'.Bounded := by
  intro r hr
  rw [h.oplog] at hr
  rcases mem_append.mp hr with hOld | hNew
  · exact (hBounded r hOld).trans h.grows
  · exact h.upTo r hNew

/-- A row about one memory, of one kind, under the namespace `ns`. -/
structure OplogRow.About (op : OplogOp) (id : MemoryId) (ns : Text) (r : OplogRow) : Prop where
  op : r.op = op
  memoryId : r.memoryId = some id
  ns : r.ns = ns

theorem Db.logged_gains (db : Db) (op : OplogOp) (memoryId : Option MemoryId) (ns : Text) (now : Int)
    (details : OplogDetails) :
    Gains [⟨db.lastSeq + 1, db.siteId, op, memoryId, ns, now, details⟩] db
      (db.logged op memoryId ns now details) where
  oplog := rfl
  sorted := pairwise_singleton _ _
  above := fun _ hr => mem_singleton.mp hr ▸ Nat.lt_succ_self _
  upTo := fun _ hr => mem_singleton.mp hr ▸ Nat.le_refl _
  grows := Nat.le_succ _

theorem Db.appended_gains (hFind : db.find id = some m) (op : OplogOp) (now : Int)
    (details : OplogDetails) :
    ∃ r, r.About op id m.ns ∧ Gains [r] db (db.appended op id now details) := by
  unfold Db.appended
  rw [hFind]
  exact ⟨_, ⟨rfl, rfl, rfl⟩, db.logged_gains ..⟩

/-! ## Rows of some sort only -/

/-- The log grew by rows that satisfy `p`, if it grew at all. -/
def Gained (p : OplogRow → Prop) (db db' : Db) : Prop := ∃ rows, Gains rows db db' ∧ ∀ r ∈ rows, p r

instance (p : OplogRow → Prop) : IsPreorder Db (Gained p) where
  refl := fun _ => ⟨[], .nil rfl rfl, nofun⟩
  trans := by
    rintro _ _ _ ⟨rows, h, hp⟩ ⟨rows', h', hp'⟩
    exact ⟨rows ++ rows', h.trans h', fun r hr => (mem_append.mp hr).elim (hp r) (hp' r)⟩

section Gained

variable {p : OplogRow → Prop} {db db' : Db}

theorem Gained.none (h : Gained (fun _ => False) db db') : Gains [] db db' := by
  obtain ⟨rows, hGains, hNone⟩ := h
  cases rows with
  | nil => exact hGains
  | cons r _ => exact (hNone r mem_cons_self).elim

theorem Gained.of_same (hOplog : db'.oplog = db.oplog) (hSeq : db'.lastSeq = db.lastSeq) :
    Gained p db db' :=
  ⟨[], .nil hOplog hSeq, nofun⟩

theorem gained_updateMemories (q : MemoryRow → Prop) [DecidablePred q] (f : MemoryRow → MemoryRow) :
    Within (Gained p) (updateMemories q f) := by
  intro db n db' h
  obtain ⟨-, -, -, rfl⟩ := runs_updateMemories.mp h
  exact .of_same rfl rfl

theorem gained_modify {f : Db → Db} (hOplog : ∀ db, (f db).oplog = db.oplog)
    (hSeq : ∀ db, (f db).lastSeq = db.lastSeq) : Within (Gained p) (modify f : StoreM PUnit) := by
  intro db u db' h
  obtain rfl := runs_modify.mp h
  exact .of_same (hOplog db) (hSeq db)

theorem gained_insertAnchorRow (mk : Nat → AnchorRow) : Within (Gained p) (insertAnchorRow mk) := by
  intro db u db' h
  obtain ⟨-, -, rfl⟩ := runs_insertAnchorRow.mp h
  exact .of_same rfl rfl

theorem gained_insertVectorRow (v : VectorRow) : Within (Gained p) (insertVectorRow v) := by
  intro db u db' h
  obtain ⟨-, -, rfl⟩ := runs_insertVectorRow.mp h
  exact .of_same rfl rfl

theorem gained_insertLinkRow (e : Error) (l : LinkRow) : Within (Gained p) (insertLinkRow e l) := by
  intro db u db' h
  obtain ⟨-, -, -, rfl⟩ := runs_insertLinkRow.mp h
  exact .of_same rfl rfl

/-- A row about a memory that is not there is not written. -/
theorem gained_appendOplog (hp : ∀ ns r, r.About op id ns → p r) (now : Int)
    (details : OplogDetails) : Within (Gained p) (appendOplog op id now details) := by
  intro db u db' h
  obtain rfl := runs_appendOplog.mp h
  cases hFind : db.find id with
  | none =>
    have hSame : db.appended op id now details = db := by
      unfold Db.appended
      rw [hFind]
    rw [hSame]
    exact .of_same rfl rfl
  | some m =>
    obtain ⟨r, hAbout, hGains⟩ := Db.appended_gains hFind op now details
    exact ⟨[r], hGains, fun x hx => mem_singleton.mp hx ▸ hp _ r hAbout⟩

theorem gained_insertOplogRow {memoryId : Option MemoryId}
    (hp : ∀ r : OplogRow, r.op = op → r.memoryId = memoryId → p r) (ns : Text) (now : Int)
    (details : OplogDetails) : Within (Gained p) (insertOplogRow op memoryId ns now details) := by
  intro db u db' h
  obtain rfl := runs_insertOplogRow.mp h
  exact ⟨_, db.logged_gains .., fun x hx => mem_singleton.mp hx ▸ hp _ rfl rfl⟩

end Gained

/-! ## What single operations log -/

section

variable {db db' : Db} {now : Int}

/-- The memories of a store, as far as an insert is concerned. -/
def SameMemories (d d' : Db) : Prop := d'.memories = d.memories

instance : IsPreorder Db SameMemories where
  refl := fun _ => rfl
  trans := fun _ _ _ h h' => h'.trans h

theorem appendOplog_sameMemories (op : OplogOp) (id : MemoryId) (details : OplogDetails) :
    Within SameMemories (appendOplog op id now details) := by
  intro d u d' h
  rw [← runs_appendOplog.mp h]
  exact Db.appended_memories ..

/-- A link of a note is logged under the namespace of its source. -/
def Links (n : MemoryNote) (d d' : Db) : Prop :=
  SameMemories d d' ∧ ∃ rows, Gains rows d d' ∧ ∀ r ∈ rows, ∃ l ∈ n.links, ∃ m,
    d.find l.sourceId = some m ∧ r.About .link l.sourceId m.ns

instance (n : MemoryNote) : IsPreorder Db (Links n) where
  refl := fun _ => ⟨rfl, [], .nil rfl rfl, nofun⟩
  trans := by
    rintro a b c ⟨hab, rows, hGains, hRows⟩ ⟨hbc, rows', hGains', hRows'⟩
    refine ⟨hbc.trans hab, rows ++ rows', hGains.trans hGains', fun r hr => ?_⟩
    rcases mem_append.mp hr with hr | hr
    · exact hRows r hr
    · obtain ⟨l, hl, m, hFind, hAbout⟩ := hRows' r hr
      unfold Db.find at hFind ⊢
      rw [hab] at hFind
      exact ⟨l, hl, m, hFind, hAbout⟩

theorem insertNoteLink_links {l : MemoryLink} (hl : l ∈ n.links) :
    Within (Links n) (insertNoteLink now l) := by
  intro d u d' h
  obtain ⟨_, mid, hRow, hLog⟩ := runs_bind.mp h
  obtain ⟨-, -, -, rfl⟩ := runs_insertLinkRow.mp hRow
  have hKept : SameMemories (d.setLinks (d.links ++ [linkRow l])) d' :=
    appendOplog_sameMemories _ _ _ _ _ _ hLog
  refine ⟨hKept, ?_⟩
  rw [← runs_appendOplog.mp hLog]
  have hFirst : Gains [] d (d.setLinks (d.links ++ [linkRow l])) := .nil rfl rfl
  cases hFind : d.find l.sourceId with
  | none =>
    refine ⟨[], ?_, nofun⟩
    have hFind' : (d.setLinks (d.links ++ [linkRow l])).find l.sourceId = none := hFind
    unfold Db.appended
    rw [hFind']
    exact hFirst
  | some m =>
    obtain ⟨r, hAbout, hGains⟩ := Db.appended_gains
      (show (d.setLinks (d.links ++ [linkRow l])).find l.sourceId = some m from hFind) .link now
      (.edge l.linkType l.targetId)
    refine ⟨[r], hFirst.trans hGains, fun x hx => ?_⟩
    rw [mem_singleton.mp hx]
    exact ⟨l, hl, m, hFind, hAbout⟩

/-- The row of a new memory is the one its id finds. -/
theorem Db.find_added {db d : Db} (hNew : n.id ∉ db.ids)
    (hd : d.memories = db.memories ++ [noteRow n]) : d.find n.id = some (noteRow n) := by
  have hOld : db.memories.find? (fun m => m.memoryId = n.id) = none := by
    refine find?_eq_none.mpr fun m hm => ?_
    rw [decide_eq_true_eq]
    exact fun hEq => hNew (mem_map.mpr ⟨m, hm, hEq⟩)
  unfold Db.find
  rw [hd, find?_append, hOld, Option.none_or]
  exact find?_cons_of_pos (decide_eq_true rfl)

/-- An insert logs the memory first and its links after it. -/
theorem insertMemoryTxBody_gains {e : Option Embedding} {u : Unit}
    (h : Runs (insertMemoryTxBody now n e) db u db') :
    ∃ r links, r.About .insert n.id n.ns.asDbString ∧ Gains (r :: links) db db' ∧
      ∀ x ∈ links, x.op = .link ∧ ∃ l ∈ n.links, x.memoryId = some l.sourceId ∧
        (l.sourceId = n.id → x.ns = n.ns.asDbString) := by
  have hMemories := (insertMemoryTxBody_adds h).memories
  simp only [insertMemoryTxBody, runs_bind] at h
  obtain ⟨_, d₁, hMem, _, d₂, hLog, _, d₃, hAnchors, _, d₄, hVector, hLinks⟩ := h
  obtain ⟨-, hNew, -, rfl⟩ := runs_insertMemoryRow.mp hMem
  have hFind : (db.addMemory (noteRow n)).find n.id = some (noteRow n) := Db.find_added hNew rfl
  obtain ⟨r, hAbout, hRow⟩ := Db.appended_gains hFind .insert now .empty
  rw [runs_appendOplog.mp hLog] at hRow
  have hSame : Gained (fun _ => False) d₂ d₄ := by
    refine trans_of (Gained _) (Within.forM (fun a _ => gained_insertAnchorRow _) _ _ _ hAnchors) ?_
    cases e with
    | none => exact Within.pure _ _ _ _ hVector
    | some v => exact gained_insertVectorRow _ _ _ _ hVector
  obtain ⟨hKept, links, hGains, hOnly⟩ : Links n d₄ db' :=
    Within.forM (fun l hl => insertNoteLink_links hl) _ _ _ hLinks
  have hFirst : Gains [] db (db.addMemory (noteRow n)) := .nil rfl rfl
  refine ⟨r, links, hAbout, ((hFirst.trans hRow).trans hSame.none).trans hGains, fun x hx => ?_⟩
  obtain ⟨l, hl, m, hSource, hLink⟩ := hOnly x hx
  refine ⟨hLink.op, l, hl, hLink.memoryId, fun hOwn => ?_⟩
  rw [hOwn, Db.find_added hNew (hKept.symm.trans hMemories)] at hSource
  cases hSource
  exact hLink.ns

/-- A write that keeps ids and namespaces, and then logs one memory. -/
theorem Db.rewritten_gains {p : MemoryRow → Prop} [DecidablePred p]
    (hId : ∀ m, (f m).memoryId = m.memoryId) (hNs : ∀ m, (f m).ns = m.ns) {d : Db}
    (hMemories : d.memories = (db.setMemories p f).memories) (hOplog : d.oplog = db.oplog)
    (hSeq : d.lastSeq = db.lastSeq) (hFind : db.find id = some m) (op : OplogOp) (now : Int)
    (details : OplogDetails) :
    ∃ r, r.About op id m.ns ∧ Gains [r] db (d.appended op id now details) := by
  have hFind' : d.find id = some (if p m then f m else m) := by
    have hSet := db.find_setMemories (p := p) (f := f) (fun r _ _ => hId r) id
    rw [hFind, Option.map_some] at hSet
    unfold Db.find at hSet ⊢
    rw [hMemories]
    exact hSet
  obtain ⟨r, hAbout, hGains⟩ := Db.appended_gains hFind' op now details
  have hFirst : Gains [] db d := .nil hOplog hSeq
  refine ⟨r, ⟨hAbout.op, hAbout.memoryId, hAbout.ns.trans ?_⟩, hFirst.trans hGains⟩
  split
  · exact hNs m
  · rfl

/-- A supersede logs the memory that it retires. -/
theorem Db.retired_gains {old : MemoryId} (hFind : db.find old = some m) (new : MemoryId)
    (now : Int) : ∃ r, r.About .supersede old m.ns ∧ Gains [r] db (db.retired old new now) :=
  Db.rewritten_gains (p := Takes old) (f := MemoryRow.superseded new now)
    (d := (db.setMemories (Takes old) (MemoryRow.superseded new now)).dropVector old) (fun _ => rfl)
    (fun _ => rfl) rfl rfl rfl hFind .supersede now (.newId new)

/-- An archive logs the memory under the namespace of its row, or changes nothing. -/
theorem archiveWithDetails_gains {protect : Bool} {ns : Option Namespace} (hIds : db.ids.Nodup)
    (h : Runs (archiveWithDetails now id details protect ns) db b db') :
    (b = true ∧ ∃ m ∈ db.memories, Archives id protect ns m ∧
      ∃ r, r.About .archive id m.ns ∧ Gains [r] db db') ∨
    (b = false ∧ (∀ m ∈ db.memories, ¬ Archives id protect ns m) ∧ db' = db) := by
  rcases archiveWithDetails_runs h with ⟨rfl, ⟨m, hm, hTaken⟩, rfl⟩ | ⟨rfl, hNone, rfl⟩
  · refine .inl ⟨rfl, m, hm, hTaken, ?_⟩
    have hFind : db.find id = some m := hTaken.1 ▸ Db.find_of_mem hIds hm
    exact Db.rewritten_gains (p := Archives id protect ns) (f := MemoryRow.archived now)
      (d := (db.setMemories (Archives id protect ns) (MemoryRow.archived now)).dropVector id)
      (fun _ => rfl) (fun _ => rfl) rfl rfl rfl hFind .archive now details
  · exact .inr ⟨rfl, hNone, rfl⟩

section

variable (hFind : db.find id = some m)

include hFind

/-- An update that names a field logs the memory. -/
theorem updateMemory_gains {u : MemoryUpdates} {v : Unit} (hNamed : u.isEmpty = false)
    (h : Runs (updateMemory now id u) db v db') :
    ∃ r, r.About .update id m.ns ∧ Gains [r] db db' := by
  obtain ⟨hm, hId⟩ := Db.find_some hFind
  rcases updateMemory_runs h with ⟨hEmpty | hNone, -⟩ | rfl
  · cases hNamed.symm.trans hEmpty
  · exact absurd hId (hNone m hm)
  · exact Db.rewritten_gains (p := fun m => m.memoryId = id) (f := MemoryUpdates.applyTo u now)
      (fun _ => rfl) (fun _ => rfl) rfl rfl rfl hFind _ _ _

/-- A maintenance write, after its check, logs the memory, or changes nothing. -/
theorem setUncurated_gains {x : Except Error Unit}
    (h : Runs (attempt x >>= fun _ => setUncurated now ns id f op details) db b db')
    (hId : ∀ m, (f m).memoryId = m.memoryId) (hNs : ∀ m, (f m).ns = m.ns) :
    (b = true ∧ ∃ r, r.About op id m.ns ∧ Gains [r] db db') ∨ (b = false ∧ Gains [] db db') := by
  obtain ⟨_, _, hCheck, h⟩ := runs_bind.mp h
  obtain ⟨-, rfl⟩ := runs_attempt.mp hCheck
  rcases setUncurated_runs h with ⟨rfl, -, rfl⟩ | ⟨rfl, -, rfl⟩
  · exact .inl ⟨rfl, Db.rewritten_gains hId hNs rfl rfl rfl hFind _ _ _⟩
  · exact .inr ⟨rfl, .nil rfl rfl⟩

/-- Feedback logs the memory. -/
theorem recordFeedback_gains {kind : FeedbackKind} {principal : Option Text} {q : ℚ}
    (h : Runs (recordFeedback now id kind principal) db q db') :
    ∃ r, r.About .feedback id m.ns ∧ Gains [r] db db' := by
  obtain ⟨_, _, _, _, -, hUpdate, hRow, rfl⟩ := recordFeedback_runs h
  obtain ⟨-, -, -, rfl⟩ := runs_updateMemories.mp hUpdate
  obtain rfl := runs_modify.mp hRow
  refine Db.rewritten_gains (p := fun m => m.memoryId = id)
    (f := fun r => { r with confidence := q }) (fun _ => rfl) (fun _ => rfl) ?_ ?_ ?_ hFind _ _ _ <;> rfl

end

end

/-! ## Operations that no subscriber waits for -/

/-- The operations whose rows say that a memory appeared, was rewritten or went away. -/
def OplogOp.Announced (op : OplogOp) : Prop :=
  op = .insert ∨ op = .update ∨ op = .archive ∨ op = .supersede
  deriving Decidable

/-- The log grew by other rows only, if it grew at all. -/
abbrev Quiet : Db → Db → Prop := Gained fun r => ¬ r.op.Announced

section Quiet

variable {now : Int}

/-- What is not announced makes no row that is. -/
theorem quiet_of_op (h : ¬ op.Announced) (ns : Text) (r : OplogRow) (hAbout : r.About op id ns) :
    ¬ r.op.Announced :=
  hAbout.op ▸ h

theorem addLink_quiet (l : MemoryLink) : Within Quiet (addLink now l) :=
  Within.bind (gained_insertLinkRow _ _) fun _ =>
    gained_appendOplog (quiet_of_op (by decide)) _ _

theorem deleteLink_quiet (source target : MemoryId) (linkType : LinkType) :
    Within Quiet (deleteLink now source target linkType) := by
  refine Within.bind (fun db n db' h => ?_) fun _ =>
    Within.ite (gained_appendOplog (quiet_of_op (by decide)) _ _) (Within.pure _)
  obtain ⟨rfl, -⟩ := runs_deleteLinkRows.mp h
  exact .of_same rfl rfl

theorem setLinkStrength_quiet (source target : MemoryId) (linkType : LinkType) (strength : ℚ) :
    Within Quiet (setLinkStrength now source target linkType strength) := by
  refine Within.bind (fun db n db' h => ?_) fun _ =>
    Within.ite (gained_appendOplog (quiet_of_op (by decide)) _ _) (Within.pure _)
  obtain ⟨-, rfl, -⟩ := runs_updateLinkStrength.mp h
  exact .of_same rfl rfl

theorem recordAccessBumps_quiet (bumps : List AccessBump) : Within Quiet (recordAccessBumps bumps) :=
  Within.forM fun _ _ => Within.bind (gained_updateMemories _ _) fun _ => Within.pure _

theorem updateVector_quiet (env : Env) (id : MemoryId) (e : Embedding) (model version : Text)
    (expected : BitVec 256) : Within Quiet (updateVector env id e model version expected) := by
  intro db u db' h
  obtain ⟨r, n, vectors, -, -, -, -, -, rfl⟩ := updateVector_runs h
  exact .of_same rfl rfl

theorem renameNamespace_quiet (old new : Namespace) (merge : Bool) :
    Within Quiet (renameNamespace now old new merge) := by
  intro db out db' h
  obtain ⟨-, -, d, details, hMove, rfl⟩ := renameNamespace_leaves h
  have hFirst : Quiet db d := by
    obtain ⟨vectors, rfl, -⟩ := moveVectors_runs hMove
    exact .of_same rfl rfl
  refine trans_of Quiet hFirst ⟨_, Db.logged_gains .., fun r hr => ?_⟩
  rw [mem_singleton.mp hr]
  exact (by decide : ¬ OplogOp.namespaceRename.Announced)

theorem scrub_quiet {redact : Text → Text} {out : ScrubOutcome} (hIds : db.ids.Nodup)
    (h : Runs (scrub redact now) db out db') : Quiet db db' := by
  obtain ⟨mid, rfl, rfl | ⟨details, rfl⟩⟩ := scrub_runs hIds h
  · exact .of_same rfl rfl
  · have hRewrite : Quiet db (db.setMemories (fun _ => True) (MemoryRow.scrubbed redact)) :=
      .of_same rfl rfl
    refine trans_of Quiet hRewrite ⟨_, Db.logged_gains .., fun r hr => ?_⟩
    rw [mem_singleton.mp hr]
    exact (by decide : ¬ OplogOp.scrub.Announced)

theorem appendReviewOplog_quiet (ns : Namespace) (hOp : ¬ op.Announced) (details : Text)
    (at' : DateTime) : Within Quiet (appendReviewOplog ns op details at') :=
  gained_insertOplogRow (fun _ h _ => h ▸ hOp) _ _ _

theorem upsertReviewState_quiet (ns : Namespace) (key : String) (at' : Int) (until' : Option Int) :
    Within Quiet (upsertReviewState ns key at' until') :=
  gained_modify (fun _ => rfl) fun _ => rfl

end Quiet

/-! ## Reading sequence numbers back -/

/-- The newest row about a memory gives its sequence number. -/
theorem Db.latestOplogSeqFor_eq {r : OplogRow} (hr : r ∈ db.oplog)
    (hId : r.memoryId = some id) (hNewest : ∀ x ∈ db.oplog, x.memoryId = some id → x.seq ≤ r.seq) :
    db.latestOplogSeqFor id = some r.seq := by
  unfold Db.latestOplogSeqFor
  rw [max?_eq_some_iff]
  constructor
  · exact mem_map_of_mem (mem_filter.mpr ⟨hr, decide_eq_true hId⟩)
  · intro s hs
    obtain ⟨x, hx, rfl⟩ := mem_map.mp hs
    exact hNewest x (mem_filter.mp hx).1 (of_decide_eq_true (mem_filter.mp hx).2)

/-- The sequence number of a memory is that of a row about it, and no lower than that of any
other. -/
theorem Db.latestOplogSeqFor_some {s : Nat} (h : db.latestOplogSeqFor id = some s) :
    (∃ r ∈ db.oplog, r.memoryId = some id ∧ r.seq = s) ∧
      ∀ x ∈ db.oplog, x.memoryId = some id → x.seq ≤ s := by
  unfold Db.latestOplogSeqFor at h
  obtain ⟨hMem, hMax⟩ := max?_eq_some_iff.mp h
  obtain ⟨r, hr, hSeq⟩ := mem_map.mp hMem
  refine ⟨⟨r, (mem_filter.mp hr).1, of_decide_eq_true (mem_filter.mp hr).2, hSeq⟩,
    fun x hx hId => ?_⟩
  exact hMax _ (mem_map_of_mem (mem_filter.mpr ⟨hx, decide_eq_true hId⟩))

/-- The row written last gives the last sequence number. -/
theorem Db.lastOplogSeq_eq {r : OplogRow} (hr : r ∈ db.oplog)
    (hNewest : ∀ x ∈ db.oplog, x.seq ≤ r.seq) : db.lastOplogSeq = r.seq := by
  unfold Db.lastOplogSeq
  have hMax : (db.oplog.map OplogRow.seq).max? = some r.seq := by
    rw [max?_eq_some_iff]
    refine ⟨mem_map_of_mem hr, fun s hs => ?_⟩
    obtain ⟨x, hx, rfl⟩ := mem_map.mp hs
    exact hNewest x hx
  rw [hMax, Option.getD_some]

/-! ## The rows of a retention sweep -/

/-- A sweep in archive mode logs each memory that it archives, in their order. -/
theorem sweepLoop_gains {clock : Int} {cs : List ForgetCandidate} {st st' : SweepState}
    (hIds : db.ids.Nodup) (h : Runs (sweepLoop clock ns .apply cs st) db st' db') :
    ∃ ids rows, st'.archivedIds = st.archivedIds ++ ids ∧ st'.purgedIds = st.purgedIds ∧
      ids.Sublist (cs.map ForgetCandidate.id) ∧ Gains rows db db' ∧
      List.Forall₂ (fun id r => OplogRow.About .archive id ns.asDbString r) ids rows := by
  induction cs generalizing st db with
  | nil =>
    obtain ⟨rfl, rfl⟩ := runs_pure.mp h
    exact ⟨[], [], by simp, rfl, .slnil, .nil rfl rfl, .nil⟩
  | cons c rest ih =>
    obtain ⟨res, mid, hNested, hRest⟩ := runs_bind.mp h
    have hOne : commit (sweepOne clock ns .apply c) db = (res, mid) := runs_nested.mp hNested
    rcases commit_cases (sweepOne clock ns .apply c) db with ⟨b, d, hRun, hCommit⟩ | ⟨e, hCommit⟩
    · rw [hCommit] at hOne
      obtain ⟨rfl, rfl⟩ := Prod.mk.inj hOne
      rcases archiveWithDetails_gains hIds hRun with
        ⟨rfl, m, hm, hTaken, r, hAbout, hGains⟩ | ⟨rfl, -, rfl⟩
      · have hIdsMid : d.ids.Nodup :=
          (sweepOne_effects (P := .all) hIds (fun _ _ => trivial) hRun).ids_nodup hIds
        have hHome : m.ns = ns.asDbString := by
          rcases hTaken.2.2.1 with hAny | hSame
          · cases hAny
          · exact (Option.some.inj hSame).symm
        obtain ⟨ids, rows, hArchived, hPurged, hSub, hMore, hRows⟩ := ih hIdsMid hRest
        refine ⟨c.id :: ids, r :: rows, ?_, hPurged, hSub.cons_cons _, hGains.trans hMore,
          .cons (hHome ▸ hAbout) hRows⟩
        rw [hArchived]
        simp [SweepState.record]
      · obtain ⟨ids, rows, hArchived, hPurged, hSub, hMore, hRows⟩ := ih hIds hRest
        exact ⟨ids, rows, hArchived, hPurged, hSub.cons _, hMore, hRows⟩
    · rw [hCommit] at hOne
      obtain ⟨rfl, rfl⟩ := Prod.mk.inj hOne
      obtain ⟨rfl, rfl⟩ := runs_pure.mp hRest
      exact ⟨[], [], by simp, rfl, nil_sublist _, .nil rfl rfl, .nil⟩

end RustyBrain.Store
