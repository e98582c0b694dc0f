import RustyBrain.Daemon.Consolidation

/-!
# rusty-brain — bounded maintenance passes

The link-decay job and the importance job. Each reads the first rows of a fixed order, up to
its batch limit, and writes those whose value is out of date. The order does not depend on
what a pass has done, so the next pass reads the same rows again.

The formulas of the two jobs are parameters: whatever strength a link decays to, and whatever
importance a memory is recalibrated to.

## Results

* `jobLoop_idle` — a pass that counts no change met only rows that it left alone.
-/

namespace RustyBrain.Daemon

open Store Transaction Sessions List

variable {rows : List LinkRow} {limit : Nat} {s : JobSummary} {r : MemoryRow}

/-! ## The loop of a job -/

/-- One more row was looked at. -/
def JobSummary.count (s : JobSummary) (changed : Bool) : JobSummary :=
  if changed then { s with scanned := s.scanned + 1, changed := s.changed + 1 }
  else { s with scanned := s.scanned + 1, skipped := s.skipped + 1 }

/-- The loop of a pass: every row in its turn, which tells whether it changed something. -/
def jobLoop {α : Type} (turn : α → DaemonM Bool) : List α → JobSummary → DaemonM JobSummary
  | [], s => pure s
  | row :: rest, s => do
    let changed ← turn row
    jobLoop turn rest (s.count changed)

section Loop

variable {α : Type} {turn : α → DaemonM Bool} {db db' : Db} {s s' : JobSummary}

/-- The counter of changes only goes up. -/
theorem jobLoop_changed {rows : List α} (h : Completes (jobLoop turn rows s) db s' db') :
    s.changed ≤ s'.changed := by
  induction rows generalizing s db with
  | nil =>
    obtain ⟨rfl, -⟩ := completes_pure.mp h
    exact le_rfl
  | cons row rest ih =>
    obtain ⟨b, mid, -, hRest⟩ := completes_bind.mp h
    have hLater := ih hRest
    cases b with
    | true => exact (Nat.le_succ _).trans hLater
    | false => exact hLater

/-- **Key lemma:** a pass that counts no change left the store and every row alone. -/
theorem jobLoop_idle (hQuiet : ∀ row db db', Completes (turn row) db false db' → db' = db)
    {rows : List α} (h : Completes (jobLoop turn rows s) db s' db') (hNone : s'.changed = s.changed) :
    db' = db ∧ ∀ row ∈ rows, Completes (turn row) db false db := by
  induction rows generalizing s db with
  | nil =>
    obtain ⟨-, rfl⟩ := completes_pure.mp h
    exact ⟨rfl, fun row hRow => absurd hRow not_mem_nil⟩
  | cons row rest ih =>
    obtain ⟨b, mid, hTurn, hRest⟩ := completes_bind.mp h
    cases b with
    | true =>
      -- a counted change is never taken back
      have hCounted : s.changed + 1 ≤ s'.changed := jobLoop_changed hRest
      omega
    | false =>
      obtain rfl : mid = db := hQuiet row db mid hTurn
      obtain ⟨hSame, hLater⟩ := ih hRest hNone
      refine ⟨hSame, fun r hr => ?_⟩
      rcases mem_cons.mp hr with rfl | hr
      · exact hTurn
      · exact hLater r hr

/-- A pass over rows that it leaves alone counts no change. -/
theorem jobLoop_completes {rows : List α} (h : ∀ row ∈ rows, Completes (turn row) db false db)
    (s : JobSummary) :
    ∃ s', Completes (jobLoop turn rows s) db s' db ∧ s'.changed = s.changed := by
  induction rows generalizing s with
  | nil => exact ⟨s, completes_pure.mpr ⟨rfl, rfl⟩, rfl⟩
  | cons row rest ih =>
    obtain ⟨s', hRest, hNone⟩ := ih (fun r hr => h r (mem_cons_of_mem _ hr)) (s.count false)
    exact ⟨s', completes_bind.mpr ⟨false, db, h row mem_cons_self, hRest⟩, hNone⟩

end Loop

/-! ## Link decay -/

/-- `EPSILON`, the `f32` value of 1e-6. -/
def decayEpsilon : ℚ := 8796093 / 2 ^ 43

/-- `LinkDecayConfig`, with the strength that a link decays to at the time of the pass. The
floor is the `f32` value of 0.05. -/
structure LinkDecayConfig where
  decayedStrength : LinkRow → ℚ
  floor : ℚ := 13421773 / 2 ^ 28
  pruneBelowFloor : Bool := false
  batchLimit : Nat := 1000

/-- The strength of the link differs from what it decays to by more than the tolerance. -/
def LinkDecayConfig.Moves (cfg : LinkDecayConfig) (l : LinkRow) : Prop :=
  decayEpsilon < |f32Round (cfg.decayedStrength l - f32Round l.strength)|
  deriving Decidable

/-- The turn of one link in `link_decay::run_at`. -/
def decayTurn (clock : Int) (cfg : LinkDecayConfig) (l : LinkRow) : DaemonM Bool :=
  if cfg.pruneBelowFloor = true ∧ cfg.decayedStrength l ≤ cfg.floor then do
    call (deleteLink clock l.sourceId l.targetId l.linkType)
    pure true
  else if cfg.Moves l then do
    call (setLinkStrength clock l.sourceId l.targetId l.linkType (cfg.decayedStrength l))
    pure true
  else pure false

/-- `link_decay::run_at`. -/
def runLinkDecay (clock : Int) (cfg : LinkDecayConfig) : DaemonM JobSummary := do
  let rows ← view fun db => db.linksForDecay cfg.batchLimit
  jobLoop (decayTurn clock cfg) rows {}

variable {clock : Int} {db db' : Db}

/-- Without pruning a link is left alone when its strength is up to date. -/
theorem decayTurn_idle {cfg : LinkDecayConfig} (hKeep : cfg.pruneBelowFloor = false) {l : LinkRow} :
    Completes (decayTurn clock cfg l) db false db' ↔ ¬ cfg.Moves l ∧ db' = db := by
  unfold decayTurn
  rw [if_neg (by simp [hKeep])]
  by_cases hMoves : cfg.Moves l
  · rw [if_pos hMoves, completes_bind]
    refine iff_of_false ?_ fun h => h.1 hMoves
    rintro ⟨_, mid, -, hPure⟩
    cases (completes_pure.mp hPure).1
  · rw [if_neg hMoves, completes_pure]
    exact ⟨fun h => ⟨hMoves, h.2.symm⟩, fun h => ⟨rfl, h.2.symm⟩⟩

/-! ## Importance -/

/-- `ImportanceConfig`, with the importance that a memory is recalibrated to at the time of the
pass, from its id, its prior, its access count and its last access. -/
structure ImportanceConfig where
  recalibrate : MemoryId → Nat → Nat → Option Int → Nat
  batchLimit : Nat := 1000

/-- The turn of one memory in `importance::run`. -/
def recalTurn (clock : Int) (cfg : ImportanceConfig) (row : RecalRow) : DaemonM Bool :=
  let new := cfg.recalibrate row.id row.baseImportance row.accessCount row.lastAccessedAt
  if new = row.importance then pure false
  else call (setRecalibratedImportance clock row.ns row.id new)

/-- `importance::run`. -/
def runImportance (clock : Int) (cfg : ImportanceConfig) : DaemonM JobSummary := do
  let rows ← view fun db => db.memoriesForRecalibration cfg.batchLimit
  jobLoop (recalTurn clock cfg) rows {}

/-- The importance that a memory is recalibrated to. -/
def ImportanceConfig.target (cfg : ImportanceConfig) (r : MemoryRow) : Nat :=
  cfg.recalibrate r.memoryId (r.baseImportance.getD r.importance) r.accessCount r.lastAccessedAt

/-- The write of a recalibrated importance changes nothing only when no uncurated row of the
namespace has the id. -/
theorem setRecalibratedImportance_false {ns : Namespace} {id : MemoryId} {new : Nat}
    (h : Runs (setRecalibratedImportance clock ns id new) db false db') :
    db' = db ∧ ∀ r ∈ db.memories, r.memoryId = id → r.ns = ns.asDbString → r.humanCurated = true := by
  obtain ⟨_, mid, hValid, hSet⟩ := runs_bind.mp h
  obtain ⟨-, rfl⟩ := runs_attempt.mp hValid
  rcases setUncurated_runs hSet with ⟨hNot, -⟩ | ⟨-, hNone, rfl⟩
  · cases hNot
  · refine ⟨rfl, fun r hr hId hNs => ?_⟩
    by_contra hPlain
    exact hNone r hr ⟨hId, hNs, Bool.eq_false_iff.mpr hPlain⟩

variable {cfg : ImportanceConfig}

/-- A turn of the importance job that changes nothing leaves the store. -/
theorem recalTurn_quiet (row : RecalRow) (db db' : Db)
    (h : Completes (recalTurn clock cfg row) db false db') : db' = db := by
  unfold recalTurn at h
  simp only at h
  split at h
  · exact (completes_pure.mp h).2.symm
  · exact (setRecalibratedImportance_false (completes_call.mp h)).1

/-- An uncurated memory is left alone only when its importance is up to date. -/
theorem recalTurn_idle {row : RecalRow}
    (hr : r ∈ db.memories) (hPlain : r.humanCurated = false) (hRow : recalRow r = .ok row)
    (h : Completes (recalTurn clock cfg row) db false db) : cfg.target r = r.importance := by
  simp only [recalRow, except_bind_ok] at hRow
  obtain ⟨ns, hNs, hRow⟩ := hRow
  cases hRow
  unfold recalTurn at h
  simp only at h
  split at h
  next hSame => exact hSame
  next =>
    -- the row itself would have been written
    have hHome : r.ns = ns.asDbString := Namespace.asDbString_of_parse (parseNamespace_ok hNs)
    have hCurated := (setRecalibratedImportance_false (completes_call.mp h)).2 r hr rfl hHome
    rw [hPlain] at hCurated
    cases hCurated

/-! ## The windows -/

/-- The links that a pass reads. -/
def decayWindow (db : Db) (limit : Nat) : List LinkRow :=
  (db.links.insertionSort LinkRow.KeyLe).take limit

/-- The memories that a pass reads. -/
def recalWindow (db : Db) (limit : Nat) : List MemoryRow :=
  ((db.memories.filter fun r => r.archivedAt = none).insertionSort
    fun a b => b.createdAt ≤ a.createdAt).take limit

/-- The scan hands out the links of its window. -/
theorem linksForDecay_ok (h : db.linksForDecay limit = .ok rows) : rows = decayWindow db limit := by
  have hEach := except_mapM_ok.mp h
  have hSame : List.Forall₂ (· = ·) (decayWindow db limit) rows := by
    refine hEach.imp fun l row hRow => ?_
    obtain ⟨_, -, hPure⟩ := except_bind_ok.mp hRow
    exact Except.ok.inj hPure
  exact (forall₂_eq_eq_eq ▸ hSame : decayWindow db limit = rows).symm

/-- The links fit into the window when there are no more than the limit. -/
theorem mem_decayWindow {l : LinkRow} (hl : l ∈ db.links)
    (hFits : db.links.length ≤ limit) : l ∈ decayWindow db limit := by
  unfold decayWindow
  rw [take_of_length_le (by rwa [length_insertionSort])]
  exact (mem_insertionSort _).mpr hl

/-- Where there are more, some link is left out. -/
theorem exists_notMem_decayWindow (hKeys : (db.links.map LinkRow.key).Nodup)
    (hMore : limit < db.links.length) : ∃ l ∈ db.links, l ∉ decayWindow db limit := by
  have hNodup : (db.links.insertionSort LinkRow.KeyLe).Nodup :=
    (perm_insertionSort _ _).nodup_iff.mpr (hKeys.of_map _)
  have hLength : limit < (db.links.insertionSort LinkRow.KeyLe).length := by
    rwa [length_insertionSort]
  let l := (db.links.insertionSort LinkRow.KeyLe)[limit]
  refine ⟨l, (mem_insertionSort _).mp (getElem_mem hLength), fun hIn => ?_⟩
  -- the list splits at the limit, and its parts have no element in common
  have hRest : l ∈ (db.links.insertionSort LinkRow.KeyLe).drop limit := by
    rw [drop_eq_getElem_cons hLength]
    exact mem_cons_self
  exact disjoint_take_drop hNodup le_rfl hIn hRest

/-! ## When an idle pass has reached everything -/

/-- An idle decay pass leaves no link of its window behind. -/
theorem runLinkDecay_idle {cfg : LinkDecayConfig} (hKeep : cfg.pruneBelowFloor = false)
    (h : Completes (runLinkDecay clock cfg) db s db')
    (hNone : s.changed = 0) : ∀ l ∈ decayWindow db cfg.batchLimit, ¬ cfg.Moves l := by
  obtain ⟨rows, mid, hScan, hLoop⟩ := completes_bind.mp h
  obtain ⟨hRows, rfl⟩ := completes_view.mp hScan
  obtain rfl := linksForDecay_ok hRows
  have hQuiet : ∀ row db db', Completes (decayTurn clock cfg row) db false db' → db' = db :=
    fun row db db' hTurn => ((decayTurn_idle hKeep).mp hTurn).2
  intro l hl
  exact ((decayTurn_idle hKeep).mp ((jobLoop_idle hQuiet hLoop hNone).2 l hl)).1

/-- A decay pass whose window is up to date is idle. -/
theorem runLinkDecay_completes (clock : Int) (cfg : LinkDecayConfig)
    (hKeep : cfg.pruneBelowFloor = false)
    (hScan : db.linksForDecay cfg.batchLimit = .ok rows)
    (hSettled : ∀ l ∈ decayWindow db cfg.batchLimit, ¬ cfg.Moves l) :
    ∃ s, Completes (runLinkDecay clock cfg) db s db ∧ s.changed = 0 := by
  have hTurns : ∀ l ∈ rows, Completes (decayTurn clock cfg l) db false db := by
    intro l hl
    rw [linksForDecay_ok hScan] at hl
    exact (decayTurn_idle hKeep).mpr ⟨hSettled l hl, rfl⟩
  obtain ⟨s, hLoop, hNone⟩ := jobLoop_completes hTurns {}
  exact ⟨s, completes_bind.mpr ⟨rows, db, completes_view.mpr ⟨hScan, rfl⟩, hLoop⟩, hNone⟩

/-- An idle recalibration pass leaves no uncurated memory of its window behind. -/
theorem runImportance_idle
    (h : Completes (runImportance clock cfg) db s db') (hNone : s.changed = 0) :
    ∀ r ∈ recalWindow db cfg.batchLimit, r.humanCurated = false → cfg.target r = r.importance := by
  obtain ⟨rows, mid, hScan, hLoop⟩ := completes_bind.mp h
  obtain ⟨hRows, rfl⟩ := completes_view.mp hScan
  have hTurns := (jobLoop_idle recalTurn_quiet hLoop hNone).2
  intro r hr hPlain
  obtain ⟨row, hRow⟩ := except_mapM_each hRows hr
  have hIn : row ∈ rows := (except_mapM_mem hRows).mpr ⟨r, hr, hRow⟩
  have hMem : r ∈ db.memories :=
    mem_of_mem_filter ((mem_insertionSort _).mp (mem_of_mem_take hr))
  exact recalTurn_idle hMem hPlain hRow (hTurns row hIn)

/-- A recalibration pass whose window is up to date is idle. -/
theorem runImportance_completes (clock : Int) (cfg : ImportanceConfig)
    {rows : List RecalRow} (hScan : db.memoriesForRecalibration cfg.batchLimit = .ok rows)
    (hSettled : ∀ r ∈ recalWindow db cfg.batchLimit, cfg.target r = r.importance) :
    ∃ s, Completes (runImportance clock cfg) db s db ∧ s.changed = 0 := by
  have hTurns : ∀ row ∈ rows, Completes (recalTurn clock cfg row) db false db := by
    intro row hIn
    obtain ⟨r, hr, hRow⟩ := (except_mapM_mem hScan).mp hIn
    have hTarget := hSettled r hr
    simp only [recalRow, except_bind_ok] at hRow
    obtain ⟨ns, -, hRow⟩ := hRow
    cases hRow
    show Completes (if cfg.target r = r.importance then pure false else _) db false db
    rw [if_pos hTarget]
    exact completes_pure.mpr ⟨rfl, rfl⟩
  obtain ⟨s, hLoop, hNone⟩ := jobLoop_completes hTurns {}
  exact ⟨s, completes_bind.mpr ⟨rows, db, completes_view.mpr ⟨hScan, rfl⟩, hLoop⟩, hNone⟩

/-- A formula that is settled for every link but one. -/
def settledBut (l₀ : LinkRow) (l : LinkRow) : ℚ :=
  if l = l₀ then f32Round l.strength + 1 else f32Round l.strength

theorem settledBut_moves (limit : Nat) (l₀ l : LinkRow) :
    ({ decayedStrength := settledBut l₀, batchLimit := limit } : LinkDecayConfig).Moves l ↔
      l = l₀ := by
  have hOne : decayEpsilon < |f32Round 1| := by decide +kernel
  have hZero : ¬ decayEpsilon < |f32Round 0| := by decide +kernel
  show decayEpsilon < |f32Round (settledBut l₀ l - f32Round l.strength)| ↔ l = l₀
  unfold settledBut
  by_cases hSame : l = l₀
  · rw [if_pos hSame, add_sub_cancel_left]
    exact iff_of_true hOne hSame
  · rw [if_neg hSame, sub_self]
    exact iff_of_false hZero hSame

/-- A formula that keeps every importance but one. -/
def raisedBut (db : Db) (id₀ : MemoryId) (limit : Nat) : ImportanceConfig where
  recalibrate := fun id _ _ _ =>
    (db.find id).elim 0 fun r => if id = id₀ then r.importance + 1 else r.importance
  batchLimit := limit

theorem raisedBut_target (hIds : db.ids.Nodup) (hr : r ∈ db.memories)
    (id₀ : MemoryId) (limit : Nat) : (raisedBut db id₀ limit).target r =
      if r.memoryId = id₀ then r.importance + 1 else r.importance := by
  show (db.find r.memoryId).elim 0 _ = _
  rw [Db.find_of_mem hIds hr]
  rfl

/-- An idle decay pass has reached every link, whatever the formula, exactly when the links fit
into a batch or cannot be read. An idle recalibration pass has reached every active uncurated
memory exactly when they are all among the newest active memories up to the limit, or one of
those cannot be read. -/
theorem idle_pass_settles_iff {db : Db} (hKeys : (db.links.map LinkRow.key).Nodup)
    (hIds : db.ids.Nodup) (limit : Nat) :
    ((∀ (cfg : LinkDecayConfig) (clock : Int) (s : JobSummary) (db' : Db),
        cfg.pruneBelowFloor = false → cfg.batchLimit = limit →
        Completes (runLinkDecay clock cfg) db s db' → s.changed = 0 →
        ∀ l ∈ db.links, ¬ cfg.Moves l) ↔
      ((∃ rows, db.linksForDecay limit = .ok rows) → db.links.length ≤ limit)) ∧
    ((∀ (cfg : ImportanceConfig) (clock : Int) (s : JobSummary) (db' : Db),
        cfg.batchLimit = limit →
        Completes (runImportance clock cfg) db s db' → s.changed = 0 →
        ∀ r ∈ db.memories, r.archivedAt = none → r.humanCurated = false →
          cfg.target r = r.importance) ↔
      ((∃ rows, db.memoriesForRecalibration limit = .ok rows) →
        ∀ r ∈ db.memories, r.archivedAt = none → r.humanCurated = false →
          r ∈ recalWindow db limit)) := by
  refine ⟨⟨?_, ?_⟩, ?_, ?_⟩
  · rintro hReaches ⟨rows, hScan⟩
    by_contra hMore
    obtain ⟨l₀, hl₀, hOut⟩ := exists_notMem_decayWindow hKeys (Nat.lt_of_not_le hMore)
    let cfg : LinkDecayConfig := { decayedStrength := settledBut l₀, batchLimit := limit }
    have hSettled : ∀ l ∈ decayWindow db limit, ¬ cfg.Moves l := by
      intro l hl hMoves
      obtain rfl := (settledBut_moves limit l₀ l).mp hMoves
      exact hOut hl
    obtain ⟨s, hRun, hNone⟩ := runLinkDecay_completes 0 cfg rfl hScan hSettled
    exact hReaches cfg 0 s db rfl rfl hRun hNone l₀ hl₀ ((settledBut_moves limit l₀ l₀).mpr rfl)
  · rintro hFits cfg clock s db' hKeep rfl hRun hNone l hl
    obtain ⟨rows, mid, hScan, -⟩ := completes_bind.mp hRun
    have hLength := hFits ⟨rows, (completes_view.mp hScan).1⟩
    exact runLinkDecay_idle hKeep hRun hNone l (mem_decayWindow hl hLength)
  · rintro hReaches ⟨rows, hScan⟩ r₀ hr₀ hActive hPlain
    by_contra hOut
    -- recalibrate nothing but the memory outside the window
    let cfg : ImportanceConfig := raisedBut db r₀.memoryId limit
    have hTarget : ∀ r ∈ db.memories, cfg.target r =
        if r.memoryId = r₀.memoryId then r.importance + 1 else r.importance :=
      fun r hr => raisedBut_target hIds hr r₀.memoryId limit
    have hSettled : ∀ r ∈ recalWindow db limit, cfg.target r = r.importance := by
      intro r hr
      have hMem : r ∈ db.memories :=
        mem_of_mem_filter ((mem_insertionSort _).mp (mem_of_mem_take hr))
      have hOther : r.memoryId ≠ r₀.memoryId := by
        intro hSame
        exact hOut (db.row_unique hIds hMem hr₀ hSame ▸ hr)
      rw [hTarget r hMem, if_neg hOther]
    obtain ⟨s, hRun, hNone⟩ := runImportance_completes 0 cfg hScan hSettled
    have hReached := hReaches cfg 0 s db rfl hRun hNone r₀ hr₀ hActive hPlain
    rw [hTarget r₀ hr₀, if_pos rfl] at hReached
    omega
  · rintro hWindow cfg clock s db' rfl hRun hNone r hr hActive hPlain
    obtain ⟨rows, mid, hScan, -⟩ := completes_bind.mp hRun
    exact runImportance_idle hRun hNone r
      (hWindow ⟨rows, (completes_view.mp hScan).1⟩ r hr hActive hPlain) hPlain

/-- Three memories, the newest first, and two links of the first one; the second link and the
oldest memory are out of date for a formula that gives every link 1/2 and every memory 5. -/
def backlog : Db :=
  storeAfter .blank 2
    [.insertMemory 0 (.new ⟨1⟩ ⟨30, 0⟩ .global ['a'] .insight 5) none,
      .insertMemory 0 (.new ⟨2⟩ ⟨20, 0⟩ .global ['b'] .insight 5) none,
      .insertMemory 0 (.new ⟨3⟩ ⟨10, 0⟩ .global ['c'] .insight 7) none,
      .addLink 0 ⟨⟨1⟩, ⟨2⟩, .references, 1 / 2, [], ⟨0, 0⟩⟩,
      .addLink 0 ⟨⟨1⟩, ⟨3⟩, .references, 1, [], ⟨0, 0⟩⟩]

def halfStrength (limit : Nat) : LinkDecayConfig :=
  { decayedStrength := fun _ => 1 / 2, batchLimit := limit }

def evenImportance (limit : Nat) : ImportanceConfig :=
  { recalibrate := fun _ _ _ _ => 5, batchLimit := limit }

/-- With room for all rows an idle pass has reached them all. -/
theorem idle_pass_settles_backlog :
    (backlog.links.map LinkRow.key).Nodup ∧ backlog.ids.Nodup ∧
    (∀ (cfg : LinkDecayConfig) (clock : Int) (s : JobSummary) (db' : Db),
      cfg.pruneBelowFloor = false → cfg.batchLimit = 3 →
      Completes (runLinkDecay clock cfg) backlog s db' → s.changed = 0 →
      ∀ l ∈ backlog.links, ¬ cfg.Moves l) ∧
    (∀ (cfg : ImportanceConfig) (clock : Int) (s : JobSummary) (db' : Db), cfg.batchLimit = 3 →
      Completes (runImportance clock cfg) backlog s db' → s.changed = 0 →
      ∀ r ∈ backlog.memories, r.archivedAt = none → r.humanCurated = false →
        cfg.target r = r.importance) := by
  have hKeys : (backlog.links.map LinkRow.key).Nodup := by decide +kernel
  have hIds : backlog.ids.Nodup := by decide +kernel
  obtain ⟨hLinks, hMemories⟩ := idle_pass_settles_iff hKeys hIds 3
  exact ⟨hKeys, hIds, hLinks.mpr fun _ => by decide +kernel, hMemories.mpr fun _ => by decide +kernel⟩

/-- With a smaller batch both passes are idle and leave a row behind. -/
theorem idle_pass_leaves_backlog :
    ((outcome (runLinkDecay 0 (halfStrength 1)) backlog).1.toOption = some ⟨1, 0, 1⟩ ∧
      ∃ l ∈ backlog.links, (halfStrength 1).Moves l) ∧
    ((outcome (runImportance 0 (evenImportance 2)) backlog).1.toOption = some ⟨2, 0, 2⟩ ∧
      ∃ r ∈ backlog.memories, r.archivedAt = none ∧ r.humanCurated = false ∧
        (evenImportance 2).target r ≠ r.importance) := by
  decide +kernel

end RustyBrain.Daemon
