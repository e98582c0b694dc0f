import RustyBrain.Engine.Reembed
import RustyBrain.Store.EmbeddingSpace
import RustyBrain.Store.Lifecycle

/-!
# rusty-brain — embedding spaces across sessions

A session opens the database with a model and a dimension of its own, after accepting a
change of the space if it was told to, works on the tables and ends. The admission lock lets
one session at a time into the database. A session may break off at any move, and what it
left is what the next one finds.

The module puts the openers of `Store.Lifecycle` and the operations of `Store.System` over
one disk. The vector table of the model takes vectors of the connection's dimension; on a
sound disk that is the dimension of the table.
-/

namespace RustyBrain.Engine.Spaces

open Store Store.Lifecycle Transaction Machine List

/-! ## The disk -/

/-- What a session opens the database with; the dimension is a `usize`. -/
structure Config where
  model : Text
  dim : Nat
  dim_lt : dim < 2 ^ 64
  siteId : Text

/-- The database file: what openers decide by, and the tables. -/
structure Disk where
  ledger : Option (List Record)
  metaTable : String → Option Text
  vectorTable : Option Nat
  tables : Db

namespace Disk

/-- `SELECT DISTINCT embedding_model … ORDER BY embedding_model LIMIT 2`. -/
def rowModels (d : Disk) : List Text :=
  ((d.tables.memories.map MemoryRow.embeddingModel).dedup.insertionSort (· ≤ ·)).take 2

/-- What an opener sees. -/
def file (d : Disk) : File where
  ledger := d.ledger
  metaTable := d.metaTable
  vectorTable := d.vectorTable
  rowModels := d.rowModels

/-- The disk once an opener has left the file so; the markers of the tables are entries of
`meta`. -/
def withFile (d : Disk) (f : File) : Disk where
  ledger := f.ledger
  metaTable := f.metaTable
  vectorTable := f.vectorTable
  tables :=
    { d.tables with
      metaModel := f.metaTable "embedding_model"
      metaDim := (f.metaTable "embedding_dim").bind parseU64 }

/-- One move of an opener. A vector table that is built is created empty, or made from the
one that was there; if that fails, the move is rolled back. -/
def advance (env : Env) (checksum : String → String) (o : Opener) (d : Disk) (phase : Phase) :
    Disk × Phase :=
  let out := o.advance checksum d.file phase
  if out.built then
    match d.vectorTable with
    | none => ({ d with tables := d.tables.setVectors [] }.withFile out.file, out.phase)
    | some _ =>
      match commit (rebuildVectorTable env) { d.tables with embeddingDim := o.embeddingDim } with
      | (.ok _, tables) => ({ d with tables }.withFile out.file, out.phase)
      | (.error e, _) => (d, .failed e)
  else (d.withFile out.file, out.phase)

/-- The entries of `meta` and the table definition that an acceptance writes. -/
def acceptedFile (d : Disk) (c : Config) : File :=
  let f := { d.file with vectorTable := some c.dim }
  let f := f.upsertMeta "vector_schema_version" VECTOR_SCHEMA_VERSION
  let f := f.upsertMeta "vector_metric" ['c', 'o', 's', 'i', 'n', 'e']
  let f := f.upsertMeta "embedding_dim" (Nat.toDigits 10 c.dim)
  f.upsertMeta "embedding_model" c.model

/-- The transaction of `accept_embedding_space_change`: the space is the one there is, or
everything changes together. -/
def accept (d : Disk) (c : Config) : Disk :=
  match commit (acceptEmbeddingSpaceChange c.dim c.model) d.tables with
  | (.ok true, tables) => { d with tables }.withFile (d.acceptedFile c)
  | _ => d

/-- The tables, as an open session has them. -/
def connect (d : Disk) (c : Config) (site : Text) : Db :=
  { d.tables with embeddingDim := c.dim, siteId := site }

end Disk

/-! ## Sessions -/

/-- A session: `accepting` is the process of `accept_embedding_space_change`, which runs the
migrations of an opener and then its own transaction. -/
structure Session where
  config : Config
  accepting : Bool
  phase : Phase

structure State where
  disk : Disk
  session : Option Session := none

variable {phase : Phase} {next : Phase} {check : Result Unit} {f : File} {t : State} {out : Outcome}

inductive Event where
  | begin (c : Config) (accepting : Bool)
  | move
  | run (op : Op)
  | stop

section Step

variable (env : Env) (checksum : String → String) (files : List EmbeddedFile)

def Config.opener (c : Config) : Opener where
  files := files
  embeddingDim := c.dim
  embeddingModel := some c.model
  siteId := c.siteId

/-- The next move of the session. -/
def State.move (s : State) (x : Session) : State :=
  if x.accepting = true ∧ x.phase = .checking [] then ⟨s.disk.accept x.config, none⟩
  else
    let (disk, phase) := s.disk.advance env checksum (x.config.opener files) x.phase
    ⟨disk, some { x with phase }⟩

/-- One step. There is one session at a time. -/
def State.step (s : State) (e : Event) : State :=
  match s.session, e with
  | none, .begin c accepting => { s with session := some ⟨c, accepting, .starting⟩ }
  | some x, .move => s.move env checksum files x
  | some x, .run op =>
    match x.phase with
    | .opened site => { s with disk := { s.disk with tables := op.run env (s.disk.connect x.config site) } }
    | _ => s
  | some _, .stop => { s with session := none }
  | _, _ => s

end Step

/-- An empty file. -/
def emptyDisk : Disk where
  ledger := none
  metaTable := fun _ => none
  vectorTable := none
  tables := { Db.init [] 0 none with metaDim := none }

/-- The operations of a session: it stays in its space, and the vectors it stores were
computed by its model. -/
def MayStep (computed : Text → Embedding → Prop) (s : State) : Event → Prop
  | .run op => ∀ x ∈ s.session, op.staysInSpace = true ∧ ∀ e ∈ op.embedding, computed x.config.model e
  | _ => True

/-! ## What a move of an opener does to the markers -/

theorem parseU64_toDigits {n : Nat} (h : n < 2 ^ 64) : parseU64 (Nat.toDigits 10 n) = some n := by
  have hDigits : (Nat.toDigits 10 n).all Char.isDigit = true := by
    rw [all_eq_true]
    exact fun c hc => Nat.isDigit_of_mem_toDigits (by decide) (by decide) hc
  have hValue : (Nat.toDigits 10 n).foldl (fun n c => 10 * n + (c.toNat - '0'.toNat)) 0 = n :=
    Nat.ofDigitChars_toDigits (by decide) (by decide)
  have hSome : (Nat.toDigits 10 n).isEmpty = false := by
    cases hNil : Nat.toDigits 10 n with
    | nil => exact absurd hNil Nat.toDigits_ne_nil
    | cons c rest => rfl
  unfold parseU64
  dsimp only
  split
  next rest hPlus =>
    -- no digit is a plus sign
    rw [hPlus] at hDigits
    simp at hDigits
  next => rw [hValue, hSome, hDigits, if_pos (by simpa using h)]

theorem upsertMeta_other {key other : String} (value : Text) (h : other ≠ key) :
    (f.upsertMeta key value).metaTable other = f.metaTable other := Function.update_of_ne h _ _

theorem upsertMeta_self (f : File) (key : String) (value : Text) :
    (f.upsertMeta key value).metaTable key = some value := Function.update_self ..

/-- What a move leaves of the markers and the vector table. -/
structure Marks (o : Opener) (f : File) (phase : Phase) (out : Outcome) : Prop where
  dim : out.file.metaTable "embedding_dim" = f.metaTable "embedding_dim" ∨
    (f.metaTable "embedding_dim" = none ∧
      out.file.metaTable "embedding_dim" = some (Nat.toDigits 10 o.embeddingDim))
  model : out.file.metaTable "embedding_model" = f.metaTable "embedding_model" ∨
    f.metaTable "embedding_model" = none
  built : out.built = true → phase = .ensuringVectors ∧ out.file.vectorTable = some o.embeddingDim
  unbuilt : out.built = false → out.file.vectorTable = f.vectorTable ∧
    out.file.metaTable "vector_schema_version" = f.metaTable "vector_schema_version"

section Moves

variable {checksum : String → String} {o : Opener} {f : File} {phase : Phase}

/-- A move that leaves `meta` and the vector table. -/
theorem marks_of_same (hMeta : out.file.metaTable = f.metaTable)
    (hTable : out.file.vectorTable = f.vectorTable) (hBuilt : out.built = false) :
    Marks o f phase out := by
  refine ⟨.inl (by rw [hMeta]), .inl (by rw [hMeta]), fun h => ?_, fun _ => ⟨hTable, by rw [hMeta]⟩⟩
  rw [hBuilt] at h
  cases h

/-- A move that seeds one entry of `meta`. -/
theorem marks_seedMeta {key : String} {value : Text}
    (hDim : key = "embedding_dim" → value = Nat.toDigits 10 o.embeddingDim)
    (hKey : key ≠ "vector_schema_version") :
    Marks o f phase { file := f.seedMeta key value, phase := next } := by
  unfold File.seedMeta
  cases hOld : f.metaTable key with
  | some old => exact marks_of_same rfl rfl rfl
  | none =>
    refine ⟨?_, ?_, nofun, fun _ => ⟨rfl, upsertMeta_other _ hKey.symm⟩⟩
    · by_cases hIs : key = "embedding_dim"
      · subst hIs
        exact .inr ⟨hOld, (upsertMeta_self ..).trans (by rw [hDim rfl])⟩
      · exact .inl (upsertMeta_other _ (Ne.symm hIs))
    · by_cases hIs : key = "embedding_model"
      · subst hIs
        exact .inr hOld
      · exact .inl (upsertMeta_other _ (Ne.symm hIs))

theorem advance_marks : Marks o f phase (o.advance checksum f phase) := by
  cases phase with
  | starting =>
    simp only [Opener.advance, Opener.start]
    split <;> exact marks_of_same rfl rfl rfl
  | checking rest =>
    cases rest with
    | nil | cons m rest => exact marks_of_same rfl rfl rfl
  | applying m rest =>
    simp only [Opener.advance, applyUnseen]
    split <;> exact marks_of_same rfl rfl rfl
  | seedingDim => exact marks_seedMeta (fun _ => rfl) (by decide)
  | readingDim | readingModel model | readingVectors | readingSite | rereadingSite | opened site
  | failed e | stopped => exact marks_of_same rfl rfl rfl
  | seedingModel model =>
    simp only [Opener.advance, seedModel]
    cases hOld : f.metaTable "embedding_model" with
    | some old => exact marks_of_same rfl rfl rfl
    | none =>
      dsimp only
      split
      · refine ⟨.inl ?_, .inr hOld, by simp, fun _ => ⟨rfl, ?_⟩⟩
        · exact upsertMeta_other _ (by decide)
        · exact upsertMeta_other _ (by decide)
      · exact marks_of_same rfl rfl rfl
  | ensuringVectors =>
    simp only [Opener.advance, ensureVectors]
    split
    · exact marks_of_same rfl rfl rfl
    · refine ⟨.inl ?_, .inl ?_, fun _ => ⟨rfl, rfl⟩, by simp⟩
      · rw [upsertMeta_other _ (by decide), upsertMeta_other _ (by decide)]
      · rw [upsertMeta_other _ (by decide), upsertMeta_other _ (by decide)]
  | seedingSite => exact marks_seedMeta (fun h => absurd h (by decide)) (by decide)

/-- The phases after the vector table was found or made. -/
def pastVectors : Phase → Bool
  | .readingSite | .seedingSite | .rereadingSite | .opened _ => true
  | _ => false

theorem pastVectors_andThen (h : pastVectors next = false) :
    pastVectors (next.andThen check) = false := by
  cases check with
  | ok u => exact h
  | error e => rfl

/-- The moves before the vector table do not go past it. -/
theorem pastVectors_advance (h : pastVectors phase = false) (hReading : phase ≠ .readingVectors)
    (hEnsuring : phase ≠ .ensuringVectors) :
    pastVectors (o.advance checksum f phase).phase = false := by
  cases phase with
  | starting =>
    simp only [Opener.advance, Opener.start]
    split
    · rfl
    · dsimp only
      split <;> rfl
  | checking rest =>
    cases rest with
    | nil => rfl
    | cons m rest =>
      simp only [Opener.advance, checkMigration]
      split
      · exact pastVectors_andThen rfl
      · rfl
  | applying m rest =>
    simp only [Opener.advance, applyUnseen]
    split
    · exact pastVectors_andThen rfl
    · rfl
  | seedingDim => rfl
  | readingDim =>
    refine pastVectors_andThen ?_
    unfold Opener.afterDim
    split <;> rfl
  | readingModel model =>
    simp only [Opener.advance, readModel]
    split
    · exact pastVectors_andThen rfl
    · rfl
  | seedingModel model =>
    simp only [Opener.advance, seedModel]
    split
    · exact pastVectors_andThen rfl
    · split <;> rfl
  | readingVectors => exact absurd rfl hReading
  | ensuringVectors => exact absurd rfl hEnsuring
  | failed e | stopped => rfl
  | readingSite | seedingSite | rereadingSite | opened site => cases h

/-- An opener that is past the vector table has seen its marker. -/
theorem advance_pastVectors
    (h : pastVectors phase = true → f.metaTable "vector_schema_version" = some VECTOR_SCHEMA_VERSION)
    (hPast : pastVectors (o.advance checksum f phase).phase = true) :
    (o.advance checksum f phase).file.metaTable "vector_schema_version" = some VECTOR_SCHEMA_VERSION := by
  have hGrows := (o.advance_faithful checksum f phase).grows
  have hKept : f.metaTable "vector_schema_version" = some VECTOR_SCHEMA_VERSION →
      (o.advance checksum f phase).file.metaTable "vector_schema_version" =
        some VECTOR_SCHEMA_VERSION := hGrows.kept _ _ (.inr (.inr (.inr ⟨rfl, rfl⟩)))
  by_cases hMarker : f.metaTable "vector_schema_version" = some VECTOR_SCHEMA_VERSION
  · exact hKept hMarker
  have hBefore : pastVectors phase = false := by
    by_contra hNot
    exact hMarker (h (Bool.not_eq_false _ ▸ hNot))
  by_cases hEnsuring : phase = .ensuringVectors
  · subst hEnsuring
    show (ensureVectors f o.embeddingDim).file.metaTable _ = _
    unfold ensureVectors
    rw [if_neg hMarker]
    dsimp only
    rw [upsertMeta_other _ (by decide), upsertMeta_self]
  by_cases hReading : phase = .readingVectors
  · -- without the marker the table is made first
    subst hReading
    have hNext : (o.advance checksum f .readingVectors).phase = .ensuringVectors := if_neg hMarker
    rw [hNext] at hPast
    cases hPast
  · rw [pastVectors_advance hBefore hReading hEnsuring] at hPast
    cases hPast

end Moves

/-! ## The invariant -/

/-- The disk between two moves: the tables have the markers of `meta`, a vector table goes
with its markers, and every vector was computed by the recorded model in the recorded
dimension. -/
structure Disk.Sound (computed : Text → Embedding → Prop) (d : Disk) : Prop where
  model : d.tables.metaModel = d.metaTable "embedding_model"
  dim : d.metaTable "embedding_dim" = d.tables.metaDim.map (Nat.toDigits 10)
  bound : ∀ n ∈ d.tables.metaDim, n < 2 ^ 64
  table : ∀ n, d.vectorTable = some n → d.tables.metaDim = some n ∧ d.tables.metaModel ≠ none ∧
    d.metaTable "vector_schema_version" = some VECTOR_SCHEMA_VERSION
  bare : d.vectorTable = none → d.tables.vectors = [] ∧
    d.metaTable "vector_schema_version" ≠ some VECTOR_SCHEMA_VERSION
  vectors : ∀ v ∈ d.tables.vectors, d.tables.metaDim = some v.embedding.length ∧
    ∃ model, d.tables.metaModel = some model ∧ computed model v.embedding

section Disks

variable {computed : Text → Embedding → Prop} {env : Env} {checksum : String → String}
  {files : List EmbeddedFile} {d : Disk} {c : Config} {phase : Phase} {site : Text}

theorem emptyDisk_sound : emptyDisk.Sound computed :=
  ⟨rfl, rfl, nofun, nofun, fun _ => ⟨rfl, nofun⟩,
    nofun⟩

theorem withFile_metaDim :
    (d.withFile f).tables.metaDim = (f.metaTable "embedding_dim").bind parseU64 := rfl

/-- The markers of a table cannot be missing. -/
theorem Disk.Sound.bare_of_unmarked (h : d.Sound computed)
    (hNone : d.tables.metaDim = none ∨ d.tables.metaModel = none) : d.vectorTable = none := by
  cases hTable : d.vectorTable with
  | none => rfl
  | some n =>
    obtain ⟨hDim, hModel, -⟩ := h.table n hTable
    rcases hNone with hNone | hNone
    · rw [hNone] at hDim
      cases hDim
    · exact absurd hNone hModel

/-- The recorded dimension as the tables have it. -/
theorem Disk.Sound.metaDim (h : d.Sound computed) :
    (d.metaTable "embedding_dim").bind parseU64 = d.tables.metaDim := by
  rw [h.dim]
  cases hDim : d.tables.metaDim with
  | none => rfl
  | some n => exact parseU64_toDigits (h.bound n hDim)

/-- What an opener that is past its checks knows of the tables. -/
theorem Disk.Sound.verified (h : d.Sound computed)
    (hVerified : (c.opener files).Verified checksum d.file) :
    d.tables.metaDim = some c.dim ∧ d.tables.metaModel = some c.model := by
  obtain ⟨v, hText, hParse⟩ := hVerified.dim
  refine ⟨?_, h.model.trans (hVerified.model c.model rfl)⟩
  have hText' : d.metaTable "embedding_dim" = some v := hText
  rw [← h.metaDim, hText']
  exact hParse

/-- A move that builds no vector table. -/
theorem Disk.Sound.unbuilt (h : d.Sound computed)
    (hMarks : Marks (c.opener files) d.file phase out) (hBuilt : out.built = false) :
    (d.withFile out.file).Sound computed := by
  obtain ⟨hTable, hVersion⟩ := hMarks.unbuilt hBuilt
  have hTable' : (d.withFile out.file).vectorTable = d.vectorTable := hTable
  have hVersion' : (d.withFile out.file).metaTable "vector_schema_version" =
    d.metaTable "vector_schema_version" := hVersion
  have hVectors : (d.withFile out.file).tables.vectors = d.tables.vectors := rfl
  -- the dimension is the one there was, or the opener's where there was none
  have hDim : out.file.metaTable "embedding_dim" =
        (d.withFile out.file).tables.metaDim.map (Nat.toDigits 10) ∧
      (∀ n ∈ (d.withFile out.file).tables.metaDim, n < 2 ^ 64) ∧
      ((d.withFile out.file).tables.metaDim = d.tables.metaDim ∨ d.tables.metaDim = none) := by
    rw [withFile_metaDim]
    rcases hMarks.dim with hSame | ⟨hNone, hSeeded⟩
    · rw [hSame, show (d.file.metaTable _).bind parseU64 = _ from h.metaDim]
      exact ⟨h.dim, h.bound, .inl rfl⟩
    · replace hSeeded : out.file.metaTable "embedding_dim" = some (Nat.toDigits 10 c.dim) := hSeeded
      rw [hSeeded, show Option.bind (some _) parseU64 = some c.dim from parseU64_toDigits c.dim_lt]
      refine ⟨rfl, ?_, .inr (h.metaDim.symm.trans (congrArg (·.bind parseU64) hNone))⟩
      rintro n ⟨⟩
      exact c.dim_lt
  have hModel : (d.withFile out.file).tables.metaModel = d.tables.metaModel ∨
      d.tables.metaModel = none :=
    hMarks.model.imp (fun hSame => hSame.trans h.model.symm) fun hNone => h.model.trans hNone
  -- a marker that was missing was missing with the table
  have hKept : d.vectorTable ≠ none → (d.withFile out.file).tables.metaDim = d.tables.metaDim ∧
      (d.withFile out.file).tables.metaModel = d.tables.metaModel := fun hThere =>
    ⟨hDim.2.2.resolve_right fun hNone => hThere (h.bare_of_unmarked (.inl hNone)),
      hModel.resolve_right fun hNone => hThere (h.bare_of_unmarked (.inr hNone))⟩
  refine ⟨rfl, hDim.1, hDim.2.1, ?_, ?_, ?_⟩
  · intro n hn
    rw [hTable'] at hn
    obtain ⟨hOldDim, hOldModel, hOldVersion⟩ := h.table n hn
    obtain ⟨hSameDim, hSameModel⟩ := hKept (by rw [hn]; exact nofun)
    rw [hSameDim, hSameModel, hVersion']
    exact ⟨hOldDim, hOldModel, hOldVersion⟩
  · intro hNone
    rw [hTable'] at hNone
    rw [hVectors, hVersion']
    exact h.bare hNone
  · intro v hv
    have hThere : d.vectorTable ≠ none := by
      intro hNone
      rw [hVectors, (h.bare hNone).1] at hv
      cases hv
    obtain ⟨hSameDim, hSameModel⟩ := hKept hThere
    rw [hSameDim, hSameModel]
    exact h.vectors v hv

/-- The opener's part of the session, at its phase. -/
structure Knows (checksum : String → String) (files : List EmbeddedFile) (d : Disk) (c : Config)
    (phase : Phase) : Prop where
  reached : (c.opener files).Reached checksum d.file phase
  marker : pastVectors phase = true →
    d.metaTable "vector_schema_version" = some VECTOR_SCHEMA_VERSION

/-- A vector table is built where there is none. -/
theorem Disk.Sound.bare_of_built (h : d.Sound computed)
    (hBuilt : ((c.opener files).advance checksum d.file phase).built = true) : d.vectorTable = none := by
  cases hTable : d.vectorTable with
  | none => rfl
  | some n =>
    have hFaithful := (c.opener files).advance_faithful checksum d.file phase
    exact absurd (h.table n hTable).2.2 (hFaithful.built hBuilt).1

/-- A disk with a new vector table and the markers of its opener. -/
theorem sound_withFile (hVectors : d.tables.vectors = [])
    (hDim : f.metaTable "embedding_dim" = some (Nat.toDigits 10 c.dim))
    (hModel : f.metaTable "embedding_model" = some c.model) (hTable : f.vectorTable = some c.dim)
    (hVersion : f.metaTable "vector_schema_version" = some VECTOR_SCHEMA_VERSION) :
    (d.withFile f).Sound computed := by
  have hMeta : (d.withFile f).tables.metaDim = some c.dim := by
    rw [withFile_metaDim, hDim]
    exact parseU64_toDigits c.dim_lt
  refine ⟨rfl, ?_, ?_, fun n hn => ?_, fun hNone => ?_, fun v hv => ?_⟩
  · rw [hMeta]
    exact hDim
  · rw [hMeta]
    rintro n ⟨⟩
    exact c.dim_lt
  · cases hTable.symm.trans hn
    exact ⟨hMeta, (fun hNot => nomatch hModel.symm.trans hNot), hVersion⟩
  · cases hTable.symm.trans hNone
  · have hv' : v ∈ d.tables.vectors := hv
    rw [hVectors] at hv'
    cases hv'

variable (env checksum files c phase) in
/-- A move of an opener leaves the tables but for the markers. -/
theorem advance_eq (h : d.Sound computed) :
    ∃ tables, tables.vectors = d.tables.vectors ∧ tables.memories = d.tables.memories ∧
      tables.links = d.tables.links ∧
      d.advance env checksum (c.opener files) phase =
        ({ d with tables }.withFile ((c.opener files).advance checksum d.file phase).file,
          ((c.opener files).advance checksum d.file phase).phase) := by
  unfold Disk.advance
  dsimp only
  split
  · rename_i hBuilt
    have hNone := h.bare_of_built hBuilt
    rw [hNone]
    exact ⟨d.tables.setVectors [], (h.bare hNone).1.symm, rfl, rfl, rfl⟩
  · exact ⟨d.tables, rfl, rfl, rfl, rfl⟩

theorem Disk.Sound.advance (h : d.Sound computed) (hKnows : Knows checksum files d c phase) :
    (d.advance env checksum (c.opener files) phase).1.Sound computed := by
  have hMarks : Marks (c.opener files) d.file phase ((c.opener files).advance checksum d.file phase) :=
    advance_marks
  unfold Disk.advance
  dsimp only
  split
  · rename_i hBuilt
    have hNone := h.bare_of_built hBuilt
    rw [hNone]
    dsimp only
    -- the table comes after the checks, so the markers are those of the opener
    obtain ⟨rfl, hTable⟩ := hMarks.built hBuilt
    obtain ⟨hDim, hModel⟩ := h.verified hKnows.reached
    have hFaithful := (c.opener files).advance_faithful checksum d.file .ensuringVectors
    have hText : d.metaTable "embedding_dim" = some (Nat.toDigits 10 c.dim) := by
      rw [h.dim, hDim]
      rfl
    exact sound_withFile rfl (hFaithful.grows.kept _ _ (.inl rfl) hText)
      (hFaithful.grows.kept _ _ (.inr (.inl rfl)) (h.model.symm.trans hModel)) hTable
      (hFaithful.built hBuilt).2
  · rename_i hBuilt
    exact h.unbuilt hMarks (Bool.not_eq_true _ ▸ hBuilt)

theorem Knows.advance (h : d.Sound computed) (hKnows : Knows checksum files d c phase) :
    Knows checksum files (d.advance env checksum (c.opener files) phase).1 c
      (d.advance env checksum (c.opener files) phase).2 := by
  obtain ⟨tables, -, -, -, hEq⟩ := advance_eq env checksum files c phase h
  rw [hEq]
  have hReached := Opener.advance_reached hKnows.reached
  refine ⟨hReached.mono ⟨prefix_rfl, fun _ _ _ hKey => hKey⟩, ?_⟩
  exact advance_pastVectors hKnows.marker

theorem acceptedFile_meta :
    (d.acceptedFile c).metaTable "embedding_dim" = some (Nat.toDigits 10 c.dim) ∧
    (d.acceptedFile c).metaTable "embedding_model" = some c.model ∧
    (d.acceptedFile c).metaTable "vector_schema_version" = some VECTOR_SCHEMA_VERSION := by
  unfold Disk.acceptedFile
  dsimp only
  refine ⟨?_, upsertMeta_self .., ?_⟩
  · rw [upsertMeta_other _ (by decide), upsertMeta_self]
  · rw [upsertMeta_other _ (by decide), upsertMeta_other _ (by decide),
      upsertMeta_other _ (by decide), upsertMeta_self]

theorem Disk.Sound.accept (h : d.Sound computed) : (d.accept c).Sound computed := by
  unfold Disk.accept
  split
  · rename_i tables hCommit
    have hRuns : Runs (acceptEmbeddingSpaceChange c.dim c.model) d.tables true tables := by
      rcases commit_cases (acceptEmbeddingSpaceChange c.dim c.model) d.tables with
        ⟨b, s', hRuns, hEq⟩ | ⟨e, hEq⟩
      · rw [hEq] at hCommit
        cases hCommit
        exact hRuns
      · rw [hEq] at hCommit
        cases hCommit
    obtain ⟨hNot, -⟩ | ⟨-, rfl⟩ := acceptEmbeddingSpaceChange_runs hRuns
    · cases hNot
    obtain ⟨hText, hModel, hVersion⟩ := acceptedFile_meta (d := d) (c := c)
    exact sound_withFile rfl hText hModel rfl hVersion
  · exact h

theorem Disk.Sound.run (h : d.Sound computed) (hKnows : Knows checksum files d c (.opened site))
    {op : Op} (hStays : op.staysInSpace = true) (hComputed : ∀ e ∈ op.embedding, computed c.model e) :
    { d with tables := op.run env (d.connect c site) }.Sound computed := by
  have hSpaced := Op.run_spaced env hStays (d.connect c site)
  obtain ⟨hDim, hModel⟩ := h.verified hKnows.reached.1
  have hSame : (op.run env (d.connect c site)).metaModel = d.tables.metaModel ∧
      (op.run env (d.connect c site)).metaDim = d.tables.metaDim :=
    ⟨congrArg (fun x => x.2.1) hSpaced.space, congrArg (fun x => x.2.2) hSpaced.space⟩
  have hThere : d.vectorTable ≠ none := fun hNone => (h.bare hNone).2 (hKnows.marker rfl)
  refine ⟨hSame.1.trans h.model, ?_, ?_, fun n hn => ?_, fun hNone => absurd hNone hThere, fun v hv => ?_⟩
  · rw [hSame.2]
    exact h.dim
  · rw [hSame.2]
    exact h.bound
  · rw [hSame.1, hSame.2]
    exact h.table n hn
  · rw [hSame.1, hSame.2]
    rcases hSpaced.vectors v hv with ⟨w, hw, hVec⟩ | ⟨hNew, hLength⟩
    · rw [← hVec]
      exact h.vectors w hw
    · refine ⟨?_, c.model, hModel, hComputed _ hNew⟩
      rw [hDim, hLength]
      rfl

/-- What an opener knows does not depend on the rows. -/
theorem Knows.of_same {d' : Disk} (h : Knows checksum files d c phase)
    (hLedger : d'.ledger = d.ledger) (hMeta : d'.metaTable = d.metaTable) :
    Knows checksum files d' c phase := by
  refine ⟨h.reached.mono ⟨?_, fun key value _ hKey => ?_⟩, fun hPast => ?_⟩
  · unfold File.records Disk.file
    rw [hLedger]
  · show d'.metaTable key = some value
    rw [hMeta]
    exact hKey
  · rw [hMeta]
    exact h.marker hPast

end Disks

/-! ## Steps -/

/-- A sound disk, and what the session knows of it. -/
structure State.Sound (computed : Text → Embedding → Prop) (checksum : String → String)
    (files : List EmbeddedFile) (s : State) : Prop where
  disk : s.disk.Sound computed
  session : ∀ x, s.session = some x → Knows checksum files s.disk x.config x.phase

section Steps

variable {computed : Text → Embedding → Prop} {env : Env} {checksum : String → String}
  {files : List EmbeddedFile} {s : State} {x : Session}

theorem State.Sound.move (h : s.Sound computed checksum files) (hx : s.session = some x) :
    (s.move env checksum files x).Sound computed checksum files := by
  unfold State.move
  split
  · exact ⟨h.disk.accept, fun y hy => nomatch hy⟩
  · have hKnows := h.session x hx
    refine ⟨h.disk.advance hKnows, fun y hy => ?_⟩
    cases hy
    exact hKnows.advance h.disk

/-- Every step of a session keeps the disk sound. -/
theorem State.step_sound {e : Event} (hMay : MayStep computed s e)
    (h : s.Sound computed checksum files) :
    (s.step env checksum files e).Sound computed checksum files := by
  unfold State.step
  cases hx : s.session with
  | none =>
    cases e with
    | begin c accepting =>
      refine ⟨h.disk, fun y hy => ?_⟩
      cases hy
      exact ⟨trivial, nofun⟩
    | _ => exact h
  | some x =>
    cases e with
    | begin c accepting => exact h
    | move => exact h.move hx
    | stop => exact ⟨h.disk, fun y hy => nomatch hy⟩
    | run op =>
      have hKnows := h.session x hx
      obtain ⟨hStays, hComputed⟩ := hMay x hx
      dsimp only
      split
      · rename_i site hPhase
        have hOpened := hKnows
        rw [hPhase] at hOpened
        refine ⟨h.disk.run hOpened hStays hComputed, fun y hy => ?_⟩
        have hSame : some x = some y := hy
        cases hSame
        exact hKnows.of_same rfl rfl
      · exact h

theorem sound_start : State.Sound computed checksum files ⟨emptyDisk, none⟩ :=
  ⟨emptyDisk_sound, nofun⟩

/-! ## An opener that disagrees -/

/-- The recorded model or the recorded dimension is another one. -/
def Disk.Disagrees (d : Disk) (c : Config) : Prop :=
  (∃ model, d.metaTable "embedding_model" = some model ∧ model ≠ c.model) ∨
    ∃ dim, d.metaTable "embedding_dim" = some dim ∧ dim ≠ Nat.toDigits 10 c.dim

variable {c : Config}

/-- An opener that disagrees is not past its checks. -/
theorem Disk.Disagrees.not_verified {d : Disk} (h : d.Disagrees c)
    (hSound : d.Sound computed) : ¬ (c.opener files).Verified checksum d.file := by
  intro hVerified
  obtain ⟨hDim, hModel⟩ := hSound.verified hVerified
  rcases h with ⟨model, hOther, hNe⟩ | ⟨dim, hOther, hNe⟩
  · rw [hSound.model, hOther] at hModel
    exact hNe (Option.some.inj hModel)
  · rw [hSound.dim, hDim] at hOther
    exact hNe (Option.some.inj hOther).symm

theorem Disk.Disagrees.mono {d d' : Disk} (h : d.Disagrees c)
    (hGrows : Grows d.file d'.file) : d'.Disagrees c := by
  rcases h with ⟨model, hModel, hNe⟩ | ⟨dim, hDim, hNe⟩
  · exact .inl ⟨model, hGrows.kept _ _ (.inr (.inl rfl)) hModel, hNe⟩
  · exact .inr ⟨dim, hGrows.kept _ _ (.inl rfl) hDim, hNe⟩

/-- The disk of `s` while an opener that disagrees is at work. -/
structure Refused (computed : Text → Embedding → Prop) (checksum : String → String)
    (files : List EmbeddedFile) (s : State) (c : Config) (phase : Phase) (t : State) : Prop where
  session : t.session = some ⟨c, false, phase⟩
  sound : t.Sound computed checksum files
  disagrees : t.disk.Disagrees c
  memories : t.disk.tables.memories = s.disk.tables.memories
  vectors : t.disk.tables.vectors = s.disk.tables.vectors
  links : t.disk.tables.links = s.disk.tables.links

/-- An opener that disagrees changes nothing. -/
theorem Refused.move (env : Env) (h : Refused computed checksum files s c phase t) :
    ∃ f : File, Refused computed checksum files s c
      ((c.opener files).advance checksum f phase).phase (t.step env checksum files .move) := by
  have hSound : (t.step env checksum files .move).Sound computed checksum files :=
    State.step_sound trivial h.sound
  obtain ⟨tables, hVectors, hMemories, hLinks, hEq⟩ :=
    advance_eq env checksum files c phase h.sound.disk
  have hStep : t.step env checksum files .move =
      ⟨(t.disk.advance env checksum (c.opener files) phase).1,
        some ⟨c, false, (t.disk.advance env checksum (c.opener files) phase).2⟩⟩ := by
    unfold State.step
    rw [h.session]
    exact if_neg (fun hNot => nomatch hNot.1)
  rw [hStep, hEq] at hSound ⊢
  have hGrows := ((c.opener files).advance_faithful checksum t.disk.file phase).grows
  refine ⟨t.disk.file, rfl, hSound, ?_, hMemories.trans h.memories, hVectors.trans h.vectors,
    hLinks.trans h.links⟩
  exact h.disagrees.mono ⟨hGrows.ledger, hGrows.kept⟩

/-- How many moves an opener has left at most. -/
def rank (files : List EmbeddedFile) : Phase → Nat
  | .starting => 2 * files.length + 14
  | .checking rest => 2 * rest.length + 12
  | .applying _ rest => 2 * rest.length + 13
  | .seedingDim => 11
  | .readingDim => 10
  | .readingModel _ => 9
  | .seedingModel _ => 8
  | .readingVectors => 7
  | .ensuringVectors => 6
  | .readingSite => 5
  | .seedingSite => 4
  | .rereadingSite => 3
  | .opened _ | .failed _ => 0
  -- no move leads there
  | .stopped => 2 * files.length + 15

theorem rank_andThen {n : Nat} (h : rank files next < n) :
    rank files (next.andThen check) < n := by
  cases check with
  | ok u => exact h
  | error e => exact Nat.lt_of_le_of_lt (Nat.zero_le _) h

/-- There are no more migrations than files. -/
theorem discover_length {migs : List Migration} (h : discover files = .ok migs) :
    migs.length ≤ files.length := by
  obtain ⟨read, hRead, h⟩ := except_bind_ok.mp h
  obtain ⟨⟨⟩, -, h⟩ := except_bind_ok.mp h
  cases h
  have hLength : read.length = files.length := (except_mapM_ok.mp hRead).length_eq.symm
  rw [length_insertionSort, ← hLength]
  exact length_filterMap_le _ _

/-- Every move brings an opener nearer to its end. -/
theorem advance_rank {o : Opener} (hFiles : o.files = files)
    (h : rank files phase ≠ 0) (hLe : rank files phase ≤ 2 * files.length + 14) :
    rank files (o.advance checksum f phase).phase < rank files phase := by
  cases phase with
  | starting =>
    simp only [Opener.advance, Opener.start]
    split
    · exact Nat.succ_pos _
    · dsimp only
      split
      · rename_i migs hMigs
        rw [hFiles] at hMigs
        have hLength := discover_length hMigs
        show 2 * migs.length + 12 < 2 * files.length + 14
        omega
      · exact Nat.succ_pos _
  | checking rest =>
    cases rest with
    | nil => exact Nat.lt_succ_self 11
    | cons m rest =>
      simp only [Opener.advance, checkMigration]
      split
      · exact rank_andThen (by simp [rank])
      · simp only [rank, length_cons]
        omega
  | applying m rest =>
    simp only [Opener.advance, applyUnseen]
    split
    · exact rank_andThen (Nat.lt_succ_self _)
    · exact Nat.lt_succ_self _
  | seedingDim => exact Nat.lt_succ_self 10
  | readingDim =>
    refine rank_andThen ?_
    unfold Opener.afterDim
    split <;> simp [rank]
  | readingModel model =>
    simp only [Opener.advance, readModel]
    split
    · exact rank_andThen (by simp [rank])
    · exact Nat.lt_succ_self 8
  | seedingModel model =>
    simp only [Opener.advance, seedModel]
    split
    · exact rank_andThen (Nat.lt_succ_self 7)
    · split <;> simp [rank]
  | readingVectors =>
    simp only [Opener.advance, readVectors]
    split <;> simp [rank]
  | ensuringVectors =>
    simp only [Opener.advance, ensureVectors]
    split <;> exact Nat.lt_succ_self 5
  | readingSite | rereadingSite =>
    simp only [Opener.advance]
    split <;> simp [rank]
  | seedingSite => exact Nat.lt_succ_self 3
  | opened site | failed e => exact absurd rfl h
  | stopped => exact absurd hLe (Nat.not_succ_le_self _)

/-- An opener at its end has failed or opened the database. -/
theorem rank_eq_zero (h : rank files phase = 0) :
    (∃ e, phase = .failed e) ∨ ∃ site, phase = .opened site := by
  cases phase with
  | failed e => exact .inl ⟨e, rfl⟩
  | opened site => exact .inr ⟨site, rfl⟩
  | starting | checking rest | applying m rest | stopped => exact absurd h (Nat.succ_ne_zero _)
  | _ => cases h

/-- An opener that disagrees does not open the database. -/
theorem Refused.not_opened {site : Text}
    (h : Refused computed checksum files s c (.opened site) t) : False :=
  h.disagrees.not_verified h.sound.disk (h.sound.session _ h.session).reached.1

/-- After so many moves the opener is that much nearer to its end, and has changed nothing. -/
theorem Refused.moves (env : Env) (h : Refused computed checksum files s c .starting t) (n : Nat) :
    ∃ phase, Refused computed checksum files s c phase
        ((fun u => State.step env checksum files u .move)^[n] t) ∧
      rank files phase ≤ 2 * files.length + 14 - n := by
  induction n with
  | zero => exact ⟨.starting, h, le_rfl⟩
  | succ n ih =>
    obtain ⟨phase, hRefused, hRank⟩ := ih
    obtain ⟨f, hMoved⟩ := hRefused.move env
    rw [Function.iterate_succ_apply']
    refine ⟨_, hMoved, ?_⟩
    by_cases hEnd : rank files phase = 0
    · -- the opener has failed and stays where it is
      rcases rank_eq_zero hEnd with ⟨e, rfl⟩ | ⟨site, rfl⟩
      · exact Nat.zero_le _
      · exact hRefused.not_opened.elim
    · have hLe : rank files phase ≤ 2 * files.length + 14 := by omega
      have hNearer : rank files ((c.opener files).advance checksum f phase).phase < rank files phase :=
        advance_rank rfl hEnd hLe
      omega

end Steps

/-! ## The scan of a re-embedding -/

/-- The active rows with another stamp. -/
def staleRows (db : Db) (model version : Text) : List MemoryRow :=
  db.memories.filter fun m => m.archivedAt = none ∧
    (m.embeddingModel ≠ model ∨ m.embeddingInputVersion ≠ version)

/-- The rows that the statement of `memories_for_reembed` selects. -/
def selectedForReembed (db : Db) (model version : Text) (limit : Nat) : List MemoryRow :=
  ((staleRows db model version).insertionSort MemoryRow.OldestFirst).take limit

theorem memoriesForReembed_eq (db : Db) (model version : Text) (limit : Nat) :
    memoriesForReembed db model version limit =
      (selectedForReembed db model version limit).mapM db.rowToNote := rfl

section Scan

variable {db : Db} {model version : Text} {limit : Nat} {r : MemoryRow}

/-- A scan that has room for the stale rows selects every one of them. -/
theorem mem_selectedForReembed (hr : r ∈ db.memories) (hLive : r.archivedAt = none)
    (hStale : ¬ (r.embeddingModel = model ∧ r.embeddingInputVersion = version))
    (hRoom : (staleRows db model version).length ≤ limit) :
    r ∈ selectedForReembed db model version limit := by
  have hOther : r.embeddingModel ≠ model ∨ r.embeddingInputVersion ≠ version := by
    by_cases hModel : r.embeddingModel = model
    · exact .inr fun hVersion => hStale ⟨hModel, hVersion⟩
    · exact .inl hModel
  unfold selectedForReembed
  rw [take_of_length_le (by rw [length_insertionSort]; exact hRoom),
    mem_insertionSort]
  exact mem_filter.mpr ⟨hr, decide_eq_true ⟨hLive, hOther⟩⟩

/-- It hands out a note for each row it selects, if the active rows decode. -/
theorem memoriesForReembed_hands (hr : r ∈ selectedForReembed db model version limit)
    (hRows : ∀ m ∈ db.memories, m.archivedAt = none → ∃ n, db.rowToNote m = .ok n) :
    ∃ notes, memoriesForReembed db model version limit = .ok notes ∧
      ∃ n ∈ notes, n.id = r.memoryId := by
  have hSelected : ∀ m ∈ selectedForReembed db model version limit, ∃ n, db.rowToNote m = .ok n := by
    intro m hm
    have hIn := mem_of_mem_take hm
    rw [mem_insertionSort] at hIn
    obtain ⟨hMem, hTerms⟩ := mem_filter.mp hIn
    exact hRows m hMem (of_decide_eq_true hTerms).1
  obtain ⟨notes, hNotes⟩ := except_mapM_exists hSelected
  obtain ⟨n, hNote⟩ := hSelected r hr
  refine ⟨notes, (memoriesForReembed_eq ..).trans hNotes, n, (except_mapM_mem hNotes).mpr ⟨r, hr, hNote⟩, ?_⟩
  exact (Db.rowToNote_decodes hNote).id

end Scan

/-- Embedding spaces are never mixed. Along every run of sessions, from an empty file: every
vector was computed by the recorded model in the recorded dimension; every active row with
another stamp is selected by a re-embedding with that model; and an opener with another model
or dimension fails, and leaves vectors and links as they are. -/
theorem spaces_never_mixed {env : Env} {checksum : String → String} {files : List EmbeddedFile}
    {computed : Text → Embedding → Prop} {es : List Event}
    (hRun : Along (State.step env checksum files) (MayStep computed) ⟨emptyDisk, none⟩ es) :
    ∀ s ∈ states (State.step env checksum files) ⟨emptyDisk, none⟩ es,
      (∀ v ∈ s.disk.tables.vectors, ∃ model, s.disk.metaTable "embedding_model" = some model ∧
        s.disk.metaTable "embedding_dim" = some (Nat.toDigits 10 v.embedding.length) ∧
        computed model v.embedding) ∧
      (∀ model, s.disk.metaTable "embedding_model" = some model →
        ∀ r ∈ s.disk.tables.memories, r.archivedAt = none →
          ¬ (r.embeddingModel = model ∧ r.embeddingInputVersion = embeddingInputVersion) →
          ∀ limit, (staleRows s.disk.tables model embeddingInputVersion).length ≤ limit →
            r ∈ selectedForReembed s.disk.tables model embeddingInputVersion limit ∧
            ((∀ m ∈ s.disk.tables.memories, m.archivedAt = none →
                ∃ n, s.disk.tables.rowToNote m = .ok n) →
              ∃ notes, memoriesForReembed s.disk.tables model embeddingInputVersion limit = .ok notes ∧
                ∃ n ∈ notes, n.id = r.memoryId)) ∧
      (s.session = none → ∀ c, s.disk.Disagrees c →
        let after := fun n => (fun u => State.step env checksum files u .move)^[n]
          (s.step env checksum files (.begin c false))
        (∀ n, (after n).disk.tables.vectors = s.disk.tables.vectors ∧
          (after n).disk.tables.links = s.disk.tables.links) ∧
        ∃ moves, ∀ n ≥ moves, ∃ e, (after n).session = some ⟨c, false, .failed e⟩) := by
  intro s hs
  have hSound : s.Sound computed checksum files :=
    invariant_along (fun _ _ => State.step_sound) sound_start hRun s hs
  refine ⟨fun v hv => ?_, fun model _ r hr hLive hStale limit hRoom => ?_, fun hIdle c hOther => ?_⟩
  · obtain ⟨hDim, model, hModel, hComputed⟩ := hSound.disk.vectors v hv
    refine ⟨model, hSound.disk.model.symm.trans hModel, ?_, hComputed⟩
    rw [hSound.disk.dim, hDim]
    rfl
  · have hSelected := mem_selectedForReembed hr hLive hStale hRoom
    exact ⟨hSelected, memoriesForReembed_hands hSelected⟩
  · have hBegin : s.step env checksum files (.begin c false) =
        { s with session := some ⟨c, false, .starting⟩ } := by
      unfold State.step
      rw [hIdle]
    have hRefused : Refused computed checksum files s c .starting
        (s.step env checksum files (.begin c false)) := by
      rw [hBegin]
      refine ⟨rfl, ⟨hSound.disk, fun y hy => ?_⟩, hOther, rfl, rfl, rfl⟩
      cases hy
      exact ⟨trivial, nofun⟩
    refine ⟨fun n => ?_, 2 * files.length + 14, fun n hn => ?_⟩
    · obtain ⟨phase, hAfter, -⟩ := hRefused.moves env n
      exact ⟨hAfter.vectors, hAfter.links⟩
    · obtain ⟨phase, hAfter, hRank⟩ := hRefused.moves env n
      have hEnd : rank files phase = 0 := by omega
      rcases rank_eq_zero hEnd with ⟨e, rfl⟩ | ⟨site, rfl⟩
      · exact ⟨e, hAfter.session⟩
      · exact hAfter.not_opened.elim

/-! ## A run -/

def modelA : Config := ⟨['a'], 1, by decide, ['s']⟩

def modelB : Config := ⟨['b'], 2, by decide, ['s']⟩

/-- The vectors of the two models. -/
def computedAB (model : Text) (e : Embedding) : Prop :=
  (model = ['a'] ∧ e = [1]) ∨ (model = ['b'] ∧ e = [1, 0])
  deriving Decidable

instance (computed : Text → Embedding → Prop) [∀ model e, Decidable (computed model e)] (s : State) :
    (e : Event) → Decidable (MayStep computed s e)
  | .run op => inferInstanceAs (Decidable (∀ x ∈ s.session, _ ∧ ∀ e ∈ op.embedding, _))
  | .begin _ _ => .isTrue trivial
  | .move => .isTrue trivial
  | .stop => .isTrue trivial

/-- A session with the first model stores a memory; then the second model is accepted, opened
and the memory re-embedded. -/
def switchModel : List Event :=
  [.begin modelA false] ++ List.replicate 11 .move ++
  [.run (.insertMemory 0 { MemoryNote.new ⟨1⟩ ⟨0, 0⟩ .global ['n'] .insight 5 with
      embeddingModel := ['a'], embeddingInputVersion := embeddingInputVersion } (some [1])), .stop,
    .begin modelB true, .move, .move, .begin modelB false] ++ List.replicate 8 .move ++
  [.run (.updateVector ⟨1⟩ [1, 0] ['b'] embeddingInputVersion 0), .stop]

/-- A change of the model. -/
theorem spaces_never_mixed_switch :
    Along (State.step .blank id []) (MayStep computedAB) ⟨emptyDisk, none⟩ switchModel ∧
    (∃ s ∈ states (State.step .blank id []) ⟨emptyDisk, none⟩ switchModel,
      s.disk.tables.vectors.map VectorRow.embedding = [[1]]) ∧
    (∃ s ∈ states (State.step .blank id []) ⟨emptyDisk, none⟩ switchModel,
      s.disk.tables.vectors.map VectorRow.embedding = [[1, 0]] ∧ s.session.isNone = true) ∧
    ∀ s ∈ states (State.step .blank id []) ⟨emptyDisk, none⟩ switchModel,
      ∀ v ∈ s.disk.tables.vectors, ∃ model, s.disk.metaTable "embedding_model" = some model ∧
        s.disk.metaTable "embedding_dim" = some (Nat.toDigits 10 v.embedding.length) ∧
        computedAB model v.embedding := by
  have hRun : Along (State.step .blank id []) (MayStep computedAB) ⟨emptyDisk, none⟩ switchModel := by
    decide +kernel
  exact ⟨hRun, by decide +kernel, by decide +kernel, fun s hs => (spaces_never_mixed hRun s hs).1⟩

end RustyBrain.Engine.Spaces
