import RustyBrain.Lib.RelyGuarantee
import RustyBrain.Lib.Transaction
import RustyBrain.Types.Basic

/-!
# rusty-brain — opening a database file

`init_with_schema_hook`: an opener creates the migration ledger, runs the migrations its
build embeds, seeds or verifies the dimension and the model, creates or rebuilds the vector
table, and seeds or reads the site id. Every piece is an optimistic read and, where that
finds nothing, an immediate transaction that looks again. The module has an opener as a
machine whose moves are those reads and transactions, and any number of them on one file.

A file is what openers decide by: the ledger, the `meta` table, the vector table, and the
models the rows are stamped with. What a migration does to the schema, and the rows that a
rebuild copies and counts, are left out. A move may also break off, by a crash or a storage
error, which rolls its transaction back.
-/

namespace RustyBrain.Store.Lifecycle

open List
open Transaction (except_bind_ok except_check mem_concat)

open RelyGuarantee

/-! ## Migrations -/

/-- A file of the embedded migrations directory: its contents if they are UTF-8. -/
structure EmbeddedFile where
  name : String
  contents : Option String
  deriving DecidableEq

structure Migration where
  version : Nat
  name : String
  sql : String
  deriving DecidableEq

/-- A row of `_migrations`, without the time it was applied. -/
structure Record where
  version : Nat
  name : String
  checksum : String
  deriving DecidableEq

/-- `str::parse::<i64>` on ASCII digits. -/
def parseVersion (digits : Text) : Option Nat :=
  (parseU64 digits).filter (· < 2 ^ 63)

/-- The migration of one file; a file that is not SQL is passed over. -/
def readMigration (file : EmbeddedFile) : Result (Option Migration) :=
  if !".sql".toList.isSuffixOf file.name.toList then .ok none
  else
    let digits := file.name.toList.takeWhile Char.isDigit
    if digits = [] then
      .error (.migration ("migration file has no numeric prefix: " ++ file.name))
    else
      match parseVersion digits, file.contents with
      | none, _ => .error (.migration ("invalid numeric prefix in " ++ file.name))
      | some _, none => .error (.migration ("migration " ++ file.name ++ " is not UTF-8"))
      | some version, some sql => .ok (some { version, name := file.name, sql })

/-- The neighbours of equal version, as the error lists them. -/
def duplicateVersions : List Migration → List String
  | a :: b :: rest =>
    if a.version = b.version then
      s!"{a.version} (in {a.name} and {b.name})" :: duplicateVersions (b :: rest)
    else duplicateVersions (b :: rest)
  | _ => []

/-- `check_no_duplicate_versions`. -/
def checkNoDuplicateVersions (migs : List Migration) : Result Unit :=
  if duplicateVersions migs = [] then .ok ()
  else .error (.migration
    ("duplicate migration version(s): " ++ ", ".intercalate (duplicateVersions migs)))

/-- `discover`: the migrations by ascending version. -/
def discover (files : List EmbeddedFile) : Result (List Migration) := do
  let migs ← files.mapM readMigration
  let migs := (migs.filterMap id).insertionSort fun a b => a.version ≤ b.version
  checkNoDuplicateVersions migs
  pure migs

/-! ## The file -/

/-- A database file, as far as openers decide by it. -/
structure File where
  /-- The rows of `_migrations`, once that table is there. -/
  ledger : Option (List Record)
  metaTable : String → Option Text
  /-- The dimension in the definition of `memory_vectors`. -/
  vectorTable : Option Nat
  /-- The distinct models of the rows, in order. -/
  rowModels : List Text

def File.records (f : File) : List Record := f.ledger.getD []

/-- `ensure_migrations_table`. -/
def File.ensureMigrationsTable (f : File) : File := { f with ledger := some f.records }

/-- `recorded_checksum`. -/
def File.recordedChecksum (f : File) (version : Nat) : Option String :=
  (f.records.find? fun r => r.version = version).map Record.checksum

/-- `INSERT INTO _migrations`. -/
def File.insertRecord (f : File) (r : Record) : File :=
  { f with ledger := some (f.records ++ [r]) }

/-- `upsert_meta`. -/
def File.upsertMeta (f : File) (key : String) (value : Text) : File :=
  { f with metaTable := Function.update f.metaTable key (some value) }

/-- `INSERT OR IGNORE INTO meta`. -/
def File.seedMeta (f : File) (key : String) (value : Text) : File :=
  match f.metaTable key with
  | some _ => f
  | none => f.upsertMeta key value

/-! ## An opener -/

/-- What an opener brings: the files of its build, what it is configured with, and the site
id it would seed. -/
structure Opener where
  files : List EmbeddedFile
  embeddingDim : Nat
  embeddingModel : Option Text
  siteId : Text

/-- What an opener does next. -/
inductive Phase where
  | starting
  | checking (rest : List Migration)
  | applying (m : Migration) (rest : List Migration)
  | seedingDim
  | readingDim
  | readingModel (model : Text)
  | seedingModel (model : Text)
  | readingVectors
  | ensuringVectors
  | readingSite
  | seedingSite
  | rereadingSite
  | opened (site : Text)
  | failed (e : Error)
  | stopped
  deriving DecidableEq

/-- What a move leaves: the file, the next phase, and what it executed on the way. -/
structure Outcome where
  file : File
  phase : Phase
  executed : Option Migration := none
  /-- The vector table was created or rebuilt. -/
  built : Bool := false

variable {model : Text} {recorded : String} {version : Nat} {out : Outcome}

/-- Go on where a check passes. -/
def Phase.andThen (next : Phase) : Result Unit → Phase
  | .ok () => next
  | .error e => .failed e

/-- `Debug` of a text without characters to escape. -/
def quoted (t : Text) : String := "\"" ++ String.ofList t ++ "\""

def acceptModelChange : String :=
  "run with --accept-model-change to mark the corpus, then run " ++
    "`rusty-brain reembed` until scanned=0; skipped rows remain pending"

/-- `verify_configured_model`. -/
def verifyConfiguredModel (stored model : Text) : Result Unit :=
  if stored = model then .ok ()
  else .error (.storage ("embedding model changed (stored: " ++ quoted stored ++
    ", configured: " ++ quoted model ++ "); " ++ acceptModelChange))

/-- Whether the rows let a missing model marker be recovered. -/
def checkRowModels (rowModels : List Text) (model : Text) : Result Unit :=
  match rowModels with
  | [] => .ok ()
  | [stored] =>
    if stored = model then .ok ()
    else .error (.storage
      ("embedding model changed (meta.embedding_model is missing, stored rows use: " ++
        quoted stored ++ ", configured: " ++ quoted model ++ "); " ++ acceptModelChange))
  | a :: b :: _ =>
    .error (.storage
      ("meta.embedding_model is missing and stored rows contain mixed embedding " ++
        "models [" ++ quoted a ++ ", " ++ quoted b ++ "]; run with --accept-model-change to " ++
        "adopt " ++ quoted model ++
        "; then run `rusty-brain reembed` until scanned=0; skipped rows remain pending"))

/-- The check of a stored dimension. -/
def verifyDim (stored : Option Text) (embeddingDim : Nat) : Result Unit :=
  match stored with
  | none => .error (.storage "meta.embedding_dim missing after seed")
  | some v =>
    match parseU64 v with
    | none => .error (.storage ("meta.embedding_dim is not an integer: " ++ quoted v))
    | some stored =>
      if stored = embeddingDim then .ok ()
      else .error (.dimensionMismatch stored embeddingDim)

/-- `VECTOR_SCHEMA_VERSION`. -/
def VECTOR_SCHEMA_VERSION : Text := ['2']

/-- Where `init` goes when the dimension is verified. -/
def Opener.afterDim (o : Opener) : Phase :=
  match o.embeddingModel with
  | some model => .readingModel model
  | none => .readingVectors

section

variable (checksum : String → String)

def Migration.record (m : Migration) : Record :=
  { version := m.version, name := m.name, checksum := checksum m.sql }

/-- `verify_recorded_checksum`. -/
def verifyRecordedChecksum (m : Migration) (recorded : String) : Result Unit :=
  if recorded = checksum m.sql then .ok ()
  else .error (.migration
    s!"checksum mismatch for migration {m.version} ({m.name}): recorded {recorded}, file {checksum m.sql}")

/-- `run_migrations` up to its loop. -/
def Opener.start (o : Opener) (f : File) : Outcome :=
  if o.embeddingDim = 0 then
    { file := f, phase := .failed (.storage "embedding_dim must be greater than 0") }
  else
    { file := f.ensureMigrationsTable
      phase := match discover o.files with
        | .ok migs => .checking migs
        | .error e => .failed e }

/-- One turn of `apply_all`: the optimistic read. -/
def checkMigration (f : File) (m : Migration) (rest : List Migration) : Outcome :=
  { file := f
    phase := match f.recordedChecksum m.version with
      | some existing => (Phase.checking rest).andThen (verifyRecordedChecksum checksum m existing)
      | none => .applying m rest }

/-- `apply_unseen`: the transaction, which reads the ledger again. -/
def applyUnseen (f : File) (m : Migration) (rest : List Migration) : Outcome :=
  match f.recordedChecksum m.version with
  | some existing =>
    { file := f
      phase := (Phase.checking rest).andThen (verifyRecordedChecksum checksum m existing) }
  | none =>
    { file := f.insertRecord (m.record checksum), phase := .checking rest, executed := some m }

end

/-- `seed_or_verify_model`: the optimistic read. -/
def readModel (f : File) (model : Text) : Outcome :=
  { file := f
    phase := match f.metaTable "embedding_model" with
      | some stored => Phase.readingVectors.andThen (verifyConfiguredModel stored model)
      | none => .seedingModel model }

/-- `seed_or_verify_model`: the transaction. -/
def seedModel (f : File) (model : Text) : Outcome :=
  match f.metaTable "embedding_model" with
  | some stored =>
    { file := f, phase := Phase.readingVectors.andThen (verifyConfiguredModel stored model) }
  | none =>
    match checkRowModels f.rowModels model with
    | .ok () => { file := f.upsertMeta "embedding_model" model, phase := .readingVectors }
    | .error e => { file := f, phase := .failed e }

/-- `ensure_vector_schema_with_hook`: the optimistic read. -/
def readVectors (f : File) : Outcome :=
  { file := f
    phase := if f.metaTable "vector_schema_version" = some VECTOR_SCHEMA_VERSION
      then .readingSite else .ensuringVectors }

/-- `ensure_vector_schema_with_hook`: the transaction. A table that is there is rebuilt, and
one that is not is created; either leaves a table of the opener's dimension. -/
def ensureVectors (f : File) (embeddingDim : Nat) : Outcome :=
  if f.metaTable "vector_schema_version" = some VECTOR_SCHEMA_VERSION then
    { file := f, phase := .readingSite }
  else
    let f := { f with vectorTable := some embeddingDim }
    let f := f.upsertMeta "vector_schema_version" VECTOR_SCHEMA_VERSION
    { file := f.upsertMeta "vector_metric" ['c', 'o', 's', 'i', 'n', 'e']
      phase := .readingSite, built := true }

/-- One move of an opener. -/
def Opener.advance (checksum : String → String) (o : Opener) (f : File) : Phase → Outcome
  | .starting => o.start f
  | .checking [] => { file := f, phase := .seedingDim }
  | .checking (m :: rest) => checkMigration checksum f m rest
  | .applying m rest => applyUnseen checksum f m rest
  | .seedingDim =>
    { file := f.seedMeta "embedding_dim" (Nat.toDigits 10 o.embeddingDim), phase := .readingDim }
  | .readingDim =>
    { file := f
      phase := o.afterDim.andThen (verifyDim (f.metaTable "embedding_dim") o.embeddingDim) }
  | .readingModel model => readModel f model
  | .seedingModel model => seedModel f model
  | .readingVectors => readVectors f
  | .ensuringVectors => ensureVectors f o.embeddingDim
  | .readingSite =>
    { file := f
      phase := match f.metaTable "site_id" with
        | some existing => .opened existing
        | none => .seedingSite }
  | .seedingSite => { file := f.seedMeta "site_id" o.siteId, phase := .rereadingSite }
  | .rereadingSite =>
    { file := f
      phase := match f.metaTable "site_id" with
        | some site => .opened site
        | none => .failed (.storage "meta.site_id missing after seed") }
  | .opened site => { file := f, phase := .opened site }
  | .failed e => { file := f, phase := .failed e }
  | .stopped => { file := f, phase := .stopped }

/-! ## What `discover` returns -/

variable {migs : List Migration} {done : List Migration}

/-- Sorted neighbours without a duplicate ascend strictly. -/
theorem ascending_of_noDuplicates (hSorted : migs.Pairwise fun a b => a.version ≤ b.version)
    (hNone : duplicateVersions migs = []) : (migs.map Migration.version).Pairwise (· < ·) := by
  rw [← isChain_iff_pairwise]
  induction migs with
  | nil => exact .nil
  | cons a rest ih =>
    rw [pairwise_cons] at hSorted
    cases rest with
    | nil => exact .singleton _
    | cons b rest =>
      have hLe : a.version ≤ b.version := hSorted.1 b mem_cons_self
      rw [duplicateVersions] at hNone
      split at hNone
      next => cases hNone
      next hNe => exact .cons_cons (by omega) (ih hSorted.2 hNone)

/-- The migrations are sorted, and no version is there twice. -/
theorem discover_ascending {files : List EmbeddedFile} (h : discover files = .ok migs) :
    (migs.map Migration.version).Pairwise (· < ·) := by
  obtain ⟨read, _, h⟩ := except_bind_ok.mp h
  obtain ⟨⟨⟩, hCheck, h⟩ := except_bind_ok.mp h
  cases h
  have : Std.Total fun a b : Migration => a.version ≤ b.version := ⟨fun a b => Nat.le_total _ _⟩
  have : IsTrans Migration fun a b => a.version ≤ b.version := ⟨fun _ _ _ => Nat.le_trans⟩
  exact ascending_of_noDuplicates (pairwise_insertionSort _ _) (except_check hCheck)

variable {m : Migration} {rest : List Migration}

/-- A migration of no later version than the next one is that one or was before it. -/
theorem mem_done_of_le {m' : Migration}
    (hAscending : ((done ++ m :: rest).map Migration.version).Pairwise (· < ·))
    (hMem : m' ∈ done ++ m :: rest) (hLe : m'.version ≤ m.version) : m' ∈ done ∨ m' = m := by
  rcases mem_append.mp hMem with hDone | hRest
  · exact .inl hDone
  · rcases mem_cons.mp hRest with hEq | hRest
    · exact .inr hEq
    · rw [map_append, map_cons, pairwise_append, pairwise_cons] at hAscending
      have hLt := hAscending.2.1.1 m'.version (mem_map_of_mem hRest)
      omega

/-! ## How a file grows -/

/-- The entries of `meta` that no opener changes once they are there. -/
def Kept (key : String) (value : Text) : Prop :=
  key = "embedding_dim" ∨ key = "embedding_model" ∨ key = "site_id" ∨
    (key = "vector_schema_version" ∧ value = VECTOR_SCHEMA_VERSION)

/-- What openers do to a file. -/
structure Grows (f f' : File) : Prop where
  ledger : f.records <+: f'.records
  kept : ∀ key value, Kept key value → f.metaTable key = some value →
    f'.metaTable key = some value

theorem Grows.refl (f : File) : Grows f f := ⟨prefix_rfl, fun _ _ _ h => h⟩

variable {f f' : File}

/-- A checksum that is recorded stays. -/
theorem Grows.recordedChecksum (h : Grows f f') {sum : String}
    (hRec : f.recordedChecksum version = some sum) : f'.recordedChecksum version = some sum := by
  obtain ⟨more, hMore⟩ := h.ledger
  obtain ⟨r, hFind, hSum⟩ := Option.map_eq_some_iff.mp hRec
  rw [File.recordedChecksum, ← hMore, find?_append, hFind]
  exact congrArg some hSum

theorem grows_upsertMeta {f : File} {key : String} {value : Text} (hNew : f.metaTable key = none) :
    Grows f (f.upsertMeta key value) := by
  refine ⟨prefix_rfl, ?_⟩
  intro key' old _ hOld
  have hKey : key' ≠ key := by
    rintro rfl
    rw [hNew] at hOld
    cases hOld
  show Function.update f.metaTable key (some value) key' = some old
  rw [Function.update_of_ne hKey, hOld]

theorem grows_seedMeta (f : File) (key : String) (value : Text) :
    Grows f (f.seedMeta key value) := by
  unfold File.seedMeta
  split
  next => exact .refl f
  next hNone => exact grows_upsertMeta hNone

/-! ## What one move does to the file -/

variable {phase : Phase}

section

variable {checksum : String → String} {o : Opener} {f : File}

/-- What a move does to the file, and what it reports of it. -/
structure Outcome.Faithful (checksum : String → String) (f : File) (phase : Phase)
    (out : Outcome) : Prop where
  grows : Grows f out.file
  ledger : out.file.records = f.records ++ (out.executed.map (Migration.record checksum)).toList
  executed : ∀ m, out.executed = some m →
    f.recordedChecksum m.version = none ∧ ∃ rest, phase = .applying m rest
  built : out.built = true → f.metaTable "vector_schema_version" ≠ some VECTOR_SCHEMA_VERSION ∧
    out.file.metaTable "vector_schema_version" = some VECTOR_SCHEMA_VERSION

/-- A move that executes nothing only has to let the file grow. -/
theorem Outcome.Faithful.of_grows (hGrows : Grows f out.file)
    (hLedger : out.file.records = f.records) (hExec : out.executed = none)
    (hBuilt : out.built = false) : out.Faithful checksum f phase := by
  refine ⟨hGrows, ?_, ?_, ?_⟩
  · rw [hExec, hLedger]
    exact (append_nil _).symm
  · intro m hm
    rw [hExec] at hm
    cases hm
  · intro hTrue
    rw [hBuilt] at hTrue
    cases hTrue

theorem Outcome.Faithful.of_read {next : Phase} :
    ({ file := f, phase := next } : Outcome).Faithful checksum f phase :=
  .of_grows (.refl f) rfl rfl rfl

theorem records_seedMeta (key : String) (value : Text) :
    (f.seedMeta key value).records = f.records := by
  unfold File.seedMeta
  split <;> rfl

/-- A migration is executed with its row of the ledger, or not at all. -/
theorem applyUnseen_faithful (m : Migration) (rest : List Migration) :
    (applyUnseen checksum f m rest).Faithful checksum f (.applying m rest) := by
  unfold applyUnseen
  split
  next => exact .of_read
  next hNone =>
    refine ⟨⟨prefix_append _ _, fun _ _ _ h => h⟩, rfl, ?_, nofun⟩
    intro m' hm'
    cases hm'
    exact ⟨hNone, rest, rfl⟩

theorem seedModel_faithful (model : Text) :
    (seedModel f model).Faithful checksum f (.seedingModel model) := by
  unfold seedModel
  split
  next => exact .of_read
  next hNone =>
    split
    next => exact .of_grows (grows_upsertMeta hNone) rfl rfl rfl
    next => exact .of_read

theorem ensureVectors_faithful (dim : Nat) :
    (ensureVectors f dim).Faithful checksum f .ensuringVectors := by
  unfold ensureVectors
  split
  next => exact .of_read
  next hOld =>
    refine ⟨⟨prefix_rfl, ?_⟩, (append_nil _).symm, nofun, ?_⟩
    · -- the two keys written are the schema version, which was not current, and the metric
      intro key value hKept hValue
      have hMetric : key ≠ "vector_metric" := by
        rintro rfl
        simp [Kept] at hKept
      have hVersion : key ≠ "vector_schema_version" := by
        rintro rfl
        have hCurrent : value = VECTOR_SCHEMA_VERSION := by simpa [Kept] using hKept
        exact hOld (hCurrent ▸ hValue)
      show Function.update (Function.update f.metaTable _ _) _ _ key = some value
      rw [Function.update_of_ne hMetric, Function.update_of_ne hVersion, hValue]
    · intro _
      exact ⟨hOld, by simp [File.upsertMeta]⟩

/-- What a move may do to the file. -/
theorem Opener.advance_faithful (checksum : String → String) (o : Opener) (f : File) (phase : Phase) :
    (o.advance checksum f phase).Faithful checksum f phase := by
  cases phase with
  | starting =>
    simp only [Opener.advance, Opener.start]
    split
    next => exact .of_read
    next => exact .of_grows ⟨prefix_rfl, fun _ _ _ h => h⟩ rfl rfl rfl
  | checking rest =>
    cases rest with
    | nil => exact .of_read
    | cons m rest => exact .of_read
  | applying m rest => exact applyUnseen_faithful m rest
  | seedingDim | seedingSite =>
    exact .of_grows (grows_seedMeta f _ _) (records_seedMeta _ _) rfl rfl
  | seedingModel model => exact seedModel_faithful model
  | ensuringVectors => exact ensureVectors_faithful o.embeddingDim
  | readingDim | readingModel model | readingVectors | readingSite | rereadingSite | opened site
  | failed e | stopped => exact .of_read

/-! ## What an opener knows -/

/-- The migrations are in the ledger, with the checksums they have here. -/
def Known (checksum : String → String) (f : File) (migs : List Migration) : Prop :=
  ∀ m ∈ migs, f.recordedChecksum m.version = some (checksum m.sql)

def Opener.Migrated (checksum : String → String) (o : Opener) (f : File) : Prop :=
  ∃ migs, discover o.files = .ok migs ∧ Known checksum f migs

def Opener.DimAgrees (o : Opener) (f : File) : Prop :=
  ∃ v, f.metaTable "embedding_dim" = some v ∧ parseU64 v = some o.embeddingDim

def Opener.ModelAgrees (o : Opener) (f : File) : Prop :=
  ∀ model, o.embeddingModel = some model → f.metaTable "embedding_model" = some model

/-- Everything that is verified before the vector table is touched. -/
structure Opener.Verified (checksum : String → String) (o : Opener) (f : File) : Prop where
  migrated : o.Migrated checksum f
  dim : o.DimAgrees f
  model : o.ModelAgrees f

/-- What an opener knows of the file at each phase. -/
def Opener.Reached (checksum : String → String) (o : Opener) (f : File) : Phase → Prop
  | .starting | .failed _ | .stopped => True
  | .checking rest => ∃ done, discover o.files = .ok (done ++ rest) ∧ Known checksum f done
  | .applying m rest =>
    ∃ done, discover o.files = .ok (done ++ m :: rest) ∧ Known checksum f done
  | .seedingDim | .readingDim => o.Migrated checksum f
  | .readingModel model | .seedingModel model =>
    o.Migrated checksum f ∧ o.DimAgrees f ∧ o.embeddingModel = some model
  | .readingVectors | .ensuringVectors | .readingSite | .seedingSite | .rereadingSite =>
    o.Verified checksum f
  | .opened site => o.Verified checksum f ∧ f.metaTable "site_id" = some site

theorem Known.mono (h : Known checksum f migs) (hGrows : Grows f f') :
    Known checksum f' migs :=
  fun m hm => hGrows.recordedChecksum (h m hm)

theorem Opener.Migrated.mono (h : o.Migrated checksum f) (hGrows : Grows f f') :
    o.Migrated checksum f' := by
  obtain ⟨migs, hMigs, hKnown⟩ := h
  exact ⟨migs, hMigs, hKnown.mono hGrows⟩

theorem Opener.DimAgrees.mono (h : o.DimAgrees f) (hGrows : Grows f f') :
    o.DimAgrees f' := by
  obtain ⟨v, hv, hParse⟩ := h
  exact ⟨v, hGrows.kept _ _ (.inl rfl) hv, hParse⟩

theorem Opener.Verified.mono (h : o.Verified checksum f) (hGrows : Grows f f') :
    o.Verified checksum f' :=
  ⟨h.migrated.mono hGrows, h.dim.mono hGrows,
    fun model hModel => hGrows.kept _ _ (.inr (.inl rfl)) (h.model model hModel)⟩

/-- What an opener knows stays true whatever the other openers do. -/
theorem Opener.Reached.mono (h : o.Reached checksum f phase) (hGrows : Grows f f') :
    o.Reached checksum f' phase := by
  cases phase with
  | starting => trivial
  | checking rest | applying m rest =>
    obtain ⟨done, hMigs, hKnown⟩ := h
    exact ⟨done, hMigs, hKnown.mono hGrows⟩
  | seedingDim | readingDim => exact Opener.Migrated.mono h hGrows
  | readingModel model | seedingModel model => exact ⟨h.1.mono hGrows, h.2.1.mono hGrows, h.2.2⟩
  | readingVectors | ensuringVectors | readingSite | seedingSite | rereadingSite =>
    exact Opener.Verified.mono h hGrows
  | opened site => exact ⟨h.1.mono hGrows, hGrows.kept _ _ (.inr (.inr (.inl rfl))) h.2⟩
  | failed e | stopped => trivial

/-! ## What a move lets an opener know -/

/-- A check passed, or the opener has failed. -/
theorem reached_andThen {next : Phase} {check : Result Unit}
    (h : check = .ok () → o.Reached checksum f next) :
    o.Reached checksum f (next.andThen check) := by
  cases check with
  | ok u => exact h rfl
  | error e => trivial

theorem Known.snoc (h : Known checksum f done)
    (hm : f.recordedChecksum m.version = some (checksum m.sql)) :
    Known checksum f (done ++ [m]) := by
  intro m' hMem
  rcases mem_concat.mp hMem with hDone | rfl
  · exact h m' hDone
  · exact hm

/-- The next migration is known: on to the rest. -/
theorem reached_checking
    (hMigs : discover o.files = .ok (done ++ m :: rest)) (hKnown : Known checksum f done)
    (hm : f.recordedChecksum m.version = some (checksum m.sql)) :
    o.Reached checksum f (.checking rest) := by
  refine ⟨done ++ [m], ?_, hKnown.snoc hm⟩
  rw [hMigs, append_assoc]
  rfl

/-- A migration that is recorded is verified before the opener goes on. -/
theorem reached_verified {existing : String}
    (hMigs : discover o.files = .ok (done ++ m :: rest)) (hKnown : Known checksum f done)
    (hRec : f.recordedChecksum m.version = some existing) :
    o.Reached checksum f
      ((Phase.checking rest).andThen (verifyRecordedChecksum checksum m existing)) := by
  refine reached_andThen ?_
  intro hCheck
  obtain rfl : existing = checksum m.sql := except_check hCheck
  exact reached_checking hMigs hKnown hRec

/-- A record that joins the ledger is the one its version is found under. -/
theorem recordedChecksum_executed {f' : File} (hNone : f.recordedChecksum m.version = none)
    (hRecords : f'.records = f.records ++ [m.record checksum]) :
    f'.recordedChecksum m.version = some (checksum m.sql) := by
  have hFind : f.records.find? (fun r => r.version = m.version) = none :=
    Option.map_eq_none_iff.mp hNone
  rw [File.recordedChecksum, hRecords, find?_append, hFind]
  simp [Migration.record]

theorem checkMigration_reached (h : o.Reached checksum f (.checking (m :: rest))) :
    o.Reached checksum (checkMigration checksum f m rest).file
      (checkMigration checksum f m rest).phase := by
  obtain ⟨done, hMigs, hKnown⟩ := h
  unfold checkMigration
  cases hRec : f.recordedChecksum m.version with
  | some existing => exact reached_verified hMigs hKnown hRec
  | none => exact ⟨done, hMigs, hKnown⟩

theorem applyUnseen_reached (h : o.Reached checksum f (.applying m rest)) :
    o.Reached checksum (applyUnseen checksum f m rest).file
      (applyUnseen checksum f m rest).phase := by
  have hGrows : Grows f (applyUnseen checksum f m rest).file :=
    (applyUnseen_faithful m rest).grows
  obtain ⟨done, hMigs, hKnown⟩ := h
  unfold applyUnseen at hGrows ⊢
  split at hGrows
  next existing hRec => exact reached_verified hMigs hKnown hRec
  next hNone =>
    exact reached_checking hMigs (hKnown.mono hGrows) (recordedChecksum_executed hNone rfl)

theorem verifyDim_ok {stored : Option Text} {dim : Nat} (h : verifyDim stored dim = .ok ()) :
    ∃ v, stored = some v ∧ parseU64 v = some dim := by
  unfold verifyDim at h
  split at h
  next => cases h
  next v =>
    split at h
    next => cases h
    next found hFound => exact ⟨v, rfl, except_check h ▸ hFound⟩

theorem readingDim_reached (hMigrated : o.Migrated checksum f) :
    o.Reached checksum f
      (o.afterDim.andThen (verifyDim (f.metaTable "embedding_dim") o.embeddingDim)) := by
  refine reached_andThen ?_
  intro hCheck
  have hDim : o.DimAgrees f := verifyDim_ok hCheck
  unfold Opener.afterDim
  split
  next model hModel => exact ⟨hMigrated, hDim, hModel⟩
  next hNone =>
    refine ⟨hMigrated, hDim, ?_⟩
    intro model hModel
    rw [hNone] at hModel
    cases hModel

/-- The opener's model is the stored one: everything is verified. -/
theorem reached_readingVectors
    (h : o.Migrated checksum f ∧ o.DimAgrees f ∧ o.embeddingModel = some model)
    (hStored : f.metaTable "embedding_model" = some model) :
    o.Reached checksum f .readingVectors := by
  refine ⟨h.1, h.2.1, ?_⟩
  intro model' hModel'
  rw [h.2.2] at hModel'
  cases hModel'
  exact hStored

theorem reached_verifiedModel {stored : Text}
    (h : o.Migrated checksum f ∧ o.DimAgrees f ∧ o.embeddingModel = some model)
    (hStored : f.metaTable "embedding_model" = some stored) :
    o.Reached checksum f
      (Phase.readingVectors.andThen (verifyConfiguredModel stored model)) := by
  refine reached_andThen ?_
  intro hCheck
  obtain rfl : stored = model := except_check hCheck
  exact reached_readingVectors h hStored

theorem readModel_reached (h : o.Reached checksum f (.readingModel model)) :
    o.Reached checksum (readModel f model).file (readModel f model).phase := by
  unfold readModel
  cases hStored : f.metaTable "embedding_model" with
  | some stored => exact reached_verifiedModel h hStored
  | none => exact h

theorem seedModel_reached (h : o.Reached checksum f (.seedingModel model)) :
    o.Reached checksum (seedModel f model).file (seedModel f model).phase := by
  have hFaithful : (seedModel f model).Faithful checksum f (.seedingModel model) :=
    seedModel_faithful model
  have hGrows := hFaithful.grows
  unfold seedModel at hGrows ⊢
  split at hGrows
  next stored hStored => exact reached_verifiedModel h hStored
  next =>
    cases hRows : checkRowModels f.rowModels model with
    | error e => trivial
    | ok u =>
      rw [hRows] at hGrows
      refine reached_readingVectors ⟨h.1.mono hGrows, h.2.1.mono hGrows, h.2.2⟩ ?_
      simp [File.upsertMeta]

/-- Every move takes an opener from what it knows to what the next phase needs. -/
theorem Opener.advance_reached (h : o.Reached checksum f phase) :
    o.Reached checksum (o.advance checksum f phase).file (o.advance checksum f phase).phase := by
  have hGrows := (o.advance_faithful checksum f phase).grows
  cases phase with
  | starting =>
    simp only [Opener.advance, Opener.start]
    split
    next => trivial
    next =>
      cases hMigs : discover o.files with
      | ok migs => exact ⟨[], hMigs, by simp [Known]⟩
      | error e => trivial
  | checking rest =>
    cases rest with
    | nil =>
      obtain ⟨done, hMigs, hKnown⟩ := h
      rw [append_nil] at hMigs
      exact ⟨done, hMigs, hKnown⟩
    | cons m rest => exact checkMigration_reached h
  | applying m rest => exact applyUnseen_reached h
  | seedingDim => exact Opener.Migrated.mono h hGrows
  | readingDim => exact readingDim_reached h
  | readingModel model => exact readModel_reached h
  | seedingModel model => exact seedModel_reached h
  | readingVectors =>
    simp only [Opener.advance, readVectors]
    split <;> exact h
  | ensuringVectors =>
    have hNext : (ensureVectors f o.embeddingDim).phase = .readingSite := by
      unfold ensureVectors
      split <;> rfl
    show o.Reached checksum _ (ensureVectors f o.embeddingDim).phase
    rw [hNext]
    exact Opener.Verified.mono h hGrows
  | readingSite =>
    simp only [Opener.advance]
    split
    next existing hSite => exact ⟨h, hSite⟩
    next => exact h
  | seedingSite => exact Opener.Verified.mono h hGrows
  | rereadingSite =>
    simp only [Opener.advance]
    split
    next site hSite => exact ⟨h, hSite⟩
    next => trivial
  | opened site => exact h
  | failed e | stopped => trivial

end

/-! ## Any number of openers -/

/-- The file and what openers did to it: the migrations they executed, in order, and who
created or rebuilt the vector table. -/
structure History (ι : Type*) where
  file : File
  executed : List (ι × Migration) := []
  builds : List ι := []

/-- An opener goes on, or it crashes or meets a storage error. -/
inductive Turn where
  | advance
  | stop

section

variable {ι : Type*} (checksum : String → String) (opener : ι → Opener)

/-- What a move of an opener adds. -/
def History.after (h : History ι) (i : ι) (out : Outcome) : History ι where
  file := out.file
  executed := h.executed ++ (out.executed.map fun m => (i, m)).toList
  builds := h.builds ++ (if out.built then [i] else [])

/-- A turn of one opener. One that has returned is past stopping. -/
def move (i : ι) : Turn → History ι → Phase → History ι × Phase
  | .advance, h, phase =>
    let out := (opener i).advance checksum h.file phase
    (h.after i out, out.phase)
  | .stop, h, .opened site => (h, .opened site)
  | .stop, h, .failed e => (h, .failed e)
  | .stop, h, _ => (h, .stopped)

/-- The migrations the file has seen: those it was found with, and those executed since. -/
def History.applied (before : List Migration) (h : History ι) : List Migration :=
  before ++ h.executed.map Prod.snd

/-- What holds of the file whoever has the next turn. -/
structure Consistent (before : List Migration) (versions : List Nat) (h : History ι) : Prop where
  ledger : h.file.records = (h.applied before).map (Migration.record checksum)
  order : (h.applied before).map Migration.version <+: versions
  own : ∀ e ∈ h.executed, ∃ migs, discover (opener e.1).files = .ok migs ∧ e.2 ∈ migs ∧
    ∀ m ∈ migs, m.version ≤ e.2.version →
      h.file.recordedChecksum m.version = some (checksum m.sql)
  builds : h.builds.length ≤ 1
  marked : h.builds ≠ [] →
    h.file.metaTable "vector_schema_version" = some VECTOR_SCHEMA_VERSION

end

/-- In a list without repetition, the element after a prefix comes next for another prefix
that has all of the first and lacks the element. -/
theorem prefix_concat_of_subset {α : Type*} {a b l : List α} {x : α} (hNodup : l.Nodup)
    (ha : a <+: l) (hb : b ++ [x] <+: l) (hSub : b ⊆ a) (hx : x ∉ a) : a ++ [x] <+: l := by
  have hab : a = b := by
    rcases prefix_or_prefix_of_prefix ha hb with hShort | hLong
    · rcases prefix_concat_iff.mp hShort with hEq | hShort
      · rw [hEq] at hx
        simp at hx
      · have hLen : b.length ≤ a.length :=
          ((hNodup.sublist ((prefix_append b [x]).trans hb).sublist).subperm hSub).length_le
        exact hShort.eq_of_length_le hLen
    · exact absurd (hLong.subset (by simp)) hx
  rw [hab]
  exact hb

section

variable {ι : Type*} {checksum : String → String} {opener : ι → Opener} {before : List Migration}
  {versions : List Nat} {h : History ι}

section

variable (hVersions : versions.Pairwise (· < ·))
  (hBuilds : ∀ i migs, discover (opener i).files = .ok migs →
    migs.map Migration.version <+: versions)
  (hc : Consistent checksum opener before versions h)

include hc

theorem Consistent.recordedChecksum_none :
    h.file.recordedChecksum version = none ↔
      version ∉ (h.applied before).map Migration.version := by
  rw [File.recordedChecksum, Option.map_eq_none_iff, find?_eq_none, hc.ledger]
  simp only [mem_map, decide_eq_true_eq]
  constructor
  · rintro hNone ⟨m, hm, hEq⟩
    exact hNone (m.record checksum) ⟨m, hm, rfl⟩ hEq
  · rintro hNone r ⟨m, hm, rfl⟩ hEq
    exact hNone ⟨m, hm, hEq⟩

theorem Consistent.mem_of_recorded {sum : String}
    (hRec : h.file.recordedChecksum version = some sum) :
    version ∈ (h.applied before).map Migration.version := by
  by_contra hMem
  rw [hc.recordedChecksum_none.mpr hMem] at hRec
  cases hRec

include hVersions hBuilds

/-- Executing the next migration of an opener keeps the versions in order. -/
theorem Consistent.order_execute {i : ι}
    (hReached : (opener i).Reached checksum h.file (.applying m rest))
    (hNone : h.file.recordedChecksum m.version = none) :
    (h.applied before).map Migration.version ++ [m.version] <+: versions := by
  obtain ⟨done, hMigs, hKnown⟩ := hReached
  have hPrefix : done.map Migration.version ++ [m.version] <+: versions := by
    refine List.IsPrefix.trans ?_ (hBuilds i _ hMigs)
    rw [map_append, map_cons]
    exact ⟨rest.map Migration.version, by simp⟩
  refine prefix_concat_of_subset (hVersions.imp Nat.ne_of_lt) hc.order hPrefix ?_
    (hc.recordedChecksum_none.mp hNone)
  intro v hv
  obtain ⟨m', hm', rfl⟩ := mem_map.mp hv
  exact hc.mem_of_recorded (hKnown m' hm')

omit hVersions hBuilds hc

/-- What an opener has executed, and all it has before that, is in the ledger as it has it. -/
theorem own_execute {i : ι}
    (hReached : (opener i).Reached checksum f (.applying m rest)) (hGrows : Grows f f')
    (hm : f'.recordedChecksum m.version = some (checksum m.sql)) :
    ∃ migs, discover (opener i).files = .ok migs ∧ m ∈ migs ∧
      ∀ m' ∈ migs, m'.version ≤ m.version →
        f'.recordedChecksum m'.version = some (checksum m'.sql) := by
  obtain ⟨done, hMigs, hKnown⟩ := hReached
  refine ⟨done ++ m :: rest, hMigs, by simp, ?_⟩
  intro m' hMem hLe
  rcases mem_done_of_le (discover_ascending hMigs) hMem hLe with hDone | hEq
  · exact hKnown.mono hGrows m' hDone
  · rw [hEq]
    exact hm

theorem applied_after (i : ι) (out : Outcome) :
    (h.after i out).applied before = h.applied before ++ out.executed.toList := by
  unfold History.after History.applied
  cases out.executed <;> simp

include hVersions hBuilds

theorem Consistent.after (hc : Consistent checksum opener before versions h) {i : ι}
    (hReached : (opener i).Reached checksum h.file phase)
    (hOut : out.Faithful checksum h.file phase) :
    Consistent checksum opener before versions (h.after i out) := by
  refine ⟨?_, ?_, ?_, ?_, ?_⟩
  · rw [applied_after, map_append, ← hc.ledger]
    show out.file.records = _
    rw [hOut.ledger]
    cases out.executed <;> rfl
  · rw [applied_after]
    cases hExec : out.executed with
    | none =>
      rw [Option.toList_none, append_nil]
      exact hc.order
    | some m =>
      obtain ⟨hNone, rest, rfl⟩ := hOut.executed m hExec
      rw [Option.toList_some, map_append]
      exact hc.order_execute hVersions hBuilds hReached hNone
  · intro e he
    rcases mem_append.mp he with hOld | hNew
    · obtain ⟨migs, hMigs, hMem, hOwn⟩ := hc.own e hOld
      exact ⟨migs, hMigs, hMem,
        fun m hm hLe => hOut.grows.recordedChecksum (hOwn m hm hLe)⟩
    · cases hExec : out.executed with
      | none =>
        rw [hExec] at hNew
        cases hNew
      | some m =>
        rw [hExec] at hNew
        obtain rfl := mem_singleton.mp hNew
        obtain ⟨hNone, rest, rfl⟩ := hOut.executed m hExec
        have hLedger := hOut.ledger
        rw [hExec] at hLedger
        exact own_execute hReached hOut.grows (recordedChecksum_executed hNone hLedger)
  · cases hBuilt : out.built with
    | false => simpa [History.after, hBuilt] using hc.builds
    | true =>
      -- the marker was not there, so nobody had built the table
      have hNil : h.builds = [] := by
        by_contra hSome
        exact (hOut.built hBuilt).1 (hc.marked hSome)
      simp [History.after, hNil, hBuilt]
  · intro hSome
    show out.file.metaTable _ = _
    cases hBuilt : out.built with
    | false =>
      have hOld : h.builds ≠ [] := by simpa [History.after, hBuilt] using hSome
      exact hOut.grows.kept _ _ (.inr (.inr (.inr ⟨rfl, rfl⟩))) (hc.marked hOld)
    | true => exact (hOut.built hBuilt).2

/-- The rely/guarantee step: a turn keeps the file consistent, only lets it grow, and leaves
the opener knowing what its phase needs. -/
theorem move_keeps (i : ι) (turn : Turn) (h : History ι) (phase : Phase)
    (hc : Consistent checksum opener before versions h)
    (hReached : (opener i).Reached checksum h.file phase) :
    Consistent checksum opener before versions (move checksum opener i turn h phase).1 ∧
      Grows h.file (move checksum opener i turn h phase).1.file ∧
      (opener i).Reached checksum (move checksum opener i turn h phase).1.file
        (move checksum opener i turn h phase).2 := by
  cases turn with
  | advance =>
    have hOut := (opener i).advance_faithful checksum h.file phase
    exact ⟨hc.after hVersions hBuilds hReached hOut, hOut.grows, Opener.advance_reached hReached⟩
  | stop =>
    cases phase with
    | opened site | failed e => exact ⟨hc, .refl _, hReached⟩
    | _ => exact ⟨hc, .refl _, trivial⟩

end

/-- The database is initialised once, whoever does it. -/
structure InitialisedOnce [DecidableEq ι] (checksum : String → String) (opener : ι → Opener)
    (before : List Migration) (w : World ι (History ι) Phase) : Prop where
  /-- No version is executed twice, nor after a later one. -/
  ascending : ((w.shared.applied before).map Migration.version).Pairwise (· < ·)
  /-- Every version of an opener that succeeded has been executed, once. -/
  executed_once : ∀ i site, w.party i = .opened site →
    ∃ migs, discover (opener i).files = .ok migs ∧
      ∀ m ∈ migs, ((w.shared.applied before).map Migration.version).count m.version = 1
  ledger : w.shared.file.records =
    (w.shared.applied before).map (Migration.record checksum)
  /-- An opener with another file for a recorded version executes neither that version nor a
  later one, and does not succeed. -/
  mismatch : ∀ i migs m recorded, discover (opener i).files = .ok migs → m ∈ migs →
    w.shared.file.recordedChecksum m.version = some recorded → recorded ≠ checksum m.sql →
    (∀ e ∈ w.shared.executed, e.1 = i → e.2.version < m.version) ∧
      ∀ site, w.party i ≠ .opened site
  /-- When it looks, it fails and leaves everything as it is. -/
  mismatch_fails : ∀ i m rest recorded,
    w.party i = .checking (m :: rest) ∨ w.party i = .applying m rest →
    w.shared.file.recordedChecksum m.version = some recorded → recorded ≠ checksum m.sql →
    (∃ message, (w.step (move checksum opener) (i, .advance)).party i =
        .failed (.migration message)) ∧
      (w.step (move checksum opener) (i, .advance)).shared = w.shared
  vectors : w.shared.builds.length ≤ 1
  /-- Openers that succeed agree. -/
  agree : ∀ i j siteI siteJ, w.party i = .opened siteI → w.party j = .opened siteJ →
    siteI = siteJ ∧ (opener i).embeddingDim = (opener j).embeddingDim ∧
      ∀ a b, (opener i).embeddingModel = some a → (opener j).embeddingModel = some b → a = b

variable {i j : ι} {siteI siteJ : Text}

/-- Whoever has opened the file agrees on its markers. -/
theorem opened_agree {f : File} (hi : (opener i).Reached checksum f (.opened siteI))
    (hj : (opener j).Reached checksum f (.opened siteJ)) :
    siteI = siteJ ∧ (opener i).embeddingDim = (opener j).embeddingDim ∧
      ∀ a b, (opener i).embeddingModel = some a → (opener j).embeddingModel = some b → a = b := by
  refine ⟨?_, ?_, ?_⟩
  · exact Option.some.inj (hi.2.symm.trans hj.2)
  · obtain ⟨v, hv, hParse⟩ := hi.1.dim
    obtain ⟨v', hv', hParse'⟩ := hj.1.dim
    rw [hv] at hv'
    cases hv'
    exact Option.some.inj (hParse.symm.trans hParse')
  · intro a b ha hb
    exact Option.some.inj ((hi.1.model a ha).symm.trans (hj.1.model b hb))

/-- A binary with another text of a migration never comes to open. -/
theorem Consistent.mismatch (hc : Consistent checksum opener before versions h)
    (hMigs : discover (opener i).files = .ok migs) (hm : m ∈ migs)
    (hRec : h.file.recordedChecksum m.version = some recorded) (hNe : recorded ≠ checksum m.sql) :
    ∀ e ∈ h.executed, e.1 = i → e.2.version < m.version := by
  rintro e he rfl
  obtain ⟨migs', hMigs', _, hOwn⟩ := hc.own e he
  rw [hMigs] at hMigs'
  cases hMigs'
  by_contra hLe
  have hSame := hOwn m hm (by omega)
  rw [hRec] at hSame
  exact hNe (Option.some.inj hSame)

theorem verifyRecordedChecksum_ne (hNe : recorded ≠ checksum m.sql) :
    ∃ message, verifyRecordedChecksum checksum m recorded = .error (.migration message) := by
  unfold verifyRecordedChecksum
  rw [if_neg hNe]
  exact ⟨_, rfl⟩

/-- Looking at a record with another checksum, optimistically or in the transaction, is a
failure that changes nothing. -/
theorem move_mismatch (hPhase : phase = .checking (m :: rest) ∨ phase = .applying m rest)
    (hRec : h.file.recordedChecksum m.version = some recorded) (hNe : recorded ≠ checksum m.sql) :
    ∃ message, move checksum opener i .advance h phase = (h, .failed (.migration message)) := by
  obtain ⟨message, hError⟩ := verifyRecordedChecksum_ne hNe
  refine ⟨message, ?_⟩
  have hSame : h.after i { file := h.file, phase := .failed (.migration message) } = h := by
    simp [History.after]
  have hOut : (opener i).advance checksum h.file phase =
      { file := h.file, phase := .failed (.migration message) } := by
    rcases hPhase with rfl | rfl
    · simp [Opener.advance, checkMigration, hRec, hError, Phase.andThen]
    · simp [Opener.advance, applyUnseen, hRec, hError, Phase.andThen]
  simp only [move, hOut, hSame]

/-- Every opener is about to open the file. -/
def opening (ι : Type*) (file : File) : World ι (History ι) Phase where
  shared := { file }
  party := fun _ => .starting

/-- Openers of builds whose versions are initial segments of one ascending list, on a file
that such a segment was applied to, or none: however their reads and transactions
interleave, and whoever breaks off, the database is initialised once. -/
theorem opens_initialise_once [DecidableEq ι] {file : File}
    (hVersions : versions.Pairwise (· < ·))
    (hBuilds : ∀ i migs, discover (opener i).files = .ok migs →
      migs.map Migration.version <+: versions)
    (hBefore : before.map Migration.version <+: versions)
    (hLedger : file.records = before.map (Migration.record checksum))
    (turns : List (ι × Turn)) :
    ∀ w ∈ Machine.states (World.step (move checksum opener)) (opening ι file) turns,
      InitialisedOnce checksum opener before w := by
  have hStart : Holds (Consistent checksum opener before versions)
      (fun i h => (opener i).Reached checksum h.file) (opening ι file) := by
    refine ⟨⟨?_, ?_, nofun, Nat.zero_le _, fun hSome => absurd rfl hSome⟩, fun _ => trivial⟩
    · simpa [opening, History.applied] using hLedger
    · simpa [opening, History.applied] using hBefore
  intro w hw
  obtain ⟨hc, hReached⟩ := always (move_keeps hVersions hBuilds)
    (fun _ _ _ _ hGrows h => h.mono hGrows) hStart turns w hw
  have hAscending : ((w.shared.applied before).map Migration.version).Pairwise (· < ·) :=
    hVersions.sublist hc.order.sublist
  have hOpen : ∀ {i site}, w.party i = .opened site →
      (opener i).Reached checksum w.shared.file (.opened site) := fun h => h ▸ hReached _
  refine ⟨hAscending, ?_, hc.ledger, ?_, ?_, hc.builds, ?_⟩
  · intro i site hOpened
    obtain ⟨migs, hMigs, hKnown⟩ := (hOpen hOpened).1.migrated
    refine ⟨migs, hMigs, ?_⟩
    intro m hm
    exact count_eq_one_of_mem (hAscending.imp Nat.ne_of_lt) (hc.mem_of_recorded (hKnown m hm))
  · intro i migs m recorded hMigs hm hRec hNe
    refine ⟨hc.mismatch hMigs hm hRec hNe, ?_⟩
    intro site hOpened
    obtain ⟨migs', hMigs', hKnown⟩ := (hOpen hOpened).1.migrated
    rw [hMigs] at hMigs'
    cases hMigs'
    have hSame := hKnown m hm
    rw [hRec] at hSame
    exact hNe (Option.some.inj hSame)
  · intro i m rest recorded hPhase hRec hNe
    obtain ⟨message, hMove⟩ : ∃ message, move checksum opener i .advance w.shared (w.party i) =
        (w.shared, .failed (.migration message)) := move_mismatch hPhase hRec hNe
    refine ⟨⟨message, ?_⟩, ?_⟩
    · show Function.update w.party i (move checksum opener i .advance _ _).2 i = _
      rw [Function.update_self, hMove]
    · show (move checksum opener i .advance _ _).1 = _
      rw [hMove]
  · exact fun i j siteI siteJ hi hj => opened_agree (hOpen hi) (hOpen hj)

end

/-! ## Two first openers -/

/-- Two openers of one build; the second binds no model. -/
def twoOpeners (first : Bool) : Opener where
  files := [⟨"002_links.sql", some "ALTER TABLE l"⟩, ⟨"001_schema.sql", some "CREATE TABLE m"⟩]
  embeddingDim := 384
  embeddingModel := if first then some ['m'] else none
  siteId := if first then ['a'] else ['b']

/-- A zero-byte file. -/
def emptyFile : File where
  ledger := none
  metaTable := fun _ => none
  vectorTable := none
  rowModels := []

/-- The openers move in turn; the second, with no model to verify, is first at the site id. -/
def alternating (n : Nat) : List (Bool × Turn) :=
  (List.range n).flatMap fun _ => [(true, .advance), (false, .advance)]

theorem opens_initialise_once_two :
    (∀ w ∈ Machine.states (World.step (move id twoOpeners)) (opening Bool emptyFile)
        (alternating 16), InitialisedOnce id twoOpeners [] w) ∧
      (((alternating 16).foldl (World.step (move id twoOpeners))
        (opening Bool emptyFile)).party true = .opened ['b']) ∧
      (((alternating 16).foldl (World.step (move id twoOpeners))
        (opening Bool emptyFile)).party false = .opened ['b']) := by
  have hBuild : ∀ i, discover (twoOpeners i).files =
      .ok [⟨1, "001_schema.sql", "CREATE TABLE m"⟩, ⟨2, "002_links.sql", "ALTER TABLE l"⟩] := by
    decide +kernel
  refine ⟨?_, by decide +kernel, by decide +kernel⟩
  have hVersions : [1, 2].Pairwise (· < ·) := by decide
  have hNone : ([] : List Migration).map Migration.version <+: [1, 2] := nil_prefix
  refine opens_initialise_once hVersions ?_ hNone rfl _
  intro i migs hMigs
  rw [hBuild] at hMigs
  cases hMigs
  exact prefix_rfl

end RustyBrain.Store.Lifecycle
