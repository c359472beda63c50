import Vyrn.Engine.Counters
import Vyrn.Engine.Recover

/-!
# A database — an engine with its files, over whole runs

The engine takes writes, snapshots, collections and replicated records; a checkpoint runs in its
three phases beside them and may fail at any point of the last one; a crash leaves the log and a
part of each tree file, at least what the last checkpoint synced, and the database is opened again.

Opening adopts the page that the last record names. That page is the one the record meant unless an
earlier opening redid the log and wrote a page of its own under that number, or the record is a
replica's, which names a page of the primary. `Database.Fits` rules these out, and `Holds` is what
every step then keeps: the engine holds the map that the log makes of the manifest's tree, no key is
both live and deleted in it, and the count of user keys is right.
-/

namespace Vyrn

open SortedMap List Mvcc

/-! ## The system -/

/-- An engine with its directory. The tree files of the manifest's generation are the ones the
    engine works on, unless a checkpoint failed between publishing its files and adopting them. Of
    both files a first part is on disk for good. -/
structure Database where
  engine : Engine
  manifest : TreeState
  unadopted : Option (Pages × Bytes)
  synced : Nat
  syncedValues : Nat
  job : Option CheckpointJob
  deriving DecidableEq, Repr

/-- The page file of the manifest's generation. -/
def Database.pages (db : Database) : Pages :=
  (db.unadopted.map Prod.fst).getD db.engine.tree.pages

/-- Its value log. -/
def Database.values (db : Database) : Bytes :=
  (db.unadopted.map Prod.snd).getD db.engine.tree.values

/-- What opening finds when `pages` pages and `values` bytes of values are left. -/
def Database.files (db : Database) (pages values : Nat) (revisions : Mvcc.State)
    (revisionValues : Bytes) : Files :=
  ⟨db.manifest, db.pages.take pages, db.values.take values, db.engine.wal, revisions,
    revisionValues⟩

/-- Where the last phase of a checkpoint fails. -/
inductive FailurePoint where
  | beforeManifestPublish
  | afterManifestPublish
  /-- The tree is adopted, the kept versions are not. -/
  | duringAdoption
  | afterTreeAdoption
  deriving DecidableEq, Repr

inductive Event where
  | perform (action : Action)
  /-- A batch of another writer: index definitions, documents, trims. -/
  | commit (operations : List BatchOperation) (indexes : List (Bytes × Bool))
  | replicate (record : WalRecord)
  | beginCheckpoint
  | compact
  | finishCheckpoint
  | failCheckpoint (point : FailurePoint)
  | reopen (options : EngineOptions) (pages values : Nat) (revisions : Mvcc.State)
      (revisionValues : Bytes)
  deriving DecidableEq, Repr

/-- The manifest names `tree`, whose files are synced. -/
def Database.publish (db : Database) (tree : PageTree) : Database :=
  { db with
    manifest := ⟨tree.root, tree.len, db.engine.lastLsn⟩
    synced := tree.pages.length
    syncedValues := tree.values.length
    job := none }

/-- What a checkpoint leaves that fails past its manifest; `after` is the engine it would have
    led to. -/
def Database.failPublished (db : Database) (after : Engine) : FailurePoint → Database
  | .beforeManifestPublish => { db with job := none }
  | .afterManifestPublish =>
    { db.publish after.tree with unadopted := some (after.tree.pages, after.tree.values) }
  | .duringAdoption =>
    { db.publish after.tree with
      engine := { db.engine with tree := after.tree }
      unadopted := none }
  | .afterTreeAdoption =>
    { db.publish after.tree with
      engine := { after with wal := db.engine.wal }
      unadopted := none }

def Database.theJob (db : Database) : Except Error CheckpointJob :=
  match db.job with
  | some job => .ok job
  | none => .error (.io "no checkpoint")

def Database.act (db : Database) : Event → Except Error Database
  | .perform action => do
    let engine ← db.engine.perform action
    return { db with engine := engine }
  | .commit operations indexes => do
    let (_, engine) ← db.engine.applyBatch operations
    return { db with engine := { engine with indexes := indexes } }
  | .replicate record => do
    let (_, engine) ← db.engine.applyReplicatedRecord record
    return { db with engine := engine }
  | .beginCheckpoint => do
    let job ← db.engine.beginCheckpoint
    return { db with job := some job }
  | .compact => do
    let job ← db.theJob
    let job ← job.compact db.engine.tree.pages db.engine.tree.values db.engine.wal
    return { db with job := some job }
  | .finishCheckpoint => do
    let job ← db.theJob
    let after ← db.engine.finishCheckpoint job
    return { db.publish after.tree with engine := after, unadopted := none }
  | .failCheckpoint point => do
    let job ← db.theJob
    if point = .beforeManifestPublish then return { db with job := none }
    let after ← db.engine.finishCheckpoint job
    return db.failPublished after point
  | .reopen options pages values revisions revisionValues => do
    let engine ← openWithOptions options (db.files pages values revisions revisionValues)
    return { db with engine := engine, unadopted := none, job := none }

/-- What a writer hands over: no tombstone, and no index definition that cannot be read. -/
def BatchOperation.Proper (operation : BatchOperation) : Prop :=
  operation.FromCaller ∧ operation.Defines

/-- What can happen: writers hand over proper operations, a replica's records come from a primary
    one after the other, and a crash keeps what was synced. The phases of a checkpoint are events of
    their own. -/
@[reducible] def Database.Allows (db : Database) : Event → Prop
  | .perform action => action ≠ .checkpoint
  | .commit operations _ => ∀ operation ∈ operations, operation.Proper
  | .replicate record => record.lsn = db.engine.lastLsn + 1 ∧ record.Valid ∧
      ∀ operation ∈ record.operations, operation.Proper
  | .reopen _ pages values _ _ => db.synced ≤ pages ∧ db.syncedValues ≤ values
  | _ => True

/-- A call that may be refused and then leaves a residue. -/
def Event.isWrite : Event → Bool
  | .perform _ | .commit _ _ => true
  | _ => false

inductive Database.Step (db : Database) (event : Event) : Database → Prop where
  | done {after : Database} : db.Allows event → db.act event = .ok after → Step db event after
  | refused {error : Error} {after : Engine} : event.isWrite = true → db.act event = .error error →
      Residue db.engine after → Step db event { db with engine := after }

/-! ## The condition -/

/-- The records that the manifest's tree lacks. -/
def Database.beyond (db : Database) : List WalRecord :=
  db.engine.wal.filter (fun record => db.manifest.lsn < record.lsn)

/-- When the database is opened, the last record beyond the manifest names the root of the tree
    that the engine had, with nothing in the buffer and no value lost, or what is left of the files
    has no tree of the named length there. -/
@[reducible] def Database.Fits (db : Database) : Event → Prop
  | .reopen _ pages values _ _ => ∀ record ∈ db.beyond.getLast?,
      (db.unadopted = none ∧ record.root = db.engine.tree.root ∧ record.len = db.engine.tree.len ∧
        db.engine.writeBack.all Overlay.isEmpty = true ∧ db.values.length ≤ values) ∨
      namesTree (db.pages.take pages) (db.values.take values) record = false
  | _ => True

/-! ## The invariant -/

/-- The manifest's tree lies in the synced part of its files and holds `base`. -/
structure Published (manifest : TreeState) (pages : Pages) (values : Bytes)
    (synced syncedValues : Nat) (base : Rows) : Prop where
  tree : ∃ depth, Denotes true
    ⟨pages.take synced, values.take syncedValues, manifest.root, manifest.len⟩ depth base
  pagesLe : synced ≤ pages.length
  valuesLe : syncedValues ≤ values.length
  front : ValueLog.Whole (values.take syncedValues)
  whole : ValueLog.Whole values
  tidy : Tidy base
  defined : Defined base

/-- The database holds the map `rows`: the engine serves it, with `treeRows` in the tree, and the
    log leads to it from `base`, the map of the manifest's tree. -/
structure Holds (db : Database) (levels : Nat) (base treeRows rows : Rows) :
    Prop where
  serves : Serves true db.engine levels rows
  denotes : Denotes true db.engine.tree levels treeRows
  caught : Caught db.engine treeRows rows
  mvcc : WellFormed db.engine.mvcc db.engine.mvccValues
  healthy : db.engine.poisoned = false
  tidy : Tidy rows
  defined : Defined rows
  count : db.engine.userLen = (userRows rows).length
  proper : ∀ record ∈ db.engine.wal, ∀ operation ∈ record.operations, operation.Proper
  published : Published db.manifest db.pages db.values db.synced db.syncedValues base
  leads : Leads db.engine db.manifest.lsn base rows
  job : ∀ job ∈ db.job, Follows db.engine job rows

/-- The database holds some map, to which the log leads from `base`. -/
def Database.HoldsOver (db : Database) (base : Rows) : Prop :=
  ∃ levels treeRows rows, Holds db levels base treeRows rows

def Database.Consistent (db : Database) : Prop := ∃ base, db.HoldsOver base

/-- What a write does to the log and to the named tree: nothing, or it commits one record. -/
def Advances (before after : Engine) : Prop :=
  (after.wal = before.wal ∧ after.writeBack = before.writeBack ∧
      after.tree.root = before.tree.root ∧ after.tree.len = before.tree.len ∧
      Grows before.tree after.tree) ∨
    ∃ operations, Logged operations before after

variable {operation : BatchOperation} {after engine before : Engine}
  {operations : List BatchOperation} {db : Database} {event : Event} {base : Rows}

theorem Advances.same (htree : after.tree = before.tree) (hwal : after.wal = before.wal)
    (hbuffer : after.writeBack = before.writeBack) : Advances before after :=
  .inl ⟨hwal, hbuffer, by rw [htree], by rw [htree], by rw [htree]; exact Grows.refl _⟩

/-! ## Files that grow -/

section Files

variable {db : Database} {levels : Nat} {base treeRows rows : Rows}

theorem Published.mono {manifest : TreeState} {pages pages' : Pages} {values values' : Bytes}
    {synced syncedValues : Nat} (h : Published manifest pages values synced syncedValues base)
    (hpages : pages <+: pages') (hvalues : values <+: values') (hwhole : ValueLog.Whole values') :
    Published manifest pages' values' synced syncedValues base := by
  have htake : pages'.take synced = pages.take synced := by
    obtain ⟨more, rfl⟩ := hpages
    exact take_append_of_le_length h.pagesLe
  have htake' : values'.take syncedValues = values.take syncedValues := by
    obtain ⟨more, rfl⟩ := hvalues
    exact take_append_of_le_length h.valuesLe
  refine ⟨?_, h.pagesLe.trans hpages.length_le, h.valuesLe.trans hvalues.length_le, ?_, hwhole,
    h.tidy, h.defined⟩
  · rw [htake, htake']
    exact h.tree
  · rw [htake']
    exact h.front

/-- The files of the manifest's generation stay a part of what they were. -/
theorem Published.grow (h : Published db.manifest db.pages db.values db.synced db.syncedValues base)
    (hgrows : Grows db.engine.tree after.tree) (hwhole : ValueLog.Whole after.tree.values) :
    Published db.manifest { db with engine := after }.pages { db with engine := after }.values
      db.synced db.syncedValues base := by
  cases hfiles : db.unadopted with
  | none =>
    rw [Database.pages, Database.values, hfiles] at h
    exact h.mono hgrows.pages hgrows.values hwhole
  | some =>
    rw [Database.pages, Database.values, hfiles] at h
    exact h

/-- What changes neither the map nor the log, but may add pages and values that nothing names. -/
theorem Holds.quiet (h : Holds db levels base treeRows rows)
    (hserves : Serves true after levels rows) (hden : Denotes true after.tree levels treeRows)
    (hgrows : Grows db.engine.tree after.tree) (hwal : after.wal = db.engine.wal)
    (hlast : after.lastLsn = db.engine.lastLsn)
    (habsorbed : after.writeBackAbsorbed = db.engine.writeBackAbsorbed)
    (hbuffer : after.writeBack = db.engine.writeBack)
    (hmvcc : WellFormed after.mvcc after.mvccValues)
    (hhealthy : after.poisoned = db.engine.poisoned) (hcount : after.userLen = db.engine.userLen) :
    Holds { db with engine := after } levels base treeRows rows :=
  ⟨hserves, hden, h.caught.congr hwal hlast habsorbed hbuffer, hmvcc, hhealthy.trans h.healthy,
    h.tidy, h.defined, hcount.trans h.count, fun record hrec => h.proper record (hwal ▸ hrec),
    h.published.grow hgrows hserves.whole, h.leads.congr hwal hlast,
    fun job hjob => (h.job job hjob).transfer hgrows (·.congr hwal hlast)⟩

/-- A checkpoint that starts, goes on or is given up changes nothing else. -/
theorem Holds.withJob (h : Holds db levels base treeRows rows) {job : Option CheckpointJob}
    (hjob : ∀ j ∈ job, Follows db.engine j rows) :
    Holds { db with job := job } levels base treeRows rows :=
  { h with job := hjob }

end Files

/-! ## Writes -/

section Writes

variable {db : Database} {levels : Nat} {base treeRows rows : Rows}
  {after : Engine}

/-- What a batch does: nothing, or it is accepted, logged and kept for the snapshots. -/
def Commits (before after : Engine) (levels : Nat) (rows : Rows)
    (operations combined : List BatchOperation) : Prop :=
  (replayAll (before.lastLsn + 1) rows combined = rows ∧
      ∃ possible, after = { before with tombstonesPossible := possible }) ∨
    (Accepts before rows operations combined ∧
      Reaches levels before.writeBack (wantedKeys before.tombstonesPossible combined) ∧
      Logged (effective (before.lastLsn + 1) rows combined) before after ∧
      Retains combined (effective (before.lastLsn + 1) rows combined) rows before after)

theorem Commits.advances {combined : List BatchOperation}
    (h : Commits before after levels rows operations combined) : Advances before after := by
  rcases h with ⟨_, possible, rfl⟩ | ⟨_, _, hlog, _⟩
  · exact Advances.same rfl rfl rfl
  · exact .inr ⟨_, hlog⟩

/-- **COMMIT**: a batch leads to the map of its operations, with at most the engine's own change
    record behind them, and answers about the map before it. -/
theorem Holds.applyBatch (h : Holds db levels base treeRows rows)
    (hproper : ∀ operation ∈ operations, operation.Proper) {results : List BatchResult}
    (hrun : db.engine.applyBatch operations = .ok (results, after)) :
    ∃ levels' treeRows' others,
      (∀ operation ∈ others, isInternal operation.key = true ∧ operation.FromCaller) ∧
      Holds { db with engine := after } levels' base treeRows'
        (replayAll (db.engine.lastLsn + 1) rows (operations ++ others)) ∧
      results = batchAnswers (db.engine.lastLsn + 1) rows operations ∧
      Commits db.engine after levels rows operations (operations ++ others) := by
  by_cases hne : operations = []
  · subst hne
    obtain ⟨_, _, hrun⟩ := bind_eq_ok.mp hrun
    cases hrun
    exact ⟨levels, treeRows, [], forall_mem_nil _, h, rfl, .inl ⟨rfl, _, rfl⟩⟩
  · obtain ⟨combined, hacc, hreach⟩ := accepts_of_applyBatch h.serves
      (fun operation hop => (hproper operation hop).1) hne hrun
    obtain ⟨_, _, levels', hrun', hserves, hwf, _, hcases⟩ :=
      applyBatch_serves h.serves h.mvcc hreach hacc
    cases hrun.symm.trans hrun'
    obtain ⟨hresults, hcount⟩ := applyBatch_tally h.serves hreach hacc hrun
    replace hcount := hcount h.count
    obtain ⟨others, rfl, hothers⟩ : ∃ others, combined = operations ++ others ∧
        ∀ operation ∈ others, isInternal operation.key = true ∧ operation.Proper := by
      rcases withChangeLog_cases hacc.changeLog with rfl | ⟨sequence, value, rfl⟩
      · exact ⟨[], (append_nil _).symm, forall_mem_nil _⟩
      · refine ⟨_, rfl, fun operation hop => ?_⟩
        rw [mem_singleton.mp hop]
        exact ⟨rfl, changeLogKey_fromCaller sequence value, defines_of_other rfl⟩
    have hall : ∀ operation ∈ operations ++ others, operation.Proper :=
      forall_mem_append.mpr ⟨hproper, fun operation hop => (hothers operation hop).2⟩
    have hown := fun operation hop => (hothers operation hop).imp_right And.left
    rcases hcases with ⟨hnil, possible, rfl⟩ | ⟨_, hlog, hretains⟩
    · -- nothing had an effect
      have hsame : replayAll (db.engine.lastLsn + 1) rows (operations ++ others) = rows := by
        rw [← replayAll_effective, hnil]
        rfl
      refine ⟨levels, treeRows, others, hown, ?_, hresults, .inl ⟨hsame, possible, rfl⟩⟩
      rw [hsame] at hserves ⊢
      obtain ⟨_, hden', _⟩ := hserves.holds
      obtain rfl := h.denotes.levels_unique hden'
      exact h.quiet hserves h.denotes (Grows.refl _) rfl rfl rfl rfl h.mvcc rfl rfl
    · obtain ⟨treeRows', hden', hcaught⟩ := caught_commit h.denotes h.caught
        (fun operation hop => hacc.valid operation (mem_of_mem_effective hop)) hacc.lsn hlog hserves
        (replayAll_effective _ _ _).symm
      obtain ⟨record, hwal, hrec, hops, _⟩ := hlog.wal
      have hrows : replayAll (db.engine.lastLsn + 1) rows record.operations
          = replayAll (db.engine.lastLsn + 1) rows (operations ++ others) := by
        rw [hops, replayAll_effective]
      refine ⟨levels', treeRows', others, hown, ⟨hserves, hden', hcaught, hwf,
        hlog.healthy.trans h.healthy, h.tidy.replayAll hacc.caller_combined,
        h.defined.replayAll (fun operation hop => (hall operation hop).2), hcount, ?_,
        h.published.grow hlog.grows hserves.whole, ?_, fun job hjob => ?_⟩, hresults,
        .inr ⟨hacc, hreach, hlog, hretains⟩⟩
      · rw [show Database.engine { db with engine := after } = after from rfl, hwal]
        refine forall_mem_append.mpr ⟨h.proper, forall_mem_singleton.mpr ?_⟩
        rw [hops]
        exact fun operation hop => hall operation (mem_of_mem_effective hop)
      · rw [← hrows]
        exact h.leads.append hwal hrec hlog.lsn
      · rw [← hrows]
        exact (h.job job hjob).transfer hlog.grows (·.append hwal hrec hlog.lsn)

/-- A writer may change the engine's map of indexes after its batch. -/
theorem Holds.withIndexes (h : Holds { db with engine := after } levels base treeRows rows)
    (indexes : List (Bytes × Bool)) :
    Holds { db with engine := { after with indexes := indexes } } levels base treeRows rows :=
  h.quiet (h.serves.congr rfl rfl rfl) h.denotes (Grows.refl _) rfl rfl rfl rfl h.mvcc rfl rfl

/-- A refused call leaves the map, the count and the files as they are. -/
theorem Holds.refused (h : Holds db levels base treeRows rows) (hres : Residue db.engine after) :
    Holds { db with engine := after } levels base treeRows rows := by
  have hserves := hres.serves h.serves
  obtain ⟨htree, hroot, hlen, _, hvalues, hrest⟩ := hres
  have hden := h.denotes.mono htree.pages htree.values hroot hlen
  rw [hrest] at hserves ⊢
  exact h.quiet hserves hden htree rfl rfl rfl rfl (h.mvcc.mono hvalues).1 rfl rfl

theorem proper_of_user (h : isInternal operation.key = false) : operation.Proper :=
  ⟨fromCaller_of_user h, defines_of_user h⟩

/-- An operation of a caller: on a user key, or on the entry of an update that the caller may
    make. -/
def BatchOperation.FromClient (operation : BatchOperation) : Prop :=
  isInternal operation.key = false ∨
    ∃ update : IndexUpdate, validateUserKey update.primaryKey = .ok () ∧
      update.Names operation.key

theorem BatchOperation.FromClient.proper (h : operation.FromClient) : operation.Proper := by
  rcases h with huser | ⟨update, _, hnames⟩
  · exact proper_of_user huser
  · obtain ⟨_, _, hkey⟩ := hnames
    exact ⟨(onEntry_of_key hkey).2, defines_of_other (by rw [hkey]; rfl)⟩

theorem fromClient_append {operations entries : List BatchOperation}
    (huser : ∀ operation ∈ operations, isInternal operation.key = false)
    (hentries : ∀ operation ∈ entries, ∃ update : IndexUpdate,
      validateUserKey update.primaryKey = .ok () ∧ update.Names operation.key) :
    ∀ operation ∈ operations ++ entries, operation.FromClient :=
  forall_mem_append.mpr ⟨fun operation hop => .inl (huser operation hop),
    fun operation hop => .inr (hentries operation hop)⟩

/-- **ACTIONS**: writes, snapshots and collections lead to a map that the log leads to. -/
theorem Holds.perform (h : Holds db levels base treeRows rows) {action : Action}
    (hphases : action ≠ .checkpoint) (hrun : db.engine.perform action = .ok after) :
    Database.HoldsOver { db with engine := after } base ∧ Advances db.engine after := by
  rcases perform_ok hrun with
    ⟨entries, results, huser, hentries, happly⟩ | ⟨active, shared, rfl, _⟩ | rfl | ⟨hjob, _⟩
  · obtain ⟨levels', treeRows', _, _, hholds, _, hcommits⟩ := h.applyBatch (fun operation hop =>
      (fromClient_append huser hentries operation hop).proper) happly
    exact ⟨⟨levels', treeRows', _, hholds⟩, hcommits.advances⟩
  · -- the registries of snapshots are of no consequence for the map
    exact ⟨⟨levels, treeRows, rows, h.quiet (h.serves.congr rfl rfl rfl) h.denotes (Grows.refl _)
      rfl rfl rfl rfl h.mvcc rfl rfl⟩, Advances.same rfl rfl rfl⟩
  · exact ⟨⟨levels, treeRows, rows, h.quiet (h.serves.congr rfl rfl rfl) h.denotes (Grows.refl _)
      rfl rfl rfl rfl (collectVersions_wellFormed h.mvcc) rfl rfl⟩, Advances.same rfl rfl rfl⟩
  · exact absurd hjob hphases

end Writes

/-! ## Replicated records -/

section Replicated

variable {lsn : Nat} {rows : Rows}

/-- Valid operations on stored rows leave stored rows. -/
theorem storable_replayAll (hlsn : lsn < 256 ^ 8)
    (hvalid : ∀ operation ∈ operations, operation.Valid) (h : ∀ row ∈ rows, Storable row.2) :
    ∀ row ∈ replayAll lsn rows operations, Storable row.2 := by
  intro row hrow
  rcases mem_replayAll hrow with hrow | ⟨hrev, hput | ⟨_, _, _, hempty⟩⟩
  · exact h row hrow
  · obtain ⟨_, _, hvalue⟩ := bind_eq_ok.mp (hvalid _ hput)
    exact ⟨hrev ▸ hlsn, validateValue_ok hvalue⟩
  · exact ⟨hrev ▸ hlsn, by rw [hempty]; exact Nat.zero_le _⟩

/-- Only a delete that finds a user key leaves the first tombstone. -/
theorem tombless_replayed (hcaller : operation.FromCaller)
    (hquiet : ((HasEffect rows operation && !isInternal operation.key) && operation.isDelete)
      = false) (h : ∀ key, lookup (tombstoneKey key) rows = none) (key : Bytes) :
    lookup (tombstoneKey key) (replayed lsn rows operation) = none := by
  cases operation with
  | put k =>
    have hne : tombstoneKey key ≠ k := (ne_tombstoneKey hcaller key).symm
    rw [replayed]
    split_ifs
    · rw [lookup_put, if_neg hne, h]
    · rw [lookup_erase, lookup_put, if_neg hne, h]
      split_ifs
      · rfl
      · rfl
  | delete k =>
    have hne : tombstoneKey key ≠ k := (ne_tombstoneKey hcaller key).symm
    rw [replayed]
    split_ifs with hlive hint
    · rw [lookup_erase, if_neg hne, h]
    · simp [HasEffect, BatchOperation.key, BatchOperation.isDelete, hlive, hint] at hquiet
    · exact h key

/-- A replica notes the first tombstone. -/
theorem replicatedOperations_tombless {ordered : Bool} (hlsn : lsn < 256 ^ 8)
    (hvalid : ∀ operation ∈ operations, operation.Valid)
    (hcaller : ∀ operation ∈ operations, operation.FromCaller) {tree tree' : PageTree}
    {possible possible' : Bool} {levels : Nat} (ht : Denotes ordered tree levels rows)
    (h : possible = false → ∀ key, lookup (tombstoneKey key) rows = none)
    (hrun : replicatedOperations lsn tree possible operations = .ok (tree', possible'))
    (hfalse : possible' = false) :
    ∀ key, lookup (tombstoneKey key) (replayAll lsn rows operations) = none := by
  induction operations generalizing tree tree' possible possible' levels rows with
  | nil =>
    cases hrun
    exact h hfalse
  | cons operation rest ih =>
    rw [forall_mem_cons] at hcaller hvalid
    have hop := hcaller.1
    have hop' := hvalid.1
    obtain ⟨⟨_, middle⟩, hmain, hrun⟩ := bind_eq_ok.mp hrun
    obtain ⟨_, depth, hmain', _, hden⟩ :=
      replayMain_denotes ht (replayMain_shallow ht hmain) hlsn hop'
    cases hmain.symm.trans hmain'
    have hrows := @replayed_eq rows lsn operation
    show ∀ key, lookup (tombstoneKey key)
      (replayAll lsn (replayed lsn rows operation) rest) = none
    dsimp only at hrun
    by_cases htomb : (HasEffect rows operation && !isInternal operation.key) = true
    · rw [if_pos htomb] at hrun hrows
      obtain ⟨after, hstep, hrun⟩ := bind_eq_ok.mp hrun
      obtain ⟨_, _, hstep', _, hden'⟩ :=
        replayTombstone_denotes hden (replayTombstone_shallow hden hstep) hlsn hop'
      cases hstep.symm.trans hstep'
      rw [← hrows] at hden'
      refine ih hvalid.2 hcaller.2 hden' (fun hnone => ?_) hrun hfalse
      obtain ⟨hpossible, hdelete⟩ := Bool.or_eq_false_iff.mp hnone
      exact tombless_replayed hop (by rw [hdelete, Bool.and_false]) (h hpossible)
    · rw [if_neg htomb] at hrun hrows
      rw [← hrows] at hden
      refine ih hvalid.2 hcaller.2 hden (fun hnone => ?_) hrun hfalse
      exact tombless_replayed hop (by rw [Bool.eq_false_iff.mpr htomb, Bool.false_and]) (h hnone)

/-- **REPLICA**: a record from the primary leads to the map of its operations. -/
theorem Holds.replicate {levels : Nat} {treeRows : Rows} (h : Holds db levels base treeRows rows)
    {record : WalRecord} (hnext : record.lsn = db.engine.lastLsn + 1) (hvalid : record.Valid)
    (hproper : ∀ operation ∈ record.operations, operation.Proper)
    (hrun : db.engine.applyReplicatedRecord record = .ok (lsn, after)) :
    ∃ levels' treeRows', Holds { db with engine := after } levels' base treeRows'
      (replayAll record.lsn rows record.operations) := by
  have hcaller := fun operation hop => (hproper operation hop).1
  have hreplay := (applyReplicatedRecord_form hrun).2.1
  obtain ⟨_, _, hrun⟩ := bind_eq_ok.mp hrun
  dsimp only at hrun
  split_ifs at hrun with hbuffer hexpected
  have hbuf : db.engine.writeBack = none := Option.not_isSome_iff_eq_none.mp hbuffer
  obtain ⟨⟨tree, possible⟩, hloop, hrun⟩ := bind_eq_ok.mp hrun
  obtain ⟨count, hcount, hrun⟩ := bind_eq_ok.mp hrun
  cases hrun
  obtain ⟨mine, hden, hover⟩ := h.serves.holds
  rw [hbuf, overlaid_none] at hover
  subst hover
  obtain ⟨⟨levels', hgrows, hden'⟩, _⟩ := replayOperations_of_ok hvalid.1 hvalid.2 hden hreplay
  dsimp only at hcount hden' hgrows
  have hd := hden'.within_of_count hcount
  rw [countExcluding_denotes hden' hd] at hcount
  have hstorable := storable_replayAll hvalid.1 hvalid.2 h.serves.storable
  have hwhole := hgrows.whole h.serves.whole
  obtain ⟨hall, hsorted, hbounded⟩ := @Caught.append _ { db.engine with
    tree := tree
    tombstonesPossible := possible
    wal := db.engine.wal ++ [record]
    lastLsn := record.lsn
    userLen := count } _ _ record h.caught rfl hnext hnext hvalid
  refine ⟨levels', _, ⟨serves_of_empty hden' (fun b hb => nomatch hbuf.symm.trans hb)
      (replicatedOperations_tombless hvalid.1 hvalid.2 hcaller hden h.serves.tombless hloop)
      hwhole hstorable, hden', caught_whole hall hsorted hbounded ?_ hstorable, h.mvcc, h.healthy,
    h.tidy.replayAll hcaller, h.defined.replayAll (fun operation hop => (hproper operation hop).2),
    (Except.ok.inj hcount).symm,
    forall_mem_append.mpr ⟨h.proper, forall_mem_singleton.mpr hproper⟩,
    h.published.grow hgrows hwhole, ?_, fun job hjob => ?_⟩⟩
  · rw [Engine.snapshotLsn, hbuf]
    rfl
  · rw [hnext]
    exact h.leads.append rfl hnext rfl
  · rw [hnext]
    exact (h.job job hjob).transfer hgrows (·.append rfl hnext rfl)

end Replicated

/-! ## Checkpoints -/

section Checkpoints

variable {db : Database} {levels : Nat} {base treeRows rows : Rows}
  {job : CheckpointJob}

/-- A tree all of whose files are synced. -/
theorem published_whole {tree : PageTree} {depth : Nat} (hden : Denotes true tree depth rows)
    (hwhole : ValueLog.Whole tree.values) (htidy : Tidy rows) (hdefined : Defined rows)
    (lsn : Nat) : Published ⟨tree.root, tree.len, lsn⟩ tree.pages tree.values tree.pages.length
      tree.values.length rows := by
  refine ⟨⟨depth, ?_⟩, le_rfl, le_rfl, ?_, hwhole, htidy, hdefined⟩
  · rw [take_length, take_length]
    exact hden
  · rw [take_length]
    exact hwhole

theorem theJob_ok (h : db.theJob = .ok job) : db.job = some job := by
  rw [Database.theJob] at h
  cases hjob : db.job with
  | none =>
    rw [hjob] at h
    cases h
  | some =>
    rw [hjob] at h
    cases h
    rfl

section

variable (h : Holds db levels base treeRows rows) (hjob : db.job = some job)
  (hrun : db.engine.finishCheckpoint job = .ok after)
include h hjob hrun

/-- **FINISH**: a checkpoint that succeeds keeps the map, and the manifest's tree holds it. -/
theorem Holds.finishCheckpoint :
    ∃ levels', Holds { db.publish after.tree with engine := after, unadopted := none } levels' rows
      rows rows ∧ after.wal = [] := by
  obtain ⟨levels', tree, state, values, rfl, hden, hserves, hwf, _⟩ :=
    finishCheckpoint_serves h.serves h.caught h.mvcc (h.job job hjob) hrun
  exact ⟨levels', ⟨hserves, hden, caught_whole nofun Pairwise.nil nofun
      (snapshotLsn_of_absorbed rfl) h.serves.storable, hwf, h.healthy, h.tidy, h.defined, h.count, nofun,
    published_whole hden hserves.whole h.tidy h.defined _,
    leads_whole nofun h.serves.storable, nofun⟩, rfl⟩

/-- **FAILURE**: a checkpoint that fails in its last phase keeps the map, wherever it fails. Past
    the manifest the named tree holds the map. -/
theorem Holds.failCheckpoint (point : FailurePoint) :
    ∃ levels' base' treeRows', Holds (db.failPublished after point) levels' base' treeRows' rows ∧
      ((base' = base ∧ (db.failPublished after point).manifest = db.manifest) ∨
        (base' = rows ∧ (db.failPublished after point).manifest.lsn = db.engine.lastLsn)) := by
  obtain ⟨levels', tree, state, values, rfl, hden, hserves, hwf, _⟩ :=
    finishCheckpoint_serves h.serves h.caught h.mvcc (h.job job hjob) hrun
  have hpublished := published_whole hden hserves.whole h.tidy h.defined db.engine.lastLsn
  have hleads : Leads db.engine db.engine.lastLsn rows rows :=
    leads_whole h.caught.bounded h.serves.storable
  cases point with
  | beforeManifestPublish =>
    exact ⟨levels, base, treeRows, h.withJob (by rintro _ ⟨⟩), .inl ⟨rfl, rfl⟩⟩
  | afterManifestPublish =>
    -- the engine works on in its old files
    exact ⟨levels, rows, treeRows, { h with
        published := hpublished
        leads := hleads
        job := by rintro _ ⟨⟩ }, .inr ⟨rfl, rfl⟩⟩
  | duringAdoption =>
    -- the tree has everything, and the buffer and the log are replayed onto it once more
    obtain ⟨mine, hmine, hover⟩ := h.serves.holds
    have hagain : rows = overlaid rows db.engine.writeBack := by
      rw [hover, overlaid, overlaid, updateAll_twice hmine.sorted]
    have hcaught : Caught { db.engine with tree := tree } rows rows := by
      refine ⟨h.caught.valid, h.caught.sorted, h.caught.bounded, h.caught.absorbed,
        h.serves.storable, ?_⟩
      have htwice := @replayLog_twice
        (db.engine.wal.filter (fun record => db.engine.snapshotLsn < record.lsn)) treeRows
        h.denotes.sorted (fun record hrec operation hop =>
          (h.proper record (mem_of_mem_filter hrec) operation hop).1)
      rw [← h.caught.leads] at htwice
      exact htwice.symm
    exact ⟨levels', rows, rows, ⟨⟨⟨rows, hden, hagain⟩, h.serves.buffered, h.serves.tombless,
      hserves.whole, h.serves.storable⟩, hden, hcaught, h.mvcc, h.healthy, h.tidy, h.defined,
      h.count, h.proper, hpublished, hleads.congr rfl rfl, by rintro _ ⟨⟩⟩,
      .inr ⟨rfl, rfl⟩⟩
  | afterTreeAdoption =>
    exact ⟨levels', rows, rows, ⟨hserves.congr rfl rfl rfl, hden,
      caught_whole h.caught.valid h.caught.sorted h.caught.bounded (snapshotLsn_of_absorbed rfl)
        h.serves.storable, hwf, h.healthy, h.tidy, h.defined, h.count, h.proper, hpublished, hleads.congr rfl rfl,
      by rintro _ ⟨⟩⟩, .inr ⟨rfl, rfl⟩⟩

end

end Checkpoints

/-! ## Opening again -/

section Reopen

variable {db : Database} {levels pages values : Nat} {base treeRows rows : Rows}
  {options : EngineOptions} {revisions : State} {revisionValues : Bytes}

/-- What is left of the files still holds the manifest's tree. -/
theorem Published.cut (h : Published db.manifest db.pages db.values db.synced db.syncedValues base)
    (hpages : db.synced ≤ pages) (hvalues : db.syncedValues ≤ values) :
    ∃ kept, ValueLog.recoverTail (db.values.take values) = .ok kept ∧
      (db.values.length ≤ values → kept = db.values) ∧
      Published db.manifest (db.pages.take pages) kept db.synced db.syncedValues base := by
  have hlen : (db.values.take db.syncedValues).length = db.syncedValues :=
    length_take_of_le h.valuesLe
  obtain ⟨kept, htail, hwhole, hfront, _⟩ :=
    h.whole.cut h.front (List.take_prefix _ _) (hlen.trans_le hvalues)
  have hkept : kept.take db.syncedValues = db.values.take db.syncedValues := by
    obtain ⟨more, rfl⟩ := hfront
    nth_rewrite 1 [← hlen]
    exact take_left
  have htake : (db.pages.take pages).take db.synced = db.pages.take db.synced := by
    rw [take_take, min_eq_left hpages]
  refine ⟨kept, htail, fun hall => ?_, ?_, ?_, ?_, ?_, hwhole, h.tidy, h.defined⟩
  · rw [take_of_length_le hall, h.whole.recoverTail] at htail
    exact (Except.ok.inj htail).symm
  · rw [htake, hkept]
    exact h.tree
  · rw [length_take]
    exact le_min hpages h.pagesLe
  · rw [← hlen]
    exact hfront.length_le
  · rw [hkept]
    exact h.front

section

variable (h : Holds db levels base treeRows rows)
  (hallows : db.synced ≤ pages ∧ db.syncedValues ≤ values)
  (hfits : db.Fits (.reopen options pages values revisions revisionValues))
include h hallows hfits

/-- **LEFT**: what a crash that meets the condition leaves of the files holds the manifest's tree,
    and under the root that the last record names it holds the engine's tree or none. -/
theorem Holds.left :
    ∃ kept depth, ValueLog.recoverTail (db.values.take values) = .ok kept ∧
      Published db.manifest (db.pages.take pages) kept db.synced db.syncedValues base ∧
      Denotes true ⟨db.pages.take pages, kept, db.manifest.root, db.manifest.len⟩ depth base ∧
      ∀ record ∈ db.beyond.getLast?,
        Denotes true ⟨db.pages.take pages, kept, record.root, record.len⟩ levels rows ∨
          namesTree (db.pages.take pages) (db.values.take values) record = false := by
  obtain ⟨kept, htail, hintact, hcut⟩ := h.published.cut hallows.1 hallows.2
  obtain ⟨depth, hfront⟩ := hcut.tree
  have hbase : Denotes true ⟨db.pages.take pages, kept, db.manifest.root, db.manifest.len⟩ depth
      base := hfront.mono (List.take_prefix _ _) (List.take_prefix _ _) rfl rfl
  obtain ⟨_, hsuper, _⟩ := id hbase
  refine ⟨kept, depth, htail, hcut, hbase, fun record hlast => ?_⟩
  rcases hfits record hlast with ⟨hadopted, hroot, hlen, hempty, hall⟩ | hlost
  · by_cases hlost : pages ≤ record.root
    · exact .inr (namesTree_beyond hsuper ((length_take_le _ _).trans hlost))
    · refine .inl ?_
      have hmine : Denotes true db.engine.tree levels rows := by
        obtain ⟨mine, hmine, rfl⟩ := h.serves.holds
        rw [overlaid_of_empty (fun b hb => ?_)]
        · exact hmine
        · rw [hb] at hempty
          exact isEmpty_iff.mp hempty
      have hpages : db.pages = db.engine.tree.pages := by rw [Database.pages, hadopted]; rfl
      have hvalues : db.values = db.engine.tree.values := by rw [Database.values, hadopted]; rfl
      rw [hintact hall, hpages, hvalues, hroot, hlen]
      exact hmine.cut (by rw [← hroot]; exact not_le.mp hlost)
  · exact .inr hlost

/-- **REOPEN**: opening after a crash that meets the condition leads to the map that was held. -/
theorem Holds.reopen
    (hrun : openWithOptions options (db.files pages values revisions revisionValues) = .ok engine) :
    ∃ levels', levels' ≤ maxTreeDepth ∧
      Holds { db with engine := engine, unadopted := none, job := none } levels' base rows rows := by
  obtain ⟨kept, depth, htail, hcut, hbase, hleft⟩ := h.left hallows hfits
  obtain ⟨tree, hrecover, _⟩ := bind_eq_ok.mp hrun
  obtain ⟨levels', hden, hpages, hvalues, hwhole⟩ := recoverTree_of_ok hbase htail
    h.leads.replay hleft h.caught.valid h.caught.sorted hcut.whole hrecover
  obtain ⟨hwal, hlast, habsorbed, hhealthy, hmvcc, _, _, hempty⟩ := openWithOptions_form hrun
  obtain ⟨hrecover', hd, hcount, htomb⟩ := openWithOptions_of_ok hrun (fun tree' hrecover' => by
    cases hrecover.symm.trans hrecover'
    exact hden)
  cases hrecover.symm.trans hrecover'
  obtain ⟨hmanifest, hbounded⟩ :=
    @recovered_lsn (db.files pages values revisions revisionValues) h.caught.sorted
  refine ⟨levels', hd, serves_of_empty hden hempty htomb hwhole h.serves.storable, hden, ?_, ?_,
    hhealthy, h.tidy, h.defined, hcount, ?_, hcut.mono hpages hvalues hwhole, ?_,
    nofun⟩
  · refine caught_whole ?_ ?_ ?_ (snapshotLsn_of_absorbed habsorbed) h.serves.storable
    · rw [hwal]
      exact h.caught.valid
    · rw [hwal]
      exact h.caught.sorted
    · rw [hwal, hlast]
      exact hbounded
  · dsimp only
    rw [hmvcc]
    exact (collect_none _ _ _).1
  · dsimp only
    rw [hwal]
    exact h.proper
  · refine ⟨?_, h.leads.storable, ?_⟩
    · dsimp only
      rw [hlast]
      exact hmanifest
    · dsimp only
      rw [hwal]
      exact h.leads.replay

end

end Reopen

/-! ## Runs -/

/-- **WRITE**: a write, also one that is refused, leads to a map that the log leads to from where
    it led before. -/
theorem Database.HoldsOver.write {after : Database} (h : db.HoldsOver base)
    (hwrite : event.isWrite = true) (hstep : db.Step event after) :
    after.HoldsOver base ∧ after = { db with engine := after.engine } ∧
      Advances db.engine after.engine := by
  obtain ⟨levels, treeRows, rows, h⟩ := h
  cases hstep with
  | refused _ _ hres =>
    refine ⟨⟨levels, treeRows, rows, h.refused hres⟩, rfl,
      .inl ⟨?_, ?_, hres.root, hres.len, hres.tree⟩⟩
    · rw [hres.rest]
    · rw [hres.rest]
  | done hallows hrun =>
    cases event with
    | perform =>
      obtain ⟨engine, hperform, hrun⟩ := bind_eq_ok.mp hrun
      cases hrun
      obtain ⟨hholds, hadvances⟩ := h.perform hallows hperform
      exact ⟨hholds, rfl, hadvances⟩
    | commit _ indexes =>
      obtain ⟨⟨results, engine⟩, happly, hrun⟩ := bind_eq_ok.mp hrun
      cases hrun
      obtain ⟨levels', treeRows', _, _, hholds, _, hcommits⟩ := h.applyBatch hallows happly
      refine ⟨⟨levels', treeRows', _, hholds.withIndexes indexes⟩, rfl, ?_⟩
      rcases hcommits.advances with hsame | ⟨pending, hlog⟩
      · exact .inl hsame
      · exact .inr ⟨pending, hlog.lsn, hlog.wal, hlog.grows, hlog.settles, hlog.active,
          hlog.shared, hlog.healthy, hlog.changeLog⟩
    | replicate _ | beginCheckpoint | compact | finishCheckpoint | failCheckpoint _
    | reopen => cases hwrite

/-- A new database. Opening it again sets its options. -/
def Database.empty : Database := ⟨Engine.atRest PageTree.fresh, ⟨0, 0, 0⟩, none, 1, 0, none⟩

theorem empty_holds : Holds Database.empty 0 [] [] [] := by
  have hdefined : Defined [] := forall_mem_nil _
  have hserves : Serves true Database.empty.engine 0 [] :=
    serves_of_empty fresh_denotes nofun (fun _ _ => rfl) ValueLog.whole_nil
      (forall_mem_nil _)
  exact ⟨hserves, fresh_denotes, caught_whole nofun Pairwise.nil nofun rfl
      hserves.storable, atRest_mvcc _, rfl, tidy_nil, hdefined, rfl, nofun,
    published_whole fresh_denotes ValueLog.whole_nil tidy_nil hdefined 0,
    leads_whole nofun hserves.storable, nofun⟩

/-! ## Concrete runs -/

instance (operation : BatchOperation) : Decidable operation.FromCaller :=
  inferInstanceAs (Decidable (_ = _))

instance (operation : BatchOperation) : Decidable operation.Defines :=
  match operation with
  | .put _ _ => inferInstanceAs (Decidable (_ → _))
  | .delete _ => inferInstanceAs (Decidable True)

instance (operation : BatchOperation) : Decidable operation.Proper :=
  inferInstanceAs (Decidable (_ ∧ _))

instance (record : WalRecord) : Decidable record.Valid := inferInstanceAs (Decidable (_ ∧ _))

instance (db : Database) (event : Event) : Decidable (db.Allows event) := by
  cases event <;> infer_instance

instance (db : Database) (event : Event) : Decidable (db.Fits event) := by
  cases event <;> infer_instance

/-- An event that can happen and is not refused. -/
def Database.follow (db : Database) (event : Event) : Option Database :=
  if db.Allows event then (db.act event).toOption else none

theorem Database.follow_step {after : Database} (h : db.follow event = some after) :
    db.Step event after := by
  rw [Database.follow] at h
  split_ifs at h with hallows
  exact .done hallows (toOption_eq_some h)

end Vyrn
