import Vyrn.Engine.Mvcc
import Vyrn.Engine.Replay

/-!
# Committing a batch

`Engine.applyBatch` plans the batch against the merged tree, logs the operations that have an
effect, and either rewrites the tree (`commitTree`) or records the mutations in the write-back
buffer (`commitBuffer`), which `flushWriteBack` later hands to the tree. While a snapshot is open
it keeps the versions the snapshot may still read. Publication to subscribers, the row cache and
durability barriers change no answer and are left out. `Serves` is what a healthy engine holds
together: a tree and a buffer that hold a map.
-/

namespace Vyrn

open SortedMap List Mvcc

/-! ## The code -/

structure Engine where
  tree : PageTree
  writeBack : Option Overlay
  writeBackAbsorbed : Nat
  wal : List WalRecord
  lastLsn : Nat
  poisoned : Bool
  tombstonesPossible : Bool
  changeLogEnabled : Bool
  userLen : Nat
  mvcc : Mvcc.State
  mvccValues : Bytes
  indexes : List (Bytes × Bool)
  activeSnapshots : List (Nat × Nat)
  sharedSnapshots : List (Nat × Nat)
  deriving DecidableEq, Repr

/-- The root a write-back record names, which no page has. -/
def writeBackRoot : Nat := 2 ^ 64 - 1

def recordHeaderLen : Nat := 45

def recordFooterLen : Nat := 8

def opHeaderLen : Nat := 9

def Engine.ensureHealthy (engine : Engine) : Except Error Unit :=
  if engine.poisoned then .error .poisoned else .ok ()

variable {ordered : Bool} {engine after before : Engine} {rows : Rows}
  {operations : List BatchOperation} {levels : Nat} {buffer : Overlay}

theorem ensureHealthy_ok (h : engine.poisoned = false) : engine.ensureHealthy = .ok () := by
  rw [Engine.ensureHealthy, h]
  rfl

def Engine.nextLsn (engine : Engine) : Except Error Nat :=
  if 2 ^ 64 ≤ engine.lastLsn + 1 then .error (.io "WAL sequence number exhausted")
  else .ok (engine.lastLsn + 1)

def Engine.treeGet (engine : Engine) (key : Bytes) : Except Error (Option Bytes) :=
  mergedGet engine.tree engine.writeBack key

def Engine.treeRevision (engine : Engine) (key : Bytes) : Except Error (Option Nat) :=
  mergedRevision engine.tree engine.writeBack key

/-- The oldest revision an open snapshot reads, over both registries. -/
def Engine.oldestActiveSnapshot (engine : Engine) : Option Nat :=
  match engine.activeSnapshots.head?, engine.sharedSnapshots.head? with
  | some left, some right => some (min left.1 right.1)
  | some left, none => some left.1
  | none, right => right.map Prod.fst

/-- Adds the change record that describes a batch's published changes. -/
def Engine.withChangeLog (engine : Engine) (operations : List BatchOperation) :
    Except Error (List BatchOperation) :=
  if !engine.changeLogEnabled then .ok operations
  else do
    let sequence ← engine.nextLsn
    let entries ← publishedEntries (fun key => do
      let value ← engine.treeGet key
      return value.isSome) (fun _ => none) operations
    if entries = [] then return operations
    else if 2 ^ 32 ≤ entries.length then throw (.io "too many changes in one commit")
    else return operations ++ [.put (changeLogKey sequence) (encodeBatch entries)]

/-- The versioned keys of a batch as they are before it, for the open snapshots. -/
def Engine.preImages (engine : Engine) (operations : List BatchOperation) :
    Except Error (List (Bytes × Option Versioned)) :=
  let keys := keySet ((operations.map BatchOperation.key).filter isVersionedKey)
  do
    let found ← mergedGetManyWithRevision engine.tree engine.writeBack keys
    return keys.zip found

/-- What a batch would write, with what the snapshots need of the state before it. -/
def Engine.planBatch (engine : Engine) (operations : List BatchOperation) :
    Except Error (Plan × List (Bytes × Option Versioned)) := do
  let wanted := wantedKeys engine.tombstonesPossible operations
  let revisions ← mergedGetManyRevisions engine.tree engine.writeBack wanted
  let previous ← (if engine.oldestActiveSnapshot.isSome then engine.preImages operations
    else .ok [])
  let revision ← engine.nextLsn
  let plan ← Plan.steps revision (Plan.start wanted revisions engine.tombstonesPossible) operations
  return (plan, previous)

def BatchOperation.value? : BatchOperation → Option Bytes
  | .put _ value => some value
  | .delete _ => none

/-- Stages the values of the versioned operations in the revision value log. -/
def stageValues (revision : Nat) : Bytes → List BatchOperation →
    Except Error (List (Bytes × Option ValueRef) × Bytes)
  | values, [] => .ok ([], values)
  | values, operation :: rest =>
    if isVersionedKey operation.key then do
      let (value, values) ← prepareValue values revision operation.value?
      let (staged, values) ← stageValues revision values rest
      return ((operation.key, value) :: staged, values)
    else stageValues revision values rest

def BatchOperation.valueLen (operation : BatchOperation) : Nat :=
  (operation.value?.map length).getD 0

def payloadLen (operations : List BatchOperation) : Nat :=
  (operations.map (fun operation =>
    opHeaderLen + operation.key.length + operation.valueLen)).sum

/-- Whether the operations fit a record of the log, whose lengths have 32 bits. -/
def checkRecord (operations : List BatchOperation) : Except Error Unit :=
  if 2 ^ 32 ≤ operations.length then .error (.io "too many operations in transaction")
  else if operations.any (fun operation => 2 ^ 32 ≤ operation.key.length) then
    .error .keyTooLarge
  else if operations.any (fun operation => 2 ^ 32 ≤ operation.valueLen) then
    .error .valueTooLarge
  else if 2 ^ 32 ≤ recordHeaderLen + payloadLen operations + recordFooterLen then
    .error (.io "transaction exceeds WAL record limit")
  else .ok ()

def Engine.appendBatch (engine : Engine) (operations : List BatchOperation) (root len : Nat) :
    Except Error Engine := do
  let lsn ← engine.nextLsn
  checkRecord operations
  return { engine with
    wal := engine.wal ++ [⟨lsn, operations, root, len⟩]
    lastLsn := lsn }

/-- The state a mutation of a commit leaves its key in. -/
def Mutation.entry (revision : Nat) : Mutation → BufferedEntry
  | .put value revision => ⟨some value, revision⟩
  | .delete => ⟨none, revision⟩

def Overlay.recordAll (revision : Nat) (buffer : Overlay)
    (mutations : List (Bytes × Mutation)) : Overlay :=
  mutations.foldl (fun buffer m => buffer.record m.1 (m.2.entry revision)) buffer

def saturatingAdd (n : Nat) (delta : Int) : Nat := (n + delta).toNat

/-- Write-back: the log record first, then the buffer. -/
def Engine.commitBuffer (engine : Engine) (buffer : Overlay) (plan : Plan) :
    Except Error Engine := do
  let logged ← engine.appendBatch plan.pending writeBackRoot writeBackRoot
  return { logged with
    writeBack := some (buffer.recordAll logged.lastLsn plan.mutations)
    userLen := saturatingAdd engine.userLen plan.userDelta }

/-- Classic: the tree first, then the log record that names its root. -/
def Engine.commitTree (engine : Engine) (plan : Plan) : Except Error Engine := do
  let (outcome, grown) ← engine.tree.prepareBatch plan.mutations
  let published := { engine with
    tree := grown.publish outcome.root outcome.len
    userLen := saturatingAdd engine.userLen plan.userDelta }
  published.appendBatch plan.pending outcome.root outcome.len

/-- Keeps the state of a key before the commit, for a snapshot that may read it. -/
def keepPreImage (oldest : Nat) (state : Mvcc.State) (values : Bytes) (key : Bytes) :
    Option Versioned → Except Error (State × Bytes)
  | none => .ok (state, values)
  | some before =>
    if before.revision ≤ oldest ∧
        (state.versions key).getLast?.all (fun latest => latest.1 < before.revision) then
      append state values key before.revision (some before.value)
    else .ok (state, values)

def keepPreImages (oldest : Nat) : Mvcc.State → Bytes → List (Bytes × Option Versioned) →
    Except Error (State × Bytes)
  | state, values, [] => .ok (state, values)
  | state, values, (key, before) :: rest => do
    let (state, values) ← keepPreImage oldest state values key before
    keepPreImages oldest state values rest

def Engine.maintainHistory (engine : Engine) (previous : List (Bytes × Option Versioned))
    (staged : List (Bytes × Option ValueRef)) (oldest : Nat) : Except Error Engine := do
  let (state, values) ← keepPreImages oldest engine.mvcc engine.mvccValues previous
  return { engine with
    mvcc := staged.foldl (fun state s => appendPrepared state s.1 engine.lastLsn s.2) state
    mvccValues := values }

/-- A commit that kept no history makes the revisions before it unanswerable. -/
def Engine.publishCoverage (engine : Engine) : Engine :=
  { engine with
    mvcc := { engine.mvcc with
      coveredThrough := max engine.mvcc.coveredThrough engine.lastLsn } }

def BufferedEntry.mutation (entry : BufferedEntry) : Mutation :=
  match entry.value with
  | some value => .put value entry.revision
  | none => .delete

/-- Hands the whole buffer to the tree. -/
def Engine.flushWriteBack (engine : Engine) : Except Error Engine :=
  match engine.writeBack with
  | none => .ok engine
  | some buffer =>
    if buffer.isEmpty then .ok engine
    else do
      let (outcome, grown) ← engine.tree.prepareBatch
        (buffer.entries.map (fun e => (e.1, e.2.mutation)))
      return { engine with
        tree := grown.publish outcome.root outcome.len
        writeBack := some buffer.clear
        writeBackAbsorbed := engine.lastLsn }

/-- A flush that fails is retried later. -/
def Engine.maybeFlush (engine : Engine) : Engine :=
  if engine.writeBack.any Overlay.shouldFlush then
    match engine.flushWriteBack with
    | .ok flushed => flushed
    | .error _ => engine
  else engine

def Engine.commitData (engine : Engine) (plan : Plan) : Except Error Engine :=
  match engine.writeBack with
  | some buffer => engine.commitBuffer buffer plan
  | none => engine.commitTree plan

/-- The part of a commit that changes the engine. -/
def Engine.commitPlan (engine : Engine) (plan : Plan)
    (previous : List (Bytes × Option Versioned)) : Except Error Engine :=
  match engine.oldestActiveSnapshot with
  | some oldest => do
    let (staged, values) ← stageValues (engine.lastLsn + 1) engine.mvccValues plan.pending
    let committed ← { engine with mvccValues := values }.commitData plan
    let kept ← committed.maintainHistory previous staged oldest
    return kept.maybeFlush
  | none => do
    let committed ← engine.commitData plan
    return committed.publishCoverage.maybeFlush

/-- Commits a batch. A failing call is an error with no new state: what it leaves behind is
    unreachable pages and values, or an engine that refuses all work. -/
def Engine.applyBatch (engine : Engine) (operations : List BatchOperation) :
    Except Error (List BatchResult × Engine) := do
  engine.ensureHealthy
  if operations = [] then return ([], engine)
  else do
    operations.forM validateOperation
    let combined ← engine.withChangeLog operations
    let (plan, previous) ← engine.planBatch combined
    let engine := { engine with tombstonesPossible := plan.tombstonesPossible }
    if plan.pending = [] then return (plan.results, engine)
    else do
      let committed ← engine.commitPlan plan previous
      return (plan.results.take operations.length, committed)

/-! ## What an engine holds -/

/-- A value and a revision that can be stored, as every one the engine holds was. -/
def Storable (versioned : Versioned) : Prop :=
  ValueLog.Admissible versioned.revision versioned.value

/-- The tree and the buffer hold the map `rows`, the buffer can be flushed, and an engine that
    believes there is no tombstone has none. -/
structure Serves (ordered : Bool) (engine : Engine) (levels : Nat)
    (rows : Rows) : Prop where
  holds : ∃ treeRows, Denotes ordered engine.tree levels treeRows ∧
    rows = overlaid treeRows engine.writeBack
  buffered : ∀ b, engine.writeBack = some b →
    b.WellFormed ∧ ∀ e ∈ b.entries, Mutation.Admissible (e.1, e.2.mutation)
  tombless : engine.tombstonesPossible = false → ∀ key, lookup (tombstoneKey key) rows = none
  whole : ValueLog.Whole engine.tree.values
  storable : ∀ e ∈ rows, Storable e.2

/-- With nothing in the buffer the tree holds the whole map. -/
theorem serves_of_empty (hden : Denotes ordered engine.tree levels rows)
    (hempty : ∀ b, engine.writeBack = some b → b.entries = [])
    (htombless : engine.tombstonesPossible = false →
      ∀ key, lookup (tombstoneKey key) rows = none)
    (hwhole : ValueLog.Whole engine.tree.values) (hstorable : ∀ e ∈ rows, Storable e.2) :
    Serves ordered engine levels rows := by
  refine ⟨⟨rows, hden, (overlaid_of_empty hempty rows).symm⟩, fun b hb => ?_, htombless, hwhole,
    hstorable⟩
  rw [Overlay.WellFormed, hempty b hb]
  exact ⟨sorted_nil, forall_mem_nil _⟩

/-- Only the tree, the buffer and the tombstone flag matter. -/
theorem Serves.congr {engine' : Engine} (h : Serves ordered engine levels rows)
    (htree : engine'.tree = engine.tree) (hbuffer : engine'.writeBack = engine.writeBack)
    (htomb : engine'.tombstonesPossible = engine.tombstonesPossible) :
    Serves ordered engine' levels rows := by
  refine ⟨?_, ?_, ?_, ?_, h.storable⟩
  · rw [htree, hbuffer]
    exact h.holds
  · rw [hbuffer]
    exact h.buffered
  · rw [htomb]
    exact h.tombless
  · rw [htree]
    exact h.whole

theorem Serves.sorted (h : Serves ordered engine levels rows) : Sorted rows := by
  obtain ⟨treeRows, hden, rfl⟩ := h.holds
  exact overlaid_sorted hden.sorted _

theorem storable_updateAll (h : ∀ e ∈ rows, Storable e.2) {mutations : List (Bytes × Mutation)}
    (hadm : ∀ m ∈ mutations, Mutation.Admissible m) :
    ∀ e ∈ updateAll rows (mutations.map Mutation.update), Storable e.2 := by
  intro e he
  rcases mem_updateAll he with he | he
  · obtain ⟨m, hm, hupdate⟩ := mem_map.mp he
    have hadm' := hadm m hm
    obtain ⟨key, mutation⟩ := m
    obtain ⟨key', versioned⟩ := e
    cases mutation with
    | put =>
      cases hupdate
      exact hadm'.2
    | delete => cases hupdate
  · exact h e he

/-! ## The buffer -/

/-- Recording a commit's mutations updates the merged map with them. -/
theorem overlaid_recordAll {treeRows : Rows} (hs : Sorted treeRows) (revision : Nat)
    {mutations : List (Bytes × Mutation)} (h : buffer.WellFormed) :
    (buffer.recordAll revision mutations).WellFormed ∧
      overlaid treeRows (some (buffer.recordAll revision mutations))
        = updateAll (overlaid treeRows (some buffer)) (mutations.map Mutation.update) := by
  induction mutations generalizing buffer with
  | nil => exact ⟨h, rfl⟩
  | cons m rest ih =>
    obtain ⟨hwf, hrows⟩ := ih (Overlay.record_wellFormed h m.1 (m.2.entry revision))
    refine ⟨hwf, ?_⟩
    rw [overlaid_record hs h] at hrows
    obtain ⟨_, mutation⟩ := m
    cases mutation <;> exact hrows

theorem flushWriteBack_empty (hempty : ∀ b, engine.writeBack = some b → b.entries = []) :
    engine.flushWriteBack = .ok engine := by
  rw [Engine.flushWriteBack]
  cases hbuf : engine.writeBack with
  | none => rfl
  | some b =>
    dsimp only
    rw [if_pos (by rw [Overlay.isEmpty, hempty b hbuf]; rfl)]

/-- **FLUSH**: the tree absorbs the buffer and the map stays. -/
theorem flushWriteBack_serves (h : Serves ordered engine levels rows) (hd : levels ≤ maxTreeDepth) :
    ∃ engine' levels', engine.flushWriteBack = .ok engine' ∧ Serves ordered engine' levels' rows ∧
      Grows engine.tree engine'.tree ∧ ∀ b, engine'.writeBack = some b → b.entries = [] := by
  obtain ⟨treeRows, hden, hrows⟩ := h.holds
  by_cases hempty : ∀ b, engine.writeBack = some b → b.entries = []
  · exact ⟨engine, levels, flushWriteBack_empty hempty, h, Grows.refl _, hempty⟩
  · push Not at hempty
    obtain ⟨buffer, hbuf, hne⟩ := hempty
    have hadm : ∀ m ∈ buffer.entries.map (fun e => (e.1, e.2.mutation)),
        Mutation.Admissible m := by
      intro m hm
      obtain ⟨e, he, rfl⟩ := mem_map.mp hm
      exact (h.buffered buffer hbuf).2 e he
    obtain ⟨outcome, grown, hprep, hgrows, levels', hden'⟩ := prepareBatch_denotes hden hd hadm
    refine ⟨{ engine with
        tree := grown.publish outcome.root outcome.len
        writeBack := some buffer.clear
        writeBackAbsorbed := engine.lastLsn }, levels', ?_,
      ⟨⟨_, hden', ?_⟩, ?_, h.tombless, hgrows.whole h.whole, h.storable⟩, { hgrows with }, ?_⟩
    · rw [Engine.flushWriteBack, hbuf]
      dsimp only
      rw [Overlay.isEmpty, if_neg (fun h => hne (isEmpty_iff.mp h)), hprep]
      rfl
    · rw [hrows, hbuf, map_map]
      exact congrArg (updateAll treeRows)
        (map_congr_left (fun ⟨_, value, _⟩ _ => by cases value <;> rfl))
    · rintro _ ⟨⟩
      exact ⟨sorted_nil, forall_mem_nil _⟩
    · rintro _ ⟨⟩
      rfl

/-- A flush that succeeds keeps the map, and a tree too deep to write absorbs nothing. -/
theorem flushWriteBack_of_ok (h : Serves ordered engine levels rows) {flushed : Engine}
    (hrun : engine.flushWriteBack = .ok flushed) :
    ∃ levels', Serves ordered flushed levels' rows ∧ Grows engine.tree flushed.tree ∧
      (∀ b, flushed.writeBack = some b → b.entries = []) ∧
      (levels' ≤ maxTreeDepth → levels ≤ maxTreeDepth) := by
  by_cases hd : levels ≤ maxTreeDepth
  · obtain ⟨_, levels', hrun', hserves, hgrows, hempty⟩ := flushWriteBack_serves h hd
    cases hrun.symm.trans hrun'
    exact ⟨levels', hserves, hgrows, hempty, fun _ => hd⟩
  · obtain ⟨treeRows, hden, _⟩ := h.holds
    have hempty : ∀ b, engine.writeBack = some b → b.entries = [] := by
      intro b hb
      by_contra hne
      obtain ⟨error, herror⟩ := prepareBatch_deep hden (not_le.mp hd)
        (fun hnil => hne (map_eq_nil_iff.mp hnil))
      rw [Engine.flushWriteBack, hb] at hrun
      dsimp only at hrun
      rw [Overlay.isEmpty, if_neg (fun h => hne (isEmpty_iff.mp h)), herror] at hrun
      cases hrun
    cases hrun.symm.trans (flushWriteBack_empty hempty)
    exact ⟨levels, h, Grows.refl _, hempty, id⟩

/-! ## Logging and applying a plan -/

theorem nextLsn_ok (h : engine.lastLsn + 1 < 2 ^ 64) :
    engine.nextLsn = .ok (engine.lastLsn + 1) := by
  rw [Engine.nextLsn, if_neg (not_le.mpr h)]

theorem nextLsn_lt {lsn : Nat} (h : engine.nextLsn = .ok lsn) :
    lsn = engine.lastLsn + 1 ∧ engine.lastLsn + 1 < 2 ^ 64 := by
  rw [Engine.nextLsn] at h
  split_ifs at h with hle
  cases h
  exact ⟨rfl, not_le.mp hle⟩

theorem appendBatch_ok (hlsn : engine.lastLsn + 1 < 2 ^ 64) {operations : List BatchOperation}
    (hrec : checkRecord operations = .ok ()) (root len : Nat) :
    engine.appendBatch operations root len
      = .ok { engine with
          wal := engine.wal ++ [⟨engine.lastLsn + 1, operations, root, len⟩]
          lastLsn := engine.lastLsn + 1 } := by
  rw [Engine.appendBatch, nextLsn_ok hlsn, ok_bind, hrec, ok_bind]
  rfl

theorem payloadLen_cons (operation : BatchOperation) (rest : List BatchOperation) :
    payloadLen (operation :: rest)
      = opHeaderLen + operation.key.length + operation.valueLen + payloadLen rest := by
  rw [payloadLen, map_cons, sum_cons, payloadLen]

theorem payloadLen_append (operations more : List BatchOperation) :
    payloadLen (operations ++ more) = payloadLen operations + payloadLen more := by
  rw [payloadLen, map_append, sum_append, payloadLen, payloadLen]

theorem length_le_payloadLen (operations : List BatchOperation) :
    operations.length ≤ payloadLen operations := by
  induction operations with
  | nil => exact Nat.le_refl 0
  | cons operation rest ih =>
    have hheader : opHeaderLen = 9 := rfl
    rw [payloadLen_cons, length_cons]
    omega

theorem le_payloadLen {operation : BatchOperation} (h : operation ∈ operations) :
    operation.key.length + operation.valueLen ≤ payloadLen operations := by
  induction operations with
  | nil => exact absurd h not_mem_nil
  | cons first rest ih =>
    rw [payloadLen_cons]
    rcases mem_cons.mp h with rfl | h
    · omega
    · have hrest := ih h
      omega

/-- Of the limits of a log record only the one on its whole length matters. -/
theorem checkRecord_ok_iff :
    checkRecord operations = .ok () ↔
      recordHeaderLen + payloadLen operations + recordFooterLen < 2 ^ 32 := by
  have hlength := length_le_payloadLen operations
  rw [checkRecord]
  constructor
  · intro h
    split_ifs at h with _ _ _ hlong
    exact not_le.mp hlong
  · intro hfits
    have hshort : ∀ {len : BatchOperation → Nat},
        (∀ operation, len operation ≤ operation.key.length + operation.valueLen) →
        operations.any (fun operation => 2 ^ 32 ≤ len operation) = false := by
      intro len hlen
      refine any_eq_false.mpr (fun operation hop => ?_)
      have hle := (hlen operation).trans (le_payloadLen hop)
      rw [decide_eq_true_eq]
      omega
    rw [if_neg (by omega), hshort (fun _ => Nat.le_add_right _ _),
      hshort (fun _ => Nat.le_add_left _ _), if_neg Bool.false_ne_true, if_neg Bool.false_ne_true,
      if_neg (not_le.mpr hfits)]

/-- What the log record of a commit says of the tree: its root and count, or nothing when the
    commit stays in the buffer. -/
def Names (record : WalRecord) (before after : Engine) : Prop :=
  (before.writeBack = none ∧ after.writeBack = none ∧
      record.root = after.tree.root ∧ record.len = after.tree.len) ∨
    (before.writeBack.isSome ∧ after.writeBack.isSome ∧
      record.root = writeBackRoot ∧ record.len = writeBackRoot)

theorem Names.unbuffered {record : WalRecord} (h : Names record before after)
    (hbuf : before.writeBack = none) (b : Overlay) (hb : after.writeBack = some b) :
    b.entries = [] := by
  rcases h with ⟨_, hnone, _⟩ | ⟨hsome, _⟩
  · cases hnone.symm.trans hb
  · cases hbuf ▸ hsome

/-- A commit of `operations` logged one record and changed nothing else but the tree, the
    buffer, the tombstone flag and the histories. -/
structure Logged (operations : List BatchOperation) (before after : Engine) : Prop where
  lsn : after.lastLsn = before.lastLsn + 1
  wal : ∃ record : WalRecord, after.wal = before.wal ++ [record] ∧
    record.lsn = before.lastLsn + 1 ∧ record.operations = operations ∧ Names record before after
  grows : Grows before.tree after.tree
  settles : after.writeBack = none ∨
    (after.tree = before.tree ∧ after.writeBackAbsorbed = before.writeBackAbsorbed) ∨
    (after.writeBackAbsorbed = after.lastLsn ∧ ∀ b, after.writeBack = some b → b.entries = [])
  active : after.activeSnapshots = before.activeSnapshots
  shared : after.sharedSnapshots = before.sharedSnapshots
  healthy : after.poisoned = before.poisoned
  changeLog : after.changeLogEnabled = before.changeLogEnabled

section Data

variable {ordered : Bool} {engine : Engine} {levels : Nat} {rows : Rows}
  {plan : Plan}

/-- The map has the mutations of a plan and the log its operations. -/
def Plan.Done (plan : Plan) (ordered : Bool) (levels : Nat) (rows : Rows)
    (before after : Engine) : Prop :=
  Serves ordered after levels (updateAll rows (plan.mutations.map Mutation.update)) ∧
    Logged plan.pending before after ∧ after.mvcc = before.mvcc ∧
    after.mvccValues = before.mvccValues

section

variable (h : Serves ordered engine levels rows) (hstore : plan.Storable)
  (hlsn : engine.lastLsn + 1 < 2 ^ 64) (hrec : checkRecord plan.pending = .ok ())
  (htomb : engine.tombstonesPossible = false → ∀ key, lookup (tombstoneKey key)
    (updateAll rows (plan.mutations.map Mutation.update)) = none)
include h hstore hlsn hrec htomb

/-- Without one it goes to the log and the tree. -/
theorem commitTree_serves (hd : levels ≤ maxTreeDepth) (hbuf : engine.writeBack = none) :
    ∃ engine' levels', engine.commitTree plan = .ok engine' ∧
      plan.Done ordered levels' rows engine engine' := by
  obtain ⟨treeRows, hden, hrows⟩ := h.holds
  rw [hbuf, overlaid_none] at hrows
  subst hrows
  obtain ⟨outcome, grown, hprep, hgrows, levels', hden'⟩ := prepareBatch_denotes hden hd hstore
  refine ⟨{ engine with
      tree := grown.publish outcome.root outcome.len
      userLen := saturatingAdd engine.userLen plan.userDelta
      wal := engine.wal ++ [⟨engine.lastLsn + 1, plan.pending, outcome.root, outcome.len⟩]
      lastLsn := engine.lastLsn + 1 }, levels', ?_,
    ⟨⟨_, hden', ?_⟩, ?_, htomb, hgrows.whole h.whole, storable_updateAll h.storable hstore⟩,
    ⟨rfl, ⟨_, rfl, rfl, rfl, .inl ⟨hbuf, hbuf, rfl, rfl⟩⟩, { hgrows with },
      .inl hbuf, rfl, rfl, rfl, rfl⟩, rfl, rfl⟩
  · rw [Engine.commitTree, hprep, ok_bind]
    exact @appendBatch_ok { engine with
      tree := grown.publish outcome.root outcome.len
      userLen := saturatingAdd engine.userLen plan.userDelta } hlsn _ hrec outcome.root outcome.len
  · show _ = overlaid _ engine.writeBack
    rw [hbuf, overlaid_none]
  · intro b hb
    exact h.buffered b hb

/-- With a buffer the plan goes to the log and the buffer. -/
theorem commitBuffer_serves (hbuf : engine.writeBack = some buffer) :
    ∃ engine', engine.commitBuffer buffer plan = .ok engine' ∧
      plan.Done ordered levels rows engine engine' := by
  obtain ⟨treeRows, hden, hrows⟩ := h.holds
  obtain ⟨hwf, hadm⟩ := h.buffered buffer hbuf
  rw [hbuf] at hrows
  obtain ⟨hwf', hrows'⟩ :=
    @overlaid_recordAll buffer treeRows hden.sorted (engine.lastLsn + 1) plan.mutations hwf
  refine ⟨{ engine with
      wal := engine.wal ++ [⟨engine.lastLsn + 1, plan.pending, writeBackRoot, writeBackRoot⟩]
      lastLsn := engine.lastLsn + 1
      writeBack := some (buffer.recordAll (engine.lastLsn + 1) plan.mutations)
      userLen := saturatingAdd engine.userLen plan.userDelta }, ?_,
    ⟨⟨treeRows, hden, ?_⟩, ?_, htomb, h.whole, storable_updateAll h.storable hstore⟩,
    ⟨rfl, ⟨_, rfl, rfl, rfl, .inr ⟨by rw [hbuf]; rfl, rfl, rfl, rfl⟩⟩, Grows.refl _,
      .inr (.inl ⟨rfl, rfl⟩), rfl, rfl, rfl, rfl⟩, rfl, rfl⟩
  · rw [Engine.commitBuffer, appendBatch_ok hlsn hrec, ok_bind]
    rfl
  · rw [hrows', hrows]
  · rintro _ ⟨⟩
    refine ⟨hwf', fun e he => ?_⟩
    rcases Overlay.mem_recorded he with hold | ⟨⟨key, mutation⟩, hm, rfl⟩
    · exact hadm e hold
    · cases mutation with
      | put => exact hstore _ hm
      | delete => exact trivial

/-- **DATA**: the planned mutations reach the tree or the buffer. -/
theorem commitData_serves (hd : engine.writeBack = none → levels ≤ maxTreeDepth) :
    ∃ engine' levels', engine.commitData plan = .ok engine' ∧
      plan.Done ordered levels' rows engine engine' := by
  rw [Engine.commitData]
  cases hbuf : engine.writeBack with
  | none => exact commitTree_serves h hstore hlsn hrec htomb (hd hbuf) hbuf
  | some =>
    obtain ⟨engine', hcommitted⟩ := commitBuffer_serves h hstore hlsn hrec htomb hbuf
    exact ⟨engine', levels, hcommitted⟩

end

/-- What writing a plan's data does to an engine: the tree or the buffer takes the mutations, the log
    a record, and the count the difference. -/
theorem commitData_form (hrun : engine.commitData plan = .ok after) :
    checkRecord plan.pending = .ok () ∧ ∃ tree buffer record,
      buffer = engine.writeBack.map (·.recordAll (engine.lastLsn + 1) plan.mutations) ∧
      after = { engine with
        tree := tree
        writeBack := buffer
        wal := engine.wal ++ [record]
        lastLsn := engine.lastLsn + 1
        userLen := saturatingAdd engine.userLen plan.userDelta } := by
  have happend : ∀ {before logged : Engine} {root len : Nat},
      before.appendBatch plan.pending root len = .ok logged →
      checkRecord plan.pending = .ok () ∧ ∃ record, logged = { before with
        wal := before.wal ++ [record]
        lastLsn := before.lastLsn + 1 } := by
    intro before logged root len happend
    obtain ⟨lsn, hlsn, happend⟩ := bind_eq_ok.mp happend
    obtain ⟨⟨⟩, hrecord, happend⟩ := bind_eq_ok.mp happend
    cases happend
    obtain ⟨rfl, _⟩ := nextLsn_lt hlsn
    exact ⟨hrecord, _, rfl⟩
  rw [Engine.commitData] at hrun
  cases hbuf : engine.writeBack with
  | none =>
    rw [hbuf] at hrun
    obtain ⟨_, _, hrun⟩ := bind_eq_ok.mp hrun
    obtain ⟨hrecord, _, rfl⟩ := happend hrun
    exact ⟨hrecord, _, _, _, hbuf, rfl⟩
  | some =>
    rw [hbuf] at hrun
    obtain ⟨_, hlog, hrun⟩ := bind_eq_ok.mp hrun
    obtain ⟨hrecord, _, rfl⟩ := happend hlog
    cases hrun
    exact ⟨hrecord, _, _, _, rfl, rfl⟩

/-- Flushing replaces the tree and empties the buffer, or does nothing. -/
theorem maybeFlush_form (engine : Engine) :
    engine.maybeFlush = engine ∨ ∃ tree buffer, buffer.entries = [] ∧
      engine.writeBack.isSome ∧ engine.maybeFlush = { engine with
        tree := tree, writeBack := some buffer, writeBackAbsorbed := engine.lastLsn } := by
  rw [Engine.maybeFlush, Engine.flushWriteBack]
  split_ifs
  · cases hbuf : engine.writeBack with
    | none => exact .inl rfl
    | some buffer =>
      dsimp only
      split_ifs
      · exact .inl rfl
      · cases engine.tree.prepareBatch (buffer.entries.map (fun e => (e.1, e.2.mutation))) with
        | error => exact .inl rfl
        | ok => exact .inr ⟨_, buffer.clear, rfl, rfl, rfl⟩
  · exact .inl rfl

/-- Flushing or not, the map stays. -/
theorem maybeFlush_serves (h : Serves ordered engine levels rows) :
    (∃ levels', Serves ordered engine.maybeFlush levels' rows) ∧
      Grows engine.tree engine.maybeFlush.tree := by
  rw [Engine.maybeFlush]
  split_ifs
  · cases hrun : engine.flushWriteBack with
    | error => exact ⟨⟨levels, h⟩, Grows.refl _⟩
    | ok =>
      obtain ⟨levels', hserves, hgrows, _⟩ := flushWriteBack_of_ok h hrun
      exact ⟨⟨levels', hserves⟩, hgrows⟩
  · exact ⟨⟨levels, h⟩, Grows.refl _⟩

theorem Logged.maybeFlush (h : Logged operations before after)
    (hgrows : Grows after.tree after.maybeFlush.tree) :
    Logged operations before after.maybeFlush := by
  rcases maybeFlush_form after with hsame | ⟨tree, buffer, hempty, hsome, hform⟩
  · rw [hsame]
    exact h
  · obtain ⟨record, hwal, hlsn, hops, hnames⟩ := h.wal
    have hgrows' := h.grows.trans hgrows
    rw [hform] at hgrows' ⊢
    refine ⟨h.lsn, ⟨record, hwal, hlsn, hops, ?_⟩, hgrows', .inr (.inr ⟨rfl, ?_⟩), h.active,
      h.shared, h.healthy, h.changeLog⟩
    · rcases hnames with ⟨_, hnone, _⟩ | ⟨hbefore, _, hroot⟩
      · rw [hnone] at hsome
        cases hsome
      · exact .inr ⟨hbefore, rfl, hroot⟩
    · rintro _ ⟨⟩
      exact hempty

end Data

/-! ## Planning against the merged tree -/

section Plan

variable {ordered : Bool} {engine : Engine} {levels : Nat} {rows : Rows}

/-- What the pre-images of a batch are. -/
def preImagesOf (rows : Rows) (operations : List BatchOperation) :
    List (Bytes × Option Versioned) :=
  (keySet ((operations.map BatchOperation.key).filter isVersionedKey)).map
    (fun key => (key, lookup key rows))

section

variable (h : Serves ordered engine levels rows)
include h

theorem Serves.reads (hd : levels ≤ maxTreeDepth) (key : Bytes) :
    engine.treeGet key = .ok ((lookup key rows).map Versioned.value) ∧
      engine.treeRevision key = .ok ((lookup key rows).map Versioned.revision) := by
  obtain ⟨treeRows, hden, rfl⟩ := h.holds
  have hwf := fun b hb => (h.buffered b hb).1
  exact ⟨mergedGet_ok hden hwf (.inl hd), mergedRevision_ok hden hd hwf key⟩

theorem preImages_ok (hd : Reaches levels engine.writeBack (operations.map BatchOperation.key)) :
    engine.preImages operations = .ok (preImagesOf rows operations) := by
  obtain ⟨treeRows, hden, rfl⟩ := h.holds
  have hwf := fun b hb => (h.buffered b hb).1
  have hversioned : Reaches levels engine.writeBack
      (keySet ((operations.map BatchOperation.key).filter isVersionedKey)) :=
    hd.mono (fun key hkey => mem_of_mem_filter (mem_keySet.mp hkey))
  rw [Engine.preImages, mergedGetManyWithRevision_ok hden hwf (keySet_pairwise _) hversioned,
    ok_bind, preImagesOf]
  exact congrArg Except.ok map_prod_left_eq_zip.symm

/-- What a plan reads can be read, which leaves the sequence and the steps to fail. -/
theorem planBatch_eq
    (hd : Reaches levels engine.writeBack (wantedKeys engine.tombstonesPossible operations)) :
    engine.planBatch operations = do
      let revision ← engine.nextLsn
      let plan ← Plan.steps revision (Plan.start (wantedKeys engine.tombstonesPossible operations)
        ((wantedKeys engine.tombstonesPossible operations).map
          (fun key => (lookup key rows).map Versioned.revision)) engine.tombstonesPossible)
        operations
      return (plan, if engine.oldestActiveSnapshot.isSome then preImagesOf rows operations
        else []) := by
  obtain ⟨treeRows, hden, hrows⟩ := h.holds
  have hkeys : (wantedKeys engine.tombstonesPossible operations).Pairwise (· < ·) :=
    keySet_pairwise _
  rw [Engine.planBatch, mergedGetManyRevisions_ok hden (fun b hb => (h.buffered b hb).1) hkeys hd,
    ← hrows, ok_bind]
  cases engine.oldestActiveSnapshot with
  | none => rfl
  | some =>
    rw [if_pos Option.isSome_some, preImages_ok h (hd.batch (fun _ hop => hop))]
    rfl

/-- **PLAN**: the batch is planned against the map the engine holds. -/
theorem planBatch_ok
    (hd : Reaches levels engine.writeBack (wantedKeys engine.tombstonesPossible operations))
    (hvalid : ∀ operation ∈ operations, operation.Valid)
    (hcaller : ∀ operation ∈ operations, operation.FromCaller)
    (hlsn : engine.lastLsn + 1 < 2 ^ 64) :
    ∃ plan, engine.planBatch operations
        = .ok (plan, if engine.oldestActiveSnapshot.isSome then preImagesOf rows operations
            else []) ∧
      plan.Follows (engine.lastLsn + 1) rows operations engine.tombstonesPossible := by
  obtain ⟨plan, hsteps, hfollows⟩ := plan_spec h.sorted h.tombless hvalid hcaller hlsn
  refine ⟨plan, ?_, hfollows⟩
  rw [planBatch_eq h hd, nextLsn_ok hlsn, ok_bind, hsteps]
  rfl

end

end Plan

end Vyrn
