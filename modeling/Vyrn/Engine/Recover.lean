import Vyrn.Engine.Runs
import Vyrn.Lib.Catalog
import Vyrn.Wal.Log

/-!
# Opening a database

Opening adopts the root that the last record of the log names when the pages below it validate, and
otherwise redoes the log from the manifest's root; then it counts the user keys, loads the index
definitions and looks for one tombstone. Of the log only the records are left here, as
**`openLog_chained`** reads them; the kept versions are all collected.

A crash leaves the log and a part of each tree file. **`openWithOptions_of_ok`**: opening then leads
to the logged map when the named page, if it is there, is the one that the record meant.
-/

namespace Vyrn

open SortedMap List ByteString Wal

variable {tree : PageTree}

/-! ## The code -/

structure EngineOptions where
  writeBackBuffer : Nat
  changeLog : Bool
  deriving DecidableEq, Repr

/-- What opening reads: the manifest, the tree files of its generation, the log's records and the
    kept versions. -/
structure Files where
  manifest : TreeState
  pages : Pages
  values : Bytes
  records : List WalRecord
  revisions : Mvcc.State
  revisionValues : Bytes
  deriving DecidableEq, Repr

/-- `\0vyrn:index:def:`, under which the definitions of indexes lie. -/
def indexDefinitionPrefix : Bytes :=
  internalPrefix ++ [105, 110, 100, 101, 120, 58, 100, 101, 102, 58]

/-- A definition: the name behind its length, and whether the index is unique. -/
def decodeIndexDefinition (row : Bytes × Versioned) : Except Error (Bytes × Bool) :=
  if indexDefinitionPrefix.isPrefixOf row.1 then
    let encoded := row.1.drop indexDefinitionPrefix.length
    if encoded.length < 2 ∨ fromBE (encoded.take 2) ≠ encoded.length - 2 then
      .error (.corruptManifest "invalid index definition name")
    else
      match row.2.value with
      | [0] => .ok (encoded.drop 2, false)
      | [1] => .ok (encoded.drop 2, true)
      | _ => .error (.corruptManifest "invalid index definition value")
  else .error (.corruptManifest "invalid index definition key")

def loadIndexes (tree : PageTree) : Except Error (List (Bytes × Bool)) := do
  let rows ← tree.scanSharedWithRevisions
    ⟨some indexDefinitionPrefix, successor indexDefinitionPrefix, none⟩ usizeMax
  let definitions ← rows.mapM decodeIndexDefinition
  return definitions.foldl (fun indexes definition => put definition.1 definition.2 indexes) []

/-- What the log says beyond the manifest. -/
def Files.recovered (files : Files) : Recovered :=
  (Recovered.mk files.manifest []).extend files.records

def openWithOptions (options : EngineOptions) (files : Files) : Except Error Engine := do
  let state := files.recovered.state
  let tree ← recoverTree files.pages files.values files.manifest files.recovered
  let indexes ← loadIndexes tree
  let userLen ← tree.countExcluding internalPrefix
  let tombstones ← tree.scanSharedWithRevisions
    ⟨some tombstonePrefix, successor tombstonePrefix, none⟩ 1
  return {
    tree := tree
    writeBack :=
      if 0 < options.writeBackBuffer then some (Overlay.new options.writeBackBuffer) else none
    writeBackAbsorbed := state.lsn
    wal := files.records
    lastLsn := state.lsn
    poisoned := false
    tombstonesPossible := tombstones ≠ []
    changeLogEnabled := options.changeLog
    userLen := userLen
    mvcc := (Mvcc.collect files.revisions none state.lsn).2
    mvccValues := files.revisionValues
    indexes := indexes
    activeSnapshots := []
    sharedSnapshots := [] }

/-! ## The log -/

/-- The log is recovered up to its last record, or to the manifest. -/
theorem recovered_lsn {files : Files}
    (hsorted : files.records.Pairwise (fun a b => a.lsn < b.lsn)) :
    files.manifest.lsn ≤ files.recovered.state.lsn ∧
      ∀ record ∈ files.records, record.lsn ≤ files.recovered.state.lsn := by
  rw [Files.recovered, Recovered.extend_eq _ hsorted]
  have hbeyond := hsorted.filter (fun record => decide (files.manifest.lsn < record.lsn))
  have hmem : ∀ {record : WalRecord}, record ∈ files.records → files.manifest.lsn < record.lsn →
      record ∈ files.records.filter (fun record => files.manifest.lsn < record.lsn) :=
    fun hrec hlt => mem_filter.mpr ⟨hrec, decide_eq_true hlt⟩
  cases hlast : (files.records.filter
      (fun record => files.manifest.lsn < record.lsn)).getLast? with
  | none =>
    rw [Option.map_none, Option.getD_none]
    refine ⟨le_rfl, fun record hrec => not_lt.mp (fun hlt => ?_)⟩
    have hnil := hmem hrec hlt
    rw [getLast?_eq_none_iff.mp hlast] at hnil
    exact absurd hnil not_mem_nil
  | some last =>
    rw [Option.map_some, Option.getD_some, stateOf]
    obtain ⟨front, hfront⟩ := getLast?_eq_some_iff.mp hlast
    have hlt : files.manifest.lsn < last.lsn :=
      of_decide_eq_true (mem_filter.mp (mem_of_getLast? hlast)).2
    refine ⟨hlt.le, fun record hrec => ?_⟩
    rcases le_or_gt record.lsn files.manifest.lsn with hle | hgt
    · exact hle.trans hlt.le
    · have hin := hmem hrec hgt
      rw [hfront] at hin hbeyond
      rcases mem_append.mp hin with hin | hin
      · exact ((pairwise_append.mp hbeyond).2.2 record hin last mem_cons_self).le
      · rw [mem_singleton.mp hin]

/-! ## The tree -/

section Tree

variable {ordered : Bool} {pages : Pages} {values kept : Bytes} {manifest : TreeState}
  {records : List WalRecord} {base rows : Rows} {levels : Nat} {depth : Nat}

/-- Under the root that a record names there is a tree of the length it names. -/
def namesTree (pages : Pages) (values : Bytes) (record : WalRecord) : Bool :=
  (openValidated pages values record.root record.len).isOk

/-- Not so past the end of the page file. -/
theorem namesTree_beyond (hsuper : SuperFirst pages) {record : WalRecord}
    (hroot : pages.length ≤ record.root) : namesTree pages values record = false := by
  have hzero : readPage pages 0 = .ok .super := readPage_ok.mpr hsuper
  have hne : record.root ≠ 0 := by
    intro heq
    rw [heq] at hroot
    exact hsuper.ne_nil (length_eq_zero_iff.mp (Nat.le_zero.mp hroot))
  obtain ⟨error, herr⟩ : ∃ error, PageTree.open pages values record.root record.len
      = .error error := by
    rw [PageTree.open, if_neg hsuper.ne_nil, hzero, ok_bind]
    refine bind_error (fun values' _ => ?_)
    rw [if_neg hne, readPage, getElem?_eq_none hroot]
    exact ⟨_, rfl⟩
  rw [namesTree, openValidated, herr]
  rfl

theorem replayRecords_ok (hvalid : ∀ record ∈ records, record.Valid)
    (ht : Denotes ordered tree levels rows) (hshallow : ShallowReplay tree records) :
    ∃ tree', replayRecords tree records = .ok tree' ∧ Shallow tree' := by
  induction records generalizing tree levels rows with
  | nil => exact ⟨_, rfl, hshallow⟩
  | cons record rest ih =>
    rw [forall_mem_cons] at hvalid
    obtain ⟨hlsn, hops⟩ := hvalid.1
    obtain ⟨middle, depth, hrun, _, hden⟩ := replayOperations_denotes hlsn hops ht hshallow.1
    obtain ⟨tree', hrest, hend⟩ := ih hvalid.2 hden (hshallow.2 middle hrun)
    exact ⟨tree', by rw [replayRecords, hrun, ok_bind, hrest], hend⟩

/-- **TWICE**: from the map after record `a` the records up to `s` lead to the map of `tree`.
    Replayed onto it they leave that map, exactly when every tree they are replayed on is within the
    depth bound. -/
theorem span_replay_idempotent {start : Rows} (hs : Sorted start)
    (hvalid : ∀ record ∈ records, record.Valid)
    (hcaller : ∀ record ∈ records, ∀ operation ∈ record.operations, operation.FromCaller)
    (hsorted : records.Pairwise (fun a b => a.lsn < b.lsn)) {a s : Nat}
    (hmap : HoldsMap tree (replayLog start
      (records.filter (fun record => a < record.lsn ∧ record.lsn ≤ s)))) :
    (∃ tree' reached, replayWalSpan s tree a records = .ok (tree', reached) ∧ Shallow tree' ∧
      HoldsMap tree' (replayLog start
        (records.filter (fun record => a < record.lsn ∧ record.lsn ≤ s)))) ↔
      ShallowReplay tree (records.filter (fun record => a < record.lsn ∧ record.lsn ≤ s)) := by
  obtain ⟨levels, hden⟩ := hmap
  obtain ⟨reached, _, _, _, hspan⟩ := replayWalSpan_records hsorted s tree a
  have hmine : ∀ record ∈ records.filter (fun record => a < record.lsn ∧ record.lsn ≤ s),
      record.Valid := fun record hrec => hvalid record (mem_of_mem_filter hrec)
  constructor
  · rintro ⟨tree', reached', hrun, hshallow, _⟩
    rw [hspan] at hrun
    obtain ⟨_, hreplay, heq⟩ := map_eq_ok hrun
    cases heq
    exact (replayRecords_of_ok hmine hden hreplay).2 hshallow
  · intro hreplay
    obtain ⟨tree', hrun, hend⟩ := replayRecords_ok hmine hden hreplay
    obtain ⟨⟨levels', _, hden'⟩, _⟩ := replayRecords_of_ok hmine hden hrun
    refine ⟨tree', reached, by rw [hspan, hrun]; rfl, hend, levels', ?_⟩
    rwa [replayLog_twice hs (fun record hrec => hcaller record (mem_of_mem_filter hrec))] at hden'

/-- A key is put, deleted and put again, another is put and deleted; all of it replayed again. -/
theorem span_replay_idempotent_overwritten :
    let records : List WalRecord := [⟨1, [.put [1] [10], .put [2] [20]], 0, 0⟩,
      ⟨2, [.delete [1]], 0, 0⟩, ⟨3, [.put [1] [11], .delete [2]], 0, 0⟩]
    ∃ tree again reached, replayRecords .fresh records = .ok tree ∧
      HoldsMap tree (replayLog [] records) ∧
      replayWalSpan 3 tree 0 records = .ok (again, reached) ∧
      HoldsMap again (replayLog [] records) := by
  intro records
  have hvalid : ∀ record ∈ records, record.lsn < 2 ^ 64 ∧
      ∀ operation ∈ record.operations, operation.Valid := by decide
  have hcaller : ∀ record ∈ records, ∀ operation ∈ record.operations,
      tombstonePrefix.isPrefixOf operation.key = false := by decide
  obtain ⟨tree, again, last, hfirst, hsecond, hput⟩ : ∃ tree again last,
      replayRecords .fresh records = .ok tree ∧ replayRecords tree records = .ok again ∧
        again.applyPut [9] [] 4 = .ok last := ⟨_, _, _, rfl, rfl, rfl⟩
  obtain ⟨⟨levels, -, hden⟩, -⟩ := replayRecords_of_ok hvalid fresh_denotes hfirst
  obtain ⟨⟨levels', -, hden'⟩, hshallow⟩ := replayRecords_of_ok hvalid hden hsecond
  obtain ⟨again, reached, hspan, -, hmap⟩ :=
    (span_replay_idempotent (a := 0) (s := 3) sorted_nil hvalid hcaller (by decide)
      ⟨levels, hden⟩).mpr (hshallow (hden'.shallow_iff.mpr (applyPut_shallow hden' hput)))
  exact ⟨tree, again, reached, hfirst, ⟨levels, hden⟩, hspan, hmap⟩

/-- **TOO DEEP**: the put that takes a tree beyond the depth bound cannot be replayed onto it. -/
theorem span_replay_tooDeep :
    let record : WalRecord := ⟨1, [.put lowKey []], 0, 0⟩
    ∃ tree, HoldsMap tree (replayLog (spineRows 63) [record]) ∧
      ∀ result, replayWalSpan 1 tree 0 [record] ≠ .ok result := by
  have hone : 1 < 256 ^ 8 := by decide
  obtain ⟨_, hkey, _⟩ := bind_eq_ok.mp lowKey_valid
  have hvalue : Storable ⟨[], 1⟩ := ⟨hone, Nat.zero_le _⟩
  obtain ⟨tree, _, _, levels, _, hden, hdeep⟩ := applyPut_denotes
    (spineTree_denotes (by decide : 63 < 255)) (Nat.le_refl 64) (storedKey_of_valid hkey).1 hvalue
  have htomb : lookup (tombstoneKey lowKey) (put lowKey ⟨[], 1⟩ (spineRows 63)) = none := by
    rw [lookup_put, if_neg (tombstoneKey_ne_user rfl lowKey).symm]
    exact spine_atRest_serves.tombless rfl lowKey
  refine ⟨tree, ⟨levels, ?_⟩, fun result hrun => ?_⟩
  · have hrows := erase_of_lookup_none htomb
    rw [← hrows] at hden
    exact hden
  · obtain ⟨middle, hreplay, _⟩ := bind_eq_ok.mp hrun
    obtain ⟨after, hstep, _⟩ := bind_eq_ok.mp hreplay
    have hle := hden.shallow_iff.mp (shallowStep_of_replay hden hone lowKey_valid hstep).1
    rw [hdeep (spineTree_putSplits le_rfl hvalue)] at hle
    exact absurd hle (by decide)

/-- The records beyond a state. -/
abbrev TreeState.lacks (state : TreeState) (records : List WalRecord) : List WalRecord :=
  records.filter (fun record => state.lsn < record.lsn)

/-- The newest state that the log knows of. -/
def newestState (manifest : TreeState) (records : List WalRecord) : TreeState :=
  ((manifest.lacks records).getLast?.map stateOf).getD manifest

section

variable (hbase : Denotes ordered ⟨pages, kept, manifest.root, manifest.len⟩ depth base)
  (htail : ValueLog.recoverTail values = .ok kept)
include hbase htail

/-- A redo replays what the manifest's tree lacks. -/
theorem redoFromCheckpoint_eq :
    (depth ≤ maxTreeDepth → redoFromCheckpoint pages values manifest (manifest.lacks records)
      = replayRecords ⟨pages, kept, manifest.root, manifest.len⟩ (manifest.lacks records)) ∧
    ∀ {tree : PageTree}, redoFromCheckpoint pages values manifest (manifest.lacks records)
      = .ok tree → depth ≤ maxTreeDepth := by
  have hredo := redo_denotes hbase htail manifest.lsn (manifest.lacks records)
  rw [filter_filter] at hredo
  simp only [Bool.and_self] at hredo
  exact hredo

variable (hrows : rows = replayLog base (manifest.lacks records))
  (hnames : ∀ record ∈ (manifest.lacks records).getLast?,
    Denotes ordered ⟨pages, kept, record.root, record.len⟩ levels rows ∨
      namesTree pages values record = false)
include hrows hnames

/-- **ADOPTED**: the root that opening adopts holds the logged map and is within the depth bound, if
    the tree that the last record names is the one it meant, or is not there. -/
theorem adopted_denotes {opened : PageTree}
    (hopen : openValidated pages values (newestState manifest records).root
      (newestState manifest records).len = .ok opened) :
    ∃ levels, levels ≤ maxTreeDepth ∧ Denotes ordered opened levels rows ∧ opened.pages = pages ∧
      opened.values = kept := by
  rw [newestState] at hopen
  cases hlast : (manifest.lacks records).getLast? with
  | none =>
    -- the manifest is the newest state
    rw [hlast, Option.map_none, Option.getD_none] at hopen
    obtain ⟨rfl, hd⟩ := (openValidated_denotes hbase htail).2 hopen
    rw [getLast?_eq_none_iff.mp hlast] at hrows
    refine ⟨depth, hd, ?_, rfl, rfl⟩
    rw [hrows]
    exact hbase
  | some record =>
    rw [hlast, Option.map_some, Option.getD_some, stateOf] at hopen
    rcases hnames record hlast with hden | hlost
    · obtain ⟨rfl, hd⟩ := (openValidated_denotes hden htail).2 hopen
      exact ⟨levels, hd, hden, rfl, rfl⟩
    · rw [namesTree, hopen] at hlost
      cases hlost

variable (hvalid : ∀ record ∈ records, record.Valid)
  (hsorted : records.Pairwise (fun a b => a.lsn < b.lsn))
include hvalid hsorted

/-- **RECOVERY**: the tree that opening arrives at holds the logged map, if the tree that the last
    record names is the one it meant, or is not there. -/
theorem recoverTree_of_ok (hwhole : ValueLog.Whole kept)
    (hrun : recoverTree pages values manifest ((Recovered.mk manifest []).extend records)
      = .ok tree) :
    ∃ levels, Denotes ordered tree levels rows ∧ pages <+: tree.pages ∧ kept <+: tree.values ∧
      ValueLog.Whole tree.values := by
  rw [Recovered.extend_eq _ hsorted, recoverTree] at hrun
  rw [nil_append, ← newestState] at hrun
  cases hopen : openValidated pages values (newestState manifest records).root
      (newestState manifest records).len with
  | ok =>
    rw [hopen] at hrun
    cases hrun
    obtain ⟨levels, _, hden, rfl, rfl⟩ := adopted_denotes hbase htail hrows hnames hopen
    exact ⟨levels, hden, prefix_rfl, prefix_rfl, hwhole⟩
  | error =>
    rw [hopen] at hrun
    obtain ⟨hsame, hdepth⟩ := @redoFromCheckpoint_eq _ _ _ _ _ records _ _ hbase htail
    rw [hsame (hdepth hrun)] at hrun
    obtain ⟨⟨levels, hgrows, hden⟩, _⟩ := replayRecords_of_ok
      (fun record hrec => hvalid record (mem_of_mem_filter hrec)) hbase hrun
    rw [← hrows] at hden
    exact ⟨levels, hden, hgrows.pages, hgrows.values, hgrows.whole hwhole⟩

/-- **RECOVERY SUCCEEDS**: when the last record names a tree that is there, or the records can be
    replayed within the depth bound; what it arrives at is within the bound. -/
theorem recoverTree_ok
    (hshallow : (manifest.lacks records).getLast?.any
        (namesTree pages values) = true ∨
      ShallowReplay ⟨pages, kept, manifest.root, manifest.len⟩ (manifest.lacks records)) :
    ∃ tree, recoverTree pages values manifest ((Recovered.mk manifest []).extend records)
      = .ok tree ∧ Shallow tree := by
  rw [Recovered.extend_eq _ hsorted, recoverTree]
  rw [nil_append, ← newestState]
  cases hopen : openValidated pages values (newestState manifest records).root
      (newestState manifest records).len with
  | ok opened =>
    obtain ⟨levels, hd, hden, _⟩ := adopted_denotes hbase htail hrows hnames hopen
    exact ⟨opened, rfl, hden.shallow_iff.mpr hd⟩
  | error =>
    rcases hshallow with hthere | hreplay
    · -- then the root would have been adopted
      obtain ⟨record, hlast, hnamed⟩ := (Option.any_eq_true _ _).mp hthere
      rw [newestState, hlast, Option.map_some, Option.getD_some, stateOf] at hopen
      rw [namesTree, hopen] at hnamed
      cases hnamed
    · obtain ⟨tree, hrun, hend⟩ := replayRecords_ok
        (fun record hrec => hvalid record (mem_of_mem_filter hrec)) hbase hreplay
      exact ⟨tree, ((@redoFromCheckpoint_eq _ _ _ _ _ records _ _ hbase htail).1
        (hbase.shallow_iff.mp hreplay.shallow)).trans hrun, hend⟩

end

end Tree

/-! ## The engine -/

section Open

variable {ordered : Bool} {options : EngineOptions} {files : Files} {engine : Engine}
  {levels : Nat} {rows : Rows} {operation : BatchOperation}

/-- The range of a string admits the keys that start with it. -/
theorem prefixRange_admits {start key : Bytes} :
    (ScanRange.mk (some start) (successor start) none).admits key = true ↔
      start <+: key := by
  simp only [ScanRange.admits, Option.all_some, Option.any_none, Bool.not_false, Bool.and_true,
    Bool.and_eq_true, decide_eq_true_eq]
  constructor
  · rintro ⟨hle, hstop⟩
    refine (prefix_iff_lt_successor hle).mpr (fun stop hsucc => ?_)
    rw [hsucc] at hstop
    exact of_decide_eq_true hstop
  · intro hpre
    have hle : start ≤ key := le_of_isPrefix hpre
    refine ⟨hle, ?_⟩
    cases hsucc : successor start with
    | none => rfl
    | some stop =>
      exact decide_eq_true ((prefix_iff_lt_successor hle).mp hpre stop hsucc)

/-- The definitions of indexes among the rows can be read. -/
def Defined (rows : Rows) : Prop :=
  ∀ row ∈ rows, indexDefinitionPrefix <+: row.1 →
    ∃ definition, decodeIndexDefinition row = .ok definition

/-- An operation that defines an index writes a definition that can be read. -/
def BatchOperation.Defines : BatchOperation → Prop
  | .put key value => indexDefinitionPrefix.isPrefixOf key = true →
      (decodeIndexDefinition (key, ⟨value, 0⟩)).toOption.isSome = true
  | .delete _ => True

theorem defines_of_other (h : indexDefinitionPrefix.isPrefixOf operation.key = false) :
    operation.Defines := by
  cases operation with
  | put key =>
    intro hpre
    rw [BatchOperation.key] at h
    rw [h] at hpre
    exact absurd hpre Bool.false_ne_true
  | delete => exact trivial

/-- Definitions are the engine's own. -/
theorem defines_of_user (h : isInternal operation.key = false) : operation.Defines := by
  refine defines_of_other (Bool.eq_false_iff.mpr (fun hpre => ?_))
  obtain ⟨rest, hrest⟩ := List.isPrefixOf_iff_prefix.mp hpre
  rw [← hrest] at h
  cases h

theorem Defined.replayAll {operations : List BatchOperation} {lsn : Nat}
    (hdefines : ∀ operation ∈ operations, operation.Defines) {rows : Rows} (h : Defined rows) :
    Defined (replayAll lsn rows operations) := by
  intro row hrow hpre
  rcases mem_replayAll hrow with hrow | ⟨_, hput | ⟨key, _, hkey, _⟩⟩
  · exact h row hrow hpre
  · have hsome := hdefines _ hput (List.isPrefixOf_iff_prefix.mpr hpre)
    cases hdecode : decodeIndexDefinition (row.1, ⟨row.2.value, 0⟩) with
    | error =>
      rw [hdecode] at hsome
      cases hsome
    | ok definition => exact ⟨definition, hdecode⟩
  · -- a tombstone is no definition
    have hno : indexDefinitionPrefix.isPrefixOf (tombstoneKey key) = false := rfl
    rw [hkey] at hpre
    exact absurd (hno.symm.trans (List.isPrefixOf_iff_prefix.mpr hpre)) Bool.false_ne_true

theorem loadIndexes_ok (hden : Denotes ordered tree levels rows) (hd : levels ≤ maxTreeDepth)
    (hdefined : Defined rows) : ∃ indexes, loadIndexes tree = .ok indexes := by
  have hall : ∀ row ∈ (ScanRange.select ⟨some indexDefinitionPrefix,
      successor indexDefinitionPrefix, none⟩ rows).take usizeMax,
      ∃ definition, decodeIndexDefinition row = .ok definition := by
    intro row hrow
    obtain ⟨hmem, hin⟩ := mem_filter.mp (mem_of_mem_take hrow)
    exact hdefined row hmem (prefixRange_admits.mp hin)
  obtain ⟨definitions, hmap⟩ := Catalog.mapM_total hall
  exact ⟨_, by rw [loadIndexes, (scan_denotes hden hd _ _).1, ok_bind, hmap]; rfl⟩

/-- **OPENS**: over a tree within the depth bound whose definitions can be read, opening
    succeeds. -/
theorem openWithOptions_ok {tree : PageTree}
    (hrecover : recoverTree files.pages files.values files.manifest files.recovered = .ok tree)
    (hden : Denotes ordered tree levels rows) (hd : levels ≤ maxTreeDepth)
    (hdefined : Defined rows) (options : EngineOptions) :
    ∃ engine, openWithOptions options files = .ok engine := by
  obtain ⟨indexes, hindexes⟩ := loadIndexes_ok hden hd hdefined
  rw [openWithOptions, hrecover, ok_bind, hindexes, ok_bind, countExcluding_denotes hden hd, ok_bind,
    (scan_denotes hden hd _ _).1]
  exact ⟨_, rfl⟩

theorem openWithOptions_form (hrun : openWithOptions options files = .ok engine) :
    engine.wal = files.records ∧ engine.lastLsn = files.recovered.state.lsn ∧
      engine.writeBackAbsorbed = engine.lastLsn ∧ engine.poisoned = false ∧
      engine.mvcc = (Mvcc.collect files.revisions none engine.lastLsn).2 ∧
      engine.activeSnapshots = [] ∧ engine.sharedSnapshots = [] ∧
      ∀ b, engine.writeBack = some b → b.entries = [] := by
  obtain ⟨_, _, hrun⟩ := bind_eq_ok.mp hrun
  obtain ⟨_, _, hrun⟩ := bind_eq_ok.mp hrun
  obtain ⟨_, _, hrun⟩ := bind_eq_ok.mp hrun
  obtain ⟨_, _, hrun⟩ := bind_eq_ok.mp hrun
  cases hrun
  refine ⟨rfl, rfl, rfl, rfl, rfl, rfl, rfl, fun b hb => ?_⟩
  split_ifs at hb
  cases hb
  rfl

/-- **OPEN**: what opening makes of a tree. -/
theorem openWithOptions_of_ok (hrun : openWithOptions options files = .ok engine)
    (htree : ∀ tree, recoverTree files.pages files.values files.manifest files.recovered
      = .ok tree → Denotes ordered tree levels rows) :
    recoverTree files.pages files.values files.manifest files.recovered = .ok engine.tree ∧
      levels ≤ maxTreeDepth ∧ engine.userLen = (userRows rows).length ∧
      (engine.tombstonesPossible = false →
        ∀ key, lookup (tombstoneKey key) rows = none) := by
  obtain ⟨tree, hrecover, hrun⟩ := bind_eq_ok.mp hrun
  obtain ⟨indexes, _, hrun⟩ := bind_eq_ok.mp hrun
  obtain ⟨count, hcount, hrun⟩ := bind_eq_ok.mp hrun
  obtain ⟨tombstones, hscan, hrun⟩ := bind_eq_ok.mp hrun
  cases hrun
  have hden := htree tree hrecover
  have hd := hden.within_of_count hcount
  rw [countExcluding_denotes hden hd] at hcount
  rw [(scan_denotes hden hd _ _).1] at hscan
  refine ⟨hrecover, hd, (Except.ok.inj hcount).symm, fun hnone key => ?_⟩
  have hempty : tombstones = [] := by simpa using hnone
  rw [hempty] at hscan
  rcases take_eq_nil_iff.mp (Except.ok.inj hscan) with hone | hnil
  · cases hone
  · -- the probe would have found a tombstone
    refine lookup_eq_none (fun row hrow heq => ?_)
    exact filter_eq_nil_iff.mp hnil row hrow (prefixRange_admits.mpr (heq ▸ prefix_append _ _))

end Open

end Vyrn
