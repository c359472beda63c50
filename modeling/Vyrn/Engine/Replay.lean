import Vyrn.Engine.Plan
import Vyrn.PageTree.Deep

/-!
# Replaying logged operations onto a tree

Recovery, checkpoints and replicas apply the log one operation at a time, each through a put or a
delete that is published at once; tombstones are re-derived. A step succeeds only on a tree within
the depth bound, and since single puts do not merge pages, the tree of a replay may grow deeper than
the one the batch was committed to.

Main results: `replayOperation_denotes`, `replayOperations_denotes`, `replayOperations_of_ok`,
`replayWalSpan_of_ok`.
-/

namespace Vyrn

open SortedMap List

variable {ordered : Bool} {rows : Rows} {levels : Nat} {tree : PageTree}

/-! ## The code -/

/-- One record of the log: what a commit logged, with the root and entry count it published. -/
structure WalRecord where
  lsn : Nat
  operations : List BatchOperation
  root : Nat
  len : Nat
  deriving DecidableEq, Repr

/-- A put, published. -/
def PageTree.applyPut (tree : PageTree) (key value : Bytes) (revision : Nat) :
    Except Error PageTree := do
  let (outcome, grown) ← tree.preparePut key value revision
  return grown.publish outcome.root outcome.len

/-- A delete, published, and whether the key was there. -/
def PageTree.applyDelete (tree : PageTree) (key : Bytes) : Except Error (Bool × PageTree) := do
  match ← tree.prepareDelete key with
  | (none, grown) => return (false, grown)
  | (some outcome, grown) => return (true, grown.publish outcome.root outcome.len)

/-- The operation itself, without its tombstone. -/
def replayMain (lsn : Nat) (tree : PageTree) : BatchOperation → Except Error (Bool × PageTree)
  | .put key value => do
    let tree ← tree.applyPut key value lsn
    return (true, tree)
  | .delete key => tree.applyDelete key

/-- The tombstone of a user key: a put clears it, a delete that found its key leaves it. -/
def replayTombstone (lsn : Nat) (tree : PageTree) : BatchOperation → Except Error PageTree
  | .put key _ => do
    let (_, tree) ← tree.applyDelete (tombstoneKey key)
    return tree
  | .delete key => tree.applyPut (tombstoneKey key) [] lsn

def replayOperation (lsn : Nat) (tree : PageTree) (operation : BatchOperation) :
    Except Error PageTree := do
  let (happened, tree) ← replayMain lsn tree operation
  if happened && !isInternal operation.key then replayTombstone lsn tree operation
  else return tree

def replayOperations (lsn : Nat) : PageTree → List BatchOperation → Except Error PageTree
  | tree, [] => .ok tree
  | tree, operation :: rest => do
    let tree ← replayOperation lsn tree operation
    replayOperations lsn tree rest

/-- The records after `after`, in order, up to `until`; returns how far it got. -/
def replayWalSpan (upTo : Nat) : PageTree → Nat → List WalRecord →
    Except Error (PageTree × Nat)
  | tree, reached, [] => .ok (tree, reached)
  | tree, reached, record :: rest =>
    if record.lsn ≤ reached then replayWalSpan upTo tree reached rest
    else if upTo < record.lsn then .ok (tree, reached)
    else do
      let tree ← replayOperations record.lsn tree record.operations
      replayWalSpan upTo tree record.lsn rest

/-- The root, count and LSN a manifest or the end of the log names. -/
structure TreeState where
  root : Nat
  len : Nat
  lsn : Nat
  deriving DecidableEq, Repr

def replayRecords : PageTree → List WalRecord → Except Error PageTree
  | tree, [] => .ok tree
  | tree, record :: rest => do
    let tree ← replayOperations record.lsn tree record.operations
    replayRecords tree rest

/-- Opens a tree and checks its structure. -/
def openValidated (pages : Pages) (values : Bytes) (root len : Nat) : Except Error PageTree := do
  let tree ← PageTree.open pages values root len
  tree.validate
  return tree

/-- Rebuilds the tree from the checkpoint root by reapplying the log. -/
def redoFromCheckpoint (pages : Pages) (values : Bytes) (base : TreeState)
    (redo : List WalRecord) : Except Error PageTree :=
  match openValidated pages values base.root base.len with
  | .error _ => .error (.corruptManifest ("checkpoint root is unreachable; the page file lost " ++
      "pre-checkpoint data — restore from a backup"))
  | .ok tree => replayRecords tree (redo.filter (fun record => base.lsn < record.lsn))

/-! ## Shallow trees -/

/-- A well-formed tree within the depth bound. -/
def Shallow (tree : PageTree) : Prop :=
  ∃ levels rows, levels ≤ maxTreeDepth ∧ Denotes false tree levels rows

section

variable (h : Denotes ordered tree levels rows) {ordered' : Bool} {levels' : Nat} {rows' : Rows}
include h

theorem Denotes.unordered :
    Denotes false tree levels rows := by
  obtain ⟨entries, hsuper, hrooted, hlen, hrel⟩ := h
  refine ⟨entries, hsuper, ?_, hlen, hrel⟩
  cases levels with
  | zero => exact hrooted
  | succ h =>
    cases ordered with
    | true => exact Node.unordered hrooted
    | false => exact hrooted

/-- A tree has one number of levels. -/
theorem Denotes.levels_unique (h' : Denotes ordered' tree levels' rows') : levels = levels' := by
  obtain ⟨entries, hsuper, hrooted, _⟩ := h
  obtain ⟨entries', _, hrooted', _⟩ := h'
  cases levels with
  | zero =>
    cases levels' with
    | zero => rfl
    | succ k => exact absurd hrooted.1 (hsuper.id_ne_zero hrooted')
  | succ k =>
    cases levels' with
    | zero => exact absurd hrooted'.1 (hsuper.id_ne_zero hrooted)
    | succ k' => rw [Node.height_unique hrooted hrooted']

/-- And it holds one map. -/
theorem Denotes.rows_unique (h' : Denotes ordered' tree levels' rows') : rows = rows' := by
  obtain rfl := h.levels_unique h'
  obtain ⟨entries, _, hrooted, _, hrel⟩ := h.unordered
  obtain ⟨entries', _, hrooted', _, hrel'⟩ := h'.unordered
  suffices hsame : entries = entries' by
    rw [(rows_eq_map hrel).1, (rows_eq_map hrel').1, hsame]
  cases levels with
  | zero => rw [hrooted.2, hrooted'.2]
  | succ k => exact Node.unique hrooted hrooted'

theorem Denotes.shallow_iff :
    Shallow tree ↔ levels ≤ maxTreeDepth := by
  constructor
  · rintro ⟨levels', rows', hle, h'⟩
    rwa [h.levels_unique h']
  · exact fun hle => ⟨levels, rows, hle, h.unordered⟩

theorem Denotes.sorted : Sorted rows := by
  obtain ⟨entries, _, hrooted, _, hrel⟩ := h
  exact hrel.sorted hrooted.sorted

end

/-! ## What a step keeps -/

section Steps

variable {ordered : Bool} {tree tree' : PageTree} {levels : Nat} {rows : Rows}
  {operation : BatchOperation} {operations : List BatchOperation} {lsn : Nat}

/-- A put adds at most a level, and one when the root splits. -/
theorem applyPut_denotes (ht : Denotes ordered tree levels rows) (hd : levels ≤ maxTreeDepth)
    {key value : Bytes} {revision : Nat} (hkey : StoredKey key)
    (hvalue : ValueLog.Admissible revision value) :
    ∃ tree', tree.applyPut key value revision = .ok tree' ∧ Grows tree tree' ∧
      ∃ levels', levels' ≤ levels + 1 ∧
        Denotes ordered tree' levels' (put key ⟨value, revision⟩ rows) ∧
        (PutSplits tree key value revision → levels' = levels + 1) := by
  obtain ⟨outcome, grown, hput, hgrows, levels', hle, hden⟩ :=
    preparePut_denotes ht hd hkey hvalue
  refine ⟨grown.publish outcome.root outcome.len, ?_, { hgrows with }, levels', hle, hden⟩
  rw [PageTree.applyPut, hput, ok_bind]
  rfl

theorem applyDelete_denotes (ht : Denotes ordered tree levels rows) (hd : levels ≤ maxTreeDepth)
    (key : Bytes) :
    ∃ tree', tree.applyDelete key = .ok ((lookup key rows).isSome, tree') ∧
      Grows tree tree' ∧ ∃ levels', Denotes ordered tree' levels' (erase key rows) := by
  obtain ⟨habsent, hpresent⟩ := prepareDelete_denotes ht hd key
  cases hlook : lookup key rows with
  | none =>
    refine ⟨tree, ?_, Grows.refl tree, levels, ?_⟩
    · rw [PageTree.applyDelete, habsent hlook, ok_bind]
      rfl
    · rw [erase_of_lookup_none hlook]
      exact ht
  | some =>
    obtain ⟨outcome, grown, hdel, hgrows, levels', hden⟩ := hpresent (by rw [hlook]; rfl)
    refine ⟨grown.publish outcome.root outcome.len, ?_, { hgrows with }, levels', hden⟩
    rw [PageTree.applyDelete, hdel, ok_bind]
    rfl

/-- What an operation does to its own key's entry. -/
def entryChange (lsn : Nat) (rows : Rows) :
    BatchOperation → Rows
  | .put key value => put key ⟨value, lsn⟩ rows
  | .delete key => erase key rows

/-- What it does to its key's tombstone. -/
def tombstoneChange (lsn : Nat) (rows : Rows) :
    BatchOperation → Rows
  | .put key _ => erase (tombstoneKey key) rows
  | .delete key => put (tombstoneKey key) ⟨[], lsn⟩ rows

/-- A replayed operation changes the entry, and the tombstone of a user key with it. -/
theorem replayed_eq (lsn : Nat) (operation : BatchOperation) :
    replayed lsn rows operation
      = if (HasEffect rows operation && !isInternal operation.key) = true then
          tombstoneChange lsn (entryChange lsn rows operation) operation
        else entryChange lsn rows operation := by
  cases operation with
  | put key =>
    rw [replayed, HasEffect, Bool.true_and, BatchOperation.key]
    cases isInternal key with
    | true => rfl
    | false => rfl
  | delete key =>
    rw [replayed, HasEffect, BatchOperation.key]
    by_cases hsome : (lookup key rows).isSome = true
    · rw [if_pos hsome, hsome]
      cases isInternal key with
      | true => rfl
      | false => rfl
    · rw [if_neg hsome, if_neg (by simp [hsome]), entryChange,
        erase_of_lookup_none (Option.not_isSome_iff_eq_none.mp hsome)]

section

variable (ht : Denotes ordered tree levels rows) (hd : levels ≤ maxTreeDepth) (hlsn : lsn < 256 ^ 8)
  (hvalid : operation.Valid)
include ht hd hlsn hvalid

theorem replayMain_denotes :
    ∃ tree' levels', replayMain lsn tree operation = .ok (HasEffect rows operation, tree') ∧
      Grows tree tree' ∧ Denotes ordered tree' levels' (entryChange lsn rows operation) := by
  cases operation with
  | put =>
    obtain ⟨_, hkey, hvalue⟩ := bind_eq_ok.mp hvalid
    obtain ⟨tree', hput, hgrows, levels', _, hden, _⟩ :=
      applyPut_denotes ht hd (storedKey_of_valid hkey).1 ⟨hlsn, validateValue_ok hvalue⟩
    refine ⟨tree', levels', ?_, hgrows, hden⟩
    rw [replayMain, hput, ok_bind]
    rfl
  | delete key =>
    obtain ⟨tree', hdel, hgrows, levels', hden⟩ := applyDelete_denotes ht hd key
    exact ⟨tree', levels', hdel, hgrows, hden⟩

theorem replayTombstone_denotes :
    ∃ tree' levels', replayTombstone lsn tree operation = .ok tree' ∧ Grows tree tree' ∧
      Denotes ordered tree' levels' (tombstoneChange lsn rows operation) := by
  cases operation with
  | put key =>
    obtain ⟨tree', hdel, hgrows, levels', hden⟩ :=
      applyDelete_denotes ht hd (tombstoneKey key)
    refine ⟨tree', levels', ?_, hgrows, hden⟩
    rw [replayTombstone, hdel, ok_bind]
    rfl
  | delete =>
    have hempty : ValueLog.Admissible lsn [] := ⟨hlsn, Nat.zero_le _⟩
    obtain ⟨tree', hput, hgrows, levels', _, hden, _⟩ :=
      applyPut_denotes ht hd (storedKey_of_valid hvalid).2 hempty
    exact ⟨tree', levels', hput, hgrows, hden⟩

end

/-- The trees one replayed operation descends: the one it finds and, when its tombstone changes
    too, the one in between. -/
def ShallowStep (lsn : Nat) (tree : PageTree) (operation : BatchOperation) : Prop :=
  Shallow tree ∧ ∀ happened middle, replayMain lsn tree operation = .ok (happened, middle) →
    (happened && !isInternal operation.key) = true → Shallow middle

/-- Every tree a replay meets, the last one included, is shallow. -/
def ShallowRun (lsn : Nat) : PageTree → List BatchOperation → Prop
  | tree, [] => Shallow tree
  | tree, operation :: rest => ShallowStep lsn tree operation ∧
      ∀ tree', replayOperation lsn tree operation = .ok tree' → ShallowRun lsn tree' rest

theorem ShallowRun.shallow (h : ShallowRun lsn tree operations) : Shallow tree := by
  cases operations with
  | nil => exact h
  | cons operation rest => exact h.1.1

section

variable (ht : Denotes ordered tree levels rows)
include ht

/-- **ONE OPERATION**: on shallow trees a replayed operation does what `replayed` says. -/
theorem replayOperation_denotes (hlsn : lsn < 256 ^ 8) (hvalid : operation.Valid)
    (hshallow : ShallowStep lsn tree operation) :
    ∃ tree' levels', replayOperation lsn tree operation = .ok tree' ∧ Grows tree tree' ∧
      Denotes ordered tree' levels' (replayed lsn rows operation) := by
  obtain ⟨middle, depth, hmain, hgrows, hden⟩ :=
    replayMain_denotes ht (ht.shallow_iff.mp hshallow.1) hlsn hvalid
  rw [replayed_eq lsn]
  split_ifs with htomb
  · have hdepth := hden.shallow_iff.mp (hshallow.2 _ _ hmain htomb)
    obtain ⟨tree', levels', hstep, hgrows', hden'⟩ :=
      replayTombstone_denotes hden hdepth hlsn hvalid
    refine ⟨tree', levels', ?_, hgrows.trans hgrows', hden'⟩
    rw [replayOperation, hmain, ok_bind]
    dsimp only
    rw [if_pos htomb, hstep]
  · refine ⟨middle, depth, ?_, hgrows, hden⟩
    rw [replayOperation, hmain, ok_bind]
    dsimp only
    rw [if_neg htomb]
    rfl

omit ht in
/-- Replayed operations leave a tree of the replayed map. -/
theorem replayOperations_denotes (hlsn : lsn < 256 ^ 8)
    (hvalid : ∀ operation ∈ operations, operation.Valid) (ht : Denotes ordered tree levels rows)
    (hshallow : ShallowRun lsn tree operations) :
    ∃ tree' levels', replayOperations lsn tree operations = .ok tree' ∧ levels' ≤ maxTreeDepth ∧
      Denotes ordered tree' levels' (replayAll lsn rows operations) := by
  induction operations generalizing tree levels rows with
  | nil => exact ⟨tree, levels, rfl, ht.shallow_iff.mp hshallow, ht⟩
  | cons operation rest ih =>
    rw [forall_mem_cons] at hvalid
    obtain ⟨middle, depth, hstep, _, hden⟩ :=
      replayOperation_denotes ht hlsn hvalid.1 hshallow.1
    obtain ⟨tree', levels', hrun, hend⟩ := ih hvalid.2 hden (hshallow.2 middle hstep)
    refine ⟨tree', levels', ?_, hend⟩
    rw [replayOperations, hstep, ok_bind, hrun]

/-! ## A replay that succeeds met shallow trees only -/

theorem applyPut_shallow {key value : Bytes} (hput : tree.applyPut key value lsn = .ok tree') :
    levels ≤ maxTreeDepth := by
  by_contra hdeep
  obtain ⟨error, herr⟩ := (tooDeep_denotes ht (not_le.mp hdeep)).2.2.1 key value lsn
  rw [PageTree.applyPut, herr] at hput
  cases hput

theorem applyDelete_shallow {key : Bytes} {result : Bool × PageTree}
    (hdel : tree.applyDelete key = .ok result) : levels ≤ maxTreeDepth := by
  by_contra hdeep
  obtain ⟨error, herr⟩ := (tooDeep_denotes ht (not_le.mp hdeep)).2.2.2 key
  rw [PageTree.applyDelete, herr] at hdel
  cases hdel

theorem replayMain_shallow {result : Bool × PageTree}
    (hmain : replayMain lsn tree operation = .ok result) : levels ≤ maxTreeDepth := by
  cases operation with
  | put =>
    obtain ⟨_, hput, _⟩ := bind_eq_ok.mp hmain
    exact applyPut_shallow ht hput
  | delete => exact applyDelete_shallow ht hmain

theorem replayTombstone_shallow (hstep : replayTombstone lsn tree operation = .ok tree') :
    levels ≤ maxTreeDepth := by
  cases operation with
  | put =>
    obtain ⟨_, hdel, _⟩ := bind_eq_ok.mp hstep
    exact applyDelete_shallow ht hdel
  | delete => exact applyPut_shallow ht hstep

theorem shallowStep_of_replay (hlsn : lsn < 256 ^ 8) (hvalid : operation.Valid)
    (hstep : replayOperation lsn tree operation = .ok tree') : ShallowStep lsn tree operation := by
  obtain ⟨⟨_, middle⟩, hmain, hrest⟩ := bind_eq_ok.mp hstep
  have hd := replayMain_shallow ht hmain
  refine ⟨ht.shallow_iff.mpr hd, fun happened' middle' hmain' htomb => ?_⟩
  cases hmain.symm.trans hmain'
  dsimp only at hrest
  rw [if_pos htomb] at hrest
  obtain ⟨_, depth, hmain'', _, hden⟩ := replayMain_denotes ht hd hlsn hvalid
  cases hmain.symm.trans hmain''
  exact hden.shallow_iff.mpr (replayTombstone_shallow hden hrest)

end

/-- A replay that succeeds leads to the map of its operations, and when the tree it ends on is
    shallow it met shallow trees only. -/
theorem replayOperations_of_ok (hlsn : lsn < 256 ^ 8)
    (hvalid : ∀ operation ∈ operations, operation.Valid) (ht : Denotes ordered tree levels rows)
    (hrun : replayOperations lsn tree operations = .ok tree') :
    (∃ levels', Grows tree tree' ∧
      Denotes ordered tree' levels' (replayAll lsn rows operations)) ∧
    (Shallow tree' → ShallowRun lsn tree operations) := by
  induction operations generalizing tree levels rows tree' with
  | nil =>
    cases hrun
    exact ⟨⟨levels, Grows.refl tree, ht⟩, fun hshallow => hshallow⟩
  | cons operation rest ih =>
    rw [forall_mem_cons] at hvalid
    obtain ⟨middle, hstep, hrest⟩ := bind_eq_ok.mp hrun
    have hfirst := shallowStep_of_replay ht hlsn hvalid.1 hstep
    obtain ⟨_, depth, hstep', hgrows, hden⟩ := replayOperation_denotes ht hlsn hvalid.1 hfirst
    cases hstep.symm.trans hstep'
    obtain ⟨⟨levels', hgrows', hden'⟩, hshallow⟩ := ih hvalid.2 hden hrest
    refine ⟨⟨levels', hgrows.trans hgrows', hden'⟩, fun hend => ⟨hfirst, fun middle' hstep'' => ?_⟩⟩
    cases hstep.symm.trans hstep''
    exact hshallow hend

/-! ## Replaying records -/

/-- The map a log leads to. -/
def replayLog (rows : Rows) (records : List WalRecord) :
    Rows :=
  records.foldl (fun rows record => replayAll record.lsn rows record.operations) rows

theorem replayLog_append (rows : Rows) (a b : List WalRecord) :
    replayLog rows (a ++ b) = replayLog (replayLog rows a) b := foldl_append

/-- A record the replays can apply. -/
def WalRecord.Valid (record : WalRecord) : Prop :=
  record.lsn < 2 ^ 64 ∧ ∀ operation ∈ record.operations, operation.Valid

section

variable {records : List WalRecord}

/-- Every tree that a replay of the records meets is within the depth bound. -/
def ShallowReplay : PageTree → List WalRecord → Prop
  | tree, [] => Shallow tree
  | tree, record :: rest => ShallowRun record.lsn tree record.operations ∧
      ∀ tree', replayOperations record.lsn tree record.operations = .ok tree' →
        ShallowReplay tree' rest

theorem ShallowReplay.shallow (h : ShallowReplay tree records) : Shallow tree := by
  cases records with
  | nil => exact h
  | cons record rest => exact h.1.shallow

/-- A replay that succeeds leaves the replayed map, within the depth bound. -/
theorem replayRecords_of_ok (hvalid : ∀ record ∈ records, record.Valid)
    (ht : Denotes ordered tree levels rows) (hrun : replayRecords tree records = .ok tree') :
    (∃ levels', Grows tree tree' ∧ Denotes ordered tree' levels' (replayLog rows records)) ∧
    (Shallow tree' → ShallowReplay tree records) := by
  induction records generalizing tree levels rows tree' with
  | nil =>
    cases hrun
    exact ⟨⟨levels, Grows.refl tree, ht⟩, fun hshallow => hshallow⟩
  | cons record rest ih =>
    rw [forall_mem_cons] at hvalid
    obtain ⟨middle, hstep, hrest⟩ := bind_eq_ok.mp hrun
    obtain ⟨hlsn, hops⟩ := hvalid.1
    obtain ⟨⟨depth, hgrows, hden⟩, hmine⟩ := replayOperations_of_ok hlsn hops ht hstep
    obtain ⟨⟨levels', hgrows', hden'⟩, hlater⟩ := ih hvalid.2 hden hrest
    refine ⟨⟨levels', hgrows.trans hgrows', hden'⟩, fun hend =>
      ⟨hmine (hlater hend).shallow, fun middle' hstep' => ?_⟩⟩
    cases hstep.symm.trans hstep'
    exact hlater hend

/-- A span of the log is replayed record by record, up to the last of it and no further. -/
theorem replayWalSpan_records (hsorted : records.Pairwise (fun a b => a.lsn < b.lsn)) (upTo : Nat) :
    ∀ tree reached, ∃ reached', reached ≤ reached' ∧
      (∀ record ∈ records, record.lsn ≤ upTo → record.lsn ≤ reached') ∧
      (∀ last, reached ≤ last → (∀ record ∈ records, record.lsn ≤ last) → reached' ≤ last) ∧
      replayWalSpan upTo tree reached records = (replayRecords tree (records.filter
        (fun record => reached < record.lsn ∧ record.lsn ≤ upTo))).map
          (fun tree => (tree, reached')) := by
  induction records with
  | nil => exact fun tree reached => ⟨reached, le_rfl, forall_mem_nil _, fun _ h _ => h, rfl⟩
  | cons record rest ih =>
    intro tree reached
    obtain ⟨hfirst, hrest⟩ := pairwise_cons.mp hsorted
    rw [replayWalSpan]
    split_ifs with hseen hpast
    · obtain ⟨reached', hle, hall, hlast, hrun⟩ := ih hrest tree reached
      refine ⟨reached', hle, forall_mem_cons.mpr ⟨fun _ => hseen.trans hle, hall⟩,
        fun last h hrec => hlast last h (forall_mem_cons.mp hrec).2, ?_⟩
      rw [filter_cons_of_neg (by simpa using fun hlt => absurd hlt (not_lt.mpr hseen)), hrun]
    · -- the records from here on are later than `upTo`
      have hlater : ∀ r ∈ record :: rest, upTo < r.lsn :=
        forall_mem_cons.mpr ⟨hpast, fun r hr => hpast.trans (hfirst r hr)⟩
      rw [filter_eq_nil_iff.mpr (fun r hr => by
        simpa using fun _ => hlater r hr)]
      exact ⟨reached, le_rfl, fun r hr hle => absurd hle (not_le.mpr (hlater r hr)),
        fun _ h _ => h, rfl⟩
    · -- what follows the record is later than it, and so than `reached`
      rw [not_le] at hseen
      have hsame : rest.filter (fun r => record.lsn < r.lsn ∧ r.lsn ≤ upTo) =
          rest.filter (fun r => reached < r.lsn ∧ r.lsn ≤ upTo) := by
        refine filter_congr (fun r hr => ?_)
        rw [decide_eq_decide, and_iff_right (hfirst r hr),
          and_iff_right (hseen.trans (hfirst r hr))]
      rw [filter_cons_of_pos (by simpa using ⟨hseen, not_lt.mp hpast⟩), replayRecords, ← hsame]
      cases replayOperations record.lsn tree record.operations with
      | error =>
        obtain ⟨reached', hle, hall, hlast, _⟩ := ih hrest tree record.lsn
        exact ⟨reached', hseen.le.trans hle, forall_mem_cons.mpr ⟨fun _ => hle, hall⟩,
          fun last _ hrec => hlast last (hrec _ mem_cons_self) (forall_mem_cons.mp hrec).2, rfl⟩
      | ok middle =>
        obtain ⟨reached', hle, hall, hlast, hrun⟩ := ih hrest middle record.lsn
        exact ⟨reached', hseen.le.trans hle, forall_mem_cons.mpr ⟨fun _ => hle, hall⟩,
          fun last _ hrec => hlast last (hrec _ mem_cons_self) (forall_mem_cons.mp hrec).2, hrun⟩

/-- **SPAN**: a replay of a log's end leads to the map of the records it had not seen. -/
theorem replayWalSpan_of_ok (hvalid : ∀ r ∈ records, r.Valid)
    (hsorted : records.Pairwise (fun a b => a.lsn < b.lsn)) {reached reached' : Nat}
    (ht : Denotes ordered tree levels rows)
    (hrun : replayWalSpan (2 ^ 64 - 1) tree reached records = .ok (tree', reached')) :
    ∃ levels', Grows tree tree' ∧ Denotes ordered tree' levels'
        (replayLog rows (records.filter (fun record => reached < record.lsn))) ∧
      (∀ record ∈ records, record.lsn ≤ reached') ∧
      ∀ last, reached ≤ last → (∀ record ∈ records, record.lsn ≤ last) → reached' ≤ last := by
  have hbound : ∀ record ∈ records, record.lsn ≤ 2 ^ 64 - 1 :=
    fun record hrec => Nat.le_pred_of_lt (hvalid record hrec).1
  have hall : records.filter (fun record => reached < record.lsn ∧ record.lsn ≤ 2 ^ 64 - 1) =
      records.filter (fun record => reached < record.lsn) :=
    filter_congr (fun record hrec => by rw [decide_eq_decide, and_iff_left (hbound record hrec)])
  obtain ⟨_, _, hpast, hlast, hspan⟩ := replayWalSpan_records hsorted (2 ^ 64 - 1) tree reached
  rw [hspan, hall] at hrun
  obtain ⟨_, hreplay, heq⟩ := map_eq_ok hrun
  cases heq
  obtain ⟨⟨levels', hgrows, hden⟩, _⟩ :=
    replayRecords_of_ok (fun record hrec => hvalid record (mem_of_mem_filter hrec)) ht hreplay
  exact ⟨levels', hgrows, hden, fun record hrec => hpast record hrec (hbound record hrec), hlast⟩

end

end Steps

end Vyrn
