import Vyrn.Engine.Retain
import Vyrn.PageTree.Height

/-!
# The appliers of a logged batch

A batch reaches a tree in five ways: a commit rewrites the tree, or records it in the
write-back buffer that a flush hands to the tree; recovery, a checkpoint and a replica replay
the log record of that commit one operation at a time. **`appliers_agree_iff`**: all of them
succeed and lead to one map exactly when the trees a replay meets stay within the depth bound.
-/

namespace Vyrn

open SortedMap List

variable {operations : List BatchOperation} {lsn : Nat} {tree : PageTree} {key value : Bytes}
  {rows : Rows}

/-! ## A replica's applier -/

def BatchOperation.isDelete : BatchOperation → Bool
  | .put _ _ => false
  | .delete _ => true

/-- The replay of a record on a replica, which also notes the first tombstone. -/
def replicatedOperations (lsn : Nat) : PageTree → Bool → List BatchOperation →
    Except Error (PageTree × Bool)
  | tree, possible, [] => .ok (tree, possible)
  | tree, possible, operation :: rest => do
    let (happened, middle) ← replayMain lsn tree operation
    if happened && !isInternal operation.key then do
      let tree ← replayTombstone lsn middle operation
      replicatedOperations lsn tree (possible || operation.isDelete) rest
    else
      replicatedOperations lsn middle possible rest

/-- Applies a record received from a primary under the record's own LSN. -/
def Engine.applyReplicatedRecord (engine : Engine) (record : WalRecord) :
    Except Error (Nat × Engine) := do
  engine.ensureHealthy
  let expected := min (engine.lastLsn + 1) (2 ^ 64 - 1)
  if engine.writeBack.isSome then
    throw (.invalidReplicatedRecord "write-back buffering is not supported on a replica")
  else if record.lsn ≠ expected then
    throw (.invalidReplicatedRecord ("record LSN " ++ toString record.lsn ++
      " does not follow this replica's last LSN " ++ toString engine.lastLsn ++
      "; expected " ++ toString expected))
  else do
    let (tree, possible) ←
      replicatedOperations record.lsn engine.tree engine.tombstonesPossible record.operations
    let count ← tree.countExcluding internalPrefix
    return (record.lsn, { engine with
      tree := tree
      tombstonesPossible := possible
      wal := engine.wal ++ [record]
      lastLsn := record.lsn
      userLen := count })

/-- A replica that applies the records of a log in order. -/
def Engine.replicate : Engine → List WalRecord → Except Error Engine
  | engine, [] => .ok engine
  | engine, record :: rest => do
    let (_, engine) ← engine.applyReplicatedRecord record
    engine.replicate rest

/-! ## Each replay is the replay of the operations -/

/-- The replica's loop builds the tree every other replay builds. -/
theorem replicatedOperations_tree (tree : PageTree) (possible : Bool) :
    (replicatedOperations lsn tree possible operations).map Prod.fst
      = replayOperations lsn tree operations := by
  induction operations generalizing tree possible with
  | nil => rfl
  | cons operation rest ih =>
    rw [replicatedOperations, replayOperations, replayOperation]
    cases hmain : replayMain lsn tree operation with
    | error => rfl
    | ok result =>
      obtain ⟨_, middle⟩ := result
      rw [ok_bind, ok_bind]
      dsimp only
      split_ifs with htomb
      · cases hstep : replayTombstone lsn middle operation with
        | error => rfl
        | ok after => exact ih after _
      · exact ih middle possible

section Appliers

variable {ordered : Bool} {tree : PageTree} {levels : Nat} {rows : Rows}

section

variable (ht : Denotes ordered tree levels rows) {values : Bytes}
  (htail : ValueLog.recoverTail values = .ok tree.values)
include ht htail

/-- Opening a well-formed tree, over a value log whose whole records it needs, checks its depth
    and nothing else. -/
theorem openValidated_denotes :
    (levels ≤ maxTreeDepth → openValidated tree.pages values tree.root tree.len = .ok tree) ∧
      ∀ {opened : PageTree},
        openValidated tree.pages values tree.root tree.len = .ok opened →
          opened = tree ∧ levels ≤ maxTreeDepth := by
  obtain ⟨_, hsuper, hrooted, hlen, _⟩ := id ht
  have hopen := open_rooted hsuper hrooted hlen htail
  refine ⟨fun hd => ?_, fun {opened} hrun => ?_⟩
  · rw [openValidated, hopen, ok_bind, validate_rooted hsuper hrooted hlen hd]
    rfl
  · rw [openValidated, hopen, ok_bind] at hrun
    obtain ⟨_, hvalid, hrun⟩ := bind_eq_ok.mp hrun
    cases hrun
    refine ⟨rfl, not_lt.mp (fun hdeep => ?_)⟩
    obtain ⟨error, herr⟩ := (tooDeep_denotes ht hdeep).1
    rw [herr] at hvalid
    cases hvalid

/-- Recovery from a well-formed checkpoint replays what is logged after it. -/
theorem redo_denotes (lsn : Nat) (records : List WalRecord) :
    (levels ≤ maxTreeDepth →
      redoFromCheckpoint tree.pages values ⟨tree.root, tree.len, lsn⟩ records
        = replayRecords tree (records.filter (fun record => lsn < record.lsn))) ∧
      ∀ {opened : PageTree},
        redoFromCheckpoint tree.pages values ⟨tree.root, tree.len, lsn⟩ records = .ok opened →
          levels ≤ maxTreeDepth := by
  obtain ⟨hopen, hdepth⟩ := openValidated_denotes ht htail
  constructor
  · intro hd
    rw [redoFromCheckpoint]
    rw [hopen hd]
  · intro opened hrun
    rw [redoFromCheckpoint] at hrun
    cases hval : openValidated tree.pages values tree.root tree.len with
    | error =>
      rw [hval] at hrun
      cases hrun
    | ok => exact (hdepth hval).2

end

end Appliers

/-! ## An engine at rest -/

/-- An engine at LSN 0 over a tree without tombstones. -/
def Engine.atRest (tree : PageTree) : Engine where
  tree := tree
  writeBack := none
  writeBackAbsorbed := 0
  wal := []
  lastLsn := 0
  poisoned := false
  tombstonesPossible := false
  changeLogEnabled := false
  userLen := tree.len
  mvcc := ⟨0, 0, []⟩
  mvccValues := []
  indexes := []
  activeSnapshots := []
  sharedSnapshots := []

theorem atRest_mvcc (tree : PageTree) :
    Mvcc.WellFormed (Engine.atRest tree).mvcc (Engine.atRest tree).mvccValues :=
  ⟨sorted_nil, nofun⟩

theorem atRest_serves {levels : Nat} (ht : Denotes false tree levels rows)
    (hwhole : ValueLog.Whole tree.values)
    (hrows : ∀ e ∈ rows, Storable e.2 ∧ ∀ key, tombstoneKey key ≠ e.1) :
    Serves false (Engine.atRest tree) levels rows :=
  serves_of_empty ht nofun
    (fun _ key => lookup_eq_none (fun e he => ((hrows e he).2 key).symm)) hwhole
    (fun e he => (hrows e he).1)

/-- One put of a user key is accepted at rest. -/
theorem atRest_accepts (tree : PageTree) (rows : Rows)
    (hvalid : (BatchOperation.put key value).Valid) (huser : isInternal key = false) :
    Accepts (Engine.atRest tree) rows [.put key value] [.put key value] := by
  have hcaller : (BatchOperation.put key value).FromCaller := fromCaller_of_user huser
  obtain ⟨_, hkey, hvalue⟩ := bind_eq_ok.mp hvalid
  obtain ⟨_, hkey⟩ := validateKey_ok hkey
  have hvalue := validateValue_ok hvalue
  refine ⟨rfl, rfl, forall_mem_singleton.mpr hvalid, forall_mem_singleton.mpr hcaller, ?_, ?_⟩
  · show 0 + 1 < 2 ^ 64
    decide
  · show checkRecord [.put key value] = .ok ()
    have hsum : payloadLen [.put key value] = 9 + key.length + value.length := rfl
    have hbound : maxKeySize + maxValueSize + 62 < 2 ^ 32 := by decide
    rw [checkRecord_ok_iff, hsum, recordHeaderLen, recordFooterLen]
    omega

/-! ## Agreement -/

/-- `tree` is a well-formed tree that holds the map `rows`. -/
def HoldsMap (tree : PageTree) (rows : Rows) : Prop :=
  ∃ levels, Denotes false tree levels rows

/-- The same engine in write-back mode, with nothing buffered. -/
def Engine.withBuffer (engine : Engine) (flushBytes : Nat) : Engine :=
  { engine with writeBack := some (Overlay.new flushBytes) }

/-- The commit of `operations`, on the tree and through the buffer, and the three replays of the
    `records` it logs all succeed and lead to the map `rows`. -/
structure Agree (engine : Engine) (flushBytes : Nat) (operations : List BatchOperation)
    (records : List WalRecord) (rows : Rows) : Prop where
  classic : ∃ results after, engine.applyBatch operations = .ok (results, after) ∧
    after.wal = engine.wal ++ records ∧ HoldsMap after.tree rows
  writeBack : ∃ results after flushed,
    (engine.withBuffer flushBytes).applyBatch operations = .ok (results, after) ∧
      after.flushWriteBack = .ok flushed ∧ HoldsMap flushed.tree rows
  redo : ∃ tree, redoFromCheckpoint engine.tree.pages engine.tree.values
    ⟨engine.tree.root, engine.tree.len, engine.lastLsn⟩ records = .ok tree ∧ HoldsMap tree rows
  span : ∃ tree reached, replayWalSpan (2 ^ 64 - 1) engine.tree engine.lastLsn records
    = .ok (tree, reached) ∧ HoldsMap tree rows
  replica : ∃ replica, engine.replicate records = .ok replica ∧ HoldsMap replica.tree rows

section Agreement

variable {ordered : Bool} {engine : Engine} {levels : Nat} {rows : Rows} {record : WalRecord}
  {combined : List BatchOperation}

section

variable (h : Serves ordered engine levels rows)
include h

theorem Serves.holdsMap (hempty : ∀ b, engine.writeBack = some b → b.entries = []) :
    HoldsMap engine.tree rows := by
  obtain ⟨treeRows, hden, rfl⟩ := h.holds
  rw [overlaid_of_empty hempty]
  exact ⟨levels, hden.unordered⟩

theorem Serves.withBuffer (hbuf : engine.writeBack = none) (flushBytes : Nat) :
    Serves ordered (engine.withBuffer flushBytes) levels rows := by
  obtain ⟨treeRows, hden, hrows⟩ := h.holds
  rw [hbuf] at hrows
  refine ⟨⟨treeRows, hden, hrows⟩, ?_, h.tombless, h.whole, h.storable⟩
  rintro _ ⟨⟩
  exact ⟨sorted_nil, forall_mem_nil _⟩

omit h in
theorem Accepts.withBuffer (h : Accepts engine rows operations combined)
    (hbuf : engine.writeBack = none) (flushBytes : Nat) :
    Accepts (engine.withBuffer flushBytes) rows operations combined := by
  refine ⟨h.healthy, ?_, h.valid, h.caller, h.lsn, h.record⟩
  have hlog := h.changeLog
  rw [Engine.withChangeLog] at hlog ⊢
  simp only [Engine.treeGet, hbuf] at hlog
  exact hlog

/-- A buffered commit and the flush after it lead to the batch's map. -/
theorem applyBatch_flush (hd : levels ≤ maxTreeDepth)
    (hm : Mvcc.WellFormed engine.mvcc engine.mvccValues) (hbuf : engine.writeBack = none)
    (hacc : Accepts engine rows operations combined) (flushBytes : Nat) :
    ∃ results after flushed,
      (engine.withBuffer flushBytes).applyBatch operations = .ok (results, after) ∧
      after.flushWriteBack = .ok flushed ∧
      HoldsMap flushed.tree (replayAll (engine.lastLsn + 1) rows combined) := by
  obtain ⟨results, after, levels', hrun, hserves, _, _, hcases⟩ :=
    applyBatch_serves (h.withBuffer hbuf flushBytes) hm (.inl hd)
      (hacc.withBuffer hbuf flushBytes)
  refine ⟨results, after, ?_⟩
  -- either nothing is left in the buffer, or the tree is still the one before the commit
  have hleft : (∀ b, after.writeBack = some b → b.entries = []) ∨ after.tree = engine.tree := by
    rcases hcases with ⟨_, possible, rfl⟩ | ⟨_, hlog, _⟩
    · exact .inr rfl
    · rcases hlog.settles with hnone | ⟨htree, _⟩ | ⟨_, hempty⟩
      · exact .inl (fun b hb => nomatch hnone.symm.trans hb)
      · exact .inr htree
      · exact .inl hempty
  rcases hleft with hempty | htree
  · exact ⟨after, hrun, flushWriteBack_empty hempty, hserves.holdsMap hempty⟩
  · obtain ⟨treeRows, hden, _⟩ := h.holds
    obtain ⟨_, hden', _⟩ := hserves.holds
    rw [htree] at hden'
    obtain ⟨flushed, _, hflush, hserves', _, hempty⟩ :=
      flushWriteBack_serves hserves (hden'.levels_unique hden ▸ hd)
    exact ⟨flushed, hrun, hflush, hserves'.holdsMap hempty⟩

end

/-- A record that follows the replica's last one is replayed on its tree, whose user keys are
    then counted. -/
theorem applyReplicatedRecord_next (hbuf : engine.writeBack = none)
    (hhealthy : engine.poisoned = false) (hlsn : engine.lastLsn + 1 < 2 ^ 64)
    (hrec : record.lsn = engine.lastLsn + 1) {possible : Bool}
    (hloop : replicatedOperations record.lsn engine.tree
      engine.tombstonesPossible record.operations = .ok (tree, possible)) :
    engine.applyReplicatedRecord record = (do
      let count ← tree.countExcluding internalPrefix
      return (record.lsn, { engine with
        tree := tree
        tombstonesPossible := possible
        wal := engine.wal ++ [record]
        lastLsn := record.lsn
        userLen := count })) := by
  have hok := ensureHealthy_ok hhealthy
  have hexp : min (engine.lastLsn + 1) (2 ^ 64 - 1) = engine.lastLsn + 1 :=
    min_eq_left (Nat.le_sub_one_of_lt hlsn)
  rw [Engine.applyReplicatedRecord, hok, ok_bind]
  rw [hbuf, if_neg (by simp), hexp, if_neg (not_not.mpr hrec), hloop]
  rfl

/-- A replica has no buffer, and a record is applied by replaying it: it changes the tree, the log
    and the counters. -/
theorem applyReplicatedRecord_form {after : Engine}
    (hrun : engine.applyReplicatedRecord record = .ok (lsn, after)) :
    engine.writeBack = none ∧
      replayOperations record.lsn engine.tree record.operations = .ok after.tree ∧
      ∃ tree possible count, after = { engine with
        tree := tree
        tombstonesPossible := possible
        wal := engine.wal ++ [record]
        lastLsn := record.lsn
        userLen := count } := by
  obtain ⟨_, _, hrun⟩ := bind_eq_ok.mp hrun
  dsimp only at hrun
  split_ifs at hrun with hbuffer hexpected
  obtain ⟨⟨tree, possible⟩, hloop, hrun⟩ := bind_eq_ok.mp hrun
  obtain ⟨count, _, hrun⟩ := bind_eq_ok.mp hrun
  cases hrun
  refine ⟨Option.not_isSome_iff_eq_none.mp hbuffer, ?_, _, _, _, rfl⟩
  rw [← replicatedOperations_tree engine.tree engine.tombstonesPossible, hloop]
  rfl

section

variable (h : Serves ordered engine levels rows) (hbuf : engine.writeBack = none)
  (hhealthy : engine.poisoned = false) (hlsn : engine.lastLsn + 1 < 2 ^ 64)
  (hrec : record.lsn = engine.lastLsn + 1)
  (hvalid : ∀ operation ∈ record.operations, operation.Valid)
include h hbuf hhealthy hlsn hrec hvalid

/-- The three replays of one record. -/
theorem replays_of_record (hrun : ShallowRun (engine.lastLsn + 1) engine.tree record.operations) :
    (∃ tree, redoFromCheckpoint engine.tree.pages engine.tree.values
        ⟨engine.tree.root, engine.tree.len, engine.lastLsn⟩ [record] = .ok tree ∧
        HoldsMap tree (replayAll (engine.lastLsn + 1) rows record.operations)) ∧
      (∃ tree reached, replayWalSpan (2 ^ 64 - 1) engine.tree engine.lastLsn [record]
        = .ok (tree, reached) ∧
        HoldsMap tree (replayAll (engine.lastLsn + 1) rows record.operations)) ∧
      ∃ replica, engine.replicate [record] = .ok replica ∧
        HoldsMap replica.tree (replayAll (engine.lastLsn + 1) rows record.operations) := by
  obtain ⟨treeRows, hden, hrows⟩ := h.holds
  rw [hbuf, overlaid_none] at hrows
  subst hrows
  have hd := hden.shallow_iff.mp hrun.shallow
  obtain ⟨tree', levels', hreplay, hle, hden'⟩ :=
    replayOperations_denotes hlsn hvalid hden hrun
  have hholds : HoldsMap tree' (replayAll (engine.lastLsn + 1) rows record.operations) :=
    ⟨levels', hden'.unordered⟩
  rw [← hrec] at hreplay
  refine ⟨⟨tree', ?_, hholds⟩, ⟨tree', record.lsn, ?_, hholds⟩, ?_⟩
  · have hlater : [record].filter (fun r => engine.lastLsn < r.lsn) = [record] :=
      filter_eq_self.mpr (fun r hr => by
        rw [mem_singleton.mp hr, hrec]
        simp)
    rw [(redo_denotes hden h.whole.recoverTail engine.lastLsn [record]).1 hd, hlater, replayRecords, hreplay]
    rfl
  · rw [replayWalSpan, if_neg (by omega), if_neg (by omega), hreplay]
    rfl
  · obtain ⟨⟨grown, possible⟩, hloop, hgrown⟩ := map_eq_ok
      ((replicatedOperations_tree engine.tree engine.tombstonesPossible).trans hreplay)
    obtain rfl : tree' = grown := hgrown.symm
    obtain ⟨count, hcount⟩ : ∃ count, tree'.countExcluding internalPrefix = .ok count :=
      ⟨_, countExcluding_denotes hden' hle⟩
    refine ⟨{ engine with
      tree := tree'
      tombstonesPossible := possible
      wal := engine.wal ++ [record]
      lastLsn := record.lsn
      userLen := count }, ?_, hholds⟩
    rw [Engine.replicate, applyReplicatedRecord_next hbuf hhealthy hlsn hrec hloop, hcount]
    rfl

/-- Replays that succeed and leave a well-formed tree met shallow trees only. -/
theorem shallowRun_of_replays (hredo : redoFromCheckpoint engine.tree.pages engine.tree.values
      ⟨engine.tree.root, engine.tree.len, engine.lastLsn⟩ [record] = .ok tree) {replica : Engine}
    (hreplica : engine.replicate [record] = .ok replica) {rows' : Rows}
    (hholds : HoldsMap replica.tree rows') :
    ShallowRun (engine.lastLsn + 1) engine.tree record.operations := by
  obtain ⟨treeRows, hden, _⟩ := h.holds
  obtain ⟨hsame, hdepth⟩ := redo_denotes hden h.whole.recoverTail engine.lastLsn [record]
  rw [hsame (hdepth hredo), filter_cons_of_pos (by rw [hrec]; simp), filter_nil] at hredo
  obtain ⟨middle, hreplay, hend⟩ := bind_eq_ok.mp hredo
  cases hend
  obtain ⟨⟨grown, possible⟩, hloop, hgrown⟩ := map_eq_ok
    ((replicatedOperations_tree engine.tree engine.tombstonesPossible).trans hreplay)
  obtain rfl : tree = grown := hgrown.symm
  rw [Engine.replicate, applyReplicatedRecord_next hbuf hhealthy hlsn hrec hloop] at hreplica
  obtain ⟨⟨_, after⟩, happlied, hend⟩ := bind_eq_ok.mp hreplica
  obtain ⟨count, hcount, hafter⟩ := bind_eq_ok.mp happlied
  cases hafter
  cases hend
  -- the count at the end descends the last tree
  obtain ⟨levels', hden'⟩ := hholds
  have hshallow : Shallow tree := hden'.shallow_iff.mpr (hden'.within_of_count hcount)
  rw [hrec] at hreplay
  exact (replayOperations_of_ok hlsn hvalid hden hreplay).2 hshallow

end

/-- **AGREEMENT**: on an engine that holds a map, the appliers of an accepted batch all succeed
    and lead to one map exactly when every tree that a replay of its logged operations meets is
    within the depth bound. -/
theorem appliers_agree_iff (h : Serves ordered engine levels rows)
    (hbuf : engine.writeBack = none) (hm : Mvcc.WellFormed engine.mvcc engine.mvccValues)
    {operations combined : List BatchOperation}
    (hacc : Accepts engine rows operations combined) (flushBytes : Nat) :
    ShallowRun (engine.lastLsn + 1) engine.tree
        (effective (engine.lastLsn + 1) rows combined) ↔
      ∃ records, Agree engine flushBytes operations records
        (replayAll (engine.lastLsn + 1) rows combined) := by
  obtain ⟨treeRows, hden, hrows⟩ := h.holds
  rw [hbuf, overlaid_none] at hrows
  subst hrows
  have hvalid : ∀ operation ∈ effective (engine.lastLsn + 1) rows combined, operation.Valid :=
    fun operation hop => hacc.valid operation (mem_of_mem_effective hop)
  rw [← replayAll_effective]
  constructor
  · intro hrun
    have hd := hden.shallow_iff.mp hrun.shallow
    obtain ⟨results, after, levels', happly, hserves, _, _, hcases⟩ :=
      applyBatch_serves h hm (.inl hd) hacc
    have hflush := applyBatch_flush h hd hm hbuf hacc flushBytes
    rw [← replayAll_effective] at hserves hflush
    rcases hcases with ⟨hnone, possible, rfl⟩ | ⟨_, hlog, _⟩
    · -- nothing is logged, and nothing changes
      rw [hnone] at hserves hflush ⊢
      have hholds : HoldsMap engine.tree rows := ⟨levels, hden.unordered⟩
      have hredo := (redo_denotes hden h.whole.recoverTail engine.lastLsn []).1 hd
      exact ⟨[], ⟨results, _, happly, (append_nil _).symm, hholds⟩, hflush,
        ⟨engine.tree, hredo, hholds⟩, ⟨engine.tree, engine.lastLsn, rfl, hholds⟩,
        ⟨engine, rfl, hholds⟩⟩
    · obtain ⟨record, hwal, hrec, hops, hnames⟩ := hlog.wal
      rw [← hops] at hrun hserves hflush hvalid ⊢
      obtain ⟨hredo, hspan, hreplica⟩ :=
        replays_of_record h hbuf hacc.healthy hacc.lsn hrec hvalid hrun
      exact ⟨[record], ⟨results, after, happly, hwal, hserves.holdsMap (hnames.unbuffered hbuf)⟩,
        hflush, hredo, hspan, hreplica⟩
  · rintro ⟨records, hagree⟩
    obtain ⟨results, after, happly, hwal, _⟩ := hagree.classic
    obtain ⟨tree, hredo, _⟩ := hagree.redo
    have hd := (redo_denotes hden h.whole.recoverTail engine.lastLsn records).2 hredo
    obtain ⟨_, _, _, happly', _, _, _, hcases⟩ := applyBatch_serves h hm (.inl hd) hacc
    cases happly.symm.trans happly'
    rcases hcases with ⟨hnone, _⟩ | ⟨_, hlog, _⟩
    · rw [hnone]
      exact hden.shallow_iff.mpr hd
    · obtain ⟨record, hwal', hrec, hops, _⟩ := hlog.wal
      obtain rfl := append_cancel_left (hwal.symm.trans hwal')
      rw [← hops] at hvalid ⊢
      obtain ⟨replica, hreplica, hholds⟩ := hagree.replica
      exact shallowRun_of_replays h hbuf hacc.healthy hacc.lsn hrec hvalid hredo hreplica hholds

end Agreement

/-- The tree after the first put. -/
def firstPut : PageTree :=
  ⟨[.super, .leaf true [⟨.inline [1], .inline [7], 1⟩]], [], 1, 1⟩

theorem firstPut_shallow : Shallow firstPut := by
  refine ⟨1, [([1], ⟨[7], 1⟩)], by decide, [([1], ⟨.inline [7], 1⟩)], rfl, ?_, rfl, ?_⟩
  · refine ⟨true, _, rfl, Forall₂.cons ?_ Forall₂.nil, by decide, pairwise_singleton _ _, by decide⟩
    exact ⟨⟨⟨by decide, by decide⟩, by decide⟩, ⟨rfl, by decide⟩, rfl, rfl⟩
  · exact Forall₂.cons ⟨rfl, rfl, rfl⟩ Forall₂.nil

/-- On a fresh engine the four appliers agree on one put. -/
theorem appliers_agree_first_put :
    ∃ records, Agree (Engine.atRest ⟨[.super], [], 0, 0⟩) 4096 [.put [1] [7]] records
      (replayAll 1 [] [.put [1] [7]]) := by
  have hden : Denotes false ⟨[.super], [], 0, 0⟩ 0 [] :=
    ⟨[], rfl, ⟨rfl, rfl⟩, rfl, Forall₂.nil⟩
  refine (appliers_agree_iff (atRest_serves hden ValueLog.whole_nil nofun) rfl
    (atRest_mvcc _) (atRest_accepts _ [] (by decide) rfl) 4096).mp ?_
  refine ⟨⟨⟨0, [], Nat.zero_le _, hden⟩, fun happened middle hmain _ => ?_⟩, fun after hstep => ?_⟩
  · have hfirst : replayMain 1 ⟨[.super], [], 0, 0⟩ (.put [1] [7]) = .ok (true, firstPut) := by
      decide
    cases hmain.symm.trans hfirst
    exact firstPut_shallow
  · have hfirst : replayOperation 1 ⟨[.super], [], 0, 0⟩ (.put [1] [7]) = .ok firstPut := by decide
    cases hstep.symm.trans hfirst
    exact firstPut_shallow

/-! ## A replay that goes too deep -/

theorem lowKey_valid : (BatchOperation.put lowKey []).Valid := by
  have hlen : lowKey.length = 1024 := lowKey_wide
  have hkey : validateKey lowKey = .ok () := by
    rw [validateKey, if_neg (ne_nil_of_length_pos (by rw [hlen]; decide)),
      if_neg (by rw [hlen]; decide)]
  rw [BatchOperation.Valid, validateOperation, hkey]
  rfl

theorem spine_atRest_serves : Serves false (Engine.atRest (spineTree 63)) 64 (spineRows 63) := by
  refine atRest_serves (spineTree_denotes (by decide)) ValueLog.whole_nil (fun row hrow => ?_)
  obtain ⟨e, he, rfl⟩ := mem_map.mp hrow
  obtain ⟨level, i, _, _, rfl⟩ := spineEntries_key he
  refine ⟨⟨Nat.pos_of_neZero _, Nat.zero_le _⟩, fun key heq => ?_⟩
  -- a tombstone's key starts with the byte 0
  have hhead : (0 : Byte) = Fin.ofNat 256 (level + 1) := (cons.inj heq).1
  have hval := congrArg Fin.val hhead
  rw [Fin.val_ofNat, Nat.mod_eq_of_lt (by omega)] at hval
  exact absurd hval (Nat.succ_ne_zero level).symm

/-- The replay of a put that splits the root of a tree at the depth bound fails: the tombstone's
    delete meets a tree beyond it. -/
theorem replayOperations_tooDeep (ht : Denotes false tree maxTreeDepth rows) (hlsn : lsn < 256 ^ 8)
    (hvalid : (BatchOperation.put key value).Valid) (huser : isInternal key = false)
    (hsplit : PutSplits tree key value lsn) (tree' : PageTree) :
    replayOperations lsn tree [.put key value] ≠ .ok tree' := by
  intro hrun
  obtain ⟨after, hstep, _⟩ := bind_eq_ok.mp hrun
  obtain ⟨_, hmiddle⟩ := shallowStep_of_replay ht hlsn hvalid hstep
  obtain ⟨_, hkey, hvalue⟩ := bind_eq_ok.mp hvalid
  obtain ⟨middle, hput, _, levels, _, hden, hdeep⟩ :=
    applyPut_denotes ht le_rfl (storedKey_of_valid hkey).1 ⟨hlsn, validateValue_ok hvalue⟩
  have hmain : replayMain lsn tree (.put key value) = .ok (true, middle) := by
    rw [replayMain, hput]
    rfl
  have hshallow := hmiddle true middle hmain (by rw [BatchOperation.key, huser]; rfl)
  have hle := hden.shallow_iff.mp hshallow
  rw [hdeep hsplit] at hle
  exact absurd hle (Nat.not_succ_le_self _)

/-- **DIVERGENCE**: over a tree of 64 levels one put of a user key commits, and none of the
    replays of the record it logs succeeds. -/
theorem replays_fail_where_batch_commits :
    ∃ results after,
      (Engine.atRest (spineTree 63)).applyBatch [.put lowKey []] = .ok (results, after) ∧
      HoldsMap after.tree (replayAll 1 (spineRows 63) [.put lowKey []]) ∧
      (∀ tree, redoFromCheckpoint (spineTree 63).pages (spineTree 63).values
        ⟨(spineTree 63).root, (spineTree 63).len, 0⟩ after.wal ≠ .ok tree) ∧
      (∀ result, replayWalSpan (2 ^ 64 - 1) (spineTree 63) 0 after.wal ≠ .ok result) ∧
      ∀ replica, (Engine.atRest (spineTree 63)).replicate after.wal ≠ .ok replica := by
  have hvalid : (BatchOperation.put lowKey []).Valid := lowKey_valid
  have huser : isInternal lowKey = false := rfl
  have hden : Denotes false (spineTree 63) 64 (spineRows 63) := spineTree_denotes (by decide)
  have hacc := atRest_accepts (spineTree 63) (spineRows 63) hvalid huser
  have hone : 1 < 256 ^ 8 := by decide
  have hfails := replayOperations_tooDeep hden hone hvalid huser
    (spineTree_putSplits le_rfl ⟨hone, Nat.zero_le _⟩)
  obtain ⟨results, after, levels, hrun, hserves, _, _, hcases⟩ :=
    applyBatch_serves spine_atRest_serves (atRest_mvcc _) (.inl le_rfl) hacc
  rcases hcases with ⟨hnone, _⟩ | ⟨_, hlog, _⟩
  · cases hnone
  obtain ⟨record, hwal, hrec, hops, hnames⟩ := hlog.wal
  have hops : record.operations = [.put lowKey []] := hops
  have hrec : record.lsn = 1 := hrec
  have hwal : after.wal = [record] := hwal
  refine ⟨results, after, hrun, hserves.holdsMap (hnames.unbuffered rfl),
    fun tree hredo => ?_, fun result hspan => ?_, fun replica hreplica => ?_⟩
  · rw [hwal, (@redo_denotes _ _ _ _ hden (spineTree 63).values ValueLog.whole_nil.recoverTail 0
      [record]).1 le_rfl,
      filter_cons_of_pos (by rw [hrec]; rfl), filter_nil, replayRecords, hops,
      hrec] at hredo
    obtain ⟨middle, hreplay, _⟩ := bind_eq_ok.mp hredo
    exact hfails middle hreplay
  · rw [hwal, replayWalSpan, if_neg (by omega), if_neg (by omega), hops, hrec] at hspan
    obtain ⟨middle, hreplay, _⟩ := bind_eq_ok.mp hspan
    exact hfails middle hreplay
  · rw [hwal] at hreplica
    obtain ⟨⟨_, middle⟩, hnext, _⟩ := bind_eq_ok.mp hreplica
    have hreplay := (applyReplicatedRecord_form hnext).2.1
    rw [hops, hrec] at hreplay
    exact hfails middle.tree hreplay

end Vyrn
