import Vyrn.Engine.Appliers
import Vyrn.Engine.Snapshot
import Vyrn.Lib.Transition

/-!
# Checkpoints

A checkpoint rewrites the tree into fresh files, replays onto the copy what the log holds beyond
it, and adopts the copy; the kept versions are copied with it. The first and the last of its phases
run with the engine to themselves, the compaction beside later commits. Files and generations are
left out, and so is the archiver, without which every sealed segment is retired.

`Caught`: the log beyond the tree's own LSN leads from the tree's map to the engine's.
**`finishCheckpoint_serves`**: a checkpoint that succeeds changes no map and no history.
-/

namespace Vyrn

open SortedMap List Transition Mvcc

/-! ## The code -/

/-- Puts rows one by one. -/
def PageTree.putRows : PageTree → Rows → Except Error PageTree
  | tree, [] => .ok tree
  | tree, row :: rest => do
    let tree ← tree.applyPut row.1 row.2.value row.2.revision
    tree.putRows rest

/-- A tree over a fresh page file and value log. -/
def PageTree.fresh : PageTree := ⟨[.super], [], 0, 0⟩

def PageTree.compactTo (tree : PageTree) : Except Error PageTree := do
  let rows ← tree.scanSharedWithRevisions ⟨none, none, none⟩ tree.len
  PageTree.fresh.putRows rows

/-- The snapshot a checkpoint copies, and the copy with the LSN it has reached. -/
structure CheckpointJob where
  root : Nat
  len : Nat
  lsn : Nat
  compacted : Option (PageTree × Nat)
  deriving DecidableEq, Repr

/-- The LSN the tree reflects: with a write-back buffer it lags behind the log. -/
def Engine.snapshotLsn (engine : Engine) : Nat :=
  if engine.writeBack.isSome then engine.writeBackAbsorbed else engine.lastLsn

def Engine.beginCheckpoint (engine : Engine) : Except Error CheckpointJob := do
  engine.ensureHealthy
  return ⟨engine.tree.root, engine.tree.len, engine.snapshotLsn, none⟩

def CheckpointJob.compact (job : CheckpointJob) (pages : Pages) (values : Bytes)
    (wal : List WalRecord) : Except Error CheckpointJob := do
  let source ← openValidated pages values job.root job.len
  let copy ← source.compactTo
  let tree ← openValidated copy.pages copy.values copy.root copy.len
  let (tree, reached) ← replayWalSpan (2 ^ 64 - 1) tree job.lsn wal
  return { job with compacted := some (tree, max reached job.lsn) }

def Engine.finishCheckpoint (engine : Engine) (job : CheckpointJob) : Except Error Engine := do
  engine.ensureHealthy
  match job.compacted with
  | none => throw (.io "finish_checkpoint before compact")
  | some (copy, reached) => do
    let (tree, _) ← replayWalSpan (2 ^ 64 - 1) copy reached engine.wal
    let (mvcc, values) ← compact engine.mvcc engine.mvccValues []
    let adopted ← PageTree.open tree.pages tree.values tree.root tree.len
    return { engine with
      tree := adopted
      mvcc := mvcc
      mvccValues := values
      writeBack := engine.writeBack.map Overlay.clear
      writeBackAbsorbed := engine.lastLsn
      wal := [] }

/-- The three phases back to back. -/
def Engine.checkpoint (engine : Engine) : Except Error Engine := do
  let job ← engine.beginCheckpoint
  let job ← job.compact engine.tree.pages engine.tree.values engine.wal
  engine.finishCheckpoint job

/-! ## The copy -/

section Copy

variable {ordered : Bool} {tree : PageTree} {levels : Nat} {rows : Rows}

/-- A row a tree can store. -/
def RowStorable (row : Bytes × Versioned) : Prop := StoredKey row.1 ∧ Storable row.2

theorem putRows_of_ok {added : Rows} (hadded : ∀ row ∈ added, RowStorable row)
    (ht : Denotes ordered tree levels rows) {tree' : PageTree}
    (hrun : tree.putRows added = .ok tree') :
    ∃ levels', Grows tree tree' ∧ Denotes ordered tree' levels'
      (added.foldl (fun m row => put row.1 row.2 m) rows) := by
  induction added generalizing tree levels rows tree' with
  | nil =>
    cases hrun
    exact ⟨levels, Grows.refl tree, ht⟩
  | cons row rest ih =>
    rw [forall_mem_cons] at hadded
    obtain ⟨middle, hput, hrest⟩ := bind_eq_ok.mp hrun
    obtain ⟨hkey, hvalue⟩ := hadded.1
    obtain ⟨_, hput', hgrows, depth, _, hden, _⟩ :=
      applyPut_denotes ht (applyPut_shallow ht hput) hkey hvalue
    cases hput.symm.trans hput'
    obtain ⟨levels', hgrows', hden'⟩ := ih hadded.2 hden hrest
    exact ⟨levels', hgrows.trans hgrows', hden'⟩

theorem fresh_denotes : Denotes ordered PageTree.fresh 0 [] :=
  ⟨[], rfl, ⟨rfl, rfl⟩, rfl, Forall₂.nil⟩

section

variable (ht : Denotes ordered tree levels rows)
include ht

theorem Denotes.storedKey : ∀ row ∈ rows, StoredKey row.1 := by
  obtain ⟨entries, _, hrooted, _, hrel⟩ := ht
  intro row hrow
  rw [(rows_eq_map hrel).1] at hrow
  obtain ⟨e, he, rfl⟩ := mem_map.mp hrow
  rw [rowOf_fst]
  cases levels with
  | zero =>
    rw [hrooted.2] at he
    exact absurd he not_mem_nil
  | succ h => exact (Node.storedEntry hrooted e he).1

theorem Denotes.len : tree.len = rows.length := by
  obtain ⟨entries, _, _, hlen, hrel⟩ := ht
  rw [hlen, hrel.length_eq]

/-- **COPY**: a compacted tree holds the same map over files of its own, whose pages are in
    order. -/
theorem compactTo_of_ok (hd : levels ≤ maxTreeDepth) (hrows : ∀ row ∈ rows, Storable row.2)
    {copy : PageTree} (hrun : tree.compactTo = .ok copy) :
    ∃ levels', Denotes true copy levels' rows ∧ ValueLog.Whole copy.values := by
  have hall : (ScanRange.select ⟨none, none, none⟩ rows).take tree.len = rows := by
    have hselect : ScanRange.select ⟨none, none, none⟩ rows = rows :=
      filter_eq_self.mpr (fun _ _ => rfl)
    rw [hselect, ht.len, take_length]
  rw [PageTree.compactTo, (scan_denotes ht hd _ _).1, hall, ok_bind] at hrun
  obtain ⟨levels', hgrows, hden⟩ := putRows_of_ok
    (fun row hrow => ⟨ht.storedKey row hrow, hrows row hrow⟩) fresh_denotes hrun
  rw [foldl_put (by rw [nil_append]; exact ht.sorted), nil_append] at hden
  exact ⟨levels', hden, hgrows.whole ValueLog.whole_nil⟩

end

end Copy

/-! ## Replaying twice -/

section Twice

variable {records : List WalRecord} {rows : Rows} {key : Bytes}

theorem replayLog_sorted (h : Sorted rows) : Sorted (replayLog rows records) :=
  foldlRecOn records _ h (fun _ hm record _ =>
    foldlRecOn record.operations _ hm (fun _ hm' operation _ =>
      replayed_sorted hm' record.lsn operation))

/-- What a view of the map sees of a log has its whole effect the first time, if every operation
    settles what the view sees. -/
theorem replayLog_view {S : Type} (view : Rows → S) (dead : S → Prop)
    (change : Nat → S → BatchOperation → S)
    (hview : ∀ lsn rows {operation : BatchOperation}, operation.FromCaller →
      view (replayed lsn rows operation) = change lsn (view rows) operation)
    (hsettle : ∀ lsn operation, Settling dead (fun s => change lsn s operation))
    (hcaller : ∀ record ∈ records, ∀ operation ∈ record.operations, operation.FromCaller)
    (rows : Rows) :
    view (replayLog (replayLog rows records) records) = view (replayLog rows records) := by
  have hlog : ∀ rows, view (replayLog rows records)
      = records.foldl (fun s record => record.operations.foldl (change record.lsn) s) (view rows) :=
    fun rows => foldl_rel (r := fun m s => view m = s) rfl (fun record hrec m s hs =>
      foldl_rel (r := fun m s => view m = s) hs (fun operation hop m s hs =>
        hs ▸ hview record.lsn m (hcaller record hrec operation hop)))
  rw [hlog, hlog]
  exact (settling_foldl (fun record _ =>
    settling_foldl (fun operation _ => hsettle record.lsn operation))).idem _

/-- What an operation makes of its key's entry and tombstone. -/
def BatchOperation.settle (lsn : Nat) (state : Option Versioned × Option Versioned) :
    BatchOperation → Option Versioned × Option Versioned
  | .put _ value => (some ⟨value, lsn⟩, none)
  | .delete _ => if state.1.isSome then (none, some ⟨[], lsn⟩) else state

/-- A user key and its tombstone: a put forgets them, a delete leaves a deleted key alone. -/
theorem replayLog_user (huser : isInternal key = false)
    (hcaller : ∀ record ∈ records, ∀ operation ∈ record.operations, operation.FromCaller)
    (rows : Rows) :
    lookup key (replayLog (replayLog rows records) records)
        = lookup key (replayLog rows records) ∧
      lookup (tombstoneKey key) (replayLog (replayLog rows records) records)
        = lookup (tombstoneKey key) (replayLog rows records) := by
  refine Prod.mk.inj (replayLog_view (fun rows => (lookup key rows, lookup (tombstoneKey key) rows))
    (fun state => state.1 = none)
    (fun lsn state operation =>
      if operation.key = key then operation.settle lsn state else state) ?_ ?_ hcaller rows)
  · intro lsn rows operation hop
    split_ifs with hkey
    · cases operation with
      | put k value =>
        obtain rfl : k = key := hkey
        obtain ⟨hlive, htomb⟩ := @replayed_put lsn k rows huser value
        rw [hlive, htomb]
        rfl
      | delete k =>
        obtain rfl : k = key := hkey
        rw [BatchOperation.settle]
        split_ifs with hlive
        · obtain ⟨hgone, htomb⟩ := @replayed_delete lsn k rows huser hlive
          rw [hgone, htomb]
        · rw [replayed, if_neg hlive]
    · obtain ⟨hsame, hsame'⟩ := @replayed_other lsn key rows huser operation hop hkey
      rw [hsame, hsame']
  · intro lsn operation
    split_ifs
    · cases operation with
      | put => exact .inl ⟨_, fun _ => rfl⟩
      | delete k =>
        refine .inr ⟨fun state hdead => ?_, fun state => ?_⟩
        · show BatchOperation.settle lsn state (.delete k) = state
          rw [BatchOperation.settle, hdead, if_neg (by simp)]
        · show BatchOperation.settle lsn state (.delete k) = state ∨
            (BatchOperation.settle lsn state (.delete k)).1 = none
          rw [BatchOperation.settle]
          split_ifs
          · exact .inr rfl
          · exact .inl rfl
    · exact .inr ⟨fun _ _ => rfl, fun _ => .inl rfl⟩

/-- An internal key that is no tombstone holds what the last operation on it left. -/
theorem replayLog_internal (hint : isInternal key = true) (hkey : ∀ j, key ≠ tombstoneKey j)
    (hcaller : ∀ record ∈ records, ∀ operation ∈ record.operations, operation.FromCaller)
    (rows : Rows) :
    lookup key (replayLog (replayLog rows records) records)
      = lookup key (replayLog rows records) := by
  refine replayLog_view (lookup key) (fun _ => False)
    (fun lsn state operation => if operation.key = key then
      operation.value?.map (fun value => ⟨value, lsn⟩) else state) ?_ ?_ hcaller rows
  · intro lsn rows operation _
    split_ifs with heq
    · cases operation with
      | put k =>
        obtain rfl : k = key := heq
        rw [replayed, if_pos hint, lookup_put, if_pos rfl]
        rfl
      | delete k =>
        obtain rfl : k = key := heq
        rw [replayed]
        split_ifs with hlive
        · rw [lookup_erase, if_pos rfl]
          rfl
        · exact Option.not_isSome_iff_eq_none.mp hlive
    · exact lookup_replayed_ne (fun hsame => heq hsame.symm) (hkey _)
  · intro lsn operation
    split_ifs
    · exact .inl ⟨_, fun _ => rfl⟩
    · exact .inr ⟨fun _ _ => rfl, fun _ => .inl rfl⟩

/-- **TWICE**: replaying a log onto the map it leads to changes nothing. -/
theorem replayLog_twice (hs : Sorted rows)
    (hcaller : ∀ record ∈ records, ∀ operation ∈ record.operations, operation.FromCaller) :
    replayLog (replayLog rows records) records = replayLog rows records := by
  refine ext_lookup (replayLog_sorted (replayLog_sorted hs)) (replayLog_sorted hs) (fun key => ?_)
  cases hint : isInternal key with
  | false => exact (replayLog_user hint hcaller rows).1
  | true =>
    by_cases htomb : ∃ j, key = tombstoneKey j
    · obtain ⟨j, rfl⟩ := htomb
      cases hj : isInternal j with
      | false => exact (replayLog_user hj hcaller rows).2
      | true =>
        exact replayLog_view (lookup (tombstoneKey j)) (fun _ => True)
          (fun _ state _ => state) (fun _ _ _ hop => replayed_plain hj hop)
          (fun _ _ => .inr ⟨fun _ _ => rfl, fun _ => .inl rfl⟩) hcaller rows
    · exact replayLog_internal hint (fun j heq => htomb ⟨j, heq⟩) hcaller rows

end Twice

/-! ## The log beyond the tree -/

/-- What the log holds beyond the tree's LSN leads from the tree's map to the engine's. -/
structure Caught (engine : Engine) (treeRows rows : Rows) : Prop where
  valid : ∀ record ∈ engine.wal, record.Valid
  sorted : engine.wal.Pairwise (fun a b => a.lsn < b.lsn)
  bounded : ∀ record ∈ engine.wal, record.lsn ≤ engine.lastLsn
  absorbed : engine.snapshotLsn ≤ engine.lastLsn
  storable : ∀ row ∈ treeRows, Storable row.2
  leads : rows = replayLog treeRows
    (engine.wal.filter (fun record => engine.snapshotLsn < record.lsn))

/-- What the log holds beyond `lsn` leads from the map `start` to the engine's. -/
structure Leads (engine : Engine) (lsn : Nat) (start rows : Rows) : Prop where
  reached : lsn ≤ engine.lastLsn
  storable : ∀ row ∈ start, Storable row.2
  replay : rows = replayLog start (engine.wal.filter (fun record => lsn < record.lsn))

/-- A checkpoint under way follows the engine: the tree it copies is still in the engine's files,
    and from there, as from the copy, the log leads to the engine's map. -/
structure Follows (engine : Engine) (job : CheckpointJob) (rows : Rows) :
    Prop where
  snapshot : ∃ depth start,
    Denotes false ⟨engine.tree.pages, engine.tree.values, job.root, job.len⟩ depth start ∧
      Leads engine job.lsn start rows
  copy : ∀ copy reached, job.compacted = some (copy, reached) → ∃ depth start,
    Denotes true copy depth start ∧ ValueLog.Whole copy.values ∧ Leads engine reached start rows

section Checkpoint

variable {ordered : Bool} {engine after : Engine} {levels lsn : Nat} {treeRows rows start : Rows}
  {job : CheckpointJob} {record : WalRecord}

theorem Serves.unordered (h : Serves ordered engine levels rows) :
    Serves false engine levels rows := by
  obtain ⟨treeRows, hden, hrows⟩ := h.holds
  exact ⟨⟨treeRows, hden.unordered, hrows⟩, h.buffered, h.tombless, h.whole, h.storable⟩

theorem snapshotLsn_of_absorbed (h : engine.writeBackAbsorbed = engine.lastLsn) :
    engine.snapshotLsn = engine.lastLsn := by
  rw [Engine.snapshotLsn, h, ite_self]

theorem Caught.congr {engine' : Engine} (h : Caught engine treeRows rows)
    (hwal : engine'.wal = engine.wal) (hlsn : engine'.lastLsn = engine.lastLsn)
    (habs : engine'.writeBackAbsorbed = engine.writeBackAbsorbed)
    (hbuf : engine'.writeBack = engine.writeBack) : Caught engine' treeRows rows := by
  obtain ⟨hvalid, hsorted, hbounded, habsorbed, hstorable, hleads⟩ := h
  refine ⟨hwal ▸ hvalid, hwal ▸ hsorted, ?_, ?_, hstorable, ?_⟩
  · rw [hwal, hlsn]
    exact hbounded
  · rw [Engine.snapshotLsn, hbuf, habs, hlsn]
    exact habsorbed
  · rw [Engine.snapshotLsn, hbuf, habs, hlsn, hwal]
    exact hleads

/-- Nothing is logged beyond the last commit. -/
theorem leads_whole (hbounded : ∀ record ∈ engine.wal, record.lsn ≤ engine.lastLsn)
    (hstorable : ∀ row ∈ rows, Storable row.2) : Leads engine engine.lastLsn rows rows := by
  refine ⟨le_rfl, hstorable, ?_⟩
  rw [filter_eq_nil_iff.mpr (fun record hrec => by simpa using hbounded record hrec)]
  rfl

/-- A tree that has everything needs nothing from the log. -/
theorem caught_whole (hvalid : ∀ record ∈ engine.wal, record.Valid)
    (hsorted : engine.wal.Pairwise (fun a b => a.lsn < b.lsn))
    (hbounded : ∀ record ∈ engine.wal, record.lsn ≤ engine.lastLsn)
    (hlsn : engine.snapshotLsn = engine.lastLsn) (hstorable : ∀ row ∈ rows, Storable row.2) :
    Caught engine rows rows := by
  refine ⟨hvalid, hsorted, hbounded, hlsn.le, hstorable, ?_⟩
  rw [hlsn]
  exact (leads_whole hbounded hstorable).replay

/-- A record behind all others keeps the log in order. -/
theorem Caught.append (hc : Caught engine treeRows rows) (hwal : after.wal = engine.wal ++ [record])
    (hrec : record.lsn = engine.lastLsn + 1) (hlast : after.lastLsn = engine.lastLsn + 1)
    (hvalid : record.Valid) :
    (∀ r ∈ after.wal, r.Valid) ∧ after.wal.Pairwise (fun a b => a.lsn < b.lsn) ∧
      ∀ r ∈ after.wal, r.lsn ≤ after.lastLsn := by
  rw [hwal, hlast]
  refine ⟨forall_mem_append.mpr ⟨hc.valid, forall_mem_singleton.mpr hvalid⟩,
    pairwise_append.mpr ⟨hc.sorted, pairwise_singleton _ _, fun a ha b hb => ?_⟩,
    forall_mem_append.mpr ⟨fun r hr => (hc.bounded r hr).trans (Nat.le_succ _),
      forall_mem_singleton.mpr hrec.le⟩⟩
  rw [mem_singleton.mp hb, hrec]
  exact Nat.lt_succ_of_le (hc.bounded a ha)

/-- A record more leads on from the map before it. -/
theorem Leads.append (h : Leads engine lsn start rows) (hwal : after.wal = engine.wal ++ [record])
    (hrec : record.lsn = engine.lastLsn + 1) (hlast : after.lastLsn = engine.lastLsn + 1) :
    Leads after lsn start (replayAll (engine.lastLsn + 1) rows record.operations) := by
  have hlater : lsn < record.lsn := by
    rw [hrec]
    exact Nat.lt_succ_of_le h.reached
  refine ⟨by rw [hlast]; exact h.reached.trans (Nat.le_succ _), h.storable, ?_⟩
  rw [hwal, filter_append, filter_cons_of_pos (by simpa using hlater), filter_nil,
    replayLog_append, ← h.replay, ← hrec]
  rfl

/-- A commit keeps the log enough: it stays in the buffer, or the tree has everything. -/
theorem caught_commit (hden : Denotes ordered engine.tree levels treeRows)
    (hc : Caught engine treeRows rows) {operations : List BatchOperation}
    (hvalid : ∀ operation ∈ operations, operation.Valid) (hbound : engine.lastLsn + 1 < 2 ^ 64)
    (hlog : Logged operations engine after) {levels' : Nat} {rows' : Rows}
    (h' : Serves ordered after levels' rows')
    (hrows : rows' = replayAll (engine.lastLsn + 1) rows operations) :
    ∃ treeRows', Denotes ordered after.tree levels' treeRows' ∧ Caught after treeRows' rows' := by
  obtain ⟨record, hwal, hrec, hops, hnames⟩ := hlog.wal
  obtain ⟨hall, hsorted, hbounded⟩ :=
    hc.append hwal hrec hlog.lsn ⟨hrec ▸ hbound, hops ▸ hvalid⟩
  obtain ⟨treeRows', hden', hover⟩ := h'.holds
  -- with an empty buffer, or none, the tree has everything
  have hsettled : (∀ b, after.writeBack = some b → b.entries = []) →
      after.snapshotLsn = after.lastLsn →
      ∃ treeRows', Denotes ordered after.tree levels' treeRows' ∧ Caught after treeRows' rows' := by
    intro hempty hlsn
    rw [overlaid_of_empty hempty] at hover
    exact ⟨rows', hover ▸ hden', caught_whole hall hsorted hbounded hlsn h'.storable⟩
  rcases hlog.settles with hnone | ⟨htree, habs⟩ | ⟨habs, hempty⟩
  · refine hsettled (fun b hb => nomatch hnone.symm.trans hb) ?_
    rw [Engine.snapshotLsn, hnone]
    rfl
  · rcases hnames with ⟨_, hnone, _⟩ | ⟨hsome, hsome', _⟩
    · refine hsettled (fun b hb => nomatch hnone.symm.trans hb) ?_
      rw [Engine.snapshotLsn, hnone]
      rfl
    · -- the commit is in the buffer and in the log
      have hlsn : after.snapshotLsn = engine.snapshotLsn := by
        rw [Engine.snapshotLsn, if_pos hsome', habs, Engine.snapshotLsn, if_pos hsome]
      have hleads := Leads.append ⟨hc.absorbed, hc.storable, hc.leads⟩ hwal hrec hlog.lsn
      rw [← hlsn, hops, ← hrows] at hleads
      rw [htree] at hden'
      exact ⟨treeRows, by rw [htree, ← hden.levels_unique hden']; exact hden, hall, hsorted,
        hbounded, hleads.reached, hc.storable, hleads.replay⟩
  · exact hsettled hempty (snapshotLsn_of_absorbed habs)

/-- A checkpoint under way follows an engine whose files grow and whose log leads on. -/
theorem Follows.transfer {rows' : Rows} (h : Follows engine job rows)
    (hgrows : Grows engine.tree after.tree)
    (hleads : ∀ {lsn start}, Leads engine lsn start rows → Leads after lsn start rows') :
    Follows after job rows' := by
  obtain ⟨depth, start, hden, hstart⟩ := h.snapshot
  refine ⟨⟨depth, start, hden.mono hgrows.pages hgrows.values rfl rfl, hleads hstart⟩,
    fun copy reached hcopy => ?_⟩
  obtain ⟨depth, start, hden, hwhole, hstart⟩ := h.copy copy reached hcopy
  exact ⟨depth, start, hden, hwhole, hleads hstart⟩

theorem Leads.congr (h : Leads engine lsn start rows) (hwal : after.wal = engine.wal)
    (hlast : after.lastLsn = engine.lastLsn) : Leads after lsn start rows :=
  ⟨by rw [hlast]; exact h.reached, h.storable, by rw [hwal]; exact h.replay⟩

/-- A checkpoint that begins follows the engine. -/
theorem beginCheckpoint_follows (hden : Denotes ordered engine.tree levels treeRows)
    (hc : Caught engine treeRows rows) (hrun : engine.beginCheckpoint = .ok job) :
    Follows engine job rows := by
  obtain ⟨_, _, hrun⟩ := bind_eq_ok.mp hrun
  cases hrun
  exact ⟨⟨levels, treeRows, hden.unordered, hc.absorbed, hc.storable, hc.leads⟩, nofun⟩

/-- **COMPACT**: the compaction of a snapshot catches up with the log as it is by then. -/
theorem compact_follows (hs : Serves ordered engine levels rows) (hc : Caught engine treeRows rows)
    {job' : CheckpointJob} (h : Follows engine job rows)
    (hrun : job.compact engine.tree.pages engine.tree.values engine.wal = .ok job') :
    Follows engine job' rows := by
  obtain ⟨source, hsource, hrun⟩ := bind_eq_ok.mp hrun
  obtain ⟨copy, hcopy, hrun⟩ := bind_eq_ok.mp hrun
  obtain ⟨tree, htree, hrun⟩ := bind_eq_ok.mp hrun
  obtain ⟨⟨grown, reached⟩, hspan, hrun⟩ := bind_eq_ok.mp hrun
  cases hrun
  refine ⟨h.snapshot, ?_⟩
  rintro _ _ ⟨⟩
  obtain ⟨depth, start, hden, hleads⟩ := h.snapshot
  obtain ⟨rfl, hd⟩ := (openValidated_denotes hden hs.whole.recoverTail).2 hsource
  obtain ⟨_, hden', hwhole'⟩ := compactTo_of_ok hden hd hleads.storable hcopy
  obtain ⟨rfl, _⟩ := (openValidated_denotes hden' hwhole'.recoverTail).2 htree
  obtain ⟨levels', hgrows, hfinal, hall, hlast⟩ :=
    replayWalSpan_of_ok hc.valid hc.sorted hden' hspan
  rw [← hleads.replay] at hfinal
  have hreached : max reached job.lsn ≤ engine.lastLsn :=
    max_le (hlast _ hleads.reached hc.bounded) hleads.reached
  refine ⟨levels', rows, hfinal, hgrows.whole hwhole', hreached, hs.storable, ?_⟩
  -- the copy has every record there is
  have hnone : engine.wal.filter (fun record => max reached job.lsn < record.lsn) = [] := by
    refine filter_eq_nil_iff.mpr (fun record hrec => ?_)
    simp [hall record hrec]
  rw [hnone]
  rfl

/-- **FINISH**: a checkpoint that follows the engine and succeeds leaves the map, the histories
    and the snapshots as they are, over a tree that reflects the whole log. -/
theorem finishCheckpoint_serves (h : Serves ordered engine levels rows)
    (hc : Caught engine treeRows rows) (hm : WellFormed engine.mvcc engine.mvccValues)
    (hjob : Follows engine job rows) (hrun : engine.finishCheckpoint job = .ok after) :
    ∃ levels' tree state values,
      after = { engine with
        tree := tree
        mvcc := state
        mvccValues := values
        writeBack := engine.writeBack.map Overlay.clear
        writeBackAbsorbed := engine.lastLsn
        wal := [] } ∧
      Denotes true tree levels' rows ∧ Serves true after levels' rows ∧
      WellFormed state values ∧ state.coveredThrough = engine.mvcc.coveredThrough ∧
      state.keys = engine.mvcc.keys ∧ ∀ key, historyOf state values key
        = historyOf engine.mvcc engine.mvccValues key := by
  obtain ⟨_, _, hrun⟩ := bind_eq_ok.mp hrun
  cases hcompacted : job.compacted with
  | none =>
    rw [hcompacted] at hrun
    cases hrun
  | some copied =>
    obtain ⟨copy, reached⟩ := copied
    obtain ⟨depth, start, hden, hwhole, hleads⟩ := hjob.copy copy reached hcompacted
    rw [hcompacted] at hrun
    obtain ⟨⟨tree, last⟩, hspan, hrun⟩ := bind_eq_ok.mp hrun
    obtain ⟨levels', hgrows, hden', _⟩ := replayWalSpan_of_ok hc.valid hc.sorted hden hspan
    rw [← hleads.replay] at hden'
    have hwhole' := hgrows.whole hwhole
    obtain ⟨state, values, hmvcc, hwf, hsame⟩ := compact_ok hm []
    have hopen : PageTree.open tree.pages tree.values tree.root tree.len = .ok tree :=
      let ⟨_, hsuper, hrooted, hlen, _⟩ := hden'
      open_rooted hsuper hrooted hlen hwhole'.recoverTail
    dsimp only at hrun
    rw [hmvcc, ok_bind] at hrun
    rw [hopen] at hrun
    cases hrun
    refine ⟨levels', tree, state, values, rfl, hden', serves_of_empty hden' (fun b hb => ?_)
      h.tombless hwhole' h.storable, hwf, hsame⟩
    obtain ⟨_, _, rfl⟩ := Option.map_eq_some_iff.mp hb
    rfl

end Checkpoint

end Vyrn
