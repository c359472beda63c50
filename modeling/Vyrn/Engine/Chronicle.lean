import Vyrn.Engine.WriteBack

/-!
# Everything a database ever logged

A checkpoint drops the log, so a `Chronicle` is a database with all records that it has logged since
it was created. `Chronicled` is what every run keeps: replaying them from the empty map gives the
map, and the open snapshots are at revisions the engine can answer for.

Main results: `Chronicled.step`, `chronicled_of_run`, `log_contiguous`, `equal_logs_converge`.
-/

namespace Vyrn

open SortedMap List Transition Mvcc

/-! ## Chronicles -/

/-- A database with every record that it has logged. -/
structure Chronicle where
  db : Database
  log : List WalRecord
  deriving DecidableEq, Repr

/-- The record a step logged, if it got an LSN. -/
def newRecords (before after : Engine) : List WalRecord :=
  if before.lastLsn < after.lastLsn then after.wal.getLast?.toList else []

variable {after before : Engine} {record : WalRecord}

theorem newRecords_append (hwal : after.wal = before.wal ++ [record])
    (hlt : before.lastLsn < after.lastLsn) : newRecords before after = [record] := by
  rw [newRecords, if_pos hlt, hwal, getLast?_concat]
  rfl

theorem newRecords_same (hlsn : after.lastLsn = before.lastLsn) : newRecords before after = [] := by
  rw [newRecords, hlsn, if_neg (lt_irrefl _)]

section Collected

variable {before after : Engine} (hcollected : after = before.collectVersions.2)
include hcollected

theorem collected_lsn : after.lastLsn = before.lastLsn := by
  rw [hcollected]
  rfl

theorem collected_covered : after.mvcc.coveredThrough = max before.mvcc.coveredThrough
    (before.oldestActiveSnapshot.getD before.lastLsn) := by
  rw [hcollected]
  rfl

/-- Under a snapshot, the last versions of a key stay. -/
theorem collected_history (hm : WellFormed before.mvcc before.mvccValues) {oldest : Nat}
    (hopen : before.oldestActiveSnapshot = some oldest) (key : Bytes) :
    historyOf after.mvcc after.mvccValues key
      = (historyOf before.mvcc before.mvccValues key).drop
        (History.keepFrom oldest (historyOf before.mvcc before.mvccValues key)) := by
  rw [hcollected, ← (collect_some hm oldest before.lastLsn).2, ← hopen]
  rfl

end Collected

inductive Chronicle.Step (c : Chronicle) (event : Event) : Chronicle → Prop where
  | take {after : Database} : c.db.Step event after →
      Step c event ⟨after, c.log ++ newRecords c.db.engine after.engine⟩

/-- The condition of a database, and that the file of kept versions is not covered beyond the log,
    which reading it checks. -/
@[reducible] def Database.Sound (db : Database) (event : Event) : Prop :=
  db.Fits event ∧ match event with
    | .reopen _ _ _ revisions _ => revisions.coveredThrough ≤ db.engine.lastLsn
    | _ => True

/-- The map `rows` is what all records together lead to, and the engine can answer for every open
    snapshot. -/
structure Chronicled (c : Chronicle) (rows : Rows) : Prop where
  holds : ∃ base levels treeRows, Holds c.db levels base treeRows rows ∧
    (∀ row ∈ base, row.2.revision ≤ c.db.manifest.lsn) ∧ Ranked c.db.engine treeRows rows
  tip : c.db.Tip
  replay : rows = replayLog [] c.log
  sorted : c.log.Pairwise (fun a b => a.lsn < b.lsn)
  last : c.db.engine.lastLsn = (c.log.getLast?.map WalRecord.lsn).getD 0
  valid : ∀ record ∈ c.log, record.Valid ∧ ∀ operation ∈ record.operations, operation.Proper
  covered : c.db.engine.mvcc.coveredThrough ≤ c.db.engine.lastLsn
  active : Pinned c.db.engine c.db.engine.activeSnapshots
  shared : Pinned c.db.engine c.db.engine.sharedSnapshots

section Chronicled

variable {c : Chronicle} {rows : Rows} {events : List Event}

theorem Chronicled.bounded (h : Chronicled c rows) :
    ∀ record ∈ c.log, record.lsn ≤ c.db.engine.lastLsn := by
  intro record hrec
  rw [h.last]
  have hne : c.log ≠ [] := ne_nil_of_mem hrec
  rw [getLast?_eq_getLast_of_ne_nil hne, Option.map_some, Option.getD_some]
  have hsplit := dropLast_append_getLast hne
  rw [← hsplit] at hrec
  rcases mem_append.mp hrec with hfront | hlast
  · have hsorted := h.sorted
    rw [← hsplit] at hsorted
    exact ((pairwise_append.mp hsorted).2.2 record hfront _ mem_cons_self).le
  · rw [mem_singleton.mp hlast]

section

variable (h : Chronicled c rows) {after : Database} {rows' : Rows}
  (hholds : ∃ base levels treeRows, Holds after levels base treeRows rows' ∧
    (∀ row ∈ base, row.2.revision ≤ after.manifest.lsn) ∧ Ranked after.engine treeRows rows')
  (htip : after.Tip) (hcovered : after.engine.mvcc.coveredThrough ≤ after.engine.lastLsn)
  (hactive : Pinned after.engine after.engine.activeSnapshots)
  (hshared : Pinned after.engine after.engine.sharedSnapshots)
include h hholds htip hcovered hactive hshared

/-- One more record at the end. -/
theorem Chronicled.extend (hlog : newRecords c.db.engine after.engine = [record])
    (hlsn : record.lsn = c.db.engine.lastLsn + 1) (hlast : after.engine.lastLsn = record.lsn)
    (hvalid : record.Valid ∧ ∀ operation ∈ record.operations, operation.Proper)
    (hrows : rows' = replayAll record.lsn rows record.operations) :
    Chronicled ⟨after, c.log ++ newRecords c.db.engine after.engine⟩ rows' := by
  rw [hlog]
  refine ⟨hholds, htip, ?_, ?_, ?_, ?_, hcovered, hactive, hshared⟩
  · rw [replayLog_append, ← h.replay, hrows]
    rfl
  · refine pairwise_append.mpr ⟨h.sorted, pairwise_singleton _ _, fun a ha b hb => ?_⟩
    rw [mem_singleton.mp hb, hlsn]
    exact Nat.lt_succ_of_le (h.bounded a ha)
  · rw [getLast?_concat]
    exact hlast
  · exact forall_mem_append.mpr ⟨h.valid, forall_mem_singleton.mpr hvalid⟩

/-- A step that logs nothing. -/
theorem Chronicled.stay (hlast : after.engine.lastLsn = c.db.engine.lastLsn)
    (hrows : rows' = rows) :
    Chronicled ⟨after, c.log ++ newRecords c.db.engine after.engine⟩ rows' := by
  rw [newRecords_same hlast, append_nil]
  exact ⟨hholds, htip, hrows.trans h.replay, h.sorted, hlast.trans h.last, h.valid, hcovered,
    hactive, hshared⟩

end

/-- The tree of an engine holds the map, or what the tree held before. -/
def Settles (before after : Engine) (rows' : Rows) : Prop :=
  ∀ levels treeRows, Denotes true after.tree levels treeRows →
    treeRows = rows' ∨ ∃ levels', Denotes true before.tree levels' treeRows

/-- **STEP**: a step keeps the chronicle, and is one of the effects. -/
theorem Chronicled.step (h : Chronicled c rows) {event : Event} (hsound : c.db.Sound event)
    {c' : Chronicle} (hstep : c.Step event c') :
    ∃ rows', Chronicled c' rows' ∧
      Database.Effect c.db.engine c'.db.engine event rows rows' ∧
      Settles c.db.engine c'.db.engine rows' := by
  obtain ⟨hstep⟩ := hstep
  rename_i after
  obtain ⟨base, levels, treeRows, hholds, hbase, hranked⟩ := h.holds
  obtain ⟨base', levels', treeRows', rows', hholds', hmanifest, htip, heffect, hsettled⟩ :=
    hholds.step h.tip hsound.1 hstep
  have hbase' := hholds.base_revisions hbase hmanifest
  have hranked' := hranked.settled hholds hbase hholds' hbase' hsettled
  have hsettles : Settles c.db.engine after.engine rows' := by
    intro depth mine hden
    rw [hden.rows_unique hholds'.denotes]
    cases hsettled with
    | kept htree =>
      rw [htree]
      exact .inr ⟨levels, hholds.denotes⟩
    | emptied hempty => exact .inl (hholds'.settled_of_empty hempty)
    | buffered htree =>
      rw [htree]
      exact .inr ⟨levels, hholds.denotes⟩
    | adopted htree hmap => exact .inl (htree.trans hmap.symm)
  refine ⟨rows', ?_, heffect, hsettles⟩
  have hmap : ∃ base levels treeRows, Holds after levels base treeRows rows' ∧
      (∀ row ∈ base, row.2.revision ≤ after.manifest.lsn) ∧ Ranked after.engine treeRows rows' :=
    ⟨base', levels', treeRows', hholds', hbase', hranked'⟩
  -- the rest depends on the effect alone
  clear hholds' hbase' hranked' hsettled
  cases heffect with
  | commit hhands hproper hacc hlog hretains hkeys hrows =>
    rename_i operations combined
    obtain ⟨record, hwal, hrec, hops, _⟩ := hlog.wal
    have hall : ∀ operation ∈ combined, operation.Proper :=
      forall_withChangeLog hacc.changeLog hproper
        (fun sequence value => ⟨changeLogKey_fromCaller sequence value, defines_of_other rfl⟩)
    have hsame : replayAll (c.db.engine.lastLsn + 1) rows combined
        = replayAll record.lsn rows record.operations := by
      rw [hops, hrec, replayAll_effective]
    obtain ⟨hcovered, hactive, hshared⟩ :=
      commit_pinned h.covered h.active h.shared hlog hretains
    refine h.extend hmap htip hcovered hactive hshared
      (newRecords_append hwal (hlog.lsn ▸ Nat.lt_succ_self _)) hrec (hlog.lsn.trans hrec.symm)
      ⟨⟨hrec ▸ hacc.lsn, fun operation hop => ?_⟩, fun operation hop => ?_⟩ (hrows.trans hsame)
    · rw [hops] at hop
      exact hacc.valid operation (mem_of_mem_effective hop)
    · rw [hops] at hop
      exact hall operation (mem_of_mem_effective hop)
  | replicate _ hnext hvalid hproper hwal hlsn _ hversions hsnapshots hrows =>
    have hle : c.db.engine.lastLsn ≤ after.engine.lastLsn := by
      rw [hlsn, hnext]
      exact Nat.le_succ _
    refine h.extend hmap htip ((hversions.covered.trans_le h.covered).trans hle) ?_ ?_
      (newRecords_append hwal (hlsn.trans hnext ▸ Nat.lt_succ_self _)) hnext hlsn
      ⟨hvalid, hproper⟩ hrows
    · rw [hsnapshots.active]
      exact h.active.mono hversions.covered hle
    · rw [hsnapshots.shared]
      exact h.shared.mono hversions.covered hle
  | register hlsn hversions hpinned hrows =>
    obtain ⟨hactive, hshared⟩ := hpinned h.covered h.active h.shared
    exact h.stay hmap htip ((hversions.covered.trans_le h.covered).trans hlsn.ge)
      (hactive.mono hversions.covered hlsn.ge) (hshared.mono hversions.covered hlsn.ge) hlsn hrows
  | collect hcollected hrows =>
    obtain ⟨hcovered, hactive, hshared⟩ := collect_pinned h.covered h.active h.shared
    rw [← hcollected] at hcovered hactive hshared
    exact h.stay hmap htip hcovered hactive hshared (collected_lsn hcollected) hrows
  | quiet hlsn hversions hsnapshots hrows =>
    refine h.stay hmap htip ((hversions.covered.trans_le h.covered).trans hlsn.ge) ?_ ?_ hlsn hrows
    · rw [hsnapshots.active]
      exact h.active.mono hversions.covered hlsn.ge
    · rw [hsnapshots.shared]
      exact h.shared.mono hversions.covered hlsn.ge
  | reopen hhands hlsn _ hcovered hactive hshared hrows =>
    subst hhands
    refine h.stay hmap htip ?_ ?_ ?_ hlsn hrows
    · rw [hcovered]
      exact max_le (hsound.2.trans hlsn.ge) le_rfl
    · rw [hactive]
      exact pinned_nil _
    · rw [hshared]
      exact pinned_nil _

theorem chronicled_empty : Chronicled ⟨Database.empty, []⟩ [] := by
  have hnone : ∀ {lsn : Nat}, ∀ row ∈ ([] : Rows), row.2.revision ≤ lsn :=
    forall_mem_nil _
  exact ⟨⟨[], 0, [], empty_holds, hnone, empty_holds.ranked_of_empty hnone nofun⟩, .inl rfl, rfl,
    Pairwise.nil, rfl, forall_mem_nil _, le_rfl, pinned_nil _,
    pinned_nil _⟩

/-- **RUNS**: an invariant that the effects keep holds after every run, beside the chronicle. -/
theorem chronicled_of_run (extra : Chronicle → Rows → Prop) {fits : Chronicle → Event → Prop}
    (hfits : ∀ {c : Chronicle} {event : Event}, fits c event → c.db.Sound event)
    (hstep : ∀ {c c' : Chronicle} {event : Event} {rows rows' : Rows},
      Chronicled c rows → extra c rows → fits c event → Chronicled c' rows' →
      c'.log = c.log ++ newRecords c.db.engine c'.db.engine →
      Database.Effect c.db.engine c'.db.engine event rows rows' →
      Settles c.db.engine c'.db.engine rows' → extra c' rows')
    (hstart : extra ⟨Database.empty, []⟩ [])
    (hrun : Run Chronicle.Step fits ⟨Database.empty, []⟩ events c) :
    ∃ rows, Chronicled c rows ∧ extra c rows := by
  refine hrun.invariant (I := fun c => ∃ rows, Chronicled c rows ∧ extra c rows) ?_
    ⟨[], chronicled_empty, hstart⟩
  rintro c c' event ⟨rows, h, hextra⟩ hfit htake
  obtain ⟨rows', h', heffect, hsettles⟩ := h.step (hfits hfit) htake
  obtain ⟨htake⟩ := htake
  exact ⟨rows', h', hstep h hextra hfit h' rfl heffect hsettles⟩

/-- A run of a database has a chronicle. -/
theorem chronicle_of_run {fits : Database → Event → Prop} {db : Database}
    (hrun : Run Database.Step fits Database.empty events db) :
    ∃ log, Run Chronicle.Step (fun c => fits c.db) ⟨Database.empty, []⟩ events
      ⟨db, log⟩ := by
  induction hrun with
  | start => exact ⟨[], Run.start⟩
  | next _ hfit hstep ih =>
    obtain ⟨log, hlog⟩ := ih
    exact ⟨_, hlog.next hfit (Chronicle.Step.take hstep)⟩

end Chronicled

/-! ## Sequence numbers -/

/-- Every LSN up to the last was given to one record, in order. -/
def Chronicle.Contiguous (c : Chronicle) : Prop :=
  c.log.map WalRecord.lsn = range' 1 c.db.engine.lastLsn

/-- What a step logs goes on behind the log. -/
theorem Chronicle.Contiguous.step {c c' : Chronicle} {event : Event} {rows rows' : Rows}
    (h : c.Contiguous) (hlog : c'.log = c.log ++ newRecords c.db.engine c'.db.engine)
    (heffect : Database.Effect c.db.engine c'.db.engine event rows rows') : c'.Contiguous := by
  have hstays : c'.db.engine.lastLsn = c.db.engine.lastLsn → c'.Contiguous := by
    intro hlsn
    rw [Contiguous, hlog, newRecords_same hlsn, append_nil, hlsn, h]
  have hgrows : ∀ {record : WalRecord}, c'.db.engine.wal = c.db.engine.wal ++ [record] →
      record.lsn = c.db.engine.lastLsn + 1 → c'.db.engine.lastLsn = record.lsn →
      c'.Contiguous := by
    intro record hwal hrecord hlsn
    rw [hrecord] at hlsn
    rw [Contiguous, hlog, newRecords_append hwal (hlsn ▸ Nat.lt_succ_self _), map_append, h, hlsn,
      range'_1_concat, Nat.add_comm 1, ← hrecord]
    rfl
  cases heffect with
  | commit _ _ _ hlogged =>
    obtain ⟨record, hwal, hrecord, _⟩ := hlogged.wal
    exact hgrows hwal hrecord (hlogged.lsn.trans hrecord.symm)
  | replicate _ hnext _ _ hwal hlsn => exact hgrows hwal hnext hlsn
  | register hlsn | quiet hlsn | reopen _ hlsn => exact hstays hlsn
  | collect hcollected => exact hstays (collected_lsn hcollected)

/-- **CONTIGUOUS**: commits, records of a primary, checkpoints and openings number what is logged
    one by one, with no gap and no LSN twice. -/
theorem log_contiguous {c : Chronicle} {events : List Event}
    (hrun : Run Chronicle.Step (fun c => c.db.Sound) ⟨Database.empty, []⟩ events c) :
    c.log.map WalRecord.lsn = range' 1 c.db.engine.lastLsn := by
  obtain ⟨_, -, hall⟩ := chronicled_of_run (fun c _ => c.Contiguous) id
    (fun _ h _ _ hlog heffect _ => h.step hlog heffect) rfl hrun
  exact hall

/-! ## Equal logs -/

/-- **CONVERGENCE**: two databases that logged the same records, as commits or from a primary, are
    at the same LSN, count the same keys and read every key alike, whatever checkpoints, crashes and
    openings each of them went through. -/
theorem equal_logs_converge {one other : Chronicle} {ones others : List Event}
    (hone : Run Chronicle.Step (fun c => c.db.Sound) ⟨Database.empty, []⟩ ones one)
    (hother : Run Chronicle.Step (fun c => c.db.Sound) ⟨Database.empty, []⟩ others other)
    (hlog : one.log = other.log) (hshallow : Shallow one.db.engine.tree)
    (hshallow' : Shallow other.db.engine.tree) :
    one.db.engine.lastLsn = other.db.engine.lastLsn ∧
      one.db.engine.userLen = other.db.engine.userLen ∧
      ∀ key, one.db.engine.treeGet key = other.db.engine.treeGet key ∧
        one.db.engine.treeRevision key = other.db.engine.treeRevision key := by
  obtain ⟨rows, h, -⟩ := chronicled_of_run (fun _ _ => True) id
    (fun _ _ _ _ _ _ _ => trivial) trivial hone
  obtain ⟨rows', h', -⟩ := chronicled_of_run (fun _ _ => True) id
    (fun _ _ _ _ _ _ _ => trivial) trivial hother
  -- each map is what its log leads to from nothing
  obtain rfl : rows = rows' := by rw [h.replay, h'.replay, hlog]
  obtain ⟨_, levels, _, hholds, _⟩ := h.holds
  obtain ⟨_, levels', _, hholds', _⟩ := h'.holds
  refine ⟨by rw [h.last, h'.last, hlog], hholds.count.trans hholds'.count.symm, fun key => ?_⟩
  obtain ⟨hget, hrevision⟩ := hholds.serves.reads (hholds.denotes.shallow_iff.mp hshallow) key
  obtain ⟨hget', hrevision'⟩ :=
    hholds'.serves.reads (hholds'.denotes.shallow_iff.mp hshallow') key
  exact ⟨hget.trans hget'.symm, hrevision.trans hrevision'.symm⟩

/-- An event that can happen and is not refused, with the record it logs. -/
def Chronicle.follow (c : Chronicle) (event : Event) : Option Chronicle :=
  (c.db.follow event).map (fun after => ⟨after, c.log ++ newRecords c.db.engine after.engine⟩)

theorem Chronicle.follow_step {c c' : Chronicle} {event : Event} (h : c.follow event = some c') :
    c.Step event c' := by
  obtain ⟨after, hafter, rfl⟩ := Option.map_eq_some_iff.mp h
  exact .take (Database.follow_step hafter)

instance (db : Database) (event : Event) : Decidable (db.Sound event) := by
  apply @Event.casesOn _ event <;> intros <;> infer_instance

/-- Two commits around a checkpoint are logged as 1 and 2. -/
theorem log_contiguous_checkpointed :
    ∃ c, Run Chronicle.Step (fun c => c.db.Sound) ⟨Database.empty, []⟩
        [.perform (.put [1] [7]), .beginCheckpoint, .compact, .finishCheckpoint,
          .perform (.delete [1])] c ∧
      c.log.map WalRecord.lsn = [1, 2] := by
  refine exists_run_of Chronicle.follow Chronicle.follow_step (p := fun c =>
    c.db.engine.lastLsn = 2) (by decide +kernel) (fun c hrun hlast => ?_)
  rw [log_contiguous hrun, hlast]
  rfl

/-- A replica takes over the record of a put and makes a checkpoint, which drops it from its log. -/
theorem equal_logs_converge_replica :
    ∃ one, Run Chronicle.Step (fun c => c.db.Sound) ⟨Database.empty, []⟩
        [.perform (.put [1] [7])] one ∧
      ∃ other, Run Chronicle.Step (fun c => c.db.Sound) ⟨Database.empty, []⟩
          [.replicate ⟨1, [.put [1] [7]], 1, 1⟩, .beginCheckpoint, .compact, .finishCheckpoint]
          other ∧
        one.db.engine.wal ≠ other.db.engine.wal ∧
        one.db.engine.treeGet [1] = other.db.engine.treeGet [1] := by
  refine exists_run_of Chronicle.follow Chronicle.follow_step (p := fun c =>
    c.log = [⟨1, [.put [1] [7]], 1, 1⟩] ∧ c.db.engine.wal ≠ [] ∧ c.db.engine.tree = firstPut)
    (by decide +kernel) (fun one hone hfacts => ?_)
  refine exists_run_of Chronicle.follow Chronicle.follow_step (p := fun c =>
    c.log = [⟨1, [.put [1] [7]], 1, 1⟩] ∧ c.db.engine.wal = [] ∧ c.db.engine.tree = firstPut)
    (by decide +kernel) (fun other hother hfacts' => ?_)
  obtain ⟨hlog, hwal, htree⟩ := hfacts
  obtain ⟨hlog', hwal', htree'⟩ := hfacts'
  have halike := equal_logs_converge hone hother (hlog.trans hlog'.symm)
    (htree ▸ firstPut_shallow) (htree' ▸ firstPut_shallow)
  exact ⟨hwal'.symm ▸ hwal, (halike.2.2 [1]).1⟩

end Vyrn
