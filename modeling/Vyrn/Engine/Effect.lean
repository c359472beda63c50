import Vyrn.Engine.Database
import Vyrn.Engine.Merged

/-!
# What a step of a database can do

Every invariant over runs needs to know what an event does to the map, the log, the buffer, the kept
versions and the snapshots. **`Holds.step`** says it once: `Effect` is about the map, the log and
the versions, `Settled` about the tree and the buffer. **`integrity_of_run`** and
**`compact_reads`** are the check of a reachable tree and the copy of its versions.
-/

namespace Vyrn

open SortedMap List Mvcc

variable {previous : List (Bytes × Option Versioned)} {operations : List BatchOperation}
  {results : List BatchResult} {plan : Plan} {events : List Event} {db : Database}

/-! ## What a commit buffers -/

section Buffered

variable {ordered : Bool} {engine after : Engine} {levels : Nat} {rows : Rows}
  {revision : Nat}

/-- A stored key that an operation of the batch is about: its own or its tombstone's. -/
def BatchOperation.Marks (operation : BatchOperation) (stored : Bytes) : Prop :=
  stored = operation.key ∨ isInternal operation.key = false ∧ stored = tombstoneKey operation.key

/-- What a plan writes carries its revision and belongs to an operation that it logs. -/
def Plan.Marked (revision : Nat) (plan : Plan) : Prop :=
  ∀ m ∈ plan.mutations, (m.2.entry revision).revision = revision ∧
    ∃ operation ∈ plan.pending, operation.Marks m.1

theorem Plan.step_marked {plan' : Plan} {operation : BatchOperation} (h : plan.Marked revision)
    (hstep : plan.step revision operation = .ok plan') : plan'.Marked revision := by
  rcases Plan.step_adds hstep with ⟨hsame, hpending⟩ | ⟨hpending, hadds⟩
  · rw [Plan.Marked, hsame, hpending]
    exact h
  · have hmine : operation ∈ plan'.pending := by
      rw [hpending]
      exact mem_append_right _ mem_cons_self
    intro m hm
    rcases hadds m hm with hold | rfl | ⟨huser, rfl⟩
    · obtain ⟨hrev, o, ho, hmarks⟩ := h m hold
      exact ⟨hrev, o, hpending ▸ mem_append_left _ ho, hmarks⟩
    · exact ⟨by cases operation <;> rfl, operation, hmine, .inl rfl⟩
    · exact ⟨by cases operation <;> rfl, operation, hmine, .inr ⟨huser, rfl⟩⟩

theorem Plan.steps_marked :
    ∀ {plan plan' : Plan}, plan.Marked revision →
      Plan.steps revision plan operations = .ok plan' → plan'.Marked revision := by
  induction operations with
  | nil =>
    rintro plan _ h ⟨⟩
    exact h
  | cons operation rest ih =>
    intro plan plan' h hrun
    obtain ⟨middle, hstep, hrest⟩ := bind_eq_ok.mp hrun
    exact ih (Plan.step_marked h hstep) hrest

/-- What the buffer knows after a commit it knew before, or the commit recorded it. -/
def Buffers (before after : Engine) (mutations : List (Bytes × Mutation)) : Prop :=
  ∀ stored entry, buffered after.writeBack stored = some entry →
    buffered before.writeBack stored = some entry ∨
      ∃ m ∈ mutations, m.1 = stored ∧ entry = m.2.entry (before.lastLsn + 1)

theorem commitPlan_buffers (hrun : engine.commitPlan plan previous = .ok after)
    (hwf : ∀ b, engine.writeBack = some b → b.WellFormed) :
    Buffers engine after plan.mutations := by
  obtain ⟨_, tree, buffer, record, state, values, hbuffer, rfl⟩ := commitPlan_form hrun
  intro stored entry h
  have hcommitted : buffered buffer stored = some entry := by
    -- a flush empties the buffer or leaves it
    rcases maybeFlush_form _ with hsame | ⟨_, emptied, hempty, _, hform⟩
    · rwa [hsame] at h
    · rw [hform] at h
      cases (hempty ▸ h : lookup stored [] = some entry)
  rw [hbuffer] at hcommitted
  cases hbuf : engine.writeBack with
  | none =>
    rw [hbuf] at hcommitted
    cases hcommitted
  | some buffer =>
    rw [hbuf] at hcommitted
    obtain ⟨front, back, hentries, _⟩ := lookup_eq_some_iff.mp hcommitted
    have hmem := hentries ▸ mem_append_right front mem_cons_self
    rcases Overlay.mem_recorded hmem with hold | ⟨m, hm, hsame⟩
    · exact .inl ((lookup_eq_some (hwf buffer hbuf)).mpr hold)
    · cases hsame
      exact .inr ⟨m, hm, rfl, rfl⟩

/-- **RECORDED**: what the buffer knows after a batch it knew before, or it has the batch's
    revision and belongs to an operation that had an effect. -/
theorem applyBatch_buffers (h : Serves ordered engine levels rows) {combined : List BatchOperation}
    (hacc : Accepts engine rows operations combined)
    (hreach : Reaches levels engine.writeBack (wantedKeys engine.tombstonesPossible combined))
    (hrun : engine.applyBatch operations = .ok (results, after)) :
    ∀ stored entry, buffered after.writeBack stored = some entry →
      buffered engine.writeBack stored = some entry ∨
        (entry.revision = engine.lastLsn + 1 ∧
          ∃ operation ∈ effective (engine.lastLsn + 1) rows combined, operation.Marks stored) := by
  intro stored entry hafter
  obtain ⟨plan, previous, hplan, _, ⟨_, hpending, _⟩, hcases⟩ := hacc.planned h hreach hrun
  rcases hcases with ⟨_, _, possible, rfl⟩ | ⟨_, hcommit⟩
  · exact .inl hafter
  · have hmarked : plan.Marked (engine.lastLsn + 1) := by
      obtain ⟨_, _, hplan⟩ := bind_eq_ok.mp hplan
      obtain ⟨_, _, hplan⟩ := bind_eq_ok.mp hplan
      rw [nextLsn_ok hacc.lsn, ok_bind] at hplan
      obtain ⟨_, hsteps, hplan⟩ := bind_eq_ok.mp hplan
      cases hplan
      exact Plan.steps_marked (fun m hm => absurd hm not_mem_nil) hsteps
    rcases commitPlan_buffers hcommit (fun b hb => (h.buffered b hb).1) stored entry hafter with
      hbefore | ⟨m, hm, rfl, rfl⟩
    · exact .inl hbefore
    · obtain ⟨hrev, operation, hop, hmarks⟩ := hmarked m hm
      exact .inr ⟨hrev, operation, hpending ▸ hop, hmarks⟩

end Buffered

/-! ## The keys of which versions are kept -/

theorem collect_keys (state : State) (oldest : Option Nat) (latest : Nat) :
    ∀ k ∈ (collect state oldest latest).2.keys, k ∈ state.keys := by
  intro k hk
  cases oldest with
  | none => exact absurd hk not_mem_nil
  | some =>
    obtain ⟨row, hrow, rfl⟩ := mem_map.mp hk
    obtain ⟨h, hh, rfl⟩ := mem_map.mp hrow
    exact mem_map.mpr ⟨h, hh, rfl⟩

/-! ## What a step can do -/

/-- The kept versions are as they were. -/
structure SameVersions (before after : Engine) : Prop where
  covered : after.mvcc.coveredThrough = before.mvcc.coveredThrough
  keys : after.mvcc.keys = before.mvcc.keys
  history : ∀ key, historyOf after.mvcc after.mvccValues key
    = historyOf before.mvcc before.mvccValues key

/-- The registries of snapshots are as they were. -/
structure SameSnapshots (before after : Engine) : Prop where
  active : after.activeSnapshots = before.activeSnapshots
  shared : after.sharedSnapshots = before.sharedSnapshots

/-- Where the batch of a step comes from: a caller, or another writer. -/
def Event.Hands (event : Event) (operations : List BatchOperation) : Prop :=
  (∃ indexes, event = .commit operations indexes) ∨
    ((∃ action, event = .perform action) ∧ ∀ operation ∈ operations, operation.FromClient)

/-- What a step can do to the map, the log, the kept versions and the snapshots. -/
inductive Database.Effect (before after : Engine) (event : Event)
    (rows rows' : Rows) : Prop where
  | commit {operations combined : List BatchOperation} (hands : event.Hands operations)
      (proper : ∀ operation ∈ operations, operation.Proper)
      (accepted : Accepts before rows operations combined)
      (logged : Logged (effective (before.lastLsn + 1) rows combined) before after)
      (retains : Retains combined (effective (before.lastLsn + 1) rows combined) rows before after)
      (keys : ∀ key ∈ after.mvcc.keys,
        key ∈ before.mvcc.keys ∨ ∃ operation ∈ combined, operation.key = key)
      (map : rows' = replayAll (before.lastLsn + 1) rows combined)
  | replicate {record : WalRecord} (hands : event = .replicate record)
      (next : record.lsn = before.lastLsn + 1) (valid : record.Valid)
      (proper : ∀ operation ∈ record.operations, operation.Proper)
      (wal : after.wal = before.wal ++ [record]) (lsn : after.lastLsn = record.lsn)
      (unbuffered : after.writeBack = none)
      (versions : SameVersions before after) (snapshots : SameSnapshots before after)
      (map : rows' = replayAll record.lsn rows record.operations)
  | register (lsn : after.lastLsn = before.lastLsn) (versions : SameVersions before after)
      (pinned : before.mvcc.coveredThrough ≤ before.lastLsn →
        Pinned before before.activeSnapshots → Pinned before before.sharedSnapshots →
        Pinned before after.activeSnapshots ∧ Pinned before after.sharedSnapshots)
      (map : rows' = rows)
  | collect (collected : after = before.collectVersions.2) (map : rows' = rows)
  | quiet (lsn : after.lastLsn = before.lastLsn) (versions : SameVersions before after)
      (snapshots : SameSnapshots before after) (map : rows' = rows)
  | reopen {options : EngineOptions} {pages values : Nat} {revisions : State}
      {revisionValues : Bytes}
      (hands : event = .reopen options pages values revisions revisionValues)
      (lsn : after.lastLsn = before.lastLsn) (empty : after.mvcc.histories = [])
      (covered : after.mvcc.coveredThrough = max revisions.coveredThrough after.lastLsn)
      (active : after.activeSnapshots = []) (shared : after.sharedSnapshots = [])
      (map : rows' = rows)

/-- Where a step leaves the rows of the tree and of the buffer. -/
inductive Database.Settled (before after : Engine)
    (treeRows treeRows' rows rows' : Rows) : Prop where
  | kept (tree : treeRows' = treeRows) (map : rows' = rows)
      (buffer : after.writeBack = before.writeBack) (lsn : after.lastLsn = before.lastLsn)
  | emptied (empty : ∀ b, after.writeBack = some b → b.entries = [])
  | buffered {combined : List BatchOperation} (tree : treeRows' = treeRows)
      (lsn : after.lastLsn = before.lastLsn + 1)
      (caller : ∀ operation ∈ combined, operation.FromCaller)
      (buffers : ∀ stored entry, buffered after.writeBack stored = some entry →
        buffered before.writeBack stored = some entry ∨
          (entry.revision = before.lastLsn + 1 ∧ ∃ operation ∈
            effective (before.lastLsn + 1) rows combined, operation.Marks stored))
      (map : rows' = replayAll (before.lastLsn + 1) rows combined)
  /-- A checkpoint adopted its tree and failed before it cleared the buffer. -/
  | adopted (tree : treeRows' = rows) (map : rows' = rows)
      (buffer : after.writeBack = before.writeBack) (lsn : after.lastLsn = before.lastLsn)

/-- The last commit is named by the manifest or by the log. -/
def Database.Tip (db : Database) : Prop :=
  db.engine.lastLsn = db.manifest.lsn ∨ ∃ record ∈ db.engine.wal, record.lsn = db.engine.lastLsn

/-- What a step leads to: a map over that of the manifest, by one of the effects. -/
def Database.Turn (db : Database) (event : Event) (base treeRows rows : Rows)
    (after : Database) : Prop :=
  ∃ base' levels' treeRows' rows', Holds after levels' base' treeRows' rows' ∧
    ((base' = base ∧ after.manifest = db.manifest) ∨
      (base' = rows ∧ after.manifest.lsn = db.engine.lastLsn)) ∧ after.Tip ∧
    Database.Effect db.engine after.engine event rows rows' ∧
    Database.Settled db.engine after.engine treeRows treeRows' rows rows'

section Effect

variable {db after : Database} {event : Event} {levels : Nat}
  {base treeRows rows : Rows} {engine : Engine} {record : WalRecord}

theorem SameVersions.refl (engine : Engine) : SameVersions engine engine :=
  ⟨rfl, rfl, fun _ => rfl⟩

theorem Database.Tip.mono (h : db.Tip) (hlsn : after.engine.lastLsn = db.engine.lastLsn)
    (hmanifest : after.manifest = db.manifest) (hwal : after.engine.wal = db.engine.wal) :
    after.Tip := by
  rw [Database.Tip, hlsn, hmanifest, hwal]
  exact h

theorem tip_of_last (hwal : after.engine.wal = db.engine.wal ++ [record])
    (hlsn : record.lsn = after.engine.lastLsn) : after.Tip :=
  .inr ⟨record, hwal ▸ mem_append_right _ mem_cons_self, hlsn⟩

theorem Serves.rows_unique {ordered ordered' : Bool} {levels' : Nat} {rows' : Rows}
    (h : Serves ordered engine levels rows) (h' : Serves ordered' engine levels' rows') :
    rows = rows' := by
  obtain ⟨mine, hden, rfl⟩ := h.holds
  obtain ⟨mine', hden', rfl⟩ := h'.holds
  rw [hden.rows_unique hden']

theorem cleared_empty {buffer : Option Overlay} :
    ∀ b, buffer.map Overlay.clear = some b → b.entries = [] := by
  intro b hb
  obtain ⟨_, _, rfl⟩ := Option.map_eq_some_iff.mp hb
  rfl

section

variable (h : Holds db levels base treeRows rows)
include h

/-- The log that opening finds ends where the engine was. -/
theorem Holds.reopen_lsn (htip : db.Tip) {options : EngineOptions} {pages values : Nat}
    {revisions : State} {revisionValues : Bytes}
    (hopen : openWithOptions options (db.files pages values revisions revisionValues) = .ok engine) :
    engine.lastLsn = db.engine.lastLsn := by
  obtain ⟨_, hlast, _⟩ := openWithOptions_form hopen
  obtain ⟨hmanifest, hrecords⟩ :=
    @recovered_lsn (db.files pages values revisions revisionValues) h.caught.sorted
  rw [hlast]
  refine le_antisymm ?_ ?_
  · show (Wal.Recovered.extend ⟨db.manifest, []⟩ db.engine.wal).state.lsn ≤ _
    rw [Wal.Recovered.extend_eq _ h.caught.sorted]
    cases hlast : (db.engine.wal.filter
        (fun record => db.manifest.lsn < record.lsn)).getLast? with
    | none => exact h.leads.reached
    | some record => exact h.caught.bounded record (mem_of_mem_filter (mem_of_getLast? hlast))
  rcases htip with htip | ⟨record, hrec, htip⟩
  · exact htip.trans_le hmanifest
  · exact htip.symm.trans_le (hrecords record hrec)

/-- A batch that is committed, with or without an effect, by a writer that may also change the
    engine's map of indexes. -/
theorem Holds.turn_applyBatch (htip : db.Tip) (hhands : event.Hands operations)
    (hproper : ∀ operation ∈ operations, operation.Proper)
    (hrun : db.engine.applyBatch operations = .ok (results, engine)) (indexes : List (Bytes × Bool)) :
    db.Turn event base treeRows rows { db with engine := { engine with indexes := indexes } } := by
  obtain ⟨levels', treeRows', others, _, h', _, hcommits⟩ := h.applyBatch hproper hrun
  refine ⟨base, levels', treeRows', _, h'.withIndexes indexes, .inl ⟨rfl, rfl⟩, ?_⟩
  have hsame : engine.tree = db.engine.tree → treeRows' = treeRows := fun htree =>
    h'.denotes.rows_unique (show Denotes true engine.tree levels treeRows from htree ▸ h.denotes)
  rcases hcommits with ⟨hmap, possible, rfl⟩ | ⟨hacc, hreach, hlog, hretains⟩
  · exact ⟨htip.mono rfl rfl rfl, .quiet rfl ⟨rfl, rfl, fun _ => rfl⟩ ⟨rfl, rfl⟩ hmap,
      .kept (hsame rfl) hmap rfl rfl⟩
  · obtain ⟨_, _, _, hrun', _, _, hkeys, _⟩ := applyBatch_serves h.serves h.mvcc hreach hacc
    cases hrun.symm.trans hrun'
    obtain ⟨record, hwal, hrec, hrest⟩ := hlog.wal
    refine ⟨tip_of_last hwal (hrec.trans hlog.lsn.symm), .commit hhands hproper hacc
      ⟨hlog.lsn, ⟨record, hwal, hrec, hrest⟩, hlog.grows, hlog.settles, hlog.active, hlog.shared,
        hlog.healthy, hlog.changeLog⟩ hretains hkeys rfl, ?_⟩
    rcases hlog.settles with hnone | ⟨htree, _⟩ | ⟨_, hempty⟩
    · exact .emptied (fun b hb => nomatch hnone.symm.trans hb)
    · have hbuffers := applyBatch_buffers h.serves hacc hreach hrun
      exact .buffered (hsame htree) hlog.lsn hacc.caller_combined hbuffers rfl
    · exact .emptied hempty

/-- Only the checkpoint that is going on has changed. -/
theorem Holds.turn_job (htip : db.Tip) {job : Option CheckpointJob}
    (hjob : ∀ j ∈ job, Follows db.engine j rows) :
    db.Turn event base treeRows rows { db with job := job } :=
  ⟨base, levels, treeRows, rows, h.withJob hjob, .inl ⟨rfl, rfl⟩, htip.mono rfl rfl rfl,
    .quiet rfl (SameVersions.refl _) ⟨rfl, rfl⟩ rfl, .kept rfl rfl rfl rfl⟩

/-- A caller's action has one of the effects. -/
theorem Holds.turn_perform (htip : db.Tip) {action : Action} (hphases : action ≠ .checkpoint)
    (hrun : db.engine.perform action = .ok engine) :
    db.Turn (.perform action) base treeRows rows { db with engine := engine } := by
  obtain ⟨⟨levels', treeRows', rows', h'⟩, _⟩ := h.perform hphases hrun
  rcases perform_ok hrun with
    ⟨entries, results, huser, hentries, happly⟩ | ⟨active, shared, rfl, hpinned⟩ | rfl | ⟨hjob, _⟩
  · have hclient := fromClient_append huser hentries
    exact h.turn_applyBatch htip (.inr ⟨⟨action, rfl⟩, hclient⟩)
      (fun operation hop => (hclient operation hop).proper) happly engine.indexes
  · have hmap := h'.serves.rows_unique (h.serves.congr rfl rfl rfl)
    exact ⟨base, levels', treeRows', rows', h', .inl ⟨rfl, rfl⟩, htip.mono rfl rfl rfl,
      .register rfl ⟨rfl, rfl, fun _ => rfl⟩ hpinned hmap,
      .kept (h'.denotes.rows_unique h.denotes) hmap rfl rfl⟩
  · have hmap := h'.serves.rows_unique (h.serves.congr rfl rfl rfl)
    exact ⟨base, levels', treeRows', rows', h', .inl ⟨rfl, rfl⟩, htip.mono rfl rfl rfl,
      .collect rfl hmap, .kept (h'.denotes.rows_unique h.denotes) hmap rfl rfl⟩
  · exact absurd hjob hphases

theorem Holds.turn_replicate (hnext : record.lsn = db.engine.lastLsn + 1) (hvalid : record.Valid)
    (hproper : ∀ operation ∈ record.operations, operation.Proper) {lsn : Nat}
    (hrun : db.engine.applyReplicatedRecord record = .ok (lsn, engine)) :
    db.Turn (.replicate record) base treeRows rows { db with engine := engine } := by
  obtain ⟨levels', treeRows', h'⟩ := h.replicate hnext hvalid hproper hrun
  obtain ⟨hnone, _, _, _, _, rfl⟩ := applyReplicatedRecord_form hrun
  exact ⟨base, levels', treeRows', _, h', .inl ⟨rfl, rfl⟩, tip_of_last rfl rfl,
    .replicate rfl hnext hvalid hproper rfl rfl hnone ⟨rfl, rfl, fun _ => rfl⟩ ⟨rfl, rfl⟩ rfl,
    .emptied (fun b hb => nomatch hnone.symm.trans hb)⟩

/-- A checkpoint, also one that fails, keeps the map and the versions. -/
theorem Holds.turn_finish {job : CheckpointJob} (hjob : db.job = some job)
    (hrun : db.engine.finishCheckpoint job = .ok engine) :
    db.Turn event base treeRows rows
        { db.publish engine.tree with engine := engine, unadopted := none } ∧
      ∀ point ≠ .beforeManifestPublish,
        db.Turn event base treeRows rows (db.failPublished engine point) := by
  obtain ⟨levels', h', _⟩ := h.finishCheckpoint hjob hrun
  have hfail := h.failCheckpoint hjob hrun
  obtain ⟨_, tree, state, values, rfl, hden, _, _, hcov, hkeys, hhist⟩ :=
    finishCheckpoint_serves h.serves h.caught h.mvcc (h.job job hjob) hrun
  refine ⟨⟨rows, levels', rows, rows, h', .inr ⟨rfl, rfl⟩, .inl rfl,
    .quiet rfl ⟨hcov, hkeys, hhist⟩ ⟨rfl, rfl⟩ rfl, .emptied cleared_empty⟩, fun point hpoint => ?_⟩
  obtain ⟨levels', base', treeRows', h', hmanifest⟩ := hfail point
  refine ⟨base', levels', treeRows', rows, h', hmanifest, ?_⟩
  cases point with
  | beforeManifestPublish => exact absurd rfl hpoint
  | afterManifestPublish =>
    exact ⟨.inl rfl, .quiet rfl (SameVersions.refl _) ⟨rfl, rfl⟩ rfl,
      .kept (h'.denotes.rows_unique h.denotes) rfl rfl rfl⟩
  | duringAdoption =>
    exact ⟨.inl rfl, .quiet rfl ⟨rfl, rfl, fun _ => rfl⟩ ⟨rfl, rfl⟩ rfl,
      .adopted (h'.denotes.rows_unique hden) rfl rfl rfl⟩
  | afterTreeAdoption =>
    exact ⟨.inl rfl, .quiet rfl ⟨hcov, hkeys, hhist⟩ ⟨rfl, rfl⟩ rfl, .emptied cleared_empty⟩

/-- **STEP**: what a step that meets the condition can do. -/
theorem Holds.step (htip : db.Tip) (hfits : db.Fits event) (hstep : db.Step event after) :
    db.Turn event base treeRows rows after := by
  cases hstep with
  | refused _ _ hres =>
    obtain ⟨_, hhist⟩ := h.mvcc.mono hres.values
    refine ⟨base, levels, treeRows, rows, h.refused hres, .inl ⟨rfl, rfl⟩, htip.mono ?_ rfl ?_,
      .quiet ?_ ⟨?_, ?_, fun key => ?_⟩ ⟨?_, ?_⟩ rfl, .kept rfl rfl ?_ ?_⟩
    all_goals rw [hres.rest]
    exact hhist key
  | done hallows hrun =>
    cases event with
    | perform =>
      obtain ⟨engine, hperform, hrun⟩ := bind_eq_ok.mp hrun
      cases hrun
      exact h.turn_perform htip hallows hperform
    | commit _ indexes =>
      obtain ⟨⟨results, engine⟩, happly, hrun⟩ := bind_eq_ok.mp hrun
      cases hrun
      exact h.turn_applyBatch htip (.inl ⟨indexes, rfl⟩) hallows happly indexes
    | replicate =>
      obtain ⟨hnext, hvalid, hproper⟩ := hallows
      obtain ⟨⟨lsn, engine⟩, happly, hrun⟩ := bind_eq_ok.mp hrun
      cases hrun
      exact h.turn_replicate hnext hvalid hproper happly
    | beginCheckpoint =>
      obtain ⟨job, hbegin, hrun⟩ := bind_eq_ok.mp hrun
      cases hrun
      refine h.turn_job htip ?_
      rintro _ ⟨⟩
      exact beginCheckpoint_follows h.denotes h.caught hbegin
    | compact =>
      obtain ⟨job, hjob, hrun⟩ := bind_eq_ok.mp hrun
      obtain ⟨copied, hcompact, hrun⟩ := bind_eq_ok.mp hrun
      cases hrun
      refine h.turn_job htip ?_
      rintro _ ⟨⟩
      exact compact_follows h.serves h.caught (h.job job (theJob_ok hjob)) hcompact
    | finishCheckpoint =>
      obtain ⟨job, hjob, hrun⟩ := bind_eq_ok.mp hrun
      obtain ⟨engine, hfinish, hrun⟩ := bind_eq_ok.mp hrun
      cases hrun
      exact (h.turn_finish (theJob_ok hjob) hfinish).1
    | failCheckpoint point =>
      obtain ⟨job, hjob, hrun⟩ := bind_eq_ok.mp hrun
      by_cases hbefore : point = .beforeManifestPublish
      · rw [if_pos hbefore] at hrun
        cases hrun
        exact h.turn_job htip nofun
      · rw [if_neg hbefore] at hrun
        obtain ⟨engine, hfinish, hrun⟩ := bind_eq_ok.mp hrun
        cases hrun
        exact (h.turn_finish (theJob_ok hjob) hfinish).2 point hbefore
    | reopen =>
      obtain ⟨engine, hopen, hrun⟩ := bind_eq_ok.mp hrun
      cases hrun
      obtain ⟨levels', _, h'⟩ := h.reopen hallows hfits hopen
      obtain ⟨hwal, _, _, _, hmvcc, hactive, hshared, hempty⟩ := openWithOptions_form hopen
      have hlsn := h.reopen_lsn htip hopen
      refine ⟨base, levels', rows, rows, h', .inl ⟨rfl, rfl⟩, htip.mono hlsn rfl hwal,
        .reopen rfl hlsn ?_ ?_ hactive hshared rfl, .emptied hempty⟩
      · rw [hmvcc]
        rfl
      · rw [hmvcc]
        rfl

end

end Effect

/-! ## Runs -/

section

variable (hrun : Transition.Run Database.Step Database.Fits Database.empty events db)
include hrun

theorem holds_of_run : db.Consistent ∧ db.Tip := by
  refine hrun.invariant (I := fun db => db.Consistent ∧ db.Tip) ?_
    ⟨⟨[], 0, [], [], empty_holds⟩, .inl rfl⟩
  rintro db event after ⟨⟨base, levels, treeRows, rows, h⟩, htip⟩ hfits hstep
  obtain ⟨base', levels', treeRows', rows', h', _, htip', _⟩ := h.step htip hfits hstep
  exact ⟨⟨base', levels', treeRows', rows', h'⟩, htip'⟩

/-- **RUNS**: every run from a new database whose steps meet the condition leads to a consistent
    database. -/
theorem consistent_of_run : db.Consistent :=
  (holds_of_run hrun).1

/-- **INTEGRITY**: whatever a database has gone through, its tree passes the check exactly when it
    is within the depth bound, and with nothing buffered it has the user keys that are reported. -/
theorem integrity_of_run :
    (db.engine.tree.validate = .ok () ↔ Shallow db.engine.tree) ∧
      (Shallow db.engine.tree → (∀ b, db.engine.writeBack = some b → b.entries = []) →
        db.engine.tree.countExcluding internalPrefix = .ok db.engine.userLen) := by
  obtain ⟨base, levels, treeRows, rows, h⟩ := consistent_of_run hrun
  rw [h.denotes.shallow_iff]
  refine ⟨⟨fun hvalid => ?_, fun hd => ?_⟩, fun hd hempty => ?_⟩
  · by_contra hdeep
    obtain ⟨error, herror⟩ := (tooDeep_denotes h.denotes (not_le.mp hdeep)).1
    cases herror.symm.trans hvalid
  · obtain ⟨entries, hsuper, hrooted, hlen, _⟩ := h.denotes
    exact validate_rooted hsuper hrooted hlen hd
  · obtain ⟨_, hden, hrows⟩ := h.serves.holds
    rw [countExcluding_denotes hden hd, h.count, hrows, overlaid_of_empty hempty]
    rfl

/-- **COMPACTION**: the kept versions can be copied behind any file, and every read at a revision
    answers as before, also one that is refused. -/
theorem compact_reads (destination : Bytes) :
    ∃ state' destination', compact db.engine.mvcc db.engine.mvccValues destination
        = .ok (state', destination') ∧
      ∀ key revision, getAt state' destination' key revision
        = getAt db.engine.mvcc db.engine.mvccValues key revision := by
  obtain ⟨base, levels, treeRows, rows, h⟩ := consistent_of_run hrun
  obtain ⟨state', destination', hcompact, hwf, hcov, _, hhist⟩ := compact_ok h.mvcc destination
  refine ⟨state', destination', hcompact, fun key revision => ?_⟩
  by_cases hlow : revision < db.engine.mvcc.coveredThrough
  · rw [getAt, getAt, hcov, if_pos hlow, if_pos hlow]
  · rw [getAt_ok hwf key (hcov.trans_le (not_lt.mp hlow)), getAt_ok h.mvcc key (not_lt.mp hlow),
      hhist]

end

/-- A put and a checkpoint: the tree counts one key. -/
theorem integrity_of_run_one_put :
    ∃ db, Transition.Run Database.Step Database.Fits Database.empty
        [.perform (.put [1] [7]), .beginCheckpoint, .compact, .finishCheckpoint] db ∧
      db.engine.tree.countExcluding internalPrefix = .ok 1 := by
  refine Transition.exists_run_of Database.follow Database.follow_step (p := fun db =>
    db.engine.tree.validate = .ok () ∧ db.engine.writeBack = none ∧ db.engine.userLen = 1)
    (by decide +kernel) (fun db hrun hfacts => ?_)
  obtain ⟨hvalid, hbuffer, hcount⟩ := hfacts
  obtain ⟨hpasses, hcounts⟩ := integrity_of_run hrun
  rw [← hcount]
  exact hcounts (hpasses.mp hvalid) (by rw [hbuffer]; rintro _ ⟨⟩)

/-- A version that a snapshot holds is read after the move. -/
theorem compact_reads_snapshot :
    ∃ db, Transition.Run Database.Step Database.Fits Database.empty
        [.perform .registerSnapshot, .perform (.put [1] [7])] db ∧
      ∃ state' destination', compact db.engine.mvcc db.engine.mvccValues []
          = .ok (state', destination') ∧ getAt state' destination' [1] 1 = .ok (some [7]) := by
  refine Transition.exists_run_of Database.follow Database.follow_step (p := fun db =>
    getAt db.engine.mvcc db.engine.mvccValues [1] 1 = .ok (some [7]))
    (by decide +kernel) (fun db hrun hget => ?_)
  obtain ⟨state', destination', hcompact, hsame⟩ := compact_reads hrun []
  exact ⟨state', destination', hcompact, (hsame [1] 1).trans hget⟩

end Vyrn
