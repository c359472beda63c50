import Vyrn.Engine.Commit

/-!
# What a commit keeps for open snapshots

While a snapshot is open a commit keeps, of every versioned key it writes, the state before it
(`keepPreImages`) and the state it leaves (`maintainHistory`): at most one version, and then one at
the commit's revision. **`applyBatch_serves`**: a commit succeeds and leads to the map that
replaying its operations gives.
-/

namespace Vyrn

open SortedMap List Mvcc History

variable {staged : List (Bytes × Option ValueRef)} {previous : List (Bytes × Option Versioned)}
  {revision : Nat} {p : Bytes → Prop} {operations : List BatchOperation} {key values : Bytes}
  {operation : BatchOperation}

/-! ## The state before -/

/-- A history after the state before a commit was offered to it. -/
def withPreImage (oldest : Nat) (history : List (Nat × Option Bytes))
    (before : Option Versioned) : List (Nat × Option Bytes) :=
  keepBefore oldest history (before.map (fun b => (b.revision, b.value)))

theorem last_readVersions (values : Bytes) (versions : List Version) (revision : Nat) :
    (readVersions values versions).getLast?.all (fun latest => latest.1 < revision)
      = versions.getLast?.all (fun latest => latest.1 < revision) := by
  rw [readVersions, getLast?_mapValues]
  cases versions.getLast? with
  | none => rfl
  | some => rfl

/-- The value before a write is kept when a snapshot may need it. -/
theorem keepPreImage_ok (oldest : Nat) {state : State} (h : WellFormed state values)
    (hkeys : ∀ k ∈ state.keys, p k) (hkey : p key) {before : Option Versioned}
    (hadm : ∀ b ∈ before, Storable b) :
    ∃ state' values', keepPreImage oldest state values key before = .ok (state', values') ∧
      values <+: values' ∧ WellFormed state' values' ∧
      state'.coveredThrough = state.coveredThrough ∧ (∀ k ∈ state'.keys, p k) ∧
      ∀ j, historyOf state' values' j
        = if j = key then withPreImage oldest (historyOf state values key) before
          else historyOf state values j := by
  have hkeep : ∀ j, historyOf state values j
      = if j = key then historyOf state values key else historyOf state values j := by
    intro j
    split_ifs with hj
    · rw [hj]
    · rfl
  cases before with
  | none => exact ⟨state, values, rfl, prefix_rfl, h, rfl, hkeys, hkeep⟩
  | some b =>
    rw [keepPreImage, withPreImage, Option.map_some, keepBefore, historyOf, last_readVersions]
    split_ifs with hold
    · have hb : ∀ v ∈ some b.value, ValueLog.Admissible b.revision v := by
        rintro _ ⟨⟩
        exact hadm b rfl
      obtain ⟨state', values', hrun, hpre, hwf, hcov, hkeys', hhist⟩ :=
        append_ok h hb hkeys hkey
      refine ⟨state', values', hrun, hpre, hwf, hcov, hkeys', fun j => ?_⟩
      rw [hhist, push_of_lt]
      · rfl
      · -- the newest version kept is older than the state before the commit
        intro latest hlatest
        have hall := hold.2
        rw [← last_readVersions values] at hall
        have hlast : (readVersions values (state.versions key)).getLast? = some latest :=
          hlatest
        rw [hlast] at hall
        simpa using hall
    · exact ⟨state, values, rfl, prefix_rfl, h, rfl, hkeys, hkeep⟩

/-- The values before a batch are kept, key by key. -/
theorem keepPreImages_ok {oldest : Nat} {state : State} (h : WellFormed state values)
    (hkeys : ∀ k ∈ state.keys, p k) (hs : Sorted previous)
    (hadm : ∀ e ∈ previous, p e.1 ∧ ∀ before ∈ e.2, Storable before) :
    ∃ state' values', keepPreImages oldest state values previous = .ok (state', values') ∧
      values <+: values' ∧ WellFormed state' values' ∧
      state'.coveredThrough = state.coveredThrough ∧ (∀ k ∈ state'.keys, p k) ∧
      ∀ j, historyOf state' values' j
        = withPreImage oldest (historyOf state values j) (lookup j previous).join := by
  induction previous generalizing state values with
  | nil => exact ⟨state, values, rfl, prefix_rfl, h, rfl, hkeys, fun _ => rfl⟩
  | cons e rest ih =>
    rw [forall_mem_cons] at hadm
    obtain ⟨key, before⟩ := e
    obtain ⟨hfirst, hrest⟩ := sorted_cons.mp hs
    obtain ⟨middle, grown, hstep, hpre, hwf, hcov, hmiddle, hhist⟩ :=
      keepPreImage_ok oldest h hkeys hadm.1.1 hadm.1.2
    obtain ⟨state', values', hrun, hpre', hwf', hcov', hkeys', hhist'⟩ :=
      ih hwf hmiddle hrest hadm.2
    refine ⟨state', values', ?_, hpre.trans hpre', hwf', hcov'.trans hcov, hkeys', fun j => ?_⟩
    · rw [keepPreImages, hstep, ok_bind]
      exact hrun
    · rw [hhist', hhist]
      split_ifs with hj
      · -- the key has no later place in the list
        have hlater : lookup key rest = none :=
          lookup_eq_none (fun e he => (ne_of_lt (hfirst e he)).symm)
        rw [hj, hlater, lookup_entry, if_pos rfl]
        rfl
      · rw [lookup_entry, if_neg hj]

/-! ## The state after -/

/-- The values a commit leaves in a key's history, in the order of its operations. -/
def stagedValues (operations : List BatchOperation) (key : Bytes) : List (Option Bytes) :=
  (operations.filter (fun operation => operation.key == key && isVersionedKey operation.key)).map
    BatchOperation.value?

theorem stagedValues_ne_nil :
    stagedValues operations key ≠ [] ↔
      isVersionedKey key = true ∧ ∃ operation ∈ operations, operation.key = key := by
  rw [stagedValues, ne_eq, map_eq_nil_iff, filter_eq_nil_iff]
  constructor
  · intro h
    push Not at h
    obtain ⟨operation, hop, hkey⟩ := h
    obtain ⟨hkey, hversioned⟩ := Bool.and_eq_true_iff.mp hkey
    obtain rfl := eq_of_beq hkey
    exact ⟨hversioned, operation, hop, rfl⟩
  · rintro ⟨hversioned, operation, hop, rfl⟩ hnone
    exact hnone operation hop (by rw [beq_self_eq_true, hversioned]; rfl)

/-- Staged references that stand for what `operations` write. -/
def Stages (revision : Nat) (values : Bytes) (staged : List (Bytes × Option ValueRef))
    (operations : List BatchOperation) : Prop :=
  (∀ s ∈ staged, Sound values (revision, s.2)) ∧
    staged.map (fun s => (s.1, s.2.map (ValueLog.valueOf values)))
      = (operations.filter (fun operation => isVersionedKey operation.key)).map
          (fun operation => (operation.key, operation.value?))

theorem value?_admissible (h : operation.Valid) (hrev : revision < 256 ^ 8) :
    ∀ v ∈ operation.value?, ValueLog.Admissible revision v := by
  cases operation with
  | put =>
    rintro _ ⟨⟩
    obtain ⟨_, _, hvalue⟩ := bind_eq_ok.mp h
    exact ⟨hrev, validateValue_ok hvalue⟩
  | delete => rintro _ ⟨⟩

/-- The staged versions read as the operations' values. -/
theorem stageValues_ok (hrev : revision < 256 ^ 8)
    (hvalid : ∀ operation ∈ operations, operation.Valid) (values : Bytes) :
    ∃ staged values', stageValues revision values operations
      = .ok (staged, values') ∧ values <+: values' ∧ Stages revision values' staged operations := by
  induction operations generalizing values with
  | nil => exact ⟨[], values, rfl, prefix_rfl, forall_mem_nil _, rfl⟩
  | cons operation rest ih =>
    have hrest := fun o ho => hvalid o (mem_cons_of_mem _ ho)
    rw [stageValues]
    split_ifs with hver
    · obtain ⟨reference, middle, hprep, hpre, hsound, hval⟩ :=
        prepareValue_ok values (value?_admissible (hvalid _ mem_cons_self) hrev)
      obtain ⟨staged, values', hrun, hpre', hall, hmap⟩ := ih hrest middle
      refine ⟨(operation.key, reference) :: staged, values', ?_, hpre.trans hpre', ?_, ?_⟩
      · rw [hprep, ok_bind]
        dsimp only
        rw [hrun]
        rfl
      · exact forall_mem_cons.mpr ⟨hsound.mono hpre', hall⟩
      · rw [filter_cons_of_pos (by exact hver), map_cons, map_cons, hmap]
        refine congrArg (fun v => (operation.key, v) :: _) ?_
        rw [← hval]
        cases reference with
        | none => rfl
        | some reference =>
          exact congrArg some (valueOf_mono hpre' (hsound reference rfl).1).2
    · obtain ⟨staged, values', hrun, hpre, hall, hmap⟩ := ih hrest values
      refine ⟨staged, values', hrun, hpre, hall, ?_⟩
      rw [filter_cons_of_neg (by exact hver), hmap]

/-- Appending the staged versions pushes each on its key's history. -/
theorem appendStaged_ok {state : State} (h : WellFormed state values)
    (hkeys : ∀ k ∈ state.keys, p k) (hsound : ∀ s ∈ staged, p s.1 ∧ Sound values (revision, s.2)) :
    ∃ state', staged.foldl (fun state s => appendPrepared state s.1 revision s.2) state
        = state' ∧
      WellFormed state' values ∧ state'.coveredThrough = state.coveredThrough ∧
      (∀ k ∈ state'.keys, p k) ∧ ∀ j, historyOf state' values j
        = (((staged.map (fun s => (s.1, s.2.map (ValueLog.valueOf values)))).filter
            (fun s => s.1 == j)).map Prod.snd).foldl (push revision)
              (historyOf state values j) := by
  induction staged generalizing state with
  | nil => exact ⟨_, rfl, h, rfl, hkeys, fun _ => rfl⟩
  | cons s rest ih =>
    rw [forall_mem_cons] at hsound
    obtain ⟨hwf, hhist⟩ := @Mvcc.historyOf_appendPrepared _ _ h s.1 revision s.2 hsound.1.2
    obtain ⟨state', hrun, hwf', hcov, hkeys', hhist'⟩ :=
      ih hwf (appendPrepared_keys hkeys hsound.1.1) hsound.2
    refine ⟨state', hrun, hwf', hcov, hkeys', fun j => ?_⟩
    rw [hhist', hhist, map_cons]
    split_ifs with hj
    · rw [filter_cons_of_pos (by simp [hj]), hj]
      rfl
    · rw [filter_cons_of_neg (by simpa using Ne.symm hj)]

/-- **HISTORY**: a commit under an open snapshot keeps the state before it and the states its
    operations leave. -/
theorem maintainHistory_ok {engine : Engine} (h : WellFormed engine.mvcc engine.mvccValues)
    (hkeys : ∀ k ∈ engine.mvcc.keys, p k) (hs : Sorted previous)
    (hadm : ∀ e ∈ previous, p e.1 ∧ ∀ before ∈ e.2, Storable before)
    (hops : ∀ operation ∈ operations, p operation.key)
    (hstages : Stages engine.lastLsn engine.mvccValues staged operations) (oldest : Nat) :
    ∃ state values, engine.maintainHistory previous staged oldest
        = .ok { engine with mvcc := state, mvccValues := values } ∧
      WellFormed state values ∧ state.coveredThrough = engine.mvcc.coveredThrough ∧
      (∀ k ∈ state.keys, p k) ∧ ∀ j, historyOf state values j
        = (stagedValues operations j).foldl (push engine.lastLsn)
            (withPreImage oldest (historyOf engine.mvcc engine.mvccValues j)
              (lookup j previous).join) := by
  obtain ⟨state, values, hkeep, hpre, hwf, hcov, hmiddle, hhist⟩ :=
    keepPreImages_ok h hkeys hs hadm
  have hsound : ∀ s ∈ staged, p s.1 ∧ Sound values (engine.lastLsn, s.2) := by
    intro s hs
    obtain ⟨operation, hop, heq⟩ := mem_map.mp (hstages.2 ▸ mem_map_of_mem hs)
    have hkey : operation.key = s.1 := congrArg Prod.fst heq
    exact ⟨hkey ▸ hops operation (mem_of_mem_filter hop), (hstages.1 s hs).mono hpre⟩
  have hvals : staged.map (fun s => (s.1, s.2.map (ValueLog.valueOf values)))
      = staged.map (fun s => (s.1, s.2.map (ValueLog.valueOf engine.mvccValues))) := by
    refine map_congr_left (fun s hs => ?_)
    obtain ⟨key, reference⟩ := s
    cases reference with
    | none => rfl
    | some reference =>
      have hval := (valueOf_mono hpre (hstages.1 _ hs reference rfl).1).2
      exact congrArg (fun v => (key, some v)) hval
  obtain ⟨state', hrun, hwf', hcov', hkeys', hhist'⟩ := appendStaged_ok hwf hmiddle hsound
  refine ⟨state', values, by rw [Engine.maintainHistory, hkeep, ← hrun]; rfl, hwf',
    hcov'.trans hcov, hkeys', fun j => ?_⟩
  rw [hhist', hhist, hvals, hstages.2, stagedValues, filter_map, filter_filter, map_map]
  rfl

/-! ## A whole commit -/

/-- What a commit does to the histories: under an open snapshot it keeps states, without one it
    only gives up the revisions before it. -/
def Retains (operations pending : List BatchOperation) (rows : Rows)
    (before after : Engine) : Prop :=
  match before.oldestActiveSnapshot with
  | some oldest =>
    after.mvcc.coveredThrough = before.mvcc.coveredThrough ∧
      ∀ key, historyOf after.mvcc after.mvccValues key
        = (stagedValues pending key).foldl (push (before.lastLsn + 1))
            (withPreImage oldest (historyOf before.mvcc before.mvccValues key)
              (lookup key (preImagesOf rows operations)).join)
  | none =>
    after.mvcc.coveredThrough = max before.mvcc.coveredThrough (before.lastLsn + 1) ∧
      ∀ key, historyOf after.mvcc after.mvccValues key
        = historyOf before.mvcc before.mvccValues key

section Commit

variable {ordered : Bool} {engine : Engine} {levels : Nat} {rows : Rows} {after : Engine}
  {combined operations : List BatchOperation} {results : List BatchResult} {plan : Plan}

theorem preImagesOf_sorted (operations : List BatchOperation) :
    Sorted (preImagesOf rows operations) :=
  pairwise_map.mpr (keySet_pairwise _)

theorem preImagesOf_storable (hs : Sorted rows) (h : ∀ e ∈ rows, Storable e.2)
    (hops : ∀ operation ∈ operations, p operation.key) :
    ∀ e ∈ preImagesOf rows operations, p e.1 ∧ ∀ before ∈ e.2, Storable before := by
  intro e he
  obtain ⟨key, hkey, rfl⟩ := mem_map.mp he
  refine ⟨?_, fun before hbefore => h (key, before) ((lookup_eq_some hs).mp hbefore)⟩
  obtain ⟨operation, hop, rfl⟩ := mem_map.mp (mem_of_mem_filter (mem_keySet.mp hkey))
  exact hops operation hop

/-- A flush changes the tree and the buffer. -/
theorem maybeFlush_keeps (engine : Engine) :
    engine.maybeFlush.mvcc = engine.mvcc ∧ engine.maybeFlush.mvccValues = engine.mvccValues ∧
      engine.maybeFlush.userLen = engine.userLen ∧ engine.maybeFlush.indexes = engine.indexes := by
  rcases maybeFlush_form engine with hsame | ⟨_, _, _, _, hform⟩
  · rw [hsame]
    exact ⟨rfl, rfl, rfl, rfl⟩
  · rw [hform]
    exact ⟨rfl, rfl, rfl, rfl⟩

/-- What committing a plan does to an engine: the plan's data is written, the histories keep what
    they keep, and a flush may follow. -/
theorem commitPlan_form (hrun : engine.commitPlan plan previous = .ok after) :
    checkRecord plan.pending = .ok () ∧ ∃ tree buffer record state values,
      buffer = engine.writeBack.map (·.recordAll (engine.lastLsn + 1) plan.mutations) ∧
      after = Engine.maybeFlush { engine with
        tree := tree
        writeBack := buffer
        wal := engine.wal ++ [record]
        lastLsn := engine.lastLsn + 1
        userLen := saturatingAdd engine.userLen plan.userDelta
        mvcc := state
        mvccValues := values } := by
  rw [Engine.commitPlan] at hrun
  cases hold : engine.oldestActiveSnapshot with
  | none =>
    rw [hold] at hrun
    obtain ⟨committed, hdata, hrun⟩ := bind_eq_ok.mp hrun
    cases hrun
    obtain ⟨hrecord, tree, buffer, record, hbuffer, rfl⟩ := commitData_form hdata
    exact ⟨hrecord, tree, buffer, record, _, _, hbuffer, rfl⟩
  | some =>
    rw [hold] at hrun
    obtain ⟨_, _, hrun⟩ := bind_eq_ok.mp hrun
    obtain ⟨committed, hdata, hrun⟩ := bind_eq_ok.mp hrun
    obtain ⟨kept, hkeep, hrun⟩ := bind_eq_ok.mp hrun
    cases hrun
    obtain ⟨_, _, hkeep⟩ := bind_eq_ok.mp hkeep
    cases hkeep
    obtain ⟨hrecord, tree, buffer, record, hbuffer, rfl⟩ := commitData_form hdata
    exact ⟨hrecord, tree, buffer, record, _, _, hbuffer, rfl⟩

/-- **COMMIT**: a plan is served, logged and retained. -/
theorem commitPlan_serves (h : Serves ordered engine levels rows)
    (hd : engine.writeBack = none → levels ≤ maxTreeDepth)
    (hm : WellFormed engine.mvcc engine.mvccValues) (hstore : plan.Storable)
    (hpend : ∀ operation ∈ plan.pending, operation.Valid) (hlsn : engine.lastLsn + 1 < 2 ^ 64)
    (hrec : checkRecord plan.pending = .ok ())
    (htomb : engine.tombstonesPossible = false → ∀ key, lookup (tombstoneKey key)
      (updateAll rows (plan.mutations.map Mutation.update)) = none)
    (hkeys : ∀ k ∈ engine.mvcc.keys, p k) (hops : ∀ operation ∈ operations, p operation.key)
    (hlogged : ∀ operation ∈ plan.pending, p operation.key) :
    ∃ engine' levels', engine.commitPlan plan
        (if engine.oldestActiveSnapshot.isSome then preImagesOf rows operations else [])
          = .ok engine' ∧
      Serves ordered engine' levels' (updateAll rows (plan.mutations.map Mutation.update)) ∧
      Logged plan.pending engine engine' ∧ WellFormed engine'.mvcc engine'.mvccValues ∧
      (∀ k ∈ engine'.mvcc.keys, p k) ∧ Retains operations plan.pending rows engine engine' := by
  rw [Engine.commitPlan]
  cases hold : engine.oldestActiveSnapshot with
  | none =>
    -- no snapshot: only the coverage moves
    obtain ⟨committed, depth, hdata, hserves, hlog, hmvcc, hvals⟩ :=
      commitData_serves h hstore hlsn hrec htomb hd
    have hserves' : Serves ordered committed.publishCoverage depth
        (updateAll rows (plan.mutations.map Mutation.update)) := hserves.congr rfl rfl rfl
    have hlog' : Logged plan.pending engine committed.publishCoverage := { hlog with }
    obtain ⟨⟨levels', hfinal⟩, hgrows⟩ := maybeFlush_serves hserves'
    obtain ⟨hm₁, hm₂, _⟩ := maybeFlush_keeps committed.publishCoverage
    refine ⟨committed.publishCoverage.maybeFlush, levels', ?_, hfinal, hlog'.maybeFlush hgrows, ?_⟩
    · dsimp only
      rw [hdata]
      rfl
    · rw [Retains, hold, hm₁, hm₂, Engine.publishCoverage]
      rw [hmvcc, hvals, hlog.lsn]
      exact ⟨⟨hm.sorted, hm.sound⟩, hkeys, rfl, fun key => rfl⟩
  | some oldest =>
    -- the values are staged before the commit, the history is kept behind it
    obtain ⟨staged, values, hstage, hpre, hstages⟩ :=
      stageValues_ok hlsn hpend engine.mvccValues
    have hm' := hm.mono hpre
    have hserves₀ : Serves ordered { engine with mvccValues := values } levels rows :=
      h.congr rfl rfl rfl
    obtain ⟨committed, depth, hdata, hserves, hlog, hmvcc, hvals⟩ :=
      commitData_serves hserves₀ hstore hlsn hrec htomb hd
    have hwf : WellFormed committed.mvcc committed.mvccValues := by
      rw [hmvcc, hvals]
      exact hm'.1
    have hstages' : Stages committed.lastLsn committed.mvccValues staged plan.pending := by
      rw [hlog.lsn, hvals]
      exact hstages
    obtain ⟨state, values', hkeep, hwf', hcov, hkeys', hhist⟩ :=
      maintainHistory_ok hwf (by rw [hmvcc]; exact hkeys) (preImagesOf_sorted operations)
        (preImagesOf_storable h.sorted h.storable hops) hlogged hstages' oldest
    have hserves' : Serves ordered { committed with mvcc := state, mvccValues := values' } depth
        (updateAll rows (plan.mutations.map Mutation.update)) := hserves.congr rfl rfl rfl
    have hlog' : Logged plan.pending engine
        { committed with mvcc := state, mvccValues := values' } := { hlog with }
    obtain ⟨⟨levels', hfinal⟩, hgrows⟩ := maybeFlush_serves hserves'
    obtain ⟨hm₁, hm₂, _⟩ := maybeFlush_keeps { committed with mvcc := state, mvccValues := values' }
    refine ⟨_, levels', ?_, hfinal, hlog'.maybeFlush hgrows, ?_⟩
    · dsimp only
      rw [hstage, ok_bind]
      rw [hdata, ok_bind, if_pos Option.isSome_some, hkeep]
      rfl
    · rw [Retains, hold, hm₁, hm₂]
      refine ⟨hwf', hkeys', hcov.trans (congrArg _ hmvcc), fun key => ?_⟩
      rw [hhist, hlog.lsn, hmvcc, hvals, hm'.2]

theorem changeLogKey_fromCaller (sequence : Nat) (value : Bytes) :
    (BatchOperation.put (changeLogKey sequence) value).FromCaller := rfl

/-- The change log adds at most its own record. -/
theorem withChangeLog_cases (h : engine.withChangeLog operations = .ok combined) :
    combined = operations ∨ ∃ sequence value,
      combined = operations ++ [.put (changeLogKey sequence) value] := by
  rw [Engine.withChangeLog] at h
  split_ifs at h with henabled
  · cases h
    exact .inl rfl
  · obtain ⟨sequence, _, h⟩ := bind_eq_ok.mp h
    obtain ⟨entries, _, h⟩ := bind_eq_ok.mp h
    split_ifs at h
    · cases h
      exact .inl rfl
    · cases h
      exact .inr ⟨_, _, rfl⟩

theorem withChangeLog_nil (h : engine.withChangeLog [] = .ok combined) : combined = [] := by
  rw [Engine.withChangeLog] at h
  split_ifs at h with henabled
  · cases h
    rfl
  · obtain ⟨sequence, _, h⟩ := bind_eq_ok.mp h
    cases h
    rfl

section

variable (hlog : engine.withChangeLog operations = .ok combined)
include hlog

/-- What holds of a batch's operations and of change records holds of all that is committed. -/
theorem forall_withChangeLog {p : BatchOperation → Prop}
    (h : ∀ operation ∈ operations, p operation)
    (hrecord : ∀ sequence value, p (.put (changeLogKey sequence) value)) :
    ∀ operation ∈ combined, p operation := by
  rcases withChangeLog_cases hlog with rfl | ⟨sequence, value, rfl⟩
  · exact h
  · exact forall_mem_append.mpr ⟨h, forall_mem_singleton.mpr (hrecord sequence value)⟩

theorem mem_withChangeLog (h : operation ∈ operations) : operation ∈ combined := by
  rcases withChangeLog_cases hlog with rfl | ⟨sequence, value, rfl⟩
  · exact h
  · exact mem_append_left _ h

end

/-- A batch the engine takes on: it is healthy, the operations and the change record they need
    are valid, no caller names a tombstone, the sequence number and the record fit. -/
structure Accepts (engine : Engine) (rows : Rows)
    (operations combined : List BatchOperation) : Prop where
  healthy : engine.poisoned = false
  changeLog : engine.withChangeLog operations = .ok combined
  valid : ∀ operation ∈ combined, operation.Valid
  caller : ∀ operation ∈ operations, operation.FromCaller
  lsn : engine.lastLsn + 1 < 2 ^ 64
  record : checkRecord (effective (engine.lastLsn + 1) rows combined) = .ok ()

theorem Accepts.caller_combined (h : Accepts engine rows operations combined) :
    ∀ operation ∈ combined, operation.FromCaller :=
  forall_withChangeLog h.changeLog h.caller changeLogKey_fromCaller

theorem Accepts.valid_operations (h : Accepts engine rows operations combined) :
    ∀ operation ∈ operations, operation.Valid :=
  fun operation hop => h.valid operation (mem_withChangeLog h.changeLog hop)

theorem forM_validate (h : ∀ operation ∈ operations, operation.Valid) :
    operations.forM validateOperation = .ok () :=
  forM_eq_ok.mpr h

theorem mem_of_mem_effective (h : operation ∈ effective revision rows operations) :
    operation ∈ operations := by
  induction operations generalizing rows operation with
  | nil => exact h
  | cons first rest ih =>
    rw [effective] at h
    split_ifs at h
    · rcases mem_cons.mp h with rfl | h
      · exact mem_cons_self
      · exact mem_cons_of_mem _ (ih h)
    · exact mem_cons_of_mem _ (ih h)

section

variable (h : Serves ordered engine levels rows)
include h

/-- **COMMIT**: an accepted batch leads to the map that replaying it gives. When it has an effect
    it is logged and the snapshots keep what they read. -/
theorem applyBatch_serves (hm : WellFormed engine.mvcc engine.mvccValues)
    (hd : Reaches levels engine.writeBack (wantedKeys engine.tombstonesPossible combined))
    (hacc : Accepts engine rows operations combined) :
    ∃ results engine' levels', engine.applyBatch operations = .ok (results, engine') ∧
      Serves ordered engine' levels' (replayAll (engine.lastLsn + 1) rows combined) ∧
      WellFormed engine'.mvcc engine'.mvccValues ∧
      (∀ key ∈ engine'.mvcc.keys,
        key ∈ engine.mvcc.keys ∨ ∃ operation ∈ combined, operation.key = key) ∧
      ((effective (engine.lastLsn + 1) rows combined = [] ∧
          ∃ possible, engine' = { engine with tombstonesPossible := possible }) ∨
        (effective (engine.lastLsn + 1) rows combined ≠ [] ∧
          Logged (effective (engine.lastLsn + 1) rows combined) engine engine' ∧
          Retains combined (effective (engine.lastLsn + 1) rows combined) rows engine engine')) := by
  have hhealthy := ensureHealthy_ok hacc.healthy
  rw [Engine.applyBatch, hhealthy, ok_bind]
  by_cases hnil : operations = []
  · subst hnil
    obtain rfl := withChangeLog_nil hacc.changeLog
    rw [if_pos rfl]
    exact ⟨[], engine, levels, rfl, h, hm, fun _ => .inl,
      .inl ⟨rfl, engine.tombstonesPossible, rfl⟩⟩
  · rw [if_neg hnil, forM_validate hacc.valid_operations, ok_bind, hacc.changeLog, ok_bind]
    obtain ⟨plan, hplan, hstore, hpend, _, _, hmut, htomb⟩ :=
      planBatch_ok h hd hacc.valid hacc.caller_combined hacc.lsn
    rw [hplan, ok_bind]
    dsimp only
    -- the plan's flag is the engine's from here on
    have hserves : Serves ordered { engine with tombstonesPossible := plan.tombstonesPossible }
        levels rows :=
      ⟨h.holds, h.buffered, fun hposs => h.tombless (htomb hposs).1, h.whole, h.storable⟩
    by_cases hempty : plan.pending = []
    · -- nothing has an effect, so only the flag can have changed, and the map has not
      rw [if_pos hempty]
      have heff : effective (engine.lastLsn + 1) rows combined = [] := hpend ▸ hempty
      have hrows : replayAll (engine.lastLsn + 1) rows combined = rows := by
        rw [← replayAll_effective, heff]
        rfl
      refine ⟨plan.results, { engine with tombstonesPossible := plan.tombstonesPossible }, levels,
        rfl, ?_, hm, fun _ => .inl, .inl ⟨heff, _, rfl⟩⟩
      rw [hrows]
      exact hserves
    · rw [if_neg hempty]
      have hmem : ∀ operation ∈ plan.pending, operation ∈ combined := by
        rw [hpend]
        exact fun operation hop => mem_of_mem_effective hop
      have hwanted : wantedKeys engine.tombstonesPossible combined ≠ [] := by
        obtain ⟨operation, hop⟩ := exists_mem_of_ne_nil _ hempty
        exact ne_nil_of_mem (mem_wantedKeys (hmem operation hop))
      obtain ⟨engine', levels', hcommit, hserves', hlog, hm', hkeys, hretains⟩ :=
        commitPlan_serves hserves (hd.shallow hwanted) hm hstore
          (p := fun key => key ∈ engine.mvcc.keys ∨ ∃ operation ∈ combined, operation.key = key)
          (fun operation hop => hacc.valid operation (hmem operation hop)) hacc.lsn
          (by rw [hpend]; exact hacc.record)
          (by rw [hmut]; exact fun hposs => (htomb hposs).2) (fun _ => .inl)
          (fun operation hop => .inr ⟨operation, hop, rfl⟩)
          (fun operation hop => .inr ⟨operation, hmem operation hop, rfl⟩)
      refine ⟨plan.results.take operations.length, engine', levels', ?_, hmut ▸ hserves', hm',
        hkeys, .inr ⟨hpend ▸ hempty, ?_, hpend ▸ hretains⟩⟩
      · have hcommit' : Engine.commitPlan
            { engine with tombstonesPossible := plan.tombstonesPossible } plan
            (if engine.oldestActiveSnapshot.isSome then preImagesOf rows combined else [])
              = .ok engine' := hcommit
        rw [hcommit']
        rfl
      · rw [← hpend]
        exact { hlog with }

/-! ## Commits that succeed -/

omit h in
theorem Plan.steps_valid :
    ∀ {plan plan' : Plan}, Plan.steps revision plan operations = .ok plan' →
      ∀ operation ∈ operations, operation.Valid := by
  induction operations with
  | nil => exact fun _ operation hop => absurd hop not_mem_nil
  | cons first rest ih =>
    intro plan plan' hrun operation hop
    obtain ⟨middle, hstep, hrest⟩ := bind_eq_ok.mp hrun
    rcases mem_cons.mp hop with rfl | hop
    · obtain ⟨_, hvalid, _⟩ := bind_eq_ok.mp hstep
      exact hvalid
    · exact ih hrest operation hop

/-- A plan that was made could read what it wanted. -/
theorem reaches_of_planBatch {planned : Plan × List (Bytes × Option Versioned)}
    (hplan : engine.planBatch operations = .ok planned) :
    Reaches levels engine.writeBack (wantedKeys engine.tombstonesPossible operations) := by
  obtain ⟨treeRows, hden, _⟩ := h.holds
  obtain ⟨revisions, hsweep, _⟩ := bind_eq_ok.mp hplan
  by_contra hdeep
  obtain ⟨error, herr⟩ := mergedMany_deep
    (fun _ hd hne => bind_fails _ (collect_deep hden hd false hne)) hdeep
  cases herr.symm.trans hsweep

/-- A commit that succeeds was accepted. -/
theorem accepts_of_applyBatch (hcaller : ∀ operation ∈ operations, operation.FromCaller)
    (hne : operations ≠ []) (hrun : engine.applyBatch operations = .ok (results, after)) :
    ∃ combined, Accepts engine rows operations combined ∧
      Reaches levels engine.writeBack (wantedKeys engine.tombstonesPossible combined) := by
  obtain ⟨_, hhealthy, hrun⟩ := bind_eq_ok.mp hrun
  rw [if_neg hne] at hrun
  obtain ⟨_, _, hrun⟩ := bind_eq_ok.mp hrun
  obtain ⟨combined, hlog, hrun⟩ := bind_eq_ok.mp hrun
  obtain ⟨⟨plan, previous⟩, hplan, hrun⟩ := bind_eq_ok.mp hrun
  have hsound : engine.poisoned = false := by
    rw [Engine.ensureHealthy] at hhealthy
    split_ifs at hhealthy with hpoisoned
    exact Bool.eq_false_iff.mpr hpoisoned
  obtain ⟨hvalid, hlsn⟩ : (∀ operation ∈ combined, operation.Valid) ∧
      engine.lastLsn + 1 < 2 ^ 64 := by
    obtain ⟨_, _, hplan⟩ := bind_eq_ok.mp hplan
    obtain ⟨_, _, hplan⟩ := bind_eq_ok.mp hplan
    obtain ⟨revision, hnext, hplan⟩ := bind_eq_ok.mp hplan
    obtain ⟨_, hsteps, _⟩ := bind_eq_ok.mp hplan
    exact ⟨Plan.steps_valid hsteps, (nextLsn_lt hnext).2⟩
  have hcombined := forall_withChangeLog hlog hcaller changeLogKey_fromCaller
  have hd := reaches_of_planBatch h hplan
  refine ⟨combined, ⟨hsound, hlog, hvalid, hcaller, hlsn, ?_⟩, hd⟩
  obtain ⟨plan', hplan', _, hpend, _⟩ := planBatch_ok h hd hvalid hcombined hlsn
  cases hplan.symm.trans hplan'
  rw [← hpend]
  dsimp only at hrun
  by_cases hempty : plan.pending = []
  · rw [hempty]
    rfl
  · rw [if_neg hempty] at hrun
    obtain ⟨committed, hcommit, _⟩ := bind_eq_ok.mp hrun
    exact (commitPlan_form hcommit).1

omit h in
/-- How a batch is committed: it has no effect, or its plan is. -/
theorem applyBatch_cases (hrun : engine.applyBatch operations = .ok (results, after)) :
    (∃ possible, after = { engine with tombstonesPossible := possible }) ∨
      ∃ possible plan previous, Engine.commitPlan { engine with tombstonesPossible := possible }
        plan previous = .ok after := by
  obtain ⟨_, _, hrun⟩ := bind_eq_ok.mp hrun
  split_ifs at hrun
  · cases hrun
    exact .inl ⟨_, rfl⟩
  · obtain ⟨_, _, hrun⟩ := bind_eq_ok.mp hrun
    obtain ⟨combined, _, hrun⟩ := bind_eq_ok.mp hrun
    obtain ⟨⟨plan, previous⟩, _, hrun⟩ := bind_eq_ok.mp hrun
    dsimp only at hrun
    split_ifs at hrun
    · cases hrun
      exact .inl ⟨_, rfl⟩
    · obtain ⟨committed, hcommit, hrun⟩ := bind_eq_ok.mp hrun
      cases hrun
      exact .inr ⟨_, plan, previous, hcommit⟩

/-- How an accepted batch is committed, with the plan that was made of it. -/
theorem Accepts.planned (hacc : Accepts engine rows operations combined)
    (hd : Reaches levels engine.writeBack (wantedKeys engine.tombstonesPossible combined))
    (hrun : engine.applyBatch operations = .ok (results, after)) :
    ∃ plan previous, engine.planBatch combined = .ok (plan, previous) ∧
      previous = (if engine.oldestActiveSnapshot.isSome then preImagesOf rows combined else []) ∧
      plan.Follows (engine.lastLsn + 1) rows combined engine.tombstonesPossible ∧
      ((plan.pending = [] ∧ results = plan.results ∧
          ∃ possible, after = { engine with tombstonesPossible := possible }) ∨
        (results = plan.results.take operations.length ∧
          Engine.commitPlan { engine with tombstonesPossible := plan.tombstonesPossible }
            plan previous = .ok after)) := by
  obtain ⟨plan, hplan, hfollows⟩ := planBatch_ok h hd hacc.valid hacc.caller_combined hacc.lsn
  refine ⟨plan, _, hplan, rfl, hfollows, ?_⟩
  obtain ⟨_, _, hrun⟩ := bind_eq_ok.mp hrun
  by_cases hnil : operations = []
  · subst hnil
    obtain rfl := withChangeLog_nil hacc.changeLog
    rw [if_pos rfl] at hrun
    cases hrun
    exact .inl ⟨hfollows.pending, hfollows.results.symm, _, rfl⟩
  · rw [if_neg hnil, forM_validate hacc.valid_operations, ok_bind, hacc.changeLog, ok_bind, hplan,
      ok_bind] at hrun
    dsimp only at hrun
    by_cases hempty : plan.pending = []
    · rw [if_pos hempty] at hrun
      cases hrun
      exact .inl ⟨hempty, rfl, _, rfl⟩
    · rw [if_neg hempty] at hrun
      obtain ⟨committed, hcommit, hrun⟩ := bind_eq_ok.mp hrun
      cases hrun
      exact .inr ⟨rfl, hcommit⟩

end

end Commit

end Vyrn
