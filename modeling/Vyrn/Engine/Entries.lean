import Vyrn.Engine.Conflicts

/-!
# Index entries under a batch

An index's entry is a key that holds the index's name, the value and the primary key, each of the
first two behind its length (**`indexEntryKey_inj`**).

Main results: `writeIndexedBatch_rows`, `claims_agree`, `holders_released`.
-/

namespace Vyrn

open SortedMap List ByteString Mvcc

variable {name primary value key : Bytes} {update : IndexUpdate}

/-! ## The code -/

def Engine.createIndex (engine : Engine) (name : Bytes) (unique : Bool) : Except Error Engine := do
  validateIndexName name
  if (lookup name engine.indexes).isSome then throw .indexExists
  let (_, engine) ← engine.applyBatch
    [.put (indexDefinitionKey name) [if unique then 1 else 0]]
  return { engine with indexes := put name unique engine.indexes }

/-- The deletes of all entries of an index. -/
def Engine.entryDeletes (engine : Engine) (name : Bytes) : Except Error (List BatchOperation) := do
  let start := indexEntryPrefix name
  let rows ← engine.treeScan (some start) (successor start) usizeMax
  return rows.map (fun row => .delete row.1)

def Engine.dropIndex (engine : Engine) (name : Bytes) : Except Error Engine := do
  if (lookup name engine.indexes).isNone then throw .indexNotFound
  let deletes ← engine.entryDeletes name
  let (_, engine) ← engine.applyBatch (deletes ++ [.delete (indexDefinitionKey name)])
  return { engine with indexes := erase name engine.indexes }

def Engine.writeIndexedDeferred (engine : Engine) (operations : List BatchOperation)
    (updates : List IndexUpdate) : Except Error (List BatchResult × Engine) := do
  operations.forM validateUserOperation
  engine.writeIndexedBatch operations updates

/-! ## Keys of entries -/

theorem indexEntryKey_rooted (name value primary : Bytes) :
    indexEntryRoot <+: indexEntryKey name value primary :=
  (indexValuePrefix_rooted name value).trans (prefix_append _ _)

/-- **ENTRY**: a key that can be stored is the entry of one name, value and primary key. -/
theorem indexEntryKey_inj {name' value' primary' : Bytes}
    (hlen : (indexEntryKey name value primary).length ≤ maxKeySize)
    (h : indexEntryKey name value primary = indexEntryKey name' value' primary') :
    name = name' ∧ value = value' ∧ primary = primary' := by
  obtain ⟨hname, hvalue⟩ := indexEntryKey_lengths hlen
  obtain ⟨hname', hvalue'⟩ := indexEntryKey_lengths (h ▸ hlen)
  rw [indexEntryKey_eq, indexEntryKey_eq, append_cancel_left_eq,
    measured_inj hname hname', measured_inj hvalue hvalue'] at h
  exact h

theorem entry_ne_tombstone (h : indexEntryRoot <+: key) (other : Bytes) :
    key ≠ tombstoneKey other := by
  rintro rfl
  exact (isVersionedKey_entry h).2 (tombstonePrefix_tombstoneKey other)

theorem entry_ne_changeLog (h : indexEntryRoot <+: key) (sequence : Nat) :
    key ≠ changeLogKey sequence := by
  rintro rfl
  exact not_prefix_of rfl h

/-! ## Commits -/

section Commits

variable {engine after : Engine} {levels : Nat} {rows : Rows} {operations : List BatchOperation}
  {results : List BatchResult}

/-- A commit leaves the map of the indexes to its caller. -/
theorem applyBatch_indexes (hrun : engine.applyBatch operations = .ok (results, after)) :
    after.indexes = engine.indexes := by
  rcases applyBatch_cases hrun with ⟨possible, rfl⟩ | ⟨possible, plan, previous, hcommit⟩
  · rfl
  · obtain ⟨_, tree, buffer, record, state, values, _, rfl⟩ := commitPlan_form hcommit
    exact (maybeFlush_keeps _).2.2.2

/-- What a commit leaves: the map that its operations lead to, and a change record besides. -/
theorem applyBatch_rows (h : Serves true engine levels rows)
    (hm : WellFormed engine.mvcc engine.mvccValues)
    (hcaller : ∀ operation ∈ operations, operation.FromCaller)
    (hrun : engine.applyBatch operations = .ok (results, after)) :
    ∃ levels' rows', Serves true after levels' rows' ∧
      WellFormed after.mvcc after.mvccValues ∧
      (∀ operation ∈ operations, operation.Valid) ∧
      ∀ key, (∀ other, key ≠ tombstoneKey other) → (∀ sequence, key ≠ changeLogKey sequence) →
        valueIn rows' key = operations.foldl (BatchOperation.leaves key) (valueIn rows key) := by
  by_cases hne : operations = []
  · subst hne
    obtain ⟨_, _, hdone⟩ := bind_eq_ok.mp hrun
    rw [if_pos rfl] at hdone
    cases hdone
    exact ⟨levels, rows, h, hm, forall_mem_nil _, fun _ _ _ => rfl⟩
  obtain ⟨combined, hacc, hd⟩ := accepts_of_applyBatch h hcaller hne hrun
  obtain ⟨_, _, levels', hrun', hserves, hwf, _⟩ := applyBatch_serves h hm hd hacc
  cases hrun.symm.trans hrun'
  refine ⟨levels', _, hserves, hwf, hacc.valid_operations, fun key htomb hlog => ?_⟩
  rw [valueIn_replayAll htomb]
  rcases withChangeLog_cases hacc.changeLog with rfl | ⟨sequence, value, rfl⟩
  · rfl
  · rw [foldl_append, foldl_cons, foldl_nil, BatchOperation.leaves,
      if_neg (fun heq => hlog sequence heq.symm)]

/-- What creating an index does: it commits the definition and adds the name to the map. -/
theorem createIndex_form {unique : Bool} (hrun : engine.createIndex name unique = .ok after) :
    validateIndexName name = .ok () ∧ lookup name engine.indexes = none ∧
      ∃ results committed, engine.applyBatch
          [.put (indexDefinitionKey name) [if unique then 1 else 0]] = .ok (results, committed) ∧
        after = { committed with indexes := put name unique engine.indexes } := by
  obtain ⟨⟨⟩, hvalid, hrun⟩ := bind_eq_ok.mp hrun
  obtain ⟨hexists, hrun⟩ := guard_ok.mp hrun
  obtain ⟨⟨results, committed⟩, happly, hrun⟩ := bind_eq_ok.mp hrun
  cases hrun
  refine ⟨hvalid, Option.not_isSome_iff_eq_none.mp hexists, results, committed, happly, ?_⟩
  rw [applyBatch_indexes happly]

/-! ## Scans of a string's keys -/

/-- A scan that succeeds misses nothing. -/
theorem treeScan_complete (h : Serves true engine levels rows) (hcount : engine.Counted)
    {start : Bytes} {found : List (Bytes × Bytes)}
    (hrun : engine.treeScan (some start) (successor start) usizeMax = .ok found) :
    ∀ key, key ∈ found.map Prod.fst ↔ start <+: key ∧ (valueIn rows key).isSome = true := by
  obtain ⟨treeRows, hden, _⟩ := h.holds
  have hspans : ScanRange.Spans ⟨some start, successor start, none⟩ := by
    rintro _ ⟨⟩ stop hstop
    exact lt_successor hstop
  have hd : levels ≤ maxTreeDepth := by
    obtain ⟨scanned, hscan, _⟩ := bind_eq_ok.mp hrun
    exact mergedScan_within hden hspans (by decide) hscan le_rfl
  intro key
  let range : ScanRange := ⟨some start, successor start, none⟩
  have hall := h.scan_ok hd hcount (prefix_forward start) usizeMax
  have hle : (range.select rows).length ≤ usizeMax :=
    (length_filter_le _ _).trans (h.counted hcount).1
  rw [take_of_length_le hle] at hall
  cases hrun.symm.trans hall
  rw [map_map, valueIn, Option.isSome_map, lookup_isSome]
  constructor
  · intro hmem
    obtain ⟨row, hrow, rfl⟩ := mem_map.mp hmem
    obtain ⟨hin, hadmits⟩ := mem_filter.mp hrow
    exact ⟨prefixRange_admits.mp hadmits, row, hin, rfl⟩
  · rintro ⟨hstart, row, hin, rfl⟩
    exact mem_map.mpr ⟨row, mem_filter.mpr ⟨hin, prefixRange_admits.mpr hstart⟩, rfl⟩

end Commits

/-! ## The operations of index updates -/

theorem releases_of_mem {updates : List IndexUpdate}
    (h : (name, value, primary) ∈ releasedEntries updates) :
    ∃ update ∈ updates, update.Releases name value primary := by
  obtain ⟨update, hmem, hentry⟩ := mem_filterMap.mp h
  split_ifs at hentry with hsame
  obtain ⟨old, hold, heq⟩ := Option.map_eq_some_iff.mp hentry
  cases heq
  exact ⟨update, hmem, hsame, rfl, hold, rfl⟩

section Updates

variable {engine : Engine} {released : List (Bytes × Bytes × Bytes)} {updates : List IndexUpdate}
  {claims claims' : List ((Bytes × Bytes) × Bytes)} {new : Bytes}

/-- An update has no claim to judge unless its index is unique, or its claim is granted. -/
theorem claimUnique_cases (hrun : engine.claimUnique released claims update new = .ok claims') :
    lookup update.index engine.indexes ≠ some true ∧ claims' = claims ∨
    claims' = ((update.index, new), update.primaryKey) :: claims ∧
      (∀ primary ∈ lookup (update.index, new) claims, primary = update.primaryKey) ∧
      ∃ existing, engine.lookupIndex update.index new usizeMax = .ok existing ∧
        ∀ primary ∈ existing, primary = update.primaryKey ∨
          (update.index, new, primary) ∈ released := by
  rw [Engine.claimUnique] at hrun
  split_ifs at hrun with hunique hclaimed
  · obtain ⟨existing, hlookup, hrun⟩ := bind_eq_ok.mp hrun
    obtain ⟨hheld, hrun⟩ := guard_ok.mp hrun
    cases hrun
    refine .inr ⟨rfl, fun primary hprimary => ?_, existing, hlookup, fun primary hmem => ?_⟩
    · by_contra hne
      refine hclaimed ((Option.any_eq_true _ _).mpr ⟨primary, hprimary, decide_eq_true hne⟩)
    · by_contra hfree
      obtain ⟨hne, hkept⟩ := not_or.mp hfree
      refine hheld (any_eq_true.mpr ⟨primary, hmem, ?_⟩)
      rw [Bool.and_eq_true, Bool.not_eq_true', contains_eq_mem]
      exact ⟨decide_eq_true hne, decide_eq_false hkept⟩
  · cases hrun
    refine .inl ⟨fun hyes => hunique ?_, rfl⟩
    rw [hyes, Option.getD_some]

variable {name value : Bytes}

section

variable (hunique : lookup name engine.indexes = some true)
include hunique

/-- What the first of the updates does to a value of a unique index: it has no claim on it and
    leaves the earlier ones, or its claim is granted and becomes the newest. -/
theorem indexOperations_cons {first : IndexUpdate} {rest : List IndexUpdate}
    {entries : List BatchOperation}
    (hrun : engine.indexOperations released claims (first :: rest) = .ok entries) :
    ∃ claims' others, engine.indexOperations released claims' rest = .ok others ∧
      ((∀ primary, ¬ first.Claims name value primary) ∧
          lookup (name, value) claims' = lookup (name, value) claims ∨
        lookup (name, value) claims' = some first.primaryKey ∧
          (∀ primary ∈ lookup (name, value) claims, primary = first.primaryKey) ∧
          ∃ existing, engine.lookupIndex name value usizeMax = .ok existing ∧
            ∀ holder ∈ existing, holder = first.primaryKey ∨ (name, value, holder) ∈ released) := by
  rw [Engine.indexOperations] at hrun
  split_ifs at hrun with hunchanged
  · exact ⟨claims, entries, hrun, .inl ⟨fun _ hclaim => hclaim.changes hunchanged, rfl⟩⟩
  cases hnew : first.newValue with
  | none =>
    rw [hnew] at hrun
    obtain ⟨others, hrest, _⟩ := bind_eq_ok.mp hrun
    refine ⟨claims, others, hrest, .inl ⟨fun _ hclaim => ?_, rfl⟩⟩
    cases hnew.symm.trans hclaim.new
  | some new =>
    rw [hnew] at hrun
    obtain ⟨claims', hjudged, hrun⟩ := bind_eq_ok.mp hrun
    obtain ⟨others, hrest, _⟩ := bind_eq_ok.mp hrun
    refine ⟨claims', others, hrest, ?_⟩
    have hcases := claimUnique_cases hjudged
    by_cases hsame : (name, value) = (first.index, new)
    · obtain ⟨rfl, rfl⟩ := Prod.mk.inj hsame
      obtain ⟨rfl, hgranted⟩ := hcases.resolve_left (fun hno => hno.1 hunique)
      exact .inr ⟨lookup_cons_self, hgranted⟩
    · refine .inl ⟨fun primary hclaim => hsame ?_, ?_⟩
      · rw [hclaim.index, Option.some.inj (hnew.symm.trans hclaim.new)]
      · rcases hcases with ⟨-, rfl⟩ | ⟨rfl, -⟩
        · rfl
        · rw [lookup_cons, beq_false_of_ne hsame]

/-- Claims on a value of a unique index are of one primary key, that of the claims before them. -/
theorem claims_agree :
    ∀ {claims : List ((Bytes × Bytes) × Bytes)} {entries : List BatchOperation},
      engine.indexOperations released claims updates = .ok entries →
      ∀ primary, (∃ update ∈ updates, update.Claims name value primary) →
        (∀ earlier ∈ lookup (name, value) claims, earlier = primary) ∧
          ∀ update ∈ updates, ∀ other, update.Claims name value other → other = primary := by
  induction updates with
  | nil =>
    rintro _ _ _ _ ⟨_, hmem, _⟩
    exact absurd hmem not_mem_nil
  | cons first rest ih =>
    rintro claims entries hrun primary ⟨update, hmem, hupdate⟩
    obtain ⟨claims', others, hrest, ⟨hnot, hsame⟩ | ⟨hnewest, hearlier, _⟩⟩ :=
      indexOperations_cons hunique hrun
    · have hlater : update ∈ rest := by
        rcases mem_cons.mp hmem with rfl | hmem
        · exact absurd hupdate (hnot primary)
        · exact hmem
      obtain ⟨hbefore, hall⟩ := ih hrest primary ⟨update, hlater, hupdate⟩
      exact ⟨hsame ▸ hbefore,
        forall_mem_cons.mpr ⟨fun other hother => absurd hother (hnot other), hall⟩⟩
    · -- the claims of the rest agree with this one, which is now the newest
      have hall : ∀ update ∈ first :: rest, ∀ other, update.Claims name value other →
          other = first.primaryKey :=
        forall_mem_cons.mpr ⟨fun other hother => hother.primary.symm, fun later hlater other hother =>
          ((ih hrest other ⟨later, hlater, hother⟩).1 _ hnewest).symm⟩
      obtain rfl := hall update hmem primary hupdate
      exact ⟨hearlier, hall⟩

/-- Every holder of a claimed value of a unique index is the claimant or is released. -/
theorem holders_released {claims : List ((Bytes × Bytes) × Bytes)} {entries : List BatchOperation}
    (hrun : engine.indexOperations released claims updates = .ok entries) :
    ∀ update ∈ updates, ∀ primary, update.Claims name value primary →
      ∃ existing, engine.lookupIndex name value usizeMax = .ok existing ∧
        ∀ holder ∈ existing, holder = primary ∨ (name, value, holder) ∈ released := by
  induction updates generalizing claims entries with
  | nil => exact fun _ hmem => absurd hmem not_mem_nil
  | cons first rest ih =>
    obtain ⟨claims', others, hrest, hfirst⟩ := indexOperations_cons hunique hrun
    refine forall_mem_cons.mpr ⟨fun primary hclaim => ?_, ih hrest⟩
    rcases hfirst with ⟨hnot, _⟩ | ⟨_, _, hholders⟩
    · exact absurd hclaim (hnot primary)
    · exact hclaim.primary ▸ hholders

end

end Updates

/-! ## Looking up a value -/

section Lookup

variable {engine : Engine} {levels : Nat} {rows : Rows} {name value : Bytes}

/-- A lookup that succeeds names every holder of the value. -/
theorem lookupIndex_complete (h : Serves true engine levels rows) (hcount : engine.Counted)
    {existing : List Bytes} (hrun : engine.lookupIndex name value usizeMax = .ok existing)
    (hheld : (valueIn rows (indexEntryKey name value primary)).isSome = true) :
    primary ∈ existing := by
  rw [Engine.lookupIndex] at hrun
  split_ifs at hrun
  obtain ⟨_, _, hrun⟩ := bind_eq_ok.mp hrun
  obtain ⟨found, hscan, hrun⟩ := bind_eq_ok.mp hrun
  have hmem := (treeScan_complete h hcount hscan (indexEntryKey name value primary)).mpr
    ⟨prefix_append _ _, hheld⟩
  obtain ⟨row, hrow, hkey⟩ := mem_map.mp hmem
  obtain ⟨decoded, hdecoded, hok⟩ := (Catalog.mapM_mem hrun).1 row hrow
  rw [hkey, decodeIndexPrimary_key] at hok
  obtain ⟨_, _, hok⟩ := bind_eq_ok.mp hok
  cases hok
  exact hdecoded

end Lookup

/-! ## A batch with index updates -/

section Batch

variable {engine after : Engine} {levels : Nat} {rows : Rows}
  {operations : List BatchOperation} {updates : List IndexUpdate} {results : List BatchResult}

/-- The operations of index updates name no tombstone. -/
theorem fromCaller_updates (hcaller : ∀ operation ∈ operations, operation.FromCaller) :
    ∀ operation ∈ operations ++ updates.flatMap IndexUpdate.operations, operation.FromCaller := by
  intro operation hop
  rcases mem_append.mp hop with hop | hop
  · exact hcaller operation hop
  · obtain ⟨update, _, hop⟩ := mem_flatMap.mp hop
    exact (onEntry_of_names (operations_names hop)).2

/-- **INDEXED WRITES**: what a batch with index updates leaves of every key. -/
theorem writeIndexedBatch_rows (h : Serves true engine levels rows)
    (hm : WellFormed engine.mvcc engine.mvccValues)
    (hcaller : ∀ operation ∈ operations, operation.FromCaller)
    (hrun : engine.writeIndexedBatch operations updates = .ok (results, after)) :
    ∃ levels' rows' entries, Serves true after levels' rows' ∧
      WellFormed after.mvcc after.mvccValues ∧ after.indexes = engine.indexes ∧
      engine.indexOperations (releasedEntries updates) [] updates = .ok entries ∧
      (∀ operation ∈ operations ++ updates.flatMap IndexUpdate.operations, operation.Valid) ∧
      (∀ update ∈ updates, engine.validateUpdate validateKey update = .ok ()) ∧
      ∀ key, (∀ other, key ≠ tombstoneKey other) → (∀ sequence, key ≠ changeLogKey sequence) →
        valueIn rows' key = (operations ++ updates.flatMap IndexUpdate.operations).foldl
          (BatchOperation.leaves key) (valueIn rows key) := by
  obtain ⟨⟨⟩, hupdates, hrun⟩ := bind_eq_ok.mp hrun
  obtain ⟨entries, hentries, hrun⟩ := bind_eq_ok.mp hrun
  obtain ⟨⟨answers, committed⟩, happly, hrun⟩ := bind_eq_ok.mp hrun
  cases hrun
  obtain rfl := indexOperations_eq hentries
  obtain ⟨levels', rows', hserves, hwf, hvalid, hvalue⟩ :=
    applyBatch_rows h hm (fromCaller_updates hcaller) happly
  exact ⟨levels', rows', _, hserves, hwf, applyBatch_indexes happly, hentries, hvalid,
    forM_eq_ok.mp hupdates, hvalue⟩

end Batch

end Vyrn
