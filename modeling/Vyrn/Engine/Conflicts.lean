import Vyrn.Engine.ScanAt

/-!
# What was changed since a snapshot

A transaction that commits asks whether its keys, its ranges and its index values were changed since
its snapshot. The evidence may be in the tree, on a tombstone, in the buffer or only in the kept
versions; here it is compared with what the log's commits touched.

Main results: `changes_exact`, `removed_entry_unseen`.
-/

namespace Vyrn

open SortedMap List Transition Mvcc History

variable {key : Bytes} {operations : List BatchOperation} {V : Type} {oldest r revision : Nat}
  {history : List (Nat × Option Bytes)} {version : Nat × Option Bytes} {before : Option Versioned}
  {after : Engine} {values : List (Option V)}

/-! ## The code -/

/-- Whether the kept versions alone show a change of one of the keys. -/
def Engine.versionsChanged (engine : Engine) (revision : Nat) : List Bytes → Except Error Bool
  | [] => .ok false
  | key :: rest => do
    validateUserKey key
    if (engine.mvcc.versions key).getLast?.any (fun version => revision < version.1) then
      return true
    else engine.versionsChanged revision rest

def Engine.anyChangedSince (engine : Engine) (keys : List Bytes) (revision : Nat) :
    Except Error Bool := do
  engine.ensureHealthy
  if ← engine.versionsChanged revision keys then return true
  let live := keySet keys
  if live = [] then return false
  let found ← mergedGetManyRevisions engine.tree engine.writeBack live
  if found.any (fun current => current.any (fun current => revision < current)) then return true
  let unresolved := (live.zip found).filterMap (fun entry =>
    if entry.2 = none then some (tombstoneKey entry.1) else none)
  if unresolved = [] then return false
  let deleted ← mergedGetManyRevisions engine.tree engine.writeBack
    (unresolved.insertionSort (· ≤ ·))
  return deleted.any (fun current => current.any (fun current => revision < current))

/-- It asks the tree alone, not the buffer over it. -/
def Engine.indexValueChangedSince (engine : Engine) (index value : Bytes) (revision : Nat) :
    Except Error Bool := do
  engine.ensureHealthy
  let start := indexValuePrefix index value
  if ← engine.tree.changedSince ⟨some start, ByteString.successor start, none⟩ revision then
    return true
  return (engine.mvcc.under start).any (fun history =>
    history.2.getLast?.any (fun version => revision < version.1))

/-! ## What commits touched -/

/-- The keys that the commits of a log wrote or deleted, with the LSN of the commit. A delete counts
    where there was something to delete. -/
def touched (rows : Rows) : List WalRecord → List (Nat × Bytes)
  | [] => []
  | record :: rest =>
    (effective record.lsn rows record.operations).map
        (fun operation => (record.lsn, operation.key)) ++
      touched (replayAll record.lsn rows record.operations) rest

theorem touched_append (a b : List WalRecord) :
    ∀ rows, touched rows (a ++ b) = touched rows a ++ touched (replayLog rows a) b := by
  induction a with
  | nil => exact fun _ => rfl
  | cons record rest ih =>
    intro rows
    rw [cons_append, touched, touched, ih, append_assoc]
    rfl

theorem mem_touched {records : List WalRecord} {touch : Nat × Bytes} {rows : Rows}
    (htouch : touch ∈ touched rows records) :
    ∃ record ∈ records, ∃ operation ∈ record.operations, touch = (record.lsn, operation.key) := by
  induction records generalizing rows with
  | nil => exact absurd htouch not_mem_nil
  | cons record rest ih =>
    rcases mem_append.mp htouch with htouch | htouch
    · obtain ⟨operation, hop, rfl⟩ := mem_map.mp htouch
      exact ⟨record, mem_cons_self, operation, mem_of_mem_effective hop, rfl⟩
    · obtain ⟨r, hr, hmine⟩ := ih htouch
      exact ⟨r, mem_cons_of_mem _ hr, hmine⟩

def Chronicle.touches (c : Chronicle) : List (Nat × Bytes) := touched [] c.log

theorem effective_effective :
    ∀ rows, effective revision rows (effective revision rows operations)
      = effective revision rows operations := by
  induction operations with
  | nil => exact fun _ => rfl
  | cons operation rest ih =>
    intro rows
    rw [effective]
    split_ifs with heffect
    · rw [effective, if_pos heffect, ih]
    · exact ih rows

/-- Every row carries the revision of a touch: of its key, or of the key whose tombstone it is. -/
def Sourced (touches : List (Nat × Bytes)) (rows : Rows) : Prop :=
  ∀ row ∈ rows, (row.2.revision, row.1) ∈ touches ∨
    ∃ key, row.1 = tombstoneKey key ∧ (row.2.revision, key) ∈ touches

section Touches

variable {c c' : Chronicle} {event : Event} {rows rows' : Rows} {touches : List (Nat × Bytes)}

theorem Sourced.mono {touches' : List (Nat × Bytes)} (h : Sourced touches rows)
    (hsub : touches ⊆ touches') : Sourced touches' rows := by
  intro row hrow
  rcases h row hrow with hmem | ⟨key, hkey, hmem⟩
  · exact .inl (hsub hmem)
  · exact .inr ⟨key, hkey, hsub hmem⟩

/-- A row that is no tombstone carries the revision of a touch of its key. -/
theorem Sourced.touch (h : Sourced touches rows) {row : Bytes × Versioned} (hrow : row ∈ rows)
    (hne : ∀ key, row.1 ≠ tombstoneKey key) : (row.2.revision, row.1) ∈ touches :=
  (h row hrow).resolve_right (fun ⟨key, hkey, _⟩ => hne key hkey)

/-- A step logs one record, which leads from the map to the map, or nothing. -/
theorem Database.Effect.logs {before : Engine} (h : Database.Effect before after event rows rows') :
    (∃ record, newRecords before after = [record] ∧ record.lsn = before.lastLsn + 1 ∧
        (∀ operation ∈ record.operations, operation.FromCaller) ∧
        rows' = replayAll record.lsn rows record.operations) ∨
      newRecords before after = [] ∧ rows' = rows := by
  cases h with
  | commit _ _ hacc hlog _ _ hrows =>
    obtain ⟨record, hwal, hrec, hops, _⟩ := hlog.wal
    refine .inl ⟨record, ?_, hrec, fun operation hop => ?_, ?_⟩
    · exact newRecords_append hwal (hlog.lsn ▸ Nat.lt_succ_self _)
    · rw [hops] at hop
      exact hacc.caller_combined operation (mem_of_mem_effective hop)
    · rw [hrows, hops, hrec, replayAll_effective]
  | replicate hhands hnext hvalid hproper hwal hlsn hnone hversions hsnapshots hrows =>
    rename_i record
    exact .inl ⟨record, newRecords_append hwal (hlsn.trans hnext ▸ Nat.lt_succ_self _), hnext,
      fun operation hop => (hproper operation hop).1, hrows⟩
  | collect hcollected hrows =>
    exact .inr ⟨newRecords_same (collected_lsn hcollected), hrows⟩
  | register hlsn _ _ hrows
  | quiet hlsn _ _ hrows
  | reopen _ hlsn _ _ _ _ hrows =>
    exact .inr ⟨newRecords_same hlsn, hrows⟩

/-- The touches after a step that logged a record. -/
theorem Chronicled.touches_append (h : Chronicled c rows) {record : WalRecord}
    (hlog : c'.log = c.log ++ [record]) :
    c'.touches = c.touches ++ (effective record.lsn rows record.operations).map
      (fun operation => (record.lsn, operation.key)) := by
  rw [Chronicle.touches, hlog, touched_append, ← h.replay, touched, touched, append_nil]
  rfl

theorem Chronicled.touches_le (h : Chronicled c rows) :
    ∀ touch ∈ c.touches, touch.1 ≤ c.db.engine.lastLsn := by
  intro touch htouch
  obtain ⟨record, hrec, _, _, rfl⟩ := mem_touched htouch
  exact h.bounded record hrec

theorem Sourced.replayAll (h : Sourced touches rows) (lsn : Nat)
    (operations : List BatchOperation) :
    Sourced (touches ++ (effective lsn rows operations).map
      (fun operation => (lsn, operation.key))) (replayAll lsn rows operations) := by
  intro row hrow
  rw [← replayAll_effective] at hrow
  rcases mem_replayAll hrow with hrow | ⟨hrev, hput | ⟨key, hdelete, hkey, _⟩⟩
  · exact h.mono (subset_append_left _ _) row hrow
  · rw [hrev]
    exact .inl (mem_append_right _ (mem_map.mpr ⟨_, hput, rfl⟩))
  · rw [hrev]
    exact .inr ⟨key, hkey, mem_append_right _ (mem_map.mpr ⟨_, hdelete, rfl⟩)⟩

/-- All evidence is of a touch, and the last touch of a user key is what the map says. -/
structure Witnessed (c : Chronicle) (rows : Rows) : Prop where
  written : ∀ touch ∈ c.touches, isInternal touch.2 = false →
    ∃ last ∈ writtenIn rows touch.2, touch.1 ≤ last
  rows : Sourced c.touches rows
  tree : ∀ levels treeRows, Denotes true c.db.engine.tree levels treeRows →
    Sourced c.touches treeRows
  versions : ∀ key, ∀ version ∈ historyOf c.db.engine.mvcc c.db.engine.mvccValues key,
    (version.1, key) ∈ c.touches

theorem mem_foldl_push {version : Nat × Option V} {history : List (Nat × Option V)}
    (h : version ∈ values.foldl (push r) history) :
    version ∈ history ∨ version.1 = r ∧ values ≠ [] := by
  by_cases hvalues : values = []
  · rw [hvalues] at h
    exact .inl h
  · obtain ⟨kept, hkept, value, heq⟩ := foldl_push_eq hvalues history
    rw [heq] at h
    rcases mem_append.mp h with h | h
    · exact .inl (hkept h)
    · exact .inr ⟨congrArg Prod.fst (mem_singleton.mp h), hvalues⟩

theorem mem_withPreImage (h : version ∈ withPreImage oldest history before) :
    version ∈ history ∨ ∃ b, before = some b ∧ version.1 = b.revision := by
  rw [withPreImage] at h
  cases before with
  | none => exact .inl h
  | some b =>
    rw [Option.map_some, keepBefore] at h
    split_ifs at h
    · rcases mem_append.mp h with h | h
      · exact .inl h
      · rw [mem_singleton.mp h]
        exact .inr ⟨b, rfl, rfl⟩
    · exact .inl h

theorem lookup_of_preImage {before : Versioned}
    (h : (lookup key (preImagesOf rows operations)).join = some before) :
    lookup key rows = some before ∧ ∃ operation ∈ operations, operation.key = key := by
  cases hfound : lookup key (preImagesOf rows operations) with
  | none =>
    rw [hfound] at h
    cases h
  | some =>
    have hmem := (lookup_eq_some (preImagesOf_sorted operations)).mp hfound
    obtain ⟨k, hk, heq⟩ := mem_map.mp hmem
    cases heq
    rw [hfound] at h
    obtain ⟨hk, _⟩ := mem_filter.mp (mem_keySet.mp hk)
    obtain ⟨operation, hop, hkey⟩ := mem_map.mp hk
    exact ⟨h, operation, hop, hkey⟩

section

variable (h : Chronicled c rows) (hw : Witnessed c rows)
  (hlog : c'.log = c.log ++ newRecords c.db.engine c'.db.engine)
  (heffect : Database.Effect c.db.engine c'.db.engine event rows rows')
include h hw hlog heffect

/-- The versions that a step keeps are of touches. -/
theorem Witnessed.versions_step (hsub : c.touches ⊆ c'.touches) :
    ∀ key, ∀ version ∈ historyOf c'.db.engine.mvcc c'.db.engine.mvccValues key,
      (version.1, key) ∈ c'.touches := by
  obtain ⟨base, levels, treeRows, hholds, hbase, _⟩ := h.holds
  intro key version hversion
  have hsame : SameVersions c.db.engine c'.db.engine → (version.1, key) ∈ c'.touches := by
    intro hversions
    rw [hversions.history] at hversion
    exact hsub (hw.versions key version hversion)
  cases heffect with
  | commit hhands hproper hacc hlogged hretains hkeys hrows =>
    rename_i operations combined
    rw [Retains] at hretains
    cases hopen : c.db.engine.oldestActiveSnapshot with
    | none =>
      rw [hopen] at hretains
      rw [hretains.2] at hversion
      exact hsub (hw.versions key version hversion)
    | some =>
      rw [hopen] at hretains
      rw [hretains.2] at hversion
      rcases mem_foldl_push hversion with hkept | ⟨hrev, hstaged⟩
      · rcases mem_withPreImage hkept with hold | ⟨before, hbefore, hrev⟩
        · exact hsub (hw.versions key version hold)
        · obtain ⟨hrow, operation, hop, hkey⟩ := lookup_of_preImage hbefore
          rw [hrev]
          exact hsub (hw.rows.touch ((lookup_eq_some hholds.serves.sorted).mp hrow)
            (hkey ▸ ne_tombstoneKey (hacc.caller_combined operation hop)))
      · obtain ⟨record, hwal, hlsn, hops, _⟩ := hlogged.wal
        obtain ⟨_, operation, hop, hkey⟩ := stagedValues_ne_nil.mp hstaged
        have hnew := newRecords_append hwal (hlogged.lsn ▸ Nat.lt_succ_self _)
        rw [h.touches_append (hnew ▸ hlog), hops, hlsn, effective_effective, hrev, ← hkey]
        exact mem_append_right _ (mem_map.mpr ⟨operation, hop, rfl⟩)
  | replicate _ _ _ _ _ _ _ hversions
  | register _ hversions
  | quiet _ hversions => exact hsame hversions
  | collect hcollected =>
    cases hopen : c.db.engine.oldestActiveSnapshot with
    | none =>
      rw [hcollected, Engine.collectVersions, hopen] at hversion
      rw [(collect_none _ _ _).2] at hversion
      exact absurd hversion not_mem_nil
    | some =>
      rw [collected_history hcollected hholds.mvcc hopen] at hversion
      exact hsub (hw.versions key version (mem_of_mem_drop hversion))
  | reopen _ _ hempty =>
    rw [historyOf, State.versions, hempty] at hversion
    exact absurd hversion not_mem_nil

/-- **STEP**: what a step leaves is witnessed. -/
theorem Witnessed.step (hsettles : Settles c.db.engine c'.db.engine rows') :
    Witnessed c' rows' := by
  obtain ⟨base, levels, treeRows, hholds, hbase, _⟩ := h.holds
  have hsub : c.touches ⊆ c'.touches := by
    rw [Chronicle.touches, Chronicle.touches, hlog, touched_append]
    exact subset_append_left _ _
  suffices hmap : (∀ touch ∈ c'.touches, isInternal touch.2 = false →
      ∃ last ∈ writtenIn rows' touch.2, touch.1 ≤ last) ∧ Sourced c'.touches rows' by
    refine ⟨hmap.1, hmap.2, fun depth mine hden => ?_, hw.versions_step h hlog heffect hsub⟩
    rcases hsettles depth mine hden with rfl | ⟨depth', hden'⟩
    · exact hmap.2
    · exact (hw.tree depth' mine hden').mono hsub
  rcases heffect.logs with ⟨record, hnew, hlsn, hcaller, rfl⟩ | ⟨hnothing, rfl⟩
  · rw [hnew] at hlog
    rw [h.touches_append hlog]
    refine ⟨fun touch htouch huser => ?_, hw.rows.replayAll _ _⟩
    rcases mem_append.mp htouch with hold | hmine
    · obtain ⟨last, hlast, hle⟩ := hw.written touch hold huser
      obtain ⟨later, hlater, hle'⟩ := writtenIn_replayAll hholds.serves.sorted hholds.tidy
        (hholds.revisions hbase) ((Nat.le_succ _).trans hlsn.ge) hcaller huser hlast
      exact ⟨later, hlater, hle.trans hle'⟩
    · obtain ⟨operation, hop, rfl⟩ := mem_map.mp hmine
      have hkey := @replayAll_key record.lsn operation.key rows _ huser hcaller
        (hholds.tidy.exclusive _ huser)
      exact ⟨record.lsn, hkey.written
        (stagedValues_ne_nil.mpr ⟨isVersionedKey_user huser, operation, hop, rfl⟩), le_rfl⟩
  · have hsame : c'.touches = c.touches := by
      rw [Chronicle.touches, hlog, hnothing, append_nil]
      rfl
    rw [hsame]
    exact ⟨hw.written, hw.rows⟩

end

theorem witnessed_of_run {fits : Chronicle → Event → Prop}
    (hfits : ∀ {c : Chronicle} {event : Event}, fits c event → c.db.Sound event)
    {events : List Event}
    (hrun : Run Chronicle.Step fits ⟨Database.empty, []⟩ events c) :
    ∃ rows, Chronicled c rows ∧ Witnessed c rows := by
  refine chronicled_of_run Witnessed hfits
    (fun h hw _ _ hlog heffect hsettles => hw.step h hlog heffect hsettles) ?_ hrun
  refine ⟨forall_mem_nil _, forall_mem_nil _, fun levels treeRows hden => ?_,
    fun key version hversion => absurd hversion not_mem_nil⟩
  rw [hden.rows_unique empty_holds.denotes]
  exact forall_mem_nil _

end Touches

/-! ## Index entries -/

/-- A replica takes over no removal of an index entry. -/
def Event.KeepsEntries : Event → Prop
  | .replicate record => ∀ operation ∈ record.operations, operation.value? = none →
      ¬ indexEntryRoot <+: operation.key
  | _ => True

/-- The evidence of a touch that `indexValueChangedSince` looks for: the newest version of the key,
    or a row of the tree over which the buffer has nothing. -/
def Recalls (engine : Engine) (rows : Rows) (touch : Nat × Bytes) : Prop :=
  (∃ version, (historyOf engine.mvcc engine.mvccValues touch.2).getLast? = some version ∧
      touch.1 ≤ version.1) ∨
    ∃ row, (touch.2, row) ∈ rows ∧ touch.1 ≤ row.revision ∧
      ∀ levels treeRows, Denotes true engine.tree levels treeRows → (touch.2, row) ∈ treeRows

/-- Every touch of an index entry that the engine answers for has left evidence. -/
def Remembered (c : Chronicle) (rows : Rows) : Prop :=
  ∀ touch ∈ c.touches, indexEntryRoot <+: touch.2 →
    c.db.engine.mvcc.coveredThrough < touch.1 → Recalls c.db.engine rows touch

section Entries

variable {c c' : Chronicle} {event : Event} {rows rows' : Rows} {lsn : Nat}

theorem last_withPreImage (h : history.getLast? = some version) :
    ∃ later, (withPreImage oldest history before).getLast? = some later ∧
      version.1 ≤ later.1 := by
  rw [withPreImage]
  cases before with
  | none => exact ⟨version, h, le_rfl⟩
  | some =>
    rw [Option.map_some, keepBefore]
    split_ifs with hkeep
    · rw [h, Option.all_some] at hkeep
      exact ⟨_, getLast?_concat, (of_decide_eq_true hkeep.2).le⟩
    · exact ⟨version, h, le_rfl⟩

/-- Operations on other keys leave a key that is no tombstone. -/
theorem lookup_replayAll_ne (htomb : ¬ tombstonePrefix <+: key) {rows : Rows}
    (hne : ∀ operation ∈ operations, operation.key ≠ key) :
    lookup key (replayAll lsn rows operations) = lookup key rows := by
  refine foldlRecOn operations _ (motive := fun m => lookup key m = lookup key rows) rfl
    (fun _ ih operation hop => ?_)
  refine (lookup_replayed_ne (hne operation hop).symm ?_).trans ih
  rintro rfl
  exact htomb (tombstonePrefix_tombstoneKey _)

/-- A step that keeps the row of a key keeps it where the tree shares it with the map. -/
theorem Recalls.stay {before : Engine} {touch : Nat × Bytes} (h : Recalls before rows touch)
    (hsettles : Settles before after rows')
    (hrows : ∀ row, (touch.2, row) ∈ rows → (touch.2, row) ∈ rows')
    (hhistory : ∀ version,
      (historyOf before.mvcc before.mvccValues touch.2).getLast? = some version →
      ∃ later, (historyOf after.mvcc after.mvccValues touch.2).getLast? = some later ∧
        version.1 ≤ later.1) : Recalls after rows' touch := by
  rcases h with ⟨version, hlast, hle⟩ | ⟨row, hrow, hle, htree⟩
  · obtain ⟨later, hlater, hle'⟩ := hhistory version hlast
    exact .inl ⟨later, hlater, hle.trans hle'⟩
  · refine .inr ⟨row, hrows row hrow, hle, fun levels treeRows hden => ?_⟩
    rcases hsettles levels treeRows hden with rfl | ⟨levels', hden'⟩
    · exact hrows row hrow
    · exact htree levels' treeRows hden'

/-- A put under the index entries is the last word of a record that removes none. -/
theorem put_last {rows : Rows} (hentry : indexEntryRoot <+: key)
    (hkeeps : ∀ operation ∈ operations, operation.value? = none →
      ¬ indexEntryRoot <+: operation.key)
    (hsome : (∃ operation ∈ operations, operation.key = key) ∨
      (∃ row, lookup key rows = some row ∧ row.revision = lsn)) :
    ∃ row, lookup key (replayAll lsn rows operations) = some row ∧ row.revision = lsn := by
  obtain ⟨_, htomb⟩ := isVersionedKey_entry hentry
  induction operations generalizing rows with
  | nil =>
    rcases hsome with ⟨_, hop, _⟩ | hrow
    · exact absurd hop not_mem_nil
    · exact hrow
  | cons operation rest ih =>
    rw [forall_mem_cons] at hkeeps
    have hrest := fun {rows : Rows} => @ih rows hkeeps.2
    by_cases hkey : operation.key = key
    · cases operation with
      | delete => exact absurd (hkey ▸ hentry) (hkeeps.1 rfl)
      | put k value =>
        obtain rfl : k = key := hkey
        have hinternal : isInternal k = true := by
          obtain ⟨tail, rfl⟩ := hentry
          rfl
        refine hrest (.inr ⟨⟨value, lsn⟩, ?_, rfl⟩)
        rw [replayed, if_pos hinternal, lookup_put, if_pos rfl]
    · refine hrest ?_
      rcases hsome with ⟨o, ho, hok⟩ | ⟨row, hrow, hrev⟩
      · rcases mem_cons.mp ho with rfl | ho
        · exact absurd hok hkey
        · exact .inl ⟨o, ho, hok⟩
      · refine .inr ⟨row, ?_, hrev⟩
        refine (lookup_replayed_ne (fun heq => hkey heq.symm) ?_).trans hrow
        rintro rfl
        exact htomb (tombstonePrefix_tombstoneKey _)

/-- A commit under a snapshot keeps a version of every entry it touches. -/
theorem Remembered.commit (h : Chronicled c rows) (hr : Remembered c rows)
    {combined : List BatchOperation} (hopen : c.db.engine.oldestActiveSnapshot = some oldest)
    (hlsn : lsn = c.db.engine.lastLsn + 1)
    (hretains : Retains combined (effective lsn rows combined) rows c.db.engine c'.db.engine)
    (hsorted : Sorted (replayAll lsn rows combined))
    (hsettles : Settles c.db.engine c'.db.engine (replayAll lsn rows combined))
    (htouches : c'.touches = c.touches ++ (effective lsn rows combined).map
      (fun operation => (lsn, operation.key)))
    (hle : ∀ touch ∈ c'.touches, touch.1 ≤ lsn) :
    Remembered c' (replayAll lsn rows combined) := by
  rw [Retains, hopen] at hretains
  obtain ⟨base, levels, treeRows, hholds, _⟩ := h.holds
  intro touch htouch hentry hcov
  obtain ⟨hversioned, htomb⟩ := isVersionedKey_entry hentry
  by_cases hstaged : stagedValues (effective lsn rows combined) touch.2 = []
  · -- the commit has nothing to do with the key
    have hother : ∀ operation ∈ effective lsn rows combined, operation.key ≠ touch.2 :=
      fun operation hop hkey =>
        stagedValues_ne_nil.mpr ⟨hversioned, operation, hop, hkey⟩ hstaged
    have hold : touch ∈ c.touches := by
      rw [htouches] at htouch
      rcases mem_append.mp htouch with hold | hnew
      · exact hold
      · obtain ⟨operation, hop, rfl⟩ := mem_map.mp hnew
        exact absurd rfl (hother operation hop)
    refine (hr touch hold hentry (hretains.1 ▸ hcov)).stay hsettles (fun row hrow => ?_)
      (fun version hlast => ?_)
    · refine (lookup_eq_some hsorted).mp (Eq.trans ?_
        ((lookup_eq_some hholds.serves.sorted).mpr hrow))
      rw [← replayAll_effective]
      exact lookup_replayAll_ne htomb hother
    · rw [hretains.2, hstaged]
      exact last_withPreImage hlast
  · obtain ⟨kept, _, value, hpushed⟩ := foldl_push_eq hstaged (withPreImage oldest
      (historyOf c.db.engine.mvcc c.db.engine.mvccValues touch.2)
      (lookup touch.2 (preImagesOf rows combined)).join)
    refine .inl ⟨(lsn, value), ?_, hle touch htouch⟩
    rw [hretains.2, hpushed, getLast?_concat, hlsn]

/-- **STEP**: evidence stays until the engine no longer answers for it. -/
theorem Remembered.step (h : Chronicled c rows) (hr : Remembered c rows)
    (hkeeps : event.KeepsEntries) (h' : Chronicled c' rows')
    (hlog : c'.log = c.log ++ newRecords c.db.engine c'.db.engine)
    (heffect : Database.Effect c.db.engine c'.db.engine event rows rows')
    (hsettles : Settles c.db.engine c'.db.engine rows') : Remembered c' rows' := by
  obtain ⟨base, levels, treeRows, hholds, _, _⟩ := h.holds
  obtain ⟨base', levels', treeRows', hholds', _, _⟩ := h'.holds
  -- an engine that answers for nothing before now has nothing to remember
  have hcovered : c'.db.engine.lastLsn ≤ c'.db.engine.mvcc.coveredThrough → Remembered c' rows' :=
    fun hcov touch htouch _ hlt =>
      absurd ((h'.touches_le touch htouch).trans hcov) (not_le.mpr hlt)
  have hstay : newRecords c.db.engine c'.db.engine = [] → rows' = rows →
      c.db.engine.mvcc.coveredThrough ≤ c'.db.engine.mvcc.coveredThrough →
      (∀ key, (historyOf c'.db.engine.mvcc c'.db.engine.mvccValues key).getLast?
        = (historyOf c.db.engine.mvcc c.db.engine.mvccValues key).getLast?) →
      Remembered c' rows' := by
    rintro hnothing rfl hcov hhistory touch htouch hentry hlt
    rw [Chronicle.touches, hlog, hnothing, append_nil] at htouch
    exact (hr touch htouch hentry (hcov.trans_lt hlt)).stay hsettles (fun _ hrow => hrow)
      (fun version hlast => ⟨version, (hhistory touch.2).trans hlast, le_rfl⟩)
  cases heffect with
  | commit hhands hproper hacc hlogged hretains hkeys hrows =>
    rename_i operations combined
    obtain ⟨record, hwal, hlsn, hops, _⟩ := hlogged.wal
    have hnew := newRecords_append hwal (hlogged.lsn ▸ Nat.lt_succ_self _)
    have htouches := h.touches_append (hnew ▸ hlog)
    rw [hops, hlsn, effective_effective] at htouches
    cases hopen : c.db.engine.oldestActiveSnapshot with
    | none =>
      rw [Retains, hopen] at hretains
      refine hcovered ?_
      rw [hretains.1, hlogged.lsn]
      exact le_max_right _ _
    | some =>
      subst hrows
      exact hr.commit h hopen rfl hretains hholds'.serves.sorted hsettles htouches
        (hlogged.lsn ▸ h'.touches_le)
  | replicate hhands hnext hvalid hproper hwal hlsn hnone hversions hsnapshots hrows =>
    rename_i record
    subst hhands hrows
    have hnew := newRecords_append hwal (hlsn.trans hnext ▸ Nat.lt_succ_self _)
    intro touch htouch hentry hcov
    obtain ⟨_, htomb⟩ := isVersionedKey_entry hentry
    have hle := h'.touches_le touch htouch
    by_cases hmine : ∃ operation ∈ record.operations, operation.key = touch.2
    · -- without a buffer the tree has the whole map
      obtain ⟨row, hlookup, hrev⟩ := put_last hentry hkeeps (.inl hmine)
      have hmem := (lookup_eq_some hholds'.serves.sorted).mp hlookup
      refine .inr ⟨row, hmem, (hle.trans hlsn.le).trans hrev.ge, fun depth mine hden => ?_⟩
      rw [hden.rows_unique hholds'.denotes,
        hholds'.settled_of_empty (fun b hb => by cases hnone.symm.trans hb)]
      exact hmem
    · have hother : ∀ operation ∈ record.operations, operation.key ≠ touch.2 :=
        fun operation hop hkey => hmine ⟨operation, hop, hkey⟩
      rw [h.touches_append (hnew ▸ hlog)] at htouch
      rcases mem_append.mp htouch with hold | hnewer
      · rw [hversions.covered] at hcov
        refine (hr touch hold hentry hcov).stay hsettles (fun row hmem => ?_)
          (fun version hlast => ⟨version, (hversions.history _) ▸ hlast, le_rfl⟩)
        exact (lookup_eq_some hholds'.serves.sorted).mp ((lookup_replayAll_ne htomb hother).trans
          ((lookup_eq_some hholds.serves.sorted).mpr hmem))
      · obtain ⟨operation, hop, rfl⟩ := mem_map.mp hnewer
        exact absurd rfl (hother operation (mem_of_mem_effective hop))
  | register hlsn hversions _ hrows
  | quiet hlsn hversions _ hrows =>
    exact hstay (newRecords_same hlsn) hrows hversions.covered.ge
      (fun key => congrArg List.getLast? (hversions.history key))
  | collect hcollected hrows =>
    have hcov := collected_covered hcollected
    have hlsn := collected_lsn hcollected
    cases hopen : c.db.engine.oldestActiveSnapshot with
    | none =>
      refine hcovered ?_
      rw [hcov, hopen, hlsn]
      exact le_max_right _ _
    | some =>
      refine hstay (newRecords_same hlsn) hrows (hcov ▸ le_max_left _ _) (fun key => ?_)
      rw [collected_history hcollected hholds.mvcc hopen, getLast?_trim]
  | reopen _ _ _ hcov =>
    refine hcovered ?_
    rw [hcov]
    exact le_max_right _ _

end Entries

/-! ## The three questions -/

section Questions

variable {c : Chronicle} {levels revision : Nat} {base treeRows rows : Rows} {keys : List Bytes}

/-- A tombstone carries the revision of a touch of the key whose it is. -/
theorem Witnessed.tombstone (h : Chronicled c rows) (hw : Witnessed c rows) {row : Versioned}
    (hrow : (tombstoneKey key, row) ∈ rows) : (row.revision, key) ∈ c.touches := by
  rcases hw.rows _ hrow with hmem | ⟨k, hkey, hmem⟩
  · obtain ⟨record, hrec, operation, hop, hsame⟩ := mem_touched hmem
    exact absurd (congrArg Prod.snd hsame).symm
      (ne_tombstoneKey ((h.valid record hrec).2 operation hop).1 key)
  · exact tombstoneKey_injective hkey ▸ hmem

/-- The map knows when a user key was last touched. -/
theorem Witnessed.written_iff (h : Chronicled c rows) (hw : Witnessed c rows) (hs : Sorted rows)
    (huser : isInternal key = false) :
    (∃ last ∈ writtenIn rows key, revision < last) ↔
      ∃ touch ∈ c.touches, touch.2 = key ∧ revision < touch.1 := by
  constructor
  · rintro ⟨last, hlast, hlt⟩
    obtain ⟨row, hrow, rfl⟩ := Option.map_eq_some_iff.mp hlast
    rcases Option.or_eq_some_iff.mp hrow with hlive | ⟨_, htomb⟩
    · exact ⟨_, hw.rows.touch ((lookup_eq_some hs).mp hlive) (tombstoneKey_ne_user huser), rfl, hlt⟩
    · exact ⟨_, hw.tombstone h ((lookup_eq_some hs).mp htomb), rfl, hlt⟩
  · rintro ⟨touch, hmem, rfl, hlt⟩
    obtain ⟨last, hlast, hle⟩ := hw.written touch hmem huser
    exact ⟨last, hlast, hlt.trans_le hle⟩

theorem versionsChanged_ok {engine : Engine} (hkeys : ∀ key ∈ keys, validateUserKey key = .ok ()) :
    engine.versionsChanged revision keys = .ok (keys.any (fun key =>
      (engine.mvcc.versions key).getLast?.any (fun version => revision < version.1))) := by
  induction keys with
  | nil => rfl
  | cons key rest ih =>
    rw [forall_mem_cons] at hkeys
    rw [Engine.versionsChanged, hkeys.1, ok_bind, any_cons, ih hkeys.2]
    split_ifs with hchanged
    · rw [hchanged, Bool.true_or]
      rfl
    · rw [Bool.eq_false_iff.mpr hchanged, Bool.false_or]

/-- The newest version of a key is of a touch. -/
theorem Witnessed.last_version (hw : Witnessed c rows)
    (h : (c.db.engine.mvcc.versions key).getLast?.any (fun version => revision < version.1)
      = true) : ∃ touch ∈ c.touches, touch.2 = key ∧ revision < touch.1 := by
  obtain ⟨version, hlast, hlt⟩ := (Option.any_eq_true _ _).mp h
  refine ⟨(version.1, key), hw.versions key (version.1, version.2.map
    (ValueLog.valueOf c.db.engine.mvccValues)) ?_, rfl, of_decide_eq_true hlt⟩
  exact mem_map.mpr ⟨version, mem_of_getLast? hlast, rfl⟩

theorem missing_zip {f : Bytes → Option Nat} (live : List Bytes) :
    (live.zip (live.map f)).filterMap (fun entry =>
        if entry.2 = none then some (tombstoneKey entry.1) else none)
      = (live.filter (fun key => (f key).isNone)).map tombstoneKey := by
  rw [← map_prod_left_eq_zip, filterMap_map, ← filterMap_eq_map, filterMap_filter]
  refine congrArg (filterMap · live) (funext (fun key => ?_))
  show (if f key = none then some (tombstoneKey key) else none) = _
  cases f key <;> rfl

/-- **KEYS** -/
theorem Witnessed.anyChangedSince_ok (h : Chronicled c rows) (hw : Witnessed c rows)
    (hholds : Holds c.db levels base treeRows rows) (hd : levels ≤ maxTreeDepth)
    (hkeys : ∀ key ∈ keys, validateUserKey key = .ok ()) :
    ∃ answer, c.db.engine.anyChangedSince keys revision = .ok answer ∧
      (answer = true ↔
        ∃ key ∈ keys, ∃ touch ∈ c.touches, touch.2 = key ∧ revision < touch.1) := by
  have hsorted := hholds.serves.sorted
  have hmany : ∀ {wanted : List Bytes}, wanted.Pairwise (· < ·) →
      mergedGetManyRevisions c.db.engine.tree c.db.engine.writeBack wanted
        = .ok (wanted.map (fun key => (lookup key rows).map Versioned.revision)) := by
    intro wanted hwanted
    rw [mergedGetManyRevisions_ok hholds.denotes (fun b hb => (hholds.serves.buffered b hb).1)
      hwanted (.inl hd), ← hholds.merged]
  have huser : ∀ {key}, key ∈ keys → isInternal key = false := fun hkey =>
    (validateUserKey_ok (hkeys _ hkey)).2
  have hnewer : ∀ {wanted : List Bytes},
      (wanted.map (fun key => (lookup key rows).map Versioned.revision)).any
        (fun current => current.any (fun current => revision < current)) = true ↔
      ∃ key ∈ wanted, ∃ row, lookup key rows = some row ∧ revision < row.revision := by
    intro wanted
    simp only [any_map, any_eq_true, Function.comp_apply, Option.any_map,
      Option.any_eq_true, decide_eq_true_eq]
  -- the keys that are not in the map have their last touch on the tombstone
  let unresolved := ((keySet keys).filter (fun key =>
    ((lookup key rows).map Versioned.revision).isNone)).map tombstoneKey
  have hunresolved : unresolved.Pairwise (· < ·) :=
    pairwise_map.mpr (((keySet_pairwise keys).filter _).imp tombstoneKey_lt.mpr)
  have hmem : ∀ stored, stored ∈ unresolved ↔
      ∃ key ∈ keys, lookup key rows = none ∧ tombstoneKey key = stored := by
    intro stored
    simp only [unresolved, mem_map, mem_filter, mem_keySet, Option.isNone_map,
      Option.isNone_iff_eq_none, and_assoc]
  have hwritten : (∃ key ∈ keys, ∃ touch ∈ c.touches, touch.2 = key ∧ revision < touch.1) ↔
      ∃ key ∈ keys, ∃ last ∈ writtenIn rows key, revision < last :=
    exists_congr (fun key => and_congr_right
      (fun hkey => (hw.written_iff h hsorted (huser hkey)).symm))
  rw [Engine.anyChangedSince, hholds.healthy_ok, ok_bind, versionsChanged_ok hkeys, ok_bind]
  split_ifs with hversions
  · refine ⟨true, rfl, fun _ => ?_, fun _ => rfl⟩
    obtain ⟨key, hkey, hlast⟩ := any_eq_true.mp hversions
    exact ⟨key, hkey, hw.last_version hlast⟩
  dsimp only
  split_ifs with hnone
  · refine ⟨false, rfl, nofun, ?_⟩
    rintro ⟨key, hkey, _⟩
    exact absurd (hnone ▸ mem_keySet.mpr hkey) not_mem_nil
  rw [hmany (keySet_pairwise keys), ok_bind, hwritten]
  by_cases hlive : ((keySet keys).map (fun key => (lookup key rows).map
      Versioned.revision)).any (fun current => current.any (fun current => revision < current))
        = true
  · rw [if_pos hlive]
    refine ⟨true, rfl, fun _ => ?_, fun _ => rfl⟩
    obtain ⟨key, hkey, row, hrow, hlt⟩ := hnewer.mp hlive
    refine ⟨key, mem_keySet.mp hkey, row.revision, ?_, hlt⟩
    rw [writtenIn, hrow]
    rfl
  rw [if_neg hlive, missing_zip]
  -- a key that was touched is now one of the unresolved
  have hrest : (∃ key ∈ keys, ∃ last ∈ writtenIn rows key, revision < last) ↔
      ∃ stored ∈ unresolved, ∃ row, lookup stored rows = some row ∧
        revision < row.revision := by
    constructor
    · rintro ⟨key, hkey, last, hlast, hlt⟩
      obtain ⟨row, hrow, rfl⟩ := Option.map_eq_some_iff.mp hlast
      rcases Option.or_eq_some_iff.mp hrow with hthere | ⟨hgone, htomb⟩
      · exact absurd (hnewer.mpr ⟨key, mem_keySet.mpr hkey, row, hthere, hlt⟩) hlive
      · exact ⟨tombstoneKey key, (hmem _).mpr ⟨key, hkey, hgone, rfl⟩, row, htomb, hlt⟩
    · rintro ⟨stored, hstored, row, hrow, hlt⟩
      obtain ⟨key, hkey, hgone, rfl⟩ := (hmem stored).mp hstored
      refine ⟨key, hkey, row.revision, ?_, hlt⟩
      rw [writtenIn, hgone, Option.none_or, hrow]
      rfl
  rw [hrest]
  show ∃ answer, (if unresolved = [] then pure false else _) = _ ∧ _
  split_ifs with hempty
  · refine ⟨false, rfl, nofun, ?_⟩
    rintro ⟨stored, hstored, _⟩
    exact absurd (hempty ▸ hstored) not_mem_nil
  · rw [Pairwise.insertionSort_eq (hunresolved.imp le_of_lt), hmany hunresolved, ok_bind]
    exact ⟨_, rfl, hnewer⟩

/-- **RANGES** -/
theorem Witnessed.rangeChangedSince_ok (h : Chronicled c rows) (hw : Witnessed c rows)
    (hholds : Holds c.db levels base treeRows rows) (hr : Ranked c.db.engine treeRows rows)
    (hd : levels ≤ maxTreeDepth) {start stop : Option Bytes}
    (hrange : ∀ a ∈ start, ∀ b ∈ stop, a ≤ b) :
    ∃ answer, c.db.engine.rangeChangedSince start stop revision = .ok answer ∧
      (answer = true ↔ ∃ touch ∈ c.touches, isInternal touch.2 = false ∧
        (start.all (fun start => start ≤ touch.2) && stop.all (fun stop => touch.2 < stop)) = true ∧
        revision < touch.1) := by
  have hsorted := hholds.serves.sorted
  rw [Engine.rangeChangedSince, hholds.healthy_ok, ok_bind]
  refine ⟨_, hholds.rangeChanged_ok hr hd hrange revision, ?_⟩
  rw [Bool.or_eq_true, ScanRange.changed_iff, ScanRange.changed_iff]
  constructor
  · rintro (⟨row, hrow, hadmits, hlt⟩ | ⟨row, hrow, hadmits, hlt⟩)
    · obtain ⟨hbounds, huser⟩ := userRange_admits.mp hadmits
      exact ⟨_, hw.rows.touch hrow (tombstoneKey_ne_user huser), huser, hbounds,
        of_decide_eq_true hlt⟩
    · obtain ⟨_, version⟩ := row
      obtain ⟨key, rfl, hbounds⟩ := tombstoneRange_admits.mp hadmits
      refine ⟨_, hw.tombstone h hrow, ?_, hbounds, of_decide_eq_true hlt⟩
      -- only user keys have tombstones
      cases hinternal : isInternal key with
      | false => rfl
      | true =>
        have hthere := (lookup_eq_some hsorted).mpr hrow
        rw [hholds.tidy.plain key hinternal] at hthere
        cases hthere
  · rintro ⟨touch, hmem, huser, hbounds, hlt⟩
    obtain ⟨last, hlast, hle⟩ := hw.written touch hmem huser
    obtain ⟨row, hrow, rfl⟩ := Option.map_eq_some_iff.mp hlast
    have hnew := decide_eq_true (hlt.trans_le hle)
    rcases Option.or_eq_some_iff.mp hrow with hlive | ⟨_, htomb⟩
    · exact .inl ⟨_, (lookup_eq_some hsorted).mp hlive, userRange_admits.mpr ⟨hbounds, huser⟩, hnew⟩
    · exact .inr ⟨_, (lookup_eq_some hsorted).mp htomb,
        tombstoneRange_admits.mpr ⟨touch.2, rfl, hbounds⟩, hnew⟩

/-- **INDEX VALUES** -/
theorem Witnessed.indexValueChangedSince_ok (hw : Witnessed c rows) (hmem : Remembered c rows)
    (hholds : Holds c.db levels base treeRows rows) (hd : levels ≤ maxTreeDepth)
    (hcov : c.db.engine.mvcc.coveredThrough ≤ revision) (index value : Bytes) :
    ∃ answer, c.db.engine.indexValueChangedSince index value revision = .ok answer ∧
      (answer = true ↔ ∃ touch ∈ c.touches, indexValuePrefix index value <+: touch.2 ∧
        revision < touch.1) := by
  have hroot : ∀ {key}, indexValuePrefix index value <+: key → indexEntryRoot <+: key :=
    fun hkey => (indexValuePrefix_rooted index value).trans hkey
  have hunder : (c.db.engine.mvcc.under (indexValuePrefix index value)).any (fun history =>
      history.2.getLast?.any (fun version => revision < version.1)) = true ↔
      ∃ key, indexValuePrefix index value <+: key ∧
        (c.db.engine.mvcc.versions key).getLast?.any (fun version => revision < version.1)
          = true := by
    rw [any_eq_true]
    constructor
    · rintro ⟨history, hin, hlast⟩
      obtain ⟨hin, hfront⟩ := (mem_under hholds.mvcc.sorted).mp hin
      refine ⟨history.1, hfront, ?_⟩
      rw [State.versions, (lookup_eq_some hholds.mvcc.sorted).mpr hin]
      exact hlast
    · rintro ⟨key, hfront, hlast⟩
      cases hfound : lookup key c.db.engine.mvcc.histories with
      | none =>
        rw [State.versions, hfound] at hlast
        cases hlast
      | some versions =>
        rw [State.versions, hfound] at hlast
        exact ⟨(key, versions), (mem_under hholds.mvcc.sorted).mpr
          ⟨(lookup_eq_some hholds.mvcc.sorted).mp hfound, hfront⟩, hlast⟩
  suffices hanswer : (ScanRange.mk (some (indexValuePrefix index value))
        (ByteString.successor (indexValuePrefix index value)) none).changed
          (fun versioned => revision < versioned.revision) treeRows = true ∨
      (c.db.engine.mvcc.under (indexValuePrefix index value)).any (fun history =>
        history.2.getLast?.any (fun version => revision < version.1)) = true ↔
      ∃ touch ∈ c.touches, indexValuePrefix index value <+: touch.2 ∧ revision < touch.1 by
    rw [Engine.indexValueChangedSince, hholds.healthy_ok, ok_bind]
    dsimp only
    rw [changedSince_denotes hholds.denotes hd, ok_bind]
    split_ifs with hchanged
    · exact ⟨true, rfl, fun _ => hanswer.mp (.inl hchanged), fun _ => rfl⟩
    · refine ⟨_, rfl, fun hlast => hanswer.mp (.inr hlast), fun htouch => ?_⟩
      exact (hanswer.mpr htouch).resolve_left hchanged
  -- a touch is found in the tree's row or as the newest version of its key
  rw [ScanRange.changed_iff, hunder]
  constructor
  · rintro (⟨row, hrow, hadmits, hlt⟩ | ⟨key, hfront, hlast⟩)
    · have hfront := prefixRange_admits.mp hadmits
      refine ⟨_, (hw.tree levels treeRows hholds.denotes).touch hrow (fun k hkey => ?_), hfront,
        of_decide_eq_true hlt⟩
      exact absurd (hkey ▸ tombstonePrefix_tombstoneKey k) (isVersionedKey_entry (hroot hfront)).2
    · obtain ⟨touch, htouch, rfl, hlt⟩ := hw.last_version hlast
      exact ⟨touch, htouch, hfront, hlt⟩
  · rintro ⟨touch, htouch, hfront, hlt⟩
    rcases hmem touch htouch (hroot hfront) (hcov.trans_lt hlt) with
      ⟨version, hlast, hle⟩ | ⟨row, _, hle, htree⟩
    · refine .inr ⟨touch.2, hfront, ?_⟩
      rw [historyOf, readVersions, getLast?_mapValues] at hlast
      obtain ⟨kept, hkept, rfl⟩ := Option.map_eq_some_iff.mp hlast
      rw [hkept]
      exact decide_eq_true (hlt.trans_le hle)
    · exact .inl ⟨_, htree levels treeRows hholds.denotes, prefixRange_admits.mpr hfront,
        decide_eq_true (hlt.trans_le hle)⟩

end Questions

/-! ## Runs -/

/-- A snapshot that is registered and not yet released. -/
def Engine.HoldsSnapshot (engine : Engine) (revision : Nat) : Prop :=
  revision ∈ (engine.activeSnapshots ++ engine.sharedSnapshots).map Prod.fst

theorem Chronicled.covered_le {c : Chronicle} {rows : Rows} (h : Chronicled c rows)
    (hsnapshot : c.db.engine.HoldsSnapshot revision) :
    c.db.engine.mvcc.coveredThrough ≤ revision := by
  obtain ⟨snapshot, hmem, rfl⟩ := mem_map.mp hsnapshot
  rcases mem_append.mp hmem with hmem | hmem
  · exact (h.active.2 snapshot hmem).1
  · exact (h.shared.2 snapshot hmem).1

/-- **CONFLICTS**: for a snapshot that is held, the questions for changes of keys and of a range are
    answered by what commits after it touched. So is the one for an index value, when no record that
    a replica took over removed an index entry. -/
theorem changes_exact {events : List Event} {c : Chronicle}
    (hrun : Run Chronicle.Step (fun c => c.db.Sound) ⟨Database.empty, []⟩ events c)
    (hshallow : Shallow c.db.engine.tree) {revision : Nat}
    (hsnapshot : c.db.engine.HoldsSnapshot revision) :
    (∀ keys : List Bytes, (∀ key ∈ keys, validateUserKey key = .ok ()) →
      ∃ answer, c.db.engine.anyChangedSince keys revision = .ok answer ∧
        (answer = true ↔
          ∃ key ∈ keys, ∃ touch ∈ c.touches, touch.2 = key ∧ revision < touch.1)) ∧
    (∀ start stop : Option Bytes, (∀ a ∈ start, ∀ b ∈ stop, a ≤ b) →
      ∃ answer, c.db.engine.rangeChangedSince start stop revision = .ok answer ∧
        (answer = true ↔ ∃ touch ∈ c.touches, isInternal touch.2 = false ∧
          (start.all (fun start => start ≤ touch.2) && stop.all (fun stop => touch.2 < stop))
            = true ∧ revision < touch.1)) ∧
    ((∀ event ∈ events, event.KeepsEntries) → ∀ index value : Bytes,
      ∃ answer, c.db.engine.indexValueChangedSince index value revision = .ok answer ∧
        (answer = true ↔ ∃ touch ∈ c.touches, indexValuePrefix index value <+: touch.2 ∧
          revision < touch.1)) := by
  obtain ⟨rows, h, hw⟩ := witnessed_of_run id hrun
  obtain ⟨base, levels, treeRows, hholds, _, hr⟩ := h.holds
  have hd := hholds.denotes.shallow_iff.mp hshallow
  refine ⟨fun keys hkeys => hw.anyChangedSince_ok h hholds hd hkeys,
    fun _ _ hrange => hw.rangeChangedSince_ok h hholds hr hd hrange,
    fun hkeeps index value => ?_⟩
  obtain ⟨rows', h', hmem⟩ := chronicled_of_run Remembered (fun hfit => hfit.1)
    (fun h hr hfit h' hlog heffect hsettles => hr.step h hfit.2 h' hlog heffect hsettles)
    (forall_mem_nil _) (hrun.and_of_mem hkeeps)
  obtain ⟨base', levels', treeRows', hholds', _⟩ := h'.holds
  obtain rfl := hholds'.serves.rows_unique hholds.serves
  exact hw.indexValueChangedSince_ok hmem hholds hd (h.covered_le hsnapshot) index value

instance (engine : Engine) (revision : Nat) : Decidable (engine.HoldsSnapshot revision) :=
  inferInstanceAs (Decidable (_ ∈ _))

/-- A row and its index entry are deleted after a snapshot: both are seen, in a database that keeps
    its commits in a buffer. -/
theorem changes_exact_deleted :
    ∃ c,
      Run Chronicle.Step (fun c => c.db.Sound) ⟨Database.empty, []⟩
        [.reopen ⟨1000, false⟩ 1 0 ⟨0, 0, []⟩ [],
          .commit [.put (indexDefinitionKey [9]) [0]] [([9], false)],
          .perform (.writeIndexed [.put [1] [7]] [⟨[9], [1], none, some [5]⟩]),
          .perform .registerSnapshot,
          .perform (.writeIndexed [.delete [1]] [⟨[9], [1], some [5], none⟩])] c ∧
      c.db.engine.HoldsSnapshot 2 ∧ c.db.engine.anyChangedSince [[2], [1]] 2 = .ok true ∧
      c.db.engine.rangeChangedSince (some [1]) (some [2]) 2 = .ok true ∧
      c.db.engine.indexValueChangedSince [9] [5] 2 = .ok true ∧
      c.db.engine.indexValueChangedSince [9] [6] 2 = .ok false := by
  refine exists_run_of Chronicle.follow Chronicle.follow_step (p := fun c =>
    (do
      let count ← c.db.engine.tree.countExcluding internalPrefix
      return decide (c.db.engine.HoldsSnapshot 2 ∧
        c.touches.filter (fun touch : Nat × Bytes => 2 < touch.1)
          = [(3, [1]), (3, indexEntryKey [9] [5] [1])])) = .ok true)
    (by decide +kernel) (fun c hrun hfacts => ?_)
  obtain ⟨count, hread, hfacts⟩ := bind_eq_ok.mp hfacts
  obtain ⟨hsnapshot, htouches⟩ := of_decide_eq_true (Except.ok.inj hfacts)
  have hafter : ∀ touch, touch ∈ c.touches ∧ 2 < touch.1 ↔
      touch = (3, [1]) ∨ touch = (3, indexEntryKey [9] [5] [1]) := by
    intro touch
    have hfilter : touch ∈ c.touches.filter (fun touch : Nat × Bytes => 2 < touch.1) ↔
        touch ∈ c.touches ∧ decide (2 < touch.1) = true := mem_filter
    rw [htouches, decide_eq_true_iff] at hfilter
    rw [← hfilter]
    simp only [mem_cons, not_mem_nil, or_false]
  obtain ⟨rows, h, _⟩ := witnessed_of_run id hrun
  obtain ⟨base, levels, treeRows, hholds, _⟩ := h.holds
  have hshallow := hholds.denotes.shallow_iff.mpr (hholds.denotes.within_of_count hread)
  obtain ⟨hkeys, hranges, hvalues⟩ := changes_exact hrun hshallow hsnapshot
  have hvalues := hvalues (by simp [Event.KeepsEntries])
  obtain ⟨hrow, hnew⟩ := (hafter (3, [1])).mpr (.inl rfl)
  obtain ⟨hentry, hnew'⟩ := (hafter (3, indexEntryKey [9] [5] [1])).mpr (.inr rfl)
  refine ⟨hsnapshot, ?_, ?_, ?_, ?_⟩
  · obtain ⟨answer, hok, hiff⟩ := hkeys [[2], [1]] (by decide)
    rw [hok, hiff.mpr ⟨[1], by decide, _, hrow, rfl, hnew⟩]
  · obtain ⟨answer, hok, hiff⟩ := hranges (some [1]) (some [2]) (by rintro _ ⟨⟩ _ ⟨⟩; decide)
    rw [hok, hiff.mpr ⟨_, hrow, rfl, rfl, hnew⟩]
  · obtain ⟨answer, hok, hiff⟩ := hvalues [9] [5]
    rw [hok, hiff.mpr ⟨_, hentry, prefix_append _ _, hnew'⟩]
  · obtain ⟨answer, hok, hiff⟩ := hvalues [9] [6]
    rw [hok]
    cases answer with
    | false => rfl
    | true =>
      obtain ⟨touch, htouch, hfront, hlt⟩ := hiff.mp rfl
      rcases (hafter touch).mp ⟨htouch, hlt⟩ with rfl | rfl
      · exact absurd hfront (by decide)
      · exact absurd hfront (by decide)

/-- A replica takes over the removal of an index entry: the snapshot before it is held, the removal
    is in the log, and nothing shows it. -/
theorem removed_entry_unseen :
    ∃ c,
      Run Chronicle.Step (fun c => c.db.Sound) ⟨Database.empty, []⟩
        [.replicate ⟨1, [.put (indexEntryKey [9] [5] [1]) []], 0, 0⟩,
          .perform .registerSnapshot,
          .replicate ⟨2, [.delete (indexEntryKey [9] [5] [1])], 0, 0⟩] c ∧
      c.db.engine.HoldsSnapshot 1 ∧ (2, indexEntryKey [9] [5] [1]) ∈ c.touches ∧
      c.db.engine.indexValueChangedSince [9] [5] 1 = .ok false := by
  refine exists_run Chronicle.follow Chronicle.follow_step ?_
  decide +kernel

end Vyrn
