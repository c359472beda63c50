import Vyrn.Engine.Effect

/-!
# Write-back is invisible — the reads before and after the buffer is absorbed

Every merged read answers before a flush what the plain read of the tree answers after it
(**`merged_reads_flush`**). Two things make this more than the definition of the merged map. A
buffered delete has a revision where the flushed tree has no row any more; the tree then has the
key's tombstone, with the same revision, or, when the deleted row was itself a tombstone, the key
that took its place. And a row that the buffer supersedes counts as a change only because the
buffer's state is newer. `Ranked` says both, and every step of a database keeps it
(`Ranked.settled`).
-/

namespace Vyrn

open SortedMap Transition ByteString

variable {key stored : Bytes} {db after : Database} {base rows base' treeRows : Rows} {levels : Nat}

/-! ## The code -/

def Engine.treeChangedSince (engine : Engine) (range : ScanRange) (revision : Nat) :
    Except Error Bool :=
  mergedChangedSince engine.tree engine.writeBack range revision

/-- The tombstones of the keys in `[start, stop)`. -/
def tombstoneRange (start stop : Option Bytes) : ScanRange :=
  ⟨some ((start.map tombstoneKey).getD tombstonePrefix),
    (stop.map tombstoneKey).or (successor tombstonePrefix), none⟩

/-- Both questions of `rangeChangedSince`: the keys of the range that live, and the tombstones of
    those that were deleted. -/
def rangeChanged (changed : ScanRange → Nat → Except Error Bool) (start stop : Option Bytes)
    (revision : Nat) : Except Error Bool := do
  if ← changed ⟨start, stop, some internalPrefix⟩ revision then return true
  changed (tombstoneRange start stop) revision

def Engine.rangeChangedSince (engine : Engine) (start stop : Option Bytes) (revision : Nat) :
    Except Error Bool := do
  engine.ensureHealthy
  rangeChanged engine.treeChangedSince start stop revision

/-! ## The invariant -/

/-- A stored key is about a user key: it is the key or its tombstone. -/
def Concerns (stored key : Bytes) : Prop :=
  (stored = key ∧ isInternal key = false) ∨ stored = tombstoneKey key

/-- The buffer is newer than the tree, and a buffered delete is known by the map: its key, or the
    key whose tombstone it removes, has been written since. -/
structure Ranked (engine : Engine) (treeRows rows : Rows) : Prop where
  tree : ∀ row ∈ treeRows, row.2.revision ≤ engine.lastLsn
  newer : ∀ row ∈ treeRows, ∀ entry, buffered engine.writeBack row.1 = some entry →
    row.2.revision ≤ entry.revision
  deletes : ∀ stored entry, buffered engine.writeBack stored = some entry → entry.value = none →
    ∀ key, Concerns stored key → isInternal key = false ∧
      ∃ last ∈ writtenIn rows key, entry.revision ≤ last

section Ranked

variable {db : Database} {levels last revision : Nat} {base treeRows rows : Rows}
  {engine after : Engine} {operations : List BatchOperation}

section

variable (h : Holds db levels base treeRows rows)
include h

theorem Holds.merged : rows = overlaid treeRows db.engine.writeBack := by
  obtain ⟨mine, hden, hover⟩ := h.serves.holds
  rw [hover, hden.rows_unique h.denotes]

theorem Holds.settled_of_empty (hempty : ∀ b, db.engine.writeBack = some b → b.entries = []) :
    treeRows = rows := by
  rw [h.merged, overlaid_of_empty hempty]

/-- No row is newer than the last commit. -/
theorem Holds.revisions (hbase : ∀ row ∈ base, row.2.revision ≤ db.manifest.lsn) :
    ∀ row ∈ rows, row.2.revision ≤ db.engine.lastLsn := by
  rw [h.leads.replay]
  refine List.foldlRecOn _ _
    (motive := fun m : Rows => ∀ row ∈ m, row.2.revision ≤ db.engine.lastLsn)
    (fun row hrow => (hbase row hrow).trans h.leads.reached) (fun _ hm record hrec => ?_)
  exact revision_replayAll (h.caught.bounded record (List.mem_of_mem_filter hrec)) hm

omit h in
/-- A commit leaves no user key older than it was. -/
theorem writtenIn_replayAll (hs : Sorted rows) (htidy : Tidy rows)
    (hbound : ∀ row ∈ rows, row.2.revision ≤ last) (hle : last ≤ revision)
    (hcaller : ∀ operation ∈ operations, operation.FromCaller) (huser : isInternal key = false)
    {written : Nat} (hwritten : written ∈ writtenIn rows key) :
    ∃ later ∈ writtenIn (replayAll revision rows operations) key, written ≤ later := by
  have hkey := @replayAll_key revision key rows operations huser hcaller (htidy.exclusive key huser)
  by_cases hstaged : stagedValues (effective revision rows operations) key = []
  · obtain ⟨hlive, htomb⟩ := hkey.kept hstaged
    refine ⟨written, ?_, le_rfl⟩
    rw [writtenIn, hlive, htomb]
    exact hwritten
  · exact ⟨revision, hkey.written hstaged, (writtenIn_le hs hbound key _ hwritten).trans hle⟩

omit h in
/-- An operation that had an effect leaves its revision on the user key it marks. -/
theorem writtenIn_marked (htidy : Tidy rows)
    (hcaller : ∀ operation ∈ operations, operation.FromCaller) {operation : BatchOperation}
    (hop : operation ∈ effective revision rows operations) (hmarks : operation.Marks stored)
    (hconcerns : Concerns stored key) :
    isInternal key = false ∧ writtenIn (replayAll revision rows operations) key = some revision := by
  have hfrom := hcaller operation (mem_of_mem_effective hop)
  obtain ⟨rfl, huser⟩ : operation.key = key ∧ isInternal key = false := by
    rcases hmarks with rfl | ⟨huser, rfl⟩
    · rcases hconcerns with ⟨rfl, huser⟩ | htomb
      · exact ⟨rfl, huser⟩
      · exact absurd htomb (ne_tombstoneKey hfrom key)
    · rcases hconcerns with ⟨rfl, huser'⟩ | htomb
      · cases (isInternal_tombstoneKey _).symm.trans huser'
      · rw [← tombstoneKey_injective htomb]
        exact ⟨rfl, huser⟩
  have hkey := @replayAll_key revision operation.key rows operations huser hcaller
    (htidy.exclusive _ huser)
  exact ⟨huser, hkey.written
    (stagedValues_ne_nil.mpr ⟨isVersionedKey_user huser, operation, hop, rfl⟩)⟩

/-- With an empty buffer there is nothing to rank. -/
theorem Holds.ranked_of_empty (hbase : ∀ row ∈ base, row.2.revision ≤ db.manifest.lsn)
    (hempty : ∀ b, db.engine.writeBack = some b → b.entries = []) :
    Ranked db.engine treeRows rows := by
  have hnone : ∀ stored, buffered db.engine.writeBack stored = none := by
    intro stored
    cases hbuf : db.engine.writeBack with
    | none => rfl
    | some b =>
      rw [buffered, Option.bind_some, Overlay.get, hempty b hbuf]
      rfl
  refine ⟨fun row hrow => h.revisions hbase row ?_,
    fun row _ entry h => (by cases (hnone row.1).symm.trans h),
    fun stored entry h => (by cases (hnone stored).symm.trans h)⟩
  rw [← h.settled_of_empty hempty]
  exact hrow

end

section

variable (hr : Ranked db.engine treeRows rows) (h : Holds db levels base treeRows rows)
  (hbase : ∀ row ∈ base, row.2.revision ≤ db.manifest.lsn)
include hr h hbase

/-- A commit that stays in the buffer keeps it newer than the tree and its deletes known. -/
theorem Ranked.recorded {combined : List BatchOperation}
    (hlsn : after.lastLsn = db.engine.lastLsn + 1)
    (hcaller : ∀ operation ∈ combined, operation.FromCaller)
    (hbuffers : ∀ stored entry, buffered after.writeBack stored = some entry →
      buffered db.engine.writeBack stored = some entry ∨
        (entry.revision = db.engine.lastLsn + 1 ∧ ∃ operation ∈
          effective (db.engine.lastLsn + 1) rows combined, operation.Marks stored)) :
    Ranked after treeRows (replayAll (db.engine.lastLsn + 1) rows combined) := by
  have hle : db.engine.lastLsn ≤ db.engine.lastLsn + 1 := Nat.le_succ _
  refine ⟨fun row hrow => ?_, fun row hrow entry hentry => ?_,
    fun stored entry hentry hdelete key hconcerns => ?_⟩
  · rw [hlsn]
    exact (hr.tree row hrow).trans hle
  · rcases hbuffers row.1 entry hentry with hold | ⟨hrev, _⟩
    · exact hr.newer row hrow entry hold
    · rw [hrev]
      exact (hr.tree row hrow).trans hle
  · rcases hbuffers stored entry hentry with hold | ⟨hrev, operation, hop, hmarks⟩
    · obtain ⟨huser, written, hwritten, hle'⟩ := hr.deletes stored entry hold hdelete key hconcerns
      obtain ⟨later, hlater, hlater'⟩ := writtenIn_replayAll h.serves.sorted h.tidy
        (h.revisions hbase) hle hcaller huser hwritten
      exact ⟨huser, later, hlater, hle'.trans hlater'⟩
    · obtain ⟨huser, hwritten⟩ := writtenIn_marked h.tidy hcaller hop hmarks hconcerns
      exact ⟨huser, _, hwritten, hrev.le⟩

/-- A tree that has absorbed the buffer while the buffer stays: what both have is the same. -/
theorem Ranked.adopted (hbuffer : after.writeBack = db.engine.writeBack)
    (hlsn : after.lastLsn = db.engine.lastLsn) :
    Ranked after rows rows := by
  refine ⟨fun row hrow => ?_, fun row hrow entry hentry => ?_, ?_⟩
  · rw [hlsn]
    exact h.revisions hbase row hrow
  · have hlookup : List.lookup row.1 rows = some row.2 :=
      (lookup_eq_some h.serves.sorted).mpr hrow
    rw [hbuffer] at hentry
    rw [h.merged, lookup_overlaid (fun b hb => (h.serves.buffered b hb).1), hentry] at hlookup
    obtain ⟨value, _, hrow'⟩ := Option.map_eq_some_iff.mp hlookup
    rw [← hrow']
  · rw [hbuffer]
    exact hr.deletes

end

end Ranked

/-! ## Runs -/

/-- The database holds a map whose rows are no newer than the manifest where the manifest has them,
    with a buffer that is newer than the tree. -/
def Database.Ranked (db : Database) : Prop :=
  ∃ base levels treeRows rows, Holds db levels base treeRows rows ∧
    (∀ row ∈ base, row.2.revision ≤ db.manifest.lsn) ∧ Vyrn.Ranked db.engine treeRows rows

/-- **STEP**: wherever a step leaves the rows, the ranks stay. -/
theorem Ranked.settled {levels' : Nat} {treeRows' rows' : Rows}
    (hr : Ranked db.engine treeRows rows) (h : Holds db levels base treeRows rows)
    (hbase : ∀ row ∈ base, row.2.revision ≤ db.manifest.lsn)
    (h' : Holds after levels' base' treeRows' rows')
    (hbase' : ∀ row ∈ base', row.2.revision ≤ after.manifest.lsn)
    (hsettled : Database.Settled db.engine after.engine treeRows treeRows' rows rows') :
    Ranked after.engine treeRows' rows' := by
  cases hsettled with
  | kept htree hmap hbuffer hlsn =>
    subst htree hmap
    exact ⟨fun row hrow => (hr.tree row hrow).trans hlsn.ge, hbuffer ▸ hr.newer,
      hbuffer ▸ hr.deletes⟩
  | emptied hempty => exact h'.ranked_of_empty hbase' hempty
  | buffered htree hlsn hcaller hbuffers hmap =>
    subst htree hmap
    exact hr.recorded h hbase hlsn hcaller hbuffers
  | adopted htree hmap hbuffer hlsn =>
    subst htree hmap
    exact hr.adopted h hbase hbuffer hlsn

/-- Where the manifest names another tree, its rows are no newer than its LSN either. -/
theorem Holds.base_revisions (h : Holds db levels base treeRows rows)
    (hbase : ∀ row ∈ base, row.2.revision ≤ db.manifest.lsn)
    (hmanifest : (base' = base ∧ after.manifest = db.manifest) ∨
      (base' = rows ∧ after.manifest.lsn = db.engine.lastLsn)) :
    ∀ row ∈ base', row.2.revision ≤ after.manifest.lsn := by
  rcases hmanifest with ⟨rfl, hsame⟩ | ⟨rfl, hlsn⟩
  · rw [hsame]
    exact hbase
  · rw [hlsn]
    exact h.revisions hbase

theorem ranked_of_run {events : List Event}
    (hrun : Run Database.Step Database.Fits Database.empty events db) : db.Ranked := by
  have hnone : ∀ {lsn : Nat}, ∀ row ∈ ([] : Rows), row.2.revision ≤ lsn :=
    List.forall_mem_nil _
  refine (hrun.invariant (I := fun db => db.Ranked ∧ db.Tip) ?_ ⟨⟨[], 0, [], [], empty_holds, hnone,
      empty_holds.ranked_of_empty hnone nofun⟩, .inl rfl⟩).1
  rintro db event after ⟨⟨base, levels, treeRows, rows, h, hbase, hr⟩, htip⟩ hfits hstep
  obtain ⟨base', levels', treeRows', rows', h', hmanifest, htip', _, hsettled⟩ :=
    h.step htip hfits hstep
  have hbase' := h.base_revisions hbase hmanifest
  exact ⟨⟨base', levels', treeRows', rows', h', hbase',
    hr.settled h hbase h' hbase' hsettled⟩, htip'⟩

/-! ## Changes before and after a flush -/

section Changes

variable {range : ScanRange} {revision : Nat} {start stop : Option Bytes} {rows treeRows : Rows}
  {a b : Bytes}

/-- Whether the buffer deleted a key of the range after a revision. -/
def deletedSince (buffer : Option Overlay) (range : ScanRange) (revision : Nat) : Bool :=
  buffer.any (fun b =>
    range.changed (fun entry => entry.value.isNone && revision < entry.revision) b.entries)

theorem any_changed_iff {buffer : Option Overlay} (hb : ∀ b, buffer = some b → b.WellFormed)
    {newer : BufferedEntry → Bool} :
    buffer.any (fun b => range.changed newer b.entries) = true ↔
      ∃ stored entry, buffered buffer stored = some entry ∧ range.admits stored = true ∧
        newer entry = true := by
  cases hbuf : buffer with
  | none => simp [buffered]
  | some b =>
    rw [Option.any_some, ScanRange.changed_iff]
    constructor
    · rintro ⟨⟨stored, entry⟩, hmem, hadmits, hnewer⟩
      exact ⟨stored, entry, (lookup_eq_some (hb b hbuf)).mpr hmem, hadmits, hnewer⟩
    · rintro ⟨stored, entry, hget, hadmits, hnewer⟩
      exact ⟨(stored, entry), (lookup_eq_some (hb b hbuf)).mp hget, hadmits, hnewer⟩

/-- **CHANGES**: the buffer and the tree know of a change when the merged map has it, or when it is
    a delete that is still in the buffer. -/
theorem Ranked.changed {engine : Engine} (hr : Ranked engine treeRows rows) (hs : Sorted treeRows)
    (hb : ∀ b, engine.writeBack = some b → b.WellFormed)
    (hrows : rows = overlaid treeRows engine.writeBack) :
    (engine.writeBack.any (fun b =>
        range.changed (fun entry => revision < entry.revision) b.entries)
      || range.changed (fun versioned => revision < versioned.revision) treeRows)
      = (range.changed (fun versioned => revision < versioned.revision) rows
        || deletedSince engine.writeBack range revision) := by
  have hlookup := @lookup_overlaid treeRows engine.writeBack hb
  rw [← hrows] at hlookup
  have hsorted : Sorted rows := hrows ▸ overlaid_sorted hs _
  rw [Bool.eq_iff_iff, Bool.or_eq_true, Bool.or_eq_true, deletedSince, any_changed_iff hb,
    any_changed_iff hb, ScanRange.changed_iff, ScanRange.changed_iff]
  -- a buffered state that is newer is a row of the map or a delete
  have hbuffered : ∀ {stored : Bytes} {entry : BufferedEntry},
      buffered engine.writeBack stored = some entry → range.admits stored = true →
      revision < entry.revision →
      (∃ e ∈ rows, range.admits e.1 = true ∧ decide (revision < e.2.revision) = true) ∨
        ∃ stored entry, buffered engine.writeBack stored = some entry ∧
          range.admits stored = true ∧
          (entry.value.isNone && decide (revision < entry.revision)) = true := by
    intro stored entry hentry hadmits hnewer
    cases hvalue : entry.value with
    | none =>
      refine .inr ⟨stored, entry, hentry, hadmits, ?_⟩
      rw [hvalue, decide_eq_true hnewer]
      rfl
    | some value =>
      have hrow : List.lookup stored rows = some ⟨value, entry.revision⟩ := by
        rw [hlookup, hentry]
        exact congrArg (Option.map _) hvalue
      exact .inl ⟨_, (lookup_eq_some hsorted).mp hrow, hadmits, decide_eq_true hnewer⟩
  constructor
  · rintro (⟨stored, entry, hentry, hadmits, hnewer⟩ | ⟨row, hmem, hadmits, hnewer⟩)
    · exact hbuffered hentry hadmits (of_decide_eq_true hnewer)
    · cases hentry : buffered engine.writeBack row.1 with
      | none =>
        have hrow : List.lookup row.1 rows = some row.2 := by
          rw [hlookup, hentry]
          exact (lookup_eq_some hs).mpr hmem
        exact .inl ⟨row, (lookup_eq_some hsorted).mp hrow, hadmits, hnewer⟩
      | some entry =>
        exact hbuffered hentry hadmits
          ((of_decide_eq_true hnewer).trans_le (hr.newer row hmem entry hentry))
  · rintro (⟨row, hmem, hadmits, hnewer⟩ | ⟨stored, entry, hentry, hadmits, hnewer⟩)
    · have hrow := (lookup_eq_some hsorted).mpr hmem
      rw [hlookup] at hrow
      cases hentry : buffered engine.writeBack row.1 with
      | none =>
        rw [hentry] at hrow
        exact .inr ⟨row, (lookup_eq_some hs).mp hrow, hadmits, hnewer⟩
      | some entry =>
        rw [hentry] at hrow
        obtain ⟨value, _, hvalue⟩ := Option.map_eq_some_iff.mp hrow
        refine .inl ⟨row.1, entry, hentry, hadmits, ?_⟩
        rw [← hvalue] at hnewer
        exact hnewer
    · exact .inl ⟨stored, entry, hentry, hadmits, (Bool.and_eq_true_iff.mp hnewer).2⟩

theorem userRange_admits :
    (ScanRange.mk start stop (some internalPrefix)).admits key = true ↔
      (start.all (fun start => start ≤ key) && stop.all (fun stop => key < stop)) = true ∧
        isInternal key = false := by
  rw [ScanRange.admits, Bool.and_eq_true, Option.any_some, Bool.not_eq_true', isInternal]

theorem tombstoneKey_le : tombstoneKey a ≤ tombstoneKey b ↔ a ≤ b :=
  append_le_append_iff tombstonePrefix

theorem tombstoneKey_lt : tombstoneKey a < tombstoneKey b ↔ a < b := by
  rw [← not_le, tombstoneKey_le, not_le]

/-- The tombstones of a range of keys are the tombstones of its keys. -/
theorem tombstoneRange_forward (h : ∀ a ∈ start, ∀ b ∈ stop, a ≤ b) :
    (tombstoneRange start stop).reversed = false := by
  have hfront : ∀ key, tombstonePrefix ≤ tombstoneKey key := fun key =>
    le_of_isPrefix (List.prefix_append _ _)
  refine reversed_eq_false.mpr ?_
  rintro _ ⟨⟩ last hlast
  cases stop with
  | none =>
    cases start with
    | none => exact (lt_successor hlast).le
    | some a => exact ((prefix_iff_lt_successor (hfront a)).mp (List.prefix_append _ _) last hlast).le
  | some b =>
    cases hlast
    cases start with
    | none => exact hfront b
    | some a => exact tombstoneKey_le.mpr (h a rfl b rfl)

/-- The tombstones in range are those of the keys in range. -/
theorem tombstoneRange_admits :
    (tombstoneRange start stop).admits stored = true ↔
      ∃ key, stored = tombstoneKey key ∧
        (start.all (fun start => start ≤ key) && stop.all (fun stop => key < stop)) = true := by
  have hfront : ∀ key, tombstonePrefix ≤ tombstoneKey key := fun key =>
    le_of_isPrefix (List.prefix_append _ _)
  have hbelow : ∀ key s, successor tombstonePrefix = some s → tombstoneKey key < s :=
    fun key => (prefix_iff_lt_successor (hfront key)).mp (List.prefix_append _ _)
  have hstart : ∀ key, start.all (fun start => start ≤ key) = true ↔
      (start.map tombstoneKey).getD tombstonePrefix ≤ tombstoneKey key := by
    intro key
    cases start with
    | none => exact ⟨fun _ => hfront key, fun _ => rfl⟩
    | some => exact decide_eq_true_iff.trans tombstoneKey_le.symm
  have hstop : ∀ key, stop.all (fun stop => key < stop) = true ↔
      ((stop.map tombstoneKey).or (successor tombstonePrefix)).all
        (fun stop => tombstoneKey key < stop) = true := by
    intro key
    cases stop with
    | none =>
      refine ⟨fun _ => ?_, fun _ => rfl⟩
      cases hs : successor tombstonePrefix with
      | none => rfl
      | some s => exact decide_eq_true (hbelow key s hs)
    | some =>
      rw [Option.all_some, Option.map_some, Option.some_or, Option.all_some, decide_eq_true_iff,
        decide_eq_true_iff, tombstoneKey_lt]
  have hadmits : (tombstoneRange start stop).admits stored = true ↔
      (start.map tombstoneKey).getD tombstonePrefix ≤ stored ∧
        ((stop.map tombstoneKey).or (successor tombstonePrefix)).all
          (fun stop => stored < stop) = true := by
    simp [ScanRange.admits, tombstoneRange]
  rw [hadmits]
  constructor
  · rintro ⟨hfrom, huntil⟩
    -- the key lies between two strings that start with the prefix, so that it does too
    have hle : tombstonePrefix ≤ stored := by
      refine le_trans ?_ hfrom
      cases start with
      | none => exact le_rfl
      | some s => exact hfront s
    have hpre : tombstonePrefix <+: stored := by
      refine (prefix_iff_lt_successor hle).mpr (fun s hs => ?_)
      cases stop with
      | none =>
        rw [Option.map_none, Option.none_or, hs] at huntil
        exact of_decide_eq_true huntil
      | some e =>
        have hlt : stored < tombstoneKey e := of_decide_eq_true huntil
        exact hlt.trans (hbelow e s hs)
    obtain ⟨key, rfl⟩ := hpre
    exact ⟨key, rfl, Bool.and_eq_true_iff.mpr ⟨(hstart key).mpr hfrom, (hstop key).mpr huntil⟩⟩
  · rintro ⟨key, rfl, hbounds⟩
    obtain ⟨hfrom, huntil⟩ := Bool.and_eq_true_iff.mp hbounds
    exact ⟨(hstart key).mp hfrom, (hstop key).mp huntil⟩

theorem rangeChanged_ok {changed : ScanRange → Nat → Except Error Bool} {live deleted : Bool}
    (hlive : changed ⟨start, stop, some internalPrefix⟩ revision = .ok live)
    (hdeleted : changed (tombstoneRange start stop) revision = .ok deleted) :
    rangeChanged changed start stop revision = .ok (live || deleted) := by
  rw [rangeChanged, hlive, ok_bind, hdeleted]
  cases live with
  | true => rfl
  | false => rfl

/-- **DELETES**: what a delete in the buffer changed is a change of the merged map, under the
    tombstone or under the key that a removed tombstone belonged to. -/
theorem Ranked.deleted {engine : Engine} {rows : Rows} (hr : Ranked engine treeRows rows)
    (hs : Sorted treeRows) (hb : ∀ b, engine.writeBack = some b → b.WellFormed)
    (hrows : rows = overlaid treeRows engine.writeBack) :
    (deletedSince engine.writeBack ⟨start, stop, some internalPrefix⟩ revision = true →
        (tombstoneRange start stop).changed
          (fun versioned => revision < versioned.revision) rows = true) ∧
      (deletedSince engine.writeBack (tombstoneRange start stop) revision = true →
        (ScanRange.mk start stop (some internalPrefix)).changed
          (fun versioned => revision < versioned.revision) rows = true) := by
  have hsorted : Sorted rows := hrows ▸ overlaid_sorted hs _
  have hgone : ∀ {stored : Bytes} {entry : BufferedEntry},
      buffered engine.writeBack stored = some entry → entry.value.isNone = true →
      List.lookup stored rows = none := by
    intro stored entry hentry hnone
    rw [hrows, lookup_overlaid hb, hentry]
    exact congrArg (Option.map _) (Option.isNone_iff_eq_none.mp hnone)
  rw [deletedSince, any_changed_iff hb, deletedSince, any_changed_iff hb, ScanRange.changed_iff,
    ScanRange.changed_iff]
  constructor
  · rintro ⟨key, entry, hentry, hadmits, hdelete⟩
    obtain ⟨hnone, hlt⟩ := Bool.and_eq_true_iff.mp hdelete
    obtain ⟨hbounds, huser⟩ := userRange_admits.mp hadmits
    obtain ⟨_, last, hlast, hle⟩ := hr.deletes key entry hentry
      (Option.isNone_iff_eq_none.mp hnone) key (.inl ⟨rfl, huser⟩)
    rw [writtenIn, hgone hentry hnone, Option.none_or] at hlast
    obtain ⟨row, hrow, hrev⟩ := Option.map_eq_some_iff.mp hlast
    exact ⟨(tombstoneKey key, row), (lookup_eq_some hsorted).mp hrow,
      tombstoneRange_admits.mpr ⟨key, rfl, hbounds⟩,
      decide_eq_true (hrev ▸ (of_decide_eq_true hlt).trans_le hle)⟩
  · rintro ⟨stored, entry, hentry, hadmits, hdelete⟩
    obtain ⟨hnone, hlt⟩ := Bool.and_eq_true_iff.mp hdelete
    obtain ⟨key, rfl, hbounds⟩ := tombstoneRange_admits.mp hadmits
    obtain ⟨huser, last, hlast, hle⟩ := hr.deletes _ entry hentry
      (Option.isNone_iff_eq_none.mp hnone) key (.inr rfl)
    rw [writtenIn, hgone hentry hnone, Option.or_none] at hlast
    obtain ⟨row, hrow, hrev⟩ := Option.map_eq_some_iff.mp hlast
    exact ⟨(key, row), (lookup_eq_some hsorted).mp hrow, userRange_admits.mpr ⟨hbounds, huser⟩,
      decide_eq_true (hrev ▸ (of_decide_eq_true hlt).trans_le hle)⟩

section

variable (h : Holds db levels base treeRows rows) (hr : Ranked db.engine treeRows rows)
  (hd : levels ≤ maxTreeDepth)
include h hr hd

/-- The merged question for changes is answered by the map and by the deletes in the buffer. -/
theorem Holds.changedSince_ok {range : ScanRange} (hrange : range.reversed = false)
    (revision : Nat) :
    mergedChangedSince db.engine.tree db.engine.writeBack range revision
      = .ok (range.changed (fun versioned => revision < versioned.revision) rows
          || deletedSince db.engine.writeBack range revision) := by
  rw [mergedChangedSince_eq hrange, ← hr.changed h.denotes.sorted
    (fun b hb => (h.serves.buffered b hb).1) h.merged]
  -- a change is one the buffer or the tree knows
  split_ifs with hchanged
  · rw [hchanged, Bool.true_or]
  · rw [changedSince_denotes h.denotes hd, Bool.eq_false_iff.mpr hchanged, Bool.false_or]

/-- **RANGES**: asked for the keys of a range and for their tombstones, it is answered by the map. -/
theorem Holds.rangeChanged_ok {start stop : Option Bytes}
    (hrange : ∀ a ∈ start, ∀ b ∈ stop, a ≤ b) (revision : Nat) :
    rangeChanged (mergedChangedSince db.engine.tree db.engine.writeBack) start stop revision
      = .ok ((ScanRange.mk start stop (some internalPrefix)).changed
            (fun versioned => revision < versioned.revision) rows
          || (tombstoneRange start stop).changed
            (fun versioned => revision < versioned.revision) rows) := by
  obtain ⟨hdeleted, hcleared⟩ := @Ranked.deleted revision start stop _ _ _ hr h.denotes.sorted
    (fun b hb => (h.serves.buffered b hb).1) h.merged
  rw [Vyrn.rangeChanged_ok (h.changedSince_ok hr hd (reversed_eq_false.mpr hrange) _)
    (h.changedSince_ok hr hd (tombstoneRange_forward hrange) _)]
  refine congrArg Except.ok (Bool.eq_iff_iff.mpr ?_)
  simp only [Bool.or_eq_true]
  constructor
  · rintro ((hlive | hgone) | (htomb | hgone))
    · exact .inl hlive
    · exact .inr (hdeleted hgone)
    · exact .inr htomb
    · exact .inl (hcleared hgone)
  · rintro (hlive | htomb)
    · exact .inl (.inl hlive)
    · exact .inr (.inl htomb)

end

end Changes

/-! ## Reads before and after a flush -/

/-- A flush that succeeds leaves the map in the tree. -/
theorem flushWriteBack_denotes {ordered : Bool} {engine flushed : Engine}
    (h : Serves ordered engine levels rows) (hrun : engine.flushWriteBack = .ok flushed) :
    ∃ levels', Denotes ordered flushed.tree levels' rows ∧
      (levels' ≤ maxTreeDepth → levels ≤ maxTreeDepth) := by
  obtain ⟨levels', hserves, _, hempty, hdepth⟩ := flushWriteBack_of_ok h hrun
  obtain ⟨treeRows, hden, rfl⟩ := hserves.holds
  rw [overlaid_of_empty hempty]
  exact ⟨levels', hden, hdepth⟩

/-- **WRITE-BACK**: after any run whose openings meet the condition, a tree within the depth bound
    absorbs the buffer, and if the tree is then still within the bound, its plain reads answer what
    the merged reads answered before: points, sorted batches of distinct keys, and for a range that
    is not reversed its scans, its greatest key, and whether a key of it was written or deleted
    since a revision. Alone, the merged question for changes also sees the deletes that are still
    in the buffer. A tree counts its rows in 64 bits. -/
theorem merged_reads_flush {events : List Event} {db : Database}
    (hrun : Run Database.Step Database.Fits Database.empty events db) :
    (Shallow db.engine.tree → ∃ flushed, db.engine.flushWriteBack = .ok flushed) ∧
    ∀ flushed, db.engine.flushWriteBack = .ok flushed → Shallow flushed.tree →
      (∀ key, mergedGet db.engine.tree db.engine.writeBack key = flushed.tree.get key ∧
        mergedGetShared db.engine.tree db.engine.writeBack key = flushed.tree.getShared key ∧
        mergedRevision db.engine.tree db.engine.writeBack key = flushed.tree.revision key) ∧
      (∀ keys : List Bytes, keys.Pairwise (· < ·) →
        mergedGetManyRevisions db.engine.tree db.engine.writeBack keys
            = flushed.tree.getManyRevisions keys ∧
          mergedGetManyWithRevision db.engine.tree db.engine.writeBack keys
            = flushed.tree.getManyWithRevision keys) ∧
      (db.engine.tree.len ≤ usizeMax → ∀ (range : ScanRange) (limit : Nat),
        range.reversed = false →
        mergedScan db.engine.tree db.engine.writeBack range limit
            = flushed.tree.scanSharedWithRevisions range limit ∧
          mergedScanShared db.engine.tree db.engine.writeBack range limit
            = flushed.tree.scanSharedWithRevisions range limit) ∧
      (∀ (start : Bytes) (stop : Option Bytes), (∀ s ∈ stop, start ≤ s) →
        mergedLastKeyIn db.engine.tree db.engine.writeBack start stop
          = flushed.tree.lastKeyIn start stop) ∧
      (∀ (range : ScanRange) (revision : Nat), range.reversed = false →
        mergedChangedSince db.engine.tree db.engine.writeBack range revision
          = (flushed.tree.changedSince range revision).map
              (fun changed => changed || deletedSince db.engine.writeBack range revision)) ∧
      ∀ (start stop : Option Bytes) (revision : Nat), (∀ a ∈ start, ∀ b ∈ stop, a ≤ b) →
        rangeChanged (mergedChangedSince db.engine.tree db.engine.writeBack) start stop revision
          = rangeChanged flushed.tree.changedSince start stop revision := by
  obtain ⟨base, levels, treeRows, rows, h, _, hr⟩ := ranked_of_run hrun
  have hwf := fun b hb => (h.serves.buffered b hb).1
  refine ⟨fun hshallow => ?_, fun flushed hflush hshallow => ?_⟩
  · obtain ⟨flushed, _, hflush, _⟩ :=
      flushWriteBack_serves h.serves (h.denotes.shallow_iff.mp hshallow)
    exact ⟨flushed, hflush⟩
  · obtain ⟨levels', hden, hbefore⟩ := flushWriteBack_denotes h.serves hflush
    have hd' := hden.shallow_iff.mp hshallow
    have hd := hbefore hd'
    have hrows := h.merged
    obtain ⟨hpoints, hbatches, _, hlast⟩ := pageTree_reads_map hden hd'
    refine ⟨fun key => ⟨?_, ?_, ?_⟩, fun keys hk => ⟨?_, ?_⟩, fun hlen range limit hrange => ?_,
      fun start stop hrange => ?_, fun range revision hrange => ?_,
      fun start stop revision hrange => ?_⟩
    · rw [mergedGet_ok h.denotes hwf (.inl hd), ← hrows, (hpoints key).2.1]
    · rw [mergedGetShared_ok h.denotes hd hwf, ← hrows, (hpoints key).2.2]
    · rw [mergedRevision_ok h.denotes hd hwf, ← hrows, PageTree.revision, (hpoints key).1]
      rfl
    · rw [mergedGetManyRevisions_ok h.denotes hwf hk (.inl hd), ← hrows, (hbatches keys hk).2]
    · rw [mergedGetManyWithRevision_ok h.denotes hwf hk (.inl hd), ← hrows, (hbatches keys hk).1]
    · have hscan : mergedScan db.engine.tree db.engine.writeBack range limit
          = flushed.tree.scanSharedWithRevisions range limit := by
        rw [mergedScan_ok h.denotes hd hwf hlen hrange, ← hrows,
          (scan_denotes hden hd' range limit).1]
      exact ⟨hscan, hscan⟩
    · rw [mergedLastKeyIn_ok h.denotes hd hwf hrange, ← hrows, hlast]
      rfl
    · rw [h.changedSince_ok hr hd hrange, changedSince_denotes hden hd']
      rfl
    · rw [h.rangeChanged_ok hr hd hrange,
        rangeChanged_ok (changedSince_denotes hden hd') (changedSince_denotes hden hd')]

/-- A delete in the buffer over a row of the tree, which a flush then absorbs. -/
theorem merged_reads_flush_delete :
    ∃ db flushed,
      Run Database.Step Database.Fits Database.empty
        [.perform (.put [1] [7]), .reopen ⟨1000, false⟩ 2 0 ⟨0, 0, []⟩ [], .perform (.delete [1])]
        db ∧
      db.engine.flushWriteBack = .ok flushed ∧
      mergedScan db.engine.tree db.engine.writeBack ⟨none, none, none⟩ 1
        = flushed.tree.scanSharedWithRevisions ⟨none, none, none⟩ 1 ∧
      deletedSince db.engine.writeBack ⟨none, none, none⟩ 1 = true := by
  obtain ⟨db, hrun, hfacts⟩ : ∃ db, Run Database.Step Database.Fits Database.empty
        [.perform (.put [1] [7]), .reopen ⟨1000, false⟩ 2 0 ⟨0, 0, []⟩ [], .perform (.delete [1])]
        db ∧
        (do
          let flushed ← db.engine.flushWriteBack
          let count ← flushed.tree.countExcluding internalPrefix
          return decide (deletedSince db.engine.writeBack ⟨none, none, none⟩ 1 = true ∧
            db.engine.tree.len ≤ usizeMax)) = .ok true :=
    exists_run Database.follow Database.follow_step (by decide +kernel)
  obtain ⟨flushed, hflush, hfacts⟩ := bind_eq_ok.mp hfacts
  obtain ⟨count, hcount, hfacts⟩ := bind_eq_ok.mp hfacts
  obtain ⟨hdeleted, hlen⟩ := of_decide_eq_true (Except.ok.inj hfacts)
  obtain ⟨base, levels, treeRows, rows, h⟩ := consistent_of_run hrun
  obtain ⟨levels', hden, _⟩ := flushWriteBack_denotes h.serves hflush
  have hreads := (merged_reads_flush hrun).2 flushed hflush
    (hden.shallow_iff.mpr (hden.within_of_count hcount))
  exact ⟨db, flushed, hrun, hflush, (hreads.2.2.1 hlen ⟨none, none, none⟩ 1 rfl).1, hdeleted⟩

/-- A delete that the tree has absorbed: alone, the question for changes does not see it, neither
    before nor after a flush, though the key was written at 1 and deleted at 2. -/
theorem absorbed_delete_unseen :
    ∃ db,
      Run Database.Step Database.Fits Database.empty
        [.reopen ⟨1, false⟩ 1 0 ⟨0, 0, []⟩ [], .perform (.put [1] [7]), .perform (.delete [1])]
        db ∧
      db.engine.flushWriteBack = .ok db.engine ∧
      mergedChangedSince db.engine.tree db.engine.writeBack ⟨some [1], some [2], none⟩ 0
        = .ok false ∧
      db.engine.wal.map (fun record => (record.lsn, record.operations))
        = [(1, [.put [1] [7]]), (2, [.delete [1]])] ∧
      db.engine.tree.revision (tombstoneKey [1]) = .ok (some 2) := by
  refine exists_run Database.follow Database.follow_step ?_
  decide +kernel

end Vyrn
