import Vyrn.Engine.Checkpoint
import Vyrn.Lib.Transition

/-!
# Snapshot reads over whole runs

What a read at a revision should answer is the fold of the batches committed up to it
(`referenceAt`). `Tracked` says that the map, the tombstones and the kept versions together know it
for every revision from the coverage watermark on, and every action keeps that under one condition:
a commit under an open snapshot may not re-create a key whose newest kept version is a value, as the
deletion in between was not kept (`Remembers`). **`getAt_exact`** is the result, **`getAt_stale`** a
run without the condition.
-/

namespace Vyrn

open List Transition History

open SortedMap

variable {rows : Rows} {revision : Nat} {after before : Engine}

/-! ## The actions -/

inductive Action where
  | writeBatch (operations : List BatchOperation)
  | put (key value : Bytes)
  | delete (key : Bytes)
  | writeIndexed (operations : List BatchOperation) (updates : List IndexUpdate)
  | registerSnapshot
  | registerSnapshotShared
  | registerSnapshotAt (revision : Nat)
  | releaseSnapshot (revision : Nat)
  | releaseSnapshotShared (revision : Nat)
  | collectVersions
  | checkpoint
  deriving DecidableEq, Repr

/-- The operations the caller hands over. -/
def Action.operations : Action → List BatchOperation
  | .writeBatch operations => operations
  | .put key value => [.put key value]
  | .delete key => [.delete key]
  | .writeIndexed operations _ => operations
  | _ => []

def Engine.perform (engine : Engine) : Action → Except Error Engine
  | .writeBatch operations => (engine.writeBatch operations).map Prod.snd
  | .put key value => (engine.writeBatch [.put key value]).map Prod.snd
  | .delete key => (engine.writeBatch [.delete key]).map Prod.snd
  | .writeIndexed operations updates => (engine.writeIndexed operations updates).map Prod.snd
  | .registerSnapshot => .ok engine.registerSnapshot.2
  | .registerSnapshotShared => .ok engine.registerSnapshotShared.2
  | .registerSnapshotAt revision => engine.registerSnapshotAt revision
  | .releaseSnapshot revision => .ok (engine.releaseSnapshot revision)
  | .releaseSnapshotShared revision => .ok (engine.releaseSnapshotShared revision)
  | .collectVersions => .ok engine.collectVersions.2
  | .checkpoint => engine.checkpoint

/-- What a refused call may leave behind: unreachable pages and values, and a raised flag. -/
structure Residue (before after : Engine) : Prop where
  tree : Grows before.tree after.tree
  root : after.tree.root = before.tree.root
  len : after.tree.len = before.tree.len
  flag : before.tombstonesPossible = true → after.tombstonesPossible = true
  values : before.mvccValues <+: after.mvccValues
  rest : after = { before with
    tree := after.tree
    tombstonesPossible := after.tombstonesPossible
    mvccValues := after.mvccValues }

/-- What a refused call leaves behind is not seen by any read. -/
theorem Residue.serves (hres : Residue before after) {ordered : Bool} {levels : Nat}
    (h : Serves ordered before levels rows) : Serves ordered after levels rows := by
  obtain ⟨htree, hroot, hlen, hflag, _, hrest⟩ := hres
  obtain ⟨mine, hmine, hover⟩ := h.holds
  rw [hrest]
  refine ⟨⟨mine, hmine.mono htree.pages htree.values hroot hlen, hover⟩, h.buffered,
    fun hfalse => h.tombless (Bool.eq_false_iff.mpr (fun htrue => ?_)),
    htree.whole h.whole, h.storable⟩
  have hraised := hflag htrue
  rw [hfalse] at hraised
  exact Bool.false_ne_true hraised

/-- A batch that was committed, with its LSN. -/
abbrev CommittedBatch := Nat × List BatchOperation

/-- An engine with the batches committed so far. -/
structure Traced where
  engine : Engine
  commits : List CommittedBatch

/-- The batch an action committed, if it got an LSN. -/
def committed (before after : Engine) (action : Action) : List CommittedBatch :=
  if before.lastLsn < after.lastLsn then [(after.lastLsn, action.operations)] else []

inductive Step (s : Traced) (action : Action) : Traced → Prop where
  | done {after : Engine} : s.engine.perform action = .ok after →
      Step s action ⟨after, s.commits ++ committed s.engine after action⟩
  | refused {error : Error} {after : Engine} : s.engine.perform action = .error error →
      Residue s.engine after → Step s action ⟨after, s.commits⟩

/-! ## The condition -/

/-- Under an open snapshot, a key that the batch puts and that is absent has no kept version, or
    the newest one is its deletion. -/
def Remembers (engine : Engine) (operations : List BatchOperation) : Prop :=
  engine.oldestActiveSnapshot.isSome = true → ∀ key value, .put key value ∈ operations →
    engine.treeGet key = .ok none → ∀ version ∈ (engine.mvcc.versions key).getLast?,
      version.2 = none

/-- The condition on a step: a tree within the depth bound, and `Remembers`. -/
def Fits (s : Traced) (action : Action) : Prop :=
  Shallow s.engine.tree ∧ Remembers s.engine action.operations

/-! ## The reference -/

/-- A key's value after the committed batches with an LSN up to `revision`. -/
def referenceAt (base : Rows) (commits : List CommittedBatch) (key : Bytes)
    (revision : Nat) : Option Bytes :=
  ((commits.filter (fun commit => commit.1 ≤ revision)).flatMap Prod.snd).foldl
    (BatchOperation.leaves key) (valueIn base key)

/-! ## The invariant -/

/-- The open snapshots of a registry, each at a revision the engine can answer for. -/
def Pinned (engine : Engine) (snapshots : List (Nat × Nat)) : Prop :=
  Sorted snapshots ∧ ∀ s ∈ snapshots, engine.mvcc.coveredThrough ≤ s.1 ∧ s.1 ≤ engine.lastLsn

/-- What the engine knows of a user key. -/
structure KeyTracked (base : Rows) (s : Traced)
    (rows : Rows) (key : Bytes) : Prop where
  exclusive : Exclusive rows key
  covers : Covers (referenceAt base s.commits key)
    (Mvcc.historyOf s.engine.mvcc s.engine.mvccValues key) s.engine.mvcc.coveredThrough
    (valueIn rows key) (writtenIn rows key)

/-- The engine holds the map `rows`, of which the tree knows `treeRows`. -/
structure Tracked (base : Rows) (s : Traced) (levels : Nat)
    (treeRows rows : Rows) : Prop where
  serves : Serves false s.engine levels rows
  denotes : Denotes false s.engine.tree levels treeRows
  caught : Caught s.engine treeRows rows
  mvcc : Mvcc.WellFormed s.engine.mvcc s.engine.mvccValues
  healthy : s.engine.poisoned = false
  covered : s.engine.mvcc.coveredThrough ≤ s.engine.lastLsn
  active : Pinned s.engine s.engine.activeSnapshots
  shared : Pinned s.engine s.engine.sharedSnapshots
  revisions : ∀ row ∈ rows, row.2.revision ≤ s.engine.lastLsn
  keys : ∀ key, isInternal key = false → KeyTracked base s rows key

/-- A reachable engine is tracked. -/
def Consistent (base : Rows) (s : Traced) : Prop :=
  ∃ levels treeRows rows, Tracked base s levels treeRows rows

/-! ## What a batch does to one history -/

variable {operations combined : List BatchOperation} {last : Nat} {row : Bytes × Versioned}

section Batch

variable {revision : Nat} {key : Bytes}

theorem mem_of_staged
    (hne : stagedValues (effective revision rows operations) key ≠ []) :
    ∃ operation ∈ operations, operation.key = key := by
  obtain ⟨_, operation, hop, hkey⟩ := stagedValues_ne_nil.mp hne
  exact ⟨operation, mem_of_mem_effective hop, hkey⟩

/-- The pre-images hold the keys the batch names, as they are before it. -/
theorem lookup_preImagesOf (huser : isInternal key = false) (rows : Rows)
    (operations : List BatchOperation) :
    ((∃ operation ∈ operations, operation.key = key) →
        lookup key (preImagesOf rows operations) = some (lookup key rows)) ∧
      ((¬ ∃ operation ∈ operations, operation.key = key) →
        lookup key (preImagesOf rows operations) = none) := by
  have hmem : key ∈ keySet ((operations.map BatchOperation.key).filter isVersionedKey) ↔
      ∃ operation ∈ operations, operation.key = key := by
    rw [mem_keySet, mem_filter, mem_map]
    exact ⟨fun h => h.1, fun h => ⟨h, isVersionedKey_user huser⟩⟩
  rw [preImagesOf, map_prod_left_eq_zip, lookup_zip_map]
  exact ⟨fun h => if_pos (hmem.mpr h), fun h => if_neg (fun hk => h (hmem.mp hk))⟩

section

variable (huser : isInternal key = false) (hcaller : ∀ operation ∈ operations, operation.FromCaller)
include huser hcaller

/-- A key that a batch names without an effect was absent. -/
theorem absent_of_unstaged (hnil : stagedValues (effective revision rows operations) key = []) :
    ∀ operation ∈ operations, operation.key = key → lookup key rows = none := by
  induction operations generalizing rows with
  | nil => exact fun operation hop => absurd hop not_mem_nil
  | cons first rest ih =>
    intro operation hop hkey
    rw [forall_mem_cons] at hcaller
    rw [effective] at hnil
    split_ifs at hnil with heffect
    · by_cases hfirst : first.key = key
      · rw [stagedValues_cons_eq huser hfirst] at hnil
        cases hnil
      · rw [stagedValues_cons_ne hfirst] at hnil
        rcases mem_cons.mp hop with rfl | hop
        · exact absurd hkey hfirst
        · have hgone := ih hcaller.2 hnil operation hop hkey
          rwa [(replayed_other huser hcaller.1 hfirst).1] at hgone
    · rcases mem_cons.mp hop with rfl | hop
      · cases operation with
        | put => exact absurd rfl heffect
        | delete =>
          subst hkey
          exact Option.not_isSome_iff_eq_none.mp heffect
      · exact ih hcaller.2 hnil operation hop hkey

/-- An absent key gets an effect from a put first. -/
theorem put_of_staged (hne : stagedValues (effective revision rows operations) key ≠ [])
    (habsent : lookup key rows = none) : ∃ value, .put key value ∈ operations := by
  induction operations generalizing rows with
  | nil => exact absurd rfl hne
  | cons first rest ih =>
    rw [forall_mem_cons] at hcaller
    rw [effective] at hne
    split_ifs at hne with heffect
    · by_cases hfirst : first.key = key
      · cases first with
        | put k value =>
          cases hfirst
          exact ⟨value, mem_cons_self⟩
        | delete k =>
          rw [show k = key from hfirst, HasEffect, habsent] at heffect
          cases heffect
      · rw [stagedValues_cons_ne hfirst] at hne
        have hother := @replayed_other revision key rows huser first
          hcaller.1 hfirst
        obtain ⟨value, hput⟩ := ih hcaller.2 hne (hother.1.trans habsent)
        exact ⟨value, mem_cons_of_mem _ hput⟩
    · obtain ⟨value, hput⟩ := ih hcaller.2 hne habsent
      exact ⟨value, mem_cons_of_mem _ hput⟩

/-- **HISTORY OF A KEY**: under an open snapshot a batch that does not touch a key leaves its
    history, one that does adds the state before it and the one after it. -/
theorem history_of_batch {rows : Rows} {oldest : Nat} {history : List (Nat × Option Bytes)}
    (hbelow : ∀ before ∈ lookup key rows, before.revision < revision)
    (hlast : ∀ version ∈ history.getLast?, version.1 < revision) :
    let staged := stagedValues (effective revision rows operations) key
    let history' := staged.foldl (push revision)
      (withPreImage oldest history (lookup key (preImagesOf rows operations)).join)
    (staged = [] → history' = history) ∧
      (staged ≠ [] → history' = withPreImage oldest history (lookup key rows)
        ++ [(revision, staged.getLast?.getD none)]) := by
  intro staged history'
  obtain ⟨hnamed, hunnamed⟩ := lookup_preImagesOf huser rows operations
  refine ⟨fun hnil => ?_, fun hne => ?_⟩
  · show staged.foldl _ _ = history
    rw [hnil, foldl_nil]
    by_cases hop : ∃ operation ∈ operations, operation.key = key
    · obtain ⟨operation, hmem, hkey⟩ := hop
      rw [hnamed ⟨operation, hmem, hkey⟩, absent_of_unstaged huser hcaller hnil operation hmem hkey]
      rfl
    · rw [hunnamed hop]
      rfl
  · show staged.foldl _ _ = _
    rw [hnamed (mem_of_staged hne), Option.join_some]
    have hpre : ∀ version ∈ (withPreImage oldest history (lookup key rows)).getLast?,
        version.1 < revision := by
      cases hlive : lookup key rows with
      | none => exact hlast
      | some before =>
        rw [withPreImage, Option.map_some, keepBefore]
        split_ifs
        · intro version hv
          rw [getLast?_concat, Option.mem_some] at hv
          rw [← hv]
          exact hbelow before hlive
        · exact hlast
    cases hstaged : staged with
    | nil => exact absurd hstaged hne
    | cons value rest =>
      rw [foldl_cons, push_of_lt hpre, foldl_push_same, getLast?_eq_getLast_of_ne_nil (cons_ne_nil _ _)]
      rfl

end

end Batch

/-! ## Commits -/

/-- Where the rows that a replay leaves come from. -/
theorem mem_replayed {operation : BatchOperation} (h : row ∈ replayed revision rows operation) :
    row ∈ rows ∨ row.2.revision = revision ∧
      (operation = .put row.1 row.2.value ∨
        ∃ key, operation = .delete key ∧ row.1 = tombstoneKey key ∧ row.2.value = []) := by
  have herase : ∀ {k : Bytes} {m : Rows}, row ∈ erase k m → row ∈ m :=
    fun hrow => (mem_filter.mp hrow).1
  cases operation with
  | put k value =>
    have hrow : row ∈ put k ⟨value, revision⟩ rows := by
      rw [replayed] at h
      split_ifs at h
      · exact h
      · exact herase h
    rcases mem_put hrow with rfl | hrow
    · exact .inr ⟨rfl, .inl rfl⟩
    · exact .inl hrow
  | delete k =>
    rw [replayed] at h
    split_ifs at h
    · exact .inl (herase h)
    · rcases mem_put h with rfl | hrow
      · exact .inr ⟨rfl, .inr ⟨k, rfl, rfl, rfl⟩⟩
      · exact .inl (herase hrow)
    · exact .inl h

/-- Every row a replay leaves was there before, or an operation put it, or it is the tombstone of a
    key that an operation deleted. -/
theorem mem_replayAll :
    row ∈ replayAll revision rows operations →
      row ∈ rows ∨ row.2.revision = revision ∧
        (.put row.1 row.2.value ∈ operations ∨
          ∃ key, .delete key ∈ operations ∧ row.1 = tombstoneKey key ∧ row.2.value = []) := by
  refine foldlRecOn operations _ (motive := fun m => row ∈ m → _) .inl
    (fun m ih operation hop h => ?_)
  rcases mem_replayed h with hrow | ⟨hrev, rfl | ⟨key, rfl, htomb⟩⟩
  · exact ih hrow
  · exact .inr ⟨hrev, .inl hop⟩
  · exact .inr ⟨hrev, .inr ⟨key, hop, htomb⟩⟩

theorem revision_replayAll (hle : revision ≤ last) (h : ∀ row ∈ rows, row.2.revision ≤ last) :
    ∀ row ∈ replayAll revision rows operations, row.2.revision ≤ last := by
  intro row hrow
  rcases mem_replayAll hrow with hrow | ⟨hrev, _⟩
  · exact h row hrow
  · exact hrev.trans_le hle

theorem writtenIn_le (hs : Sorted rows) (h : ∀ row ∈ rows, row.2.revision ≤ last) (key : Bytes) :
    ∀ latest ∈ writtenIn rows key, latest ≤ last := by
  intro latest hmem
  obtain ⟨row, hrow, rfl⟩ := Option.map_eq_some_iff.mp hmem
  rcases Option.or_eq_some_iff.mp hrow with hlive | ⟨_, htomb⟩
  · exact h _ ((lookup_eq_some hs).mp hlive)
  · exact h _ ((lookup_eq_some hs).mp htomb)

section Commit

variable {base : Rows} {s : Traced} {rows : Rows}
  {key : Bytes}

/-- The reference after one more commit, for a key that has its value since before it. -/
theorem referenceAt_commit (h : KeyTracked base s rows key)
    (hnew : ∀ latest ∈ writtenIn rows key, latest < revision) (operations : List BatchOperation) :
    ∀ r, referenceAt base (s.commits ++ [(revision, operations)]) key r
      = if revision ≤ r then operations.foldl (BatchOperation.leaves key) (valueIn rows key)
        else referenceAt base s.commits key r := by
  intro r
  rw [referenceAt, filter_append, flatMap_append, foldl_append]
  split_ifs with hle
  · rw [filter_cons_of_pos (by simpa using hle), filter_nil, flatMap_singleton,
      ← h.covers.recent (fun latest hmem => (hnew latest hmem).le.trans hle)]
    rfl
  · rw [filter_cons_of_neg (by simpa using hle)]
    rfl

/-- **ONE KEY, ONE COMMIT**: the engine still knows the key after a commit. -/
theorem KeyTracked.commit (h : KeyTracked base s rows key) (huser : isInternal key = false)
    (hs : Sorted rows) (hrev : ∀ row ∈ rows, row.2.revision ≤ s.engine.lastLsn)
    (hcov : s.engine.mvcc.coveredThrough ≤ s.engine.lastLsn)
    (hcaller : ∀ operation ∈ combined, operation.FromCaller)
    (hfold : combined.foldl (BatchOperation.leaves key) (valueIn rows key)
      = operations.foldl (BatchOperation.leaves key) (valueIn rows key))
    (hold : ∀ oldest ∈ s.engine.oldestActiveSnapshot, s.engine.mvcc.coveredThrough ≤ oldest)
    (hremembers : s.engine.oldestActiveSnapshot.isSome = true → lookup key rows = none →
      (∃ value, .put key value ∈ combined) →
      ∀ version ∈ (Mvcc.historyOf s.engine.mvcc s.engine.mvccValues key).getLast?,
        version.2 = none)
    (hretains : Retains combined (effective (s.engine.lastLsn + 1) rows combined) rows s.engine
      after) :
    KeyTracked base ⟨after, s.commits ++ [(s.engine.lastLsn + 1, operations)]⟩
      (replayAll (s.engine.lastLsn + 1) rows combined) key := by
  have hwritten := @replayAll_key (s.engine.lastLsn + 1) key rows combined huser hcaller h.exclusive
  have hnew : ∀ latest ∈ writtenIn rows key, latest < s.engine.lastLsn + 1 := fun latest hmem =>
    Nat.lt_succ_of_le (writtenIn_le hs hrev key latest hmem)
  have hafter := referenceAt_commit h hnew operations
  rw [← hfold, ← @valueIn_replayAll (s.engine.lastLsn + 1) key combined (tombstoneKey_ne_user huser) rows]
    at hafter
  set after' := replayAll (s.engine.lastLsn + 1) rows combined
  set staged := stagedValues (effective (s.engine.lastLsn + 1) rows combined) key
  refine ⟨hwritten.exclusive, ?_⟩
  -- what stays of a key the batch does not touch
  have hkept : staged = [] →
      valueIn after' key = valueIn rows key ∧ writtenIn after' key = writtenIn rows key := by
    intro hnil
    obtain ⟨hlive, htomb⟩ := hwritten.kept hnil
    rw [valueIn, writtenIn, hlive, htomb]
    exact ⟨rfl, rfl⟩
  rw [Retains] at hretains
  cases hopen : s.engine.oldestActiveSnapshot with
  | none =>
    rw [hopen] at hretains
    obtain ⟨hcovered, hhist⟩ := hretains
    rw [hcovered, max_eq_right (hcov.trans (Nat.le_succ _)), hhist]
    by_cases hnil : staged = []
    · obtain ⟨hvalue, hsame⟩ := hkept hnil
      rw [hvalue] at hafter
      rw [hvalue, hsame]
      exact (h.covers.keep hnew hafter).raise (hcov.trans (Nat.le_succ _))
    · rw [hwritten.written hnil]
      exact h.covers.overwrite hnew hafter
  | some oldest =>
    rw [hopen] at hretains hremembers
    obtain ⟨hcovered, hhist⟩ := hretains
    rw [hcovered, hhist]
    have hlast : ∀ version ∈ (Mvcc.historyOf s.engine.mvcc s.engine.mvccValues key).getLast?,
        version.1 < s.engine.lastLsn + 1 := by
      intro version hv
      obtain ⟨latest, hmem, hle⟩ := h.covers.bounded version hv
      exact lt_of_le_of_lt hle (hnew latest hmem)
    have hbelow : ∀ before ∈ lookup key rows, before.revision < s.engine.lastLsn + 1 :=
      fun before hbefore => Nat.lt_succ_of_le (hrev _ ((lookup_eq_some hs).mp hbefore))
    obtain ⟨hsame, hadded⟩ := @history_of_batch combined (s.engine.lastLsn + 1) key huser hcaller
      rows oldest (Mvcc.historyOf s.engine.mvcc s.engine.mvccValues key) hbelow hlast
    by_cases hnil : staged = []
    · obtain ⟨hvalue, hwrote⟩ := hkept hnil
      rw [hvalue] at hafter
      rw [hsame hnil, hvalue, hwrote]
      exact h.covers.keep hnew hafter
    · have hvalue : staged.getLast?.getD none = valueIn after' key := by
        rw [hwritten.value]
        cases hstaged : staged.getLast? with
        | none => exact absurd (getLast?_eq_none_iff.mp hstaged) hnil
        | some => rfl
      rw [hadded hnil, hwritten.written hnil, hvalue]
      refine h.covers.write (hold oldest hopen) ?_ ?_ (fun hgone => ?_) hafter
      · rw [Option.map_map]
        rfl
      · intro b hb
        obtain ⟨row, hrow, rfl⟩ := Option.map_eq_some_iff.mp hb
        rw [writtenIn, hrow]
        rfl
      · have habsent : lookup key rows = none := Option.map_eq_none_iff.mp hgone
        exact hremembers rfl habsent (put_of_staged huser hcaller hnil habsent)

end Commit

section Tracked

variable {base : Rows} {s : Traced} {levels : Nat} {treeRows rows : Rows} {action : Action}
  {after engine : Engine} {entries : List BatchOperation} {key : Bytes}
  {snapshots : List (Nat × Nat)}

theorem no_snapshots (h : engine.oldestActiveSnapshot = none) :
    engine.activeSnapshots = [] ∧ engine.sharedSnapshots = [] := by
  rw [Engine.oldestActiveSnapshot] at h
  split at h
  · cases h
  · cases h
  · next hactive =>
      exact ⟨head?_eq_none_iff.mp hactive, head?_eq_none_iff.mp (Option.map_eq_none_iff.mp h)⟩

/-- The first snapshot is the least. -/
theorem head_le (hs : Sorted snapshots) {first : Nat × Nat}
    (hfirst : snapshots.head? = some first) : ∀ p ∈ snapshots, first.1 ≤ p.1 := by
  obtain ⟨rest, rfl⟩ := head?_eq_some_iff.mp hfirst
  exact forall_mem_cons.mpr ⟨le_rfl, fun p hp => ((sorted_cons.mp hs).1 p hp).le⟩

/-- The oldest snapshot is one of the open ones, and the least. -/
theorem oldest_least (hactive : Pinned engine engine.activeSnapshots)
    (hshared : Pinned engine engine.sharedSnapshots) {oldest : Nat}
    (h : engine.oldestActiveSnapshot = some oldest) :
    (engine.mvcc.coveredThrough ≤ oldest ∧ oldest ≤ engine.lastLsn) ∧
      (∀ p ∈ engine.activeSnapshots, oldest ≤ p.1) ∧
      ∀ p ∈ engine.sharedSnapshots, oldest ≤ p.1 := by
  rw [Engine.oldestActiveSnapshot] at h
  split at h
  · next left right hleft hright =>
      have hmine := hactive.2 left (mem_of_head? hleft)
      have hother := hshared.2 right (mem_of_head? hright)
      cases h
      exact ⟨⟨le_min hmine.1 hother.1, (min_le_left _ _).trans hmine.2⟩,
        fun p hp => (min_le_left _ _).trans (head_le hactive.1 hleft p hp),
        fun p hp => (min_le_right _ _).trans (head_le hshared.1 hright p hp)⟩
  · next left hleft hnone =>
      cases h
      rw [head?_eq_none_iff.mp hnone]
      exact ⟨hactive.2 left (mem_of_head? hleft), head_le hactive.1 hleft, forall_mem_nil _⟩
  · next hnone =>
      obtain ⟨right, hright, rfl⟩ := Option.map_eq_some_iff.mp h
      rw [head?_eq_none_iff.mp hnone]
      exact ⟨hshared.2 right (mem_of_head? hright), forall_mem_nil _, head_le hshared.1 hright⟩

theorem Pinned.mono (h : Pinned engine snapshots)
    (hcov : after.mvcc.coveredThrough = engine.mvcc.coveredThrough)
    (hlsn : engine.lastLsn ≤ after.lastLsn) : Pinned after snapshots :=
  ⟨h.1, fun s hs => ⟨hcov.trans_le (h.2 s hs).1, (h.2 s hs).2.trans hlsn⟩⟩

theorem pinned_nil (engine : Engine) : Pinned engine [] :=
  ⟨sorted_nil, forall_mem_nil _⟩

section

variable (hcovered : engine.mvcc.coveredThrough ≤ engine.lastLsn)
  (hactive : Pinned engine engine.activeSnapshots) (hshared : Pinned engine engine.sharedSnapshots)
include hcovered hactive hshared

/-- A commit leaves the snapshots where the engine can answer for them. -/
theorem commit_pinned {pending : List BatchOperation} (hlog : Logged pending engine after)
    (hretains : Retains combined pending rows engine after) :
    after.mvcc.coveredThrough ≤ after.lastLsn ∧ Pinned after after.activeSnapshots ∧
      Pinned after after.sharedSnapshots := by
  rw [hlog.active, hlog.shared]
  rw [Retains] at hretains
  cases hopen : engine.oldestActiveSnapshot with
  | none =>
    rw [hopen] at hretains
    obtain ⟨hnone, hnone'⟩ := no_snapshots hopen
    rw [hnone, hnone', hretains.1, hlog.lsn, max_eq_right (hcovered.trans (Nat.le_succ _))]
    exact ⟨le_rfl, pinned_nil _, pinned_nil _⟩
  | some =>
    rw [hopen] at hretains
    have hlsn : engine.lastLsn ≤ after.lastLsn := hlog.lsn ▸ Nat.le_succ _
    exact ⟨(hretains.1.trans_le hcovered).trans hlsn, hactive.mono hretains.1 hlsn,
      hshared.mono hretains.1 hlsn⟩

/-- A collection goes no further than the oldest snapshot. -/
theorem collect_pinned :
    engine.collectVersions.2.mvcc.coveredThrough ≤ engine.collectVersions.2.lastLsn ∧
      Pinned engine.collectVersions.2 engine.collectVersions.2.activeSnapshots ∧
      Pinned engine.collectVersions.2 engine.collectVersions.2.sharedSnapshots := by
  have hfloor : engine.collectVersions.2.mvcc.coveredThrough = max engine.mvcc.coveredThrough
      (engine.oldestActiveSnapshot.getD engine.lastLsn) := rfl
  show _ ∧ Pinned engine.collectVersions.2 engine.activeSnapshots ∧
    Pinned engine.collectVersions.2 engine.sharedSnapshots
  rw [Pinned, Pinned, hfloor]
  show _ ≤ engine.lastLsn ∧ _
  cases hopen : engine.oldestActiveSnapshot with
  | none =>
    obtain ⟨hnone, hnone'⟩ := no_snapshots hopen
    rw [hnone, hnone']
    exact ⟨max_le hcovered le_rfl, ⟨sorted_nil, forall_mem_nil _⟩, sorted_nil, forall_mem_nil _⟩
  | some =>
    obtain ⟨holdest, hleast, hleast'⟩ := oldest_least hactive hshared hopen
    rw [Option.getD_some, max_eq_right holdest.1]
    exact ⟨holdest.2, ⟨hactive.1, fun s hs => ⟨hleast s hs, (hactive.2 s hs).2⟩⟩, hshared.1,
      fun s hs => ⟨hleast' s hs, (hshared.2 s hs).2⟩⟩

end

theorem collectVersions_wellFormed (h : Mvcc.WellFormed engine.mvcc engine.mvccValues) :
    Mvcc.WellFormed engine.collectVersions.2.mvcc engine.collectVersions.2.mvccValues := by
  rw [Engine.collectVersions]
  cases engine.oldestActiveSnapshot with
  | none => exact (Mvcc.collect_none _ _ _).1
  | some oldest => exact (Mvcc.collect_some h oldest _).1

/-- What a commit carries beside the caller's operations is on the engine's own keys. -/
theorem combined_eq
    (hentries : ∀ operation ∈ entries, OnEntry operation)
    (hlog : engine.withChangeLog (operations ++ entries) = .ok combined) :
    ∃ others, combined = operations ++ others ∧
      ∀ operation ∈ others, isInternal operation.key = true := by
  rcases withChangeLog_cases hlog with rfl | ⟨sequence, value, rfl⟩
  · exact ⟨entries, rfl, fun operation hop => (hentries operation hop).1⟩
  · exact ⟨entries ++ [.put (changeLogKey sequence) value], append_assoc _ _ _,
      forall_mem_append.mpr ⟨fun operation hop => (hentries operation hop).1,
        forall_mem_singleton.mpr rfl⟩⟩

/-- An action that gets no LSN leaves the commits as they are. -/
theorem Consistent.uncommitted {commits : List CommittedBatch}
    (hlsn : after.lastLsn = before.lastLsn) (h : Consistent base ⟨after, commits⟩) :
    Consistent base ⟨after, commits ++ committed before after action⟩ := by
  rw [committed, if_neg (by rw [hlsn]; exact lt_irrefl _), append_nil]
  exact h

theorem Pinned.register (h : Pinned engine snapshots)
    (hcov : engine.mvcc.coveredThrough ≤ revision) (hlast : revision ≤ engine.lastLsn) :
    Pinned engine (registerIn snapshots revision) :=
  ⟨h.1.put _ _, forall_mem_put ⟨hcov, hlast⟩ h.2⟩

theorem Pinned.release (h : Pinned engine snapshots) (revision : Nat) :
    Pinned engine (releaseIn snapshots revision) := by
  rw [releaseIn]
  cases hheld : lookup revision snapshots with
  | none => exact h
  | some count =>
    dsimp only
    split_ifs
    · exact ⟨h.1.filter _, fun p hp => h.2 p (mem_filter.mp hp).1⟩
    · exact ⟨h.1.put _ _,
        forall_mem_put (h.2 (revision, count) ((lookup_eq_some h.1).mp hheld)) h.2⟩

section

variable (h : Tracked base s levels treeRows rows)
include h

/-- The condition on the histories, read on the map. -/
theorem Tracked.remembers (hd : levels ≤ maxTreeDepth) {others : List BatchOperation}
    (hrem : Remembers s.engine operations)
    (hothers : ∀ operation ∈ others, isInternal operation.key = true)
    (huser : isInternal key = false) (hopen : s.engine.oldestActiveSnapshot.isSome = true)
    (habsent : lookup key rows = none) (hput : ∃ value, .put key value ∈ operations ++ others) :
    ∀ version ∈ (Mvcc.historyOf s.engine.mvcc s.engine.mvccValues key).getLast?,
      version.2 = none := by
  obtain ⟨value, hput⟩ := hput
  have hmine : .put key value ∈ operations := by
    rcases mem_append.mp hput with hput | hput
    · exact hput
    · have hint := hothers _ hput
      rw [BatchOperation.key, huser] at hint
      exact absurd hint Bool.false_ne_true
  have hget : s.engine.treeGet key = .ok none := by
    rw [(h.serves.reads hd key).1, habsent]
    rfl
  intro version hv
  rw [Mvcc.historyOf, Mvcc.readVersions, getLast?_mapValues] at hv
  obtain ⟨kept, hkept, rfl⟩ := Option.map_eq_some_iff.mp hv
  have hnone := hrem hopen key value hmine hget kept hkept
  show kept.2.map _ = none
  rw [hnone]
  rfl

/-- A logged commit keeps the engine tracked. -/
theorem Tracked.logged (hd : levels ≤ maxTreeDepth)
    (hentries : ∀ operation ∈ entries, OnEntry operation) (hrem : Remembers s.engine operations)
    (hacc : Accepts s.engine rows (operations ++ entries) combined) {levels' : Nat}
    (hserves : Serves false after levels' (replayAll (s.engine.lastLsn + 1) rows combined))
    (hwf : Mvcc.WellFormed after.mvcc after.mvccValues)
    (hlog : Logged (effective (s.engine.lastLsn + 1) rows combined) s.engine after)
    (hretains : Retains combined (effective (s.engine.lastLsn + 1) rows combined) rows s.engine
      after) : Consistent base ⟨after, s.commits ++ [(s.engine.lastLsn + 1, operations)]⟩ := by
  obtain ⟨others, rfl, hothers⟩ := combined_eq hentries hacc.changeLog
  obtain ⟨treeRows', hden', hcaught⟩ := caught_commit h.denotes h.caught
    (fun operation hop => hacc.valid operation (mem_of_mem_effective hop)) hacc.lsn hlog hserves
    (replayAll_effective _ _ _).symm
  obtain ⟨hcovered, hactive, hshared⟩ := commit_pinned h.covered h.active h.shared hlog hretains
  refine ⟨levels', treeRows', _, ⟨hserves, hden', hcaught, hwf, hlog.healthy.trans h.healthy,
    hcovered, hactive, hshared, ?_, fun key huser => ?_⟩⟩
  · rw [show (Traced.mk after (s.commits ++ [(s.engine.lastLsn + 1, operations)])).engine.lastLsn
      = s.engine.lastLsn + 1 from hlog.lsn]
    exact revision_replayAll le_rfl (fun row hrow => (h.revisions row hrow).trans (Nat.le_succ _))
  · refine (h.keys key huser).commit huser h.serves.sorted h.revisions h.covered
      hacc.caller_combined ?_ (fun oldest hopen => (oldest_least h.active h.shared hopen).1.1)
      (fun hopen habsent hput => h.remembers hd hrem hothers huser hopen habsent hput) hretains
    rw [foldl_append]
    refine foldl_leaves_ne (fun operation hop hkey => ?_) _
    rw [← hkey, hothers operation hop] at huser
    cases huser

/-- **COMMITS**: a batch that succeeds keeps the engine tracked. -/
theorem Tracked.applyBatch (hd : levels ≤ maxTreeDepth)
    (huser : ∀ operation ∈ operations, isInternal operation.key = false)
    (hentries : ∀ operation ∈ entries, OnEntry operation) (hrem : Remembers s.engine operations)
    {results : List BatchResult}
    (hrun : s.engine.applyBatch (operations ++ entries) = .ok (results, after))
    (haction : action.operations = operations) :
    Consistent base ⟨after, s.commits ++ committed s.engine after action⟩ := by
  have hcaller : ∀ operation ∈ operations ++ entries, operation.FromCaller :=
    forall_mem_append.mpr ⟨fun operation hop => fromCaller_of_user (huser operation hop),
      fun operation hop => (hentries operation hop).2⟩
  by_cases hne : operations ++ entries = []
  · rw [hne] at hrun
    obtain ⟨_, _, hrun⟩ := bind_eq_ok.mp hrun
    cases hrun
    exact Consistent.uncommitted rfl ⟨levels, treeRows, rows, h⟩
  · obtain ⟨combined, hacc, hreach⟩ := accepts_of_applyBatch h.serves hcaller hne hrun
    obtain ⟨_, _, levels', hrun', hserves, hwf, _, hcases⟩ :=
      applyBatch_serves h.serves h.mvcc hreach hacc
    cases hrun.symm.trans hrun'
    rcases hcases with ⟨hnil, possible, rfl⟩ | ⟨_, hlog, hretains⟩
    · -- nothing had an effect
      refine Consistent.uncommitted rfl ?_
      rw [← replayAll_effective, hnil] at hserves
      have hserves : Serves false { s.engine with tombstonesPossible := possible } levels' rows :=
        hserves
      obtain ⟨_, hden', _⟩ := hserves.holds
      obtain rfl := h.denotes.levels_unique hden'
      exact ⟨levels, treeRows, rows, { h with
        serves := hserves
        caught := h.caught.congr rfl rfl rfl rfl
        keys := fun key hkey => { h.keys key hkey with } }⟩
    · have hcommit : committed s.engine after action
          = [(s.engine.lastLsn + 1, operations)] := by
        rw [committed, hlog.lsn, if_pos (Nat.lt_succ_self _), haction]
      rw [hcommit]
      exact h.logged hd hentries hrem hacc hserves hwf hlog hretains

/-! ## Snapshots, collections and checkpoints -/

/-- **COLLECT**: a collection gives up the revisions below the oldest snapshot, and no other
    answer. -/
theorem Tracked.collect :
    Tracked base ⟨s.engine.collectVersions.2, s.commits⟩ levels treeRows rows := by
  obtain ⟨hcovered, hactive, hshared⟩ := collect_pinned h.covered h.active h.shared
  refine ⟨h.serves.congr rfl rfl rfl, h.denotes, h.caught.congr rfl rfl rfl rfl,
    collectVersions_wellFormed h.mvcc, h.healthy, hcovered, hactive, hshared, h.revisions,
    fun key hkey => ⟨(h.keys key hkey).exclusive, ?_⟩⟩
  show Covers _ (Mvcc.historyOf (Mvcc.collect _ _ _).2 s.engine.mvccValues key)
    (max s.engine.mvcc.coveredThrough (s.engine.oldestActiveSnapshot.getD s.engine.lastLsn)) _ _
  cases hopen : s.engine.oldestActiveSnapshot with
  | none =>
    rw [(Mvcc.collect_none _ _ _).2, Option.getD_none, max_eq_right h.covered]
    exact (h.keys key hkey).covers.clear (writtenIn_le h.serves.sorted h.revisions key)
  | some oldest =>
    have hle := (oldest_least h.active h.shared hopen).1.1
    rw [(Mvcc.collect_some h.mvcc oldest _).2, Option.getD_some, max_eq_right hle]
    exact (h.keys key hkey).covers.trim hle

theorem Tracked.checkpoint (hrun : s.engine.checkpoint = .ok after) :
    Consistent base ⟨after, s.commits⟩ ∧ after.lastLsn = s.engine.lastLsn := by
  obtain ⟨job, hbegin, hrun⟩ := bind_eq_ok.mp hrun
  obtain ⟨job', hcompact, hrun⟩ := bind_eq_ok.mp hrun
  have hjob := compact_follows h.serves h.caught
    (beginCheckpoint_follows h.denotes h.caught hbegin) hcompact
  obtain ⟨levels', tree, state, values, rfl, hden, hserves, hwf, hcov, _, hhist⟩ :=
    finishCheckpoint_serves h.serves h.caught h.mvcc hjob hrun
  refine ⟨⟨levels', rows, rows, hserves.unordered, hden.unordered,
    caught_whole nofun Pairwise.nil nofun
      (snapshotLsn_of_absorbed rfl) h.serves.storable, hwf, h.healthy, hcov.trans_le h.covered,
    h.active.mono hcov le_rfl, h.shared.mono hcov le_rfl, h.revisions,
    fun key hkey => ⟨(h.keys key hkey).exclusive, ?_⟩⟩, rfl⟩
  rw [hhist, hcov]
  exact (h.keys key hkey).covers

/-- A refused call leaves nothing that any read sees. -/
theorem Tracked.refused (hres : Residue s.engine after) :
    Tracked base ⟨after, s.commits⟩ levels treeRows rows := by
  have hserves := hres.serves h.serves
  obtain ⟨htree, hroot, hlen, _, hvalues, hrest⟩ := hres
  obtain ⟨hwf, hhist⟩ := h.mvcc.mono hvalues
  rw [hrest] at hserves ⊢
  refine ⟨hserves, h.denotes.mono htree.pages htree.values hroot hlen,
    h.caught.congr rfl rfl rfl rfl, hwf, h.healthy, h.covered, h.active, h.shared, h.revisions,
    fun key hkey => ⟨(h.keys key hkey).exclusive, ?_⟩⟩
  rw [hhist]
  exact (h.keys key hkey).covers

end

/-! ## Runs -/

/-- What an action can do: commit the caller's operations with the entries of index updates,
    change the registries of snapshots, collect versions, or make a checkpoint. -/
theorem perform_ok (hrun : engine.perform action = .ok after) :
    (∃ entries results, (∀ operation ∈ action.operations, isInternal operation.key = false) ∧
        (∀ operation ∈ entries, ∃ update : IndexUpdate,
          validateUserKey update.primaryKey = .ok () ∧ update.Names operation.key) ∧
        engine.applyBatch (action.operations ++ entries) = .ok (results, after)) ∨
      (∃ active shared,
        after = { engine with activeSnapshots := active, sharedSnapshots := shared } ∧
        (engine.mvcc.coveredThrough ≤ engine.lastLsn → Pinned engine engine.activeSnapshots →
          Pinned engine engine.sharedSnapshots → Pinned engine active ∧ Pinned engine shared)) ∨
      after = engine.collectVersions.2 ∨
      (action = .checkpoint ∧ engine.checkpoint = .ok after) := by
  cases action with
  | writeBatch operations | put key value | delete key =>
    obtain ⟨⟨results, _⟩, hbatch, rfl⟩ := map_eq_ok hrun
    obtain ⟨_, huser, happly⟩ := bind_eq_ok.mp hbatch
    exact .inl ⟨[], results, forM_user.mp huser, forall_mem_nil _, by rwa [append_nil]⟩
  | writeIndexed =>
    obtain ⟨⟨results, _⟩, hcall, rfl⟩ := map_eq_ok hrun
    obtain ⟨entries, answers, happly, huser, hupdates, hentries⟩ := writeIndexed_applies hcall
    refine .inl ⟨entries, answers, huser, fun operation hop => ?_, happly⟩
    obtain ⟨update, hupdate, hnames⟩ := hentries operation hop
    obtain ⟨⟨⟩, hprimary, _⟩ := bind_eq_ok.mp (hupdates update hupdate)
    exact ⟨update, hprimary, hnames⟩
  | registerSnapshot =>
    cases hrun
    exact .inr (.inl ⟨_, _, rfl, fun hcov hactive hshared =>
      ⟨hactive.register hcov le_rfl, hshared⟩⟩)
  | registerSnapshotShared =>
    cases hrun
    exact .inr (.inl ⟨_, _, rfl, fun hcov hactive hshared =>
      ⟨hactive, hshared.register hcov le_rfl⟩⟩)
  | registerSnapshotAt revision =>
    obtain ⟨_, hcovered, hrun⟩ := bind_eq_ok.mp hrun
    rw [Engine.ensureCovered] at hcovered
    split_ifs at hcovered with hlow
    by_cases hhigh : engine.lastLsn < revision
    · rw [if_pos hhigh] at hrun
      cases hrun
    · rw [if_neg hhigh] at hrun
      cases hrun
      exact .inr (.inl ⟨_, _, rfl, fun _ hactive hshared =>
        ⟨hactive.register (not_lt.mp hlow) (not_lt.mp hhigh), hshared⟩⟩)
  | releaseSnapshot revision =>
    cases hrun
    exact .inr (.inl ⟨_, _, rfl, fun _ hactive hshared =>
      ⟨hactive.release revision, hshared⟩⟩)
  | releaseSnapshotShared revision =>
    cases hrun
    exact .inr (.inl ⟨_, _, rfl, fun _ hactive hshared =>
      ⟨hactive, hshared.release revision⟩⟩)
  | collectVersions =>
    cases hrun
    exact .inr (.inr (.inl rfl))
  | checkpoint => exact .inr (.inr (.inr ⟨rfl, hrun⟩))

/-- **STEP**: an action that meets the condition keeps the engine tracked. -/
theorem Consistent.step {t u : Traced} (h : Consistent base t) (hfits : Fits t action)
    (hstep : Step t action u) : Consistent base u := by
  obtain ⟨levels, treeRows, rows, h⟩ := h
  obtain ⟨hshallow, hrem⟩ := hfits
  have hd := h.denotes.shallow_iff.mp hshallow
  cases hstep with
  | refused _ hres => exact ⟨levels, treeRows, rows, h.refused hres⟩
  | done hrun =>
    rcases perform_ok hrun with
      ⟨entries, results, huser, hentries, happly⟩ | ⟨active, shared, rfl, hpins⟩ | rfl |
        ⟨-, hcheckpoint⟩
    · refine h.applyBatch hd huser (fun operation hop => ?_) hrem happly rfl
      obtain ⟨_, _, hnames⟩ := hentries operation hop
      exact onEntry_of_names hnames
    · obtain ⟨hactive, hshared⟩ := hpins h.covered h.active h.shared
      exact Consistent.uncommitted rfl ⟨levels, treeRows, rows, { h with
        serves := h.serves.congr rfl rfl rfl
        caught := h.caught.congr rfl rfl rfl rfl
        active := hactive
        shared := hshared
        keys := fun key hkey => { h.keys key hkey with } }⟩
    · exact Consistent.uncommitted rfl ⟨levels, treeRows, rows, h.collect⟩
    · obtain ⟨hafter, hlsn⟩ := h.checkpoint hcheckpoint
      exact Consistent.uncommitted hlsn hafter

end Tracked

/-- An engine as opening leaves it, over the map `base`: no history, no snapshot, and coverage
    from the last commit on. -/
structure Opened (base : Rows) (engine : Engine) : Prop where
  holds : ∃ levels, Denotes false engine.tree levels base
  whole : ValueLog.Whole engine.tree.values
  storable : ∀ row ∈ base, Storable row.2
  revisions : ∀ row ∈ base, row.2.revision ≤ engine.lastLsn
  exclusive : ∀ key, isInternal key = false → Exclusive base key
  tombless : engine.tombstonesPossible = false →
    ∀ key, lookup (tombstoneKey key) base = none
  buffer : ∀ b, engine.writeBack = some b → b.entries = []
  absorbed : engine.writeBackAbsorbed = engine.lastLsn
  records : ∀ record ∈ engine.wal, record.Valid ∧ record.lsn ≤ engine.lastLsn
  sorted : engine.wal.Pairwise (fun a b => a.lsn < b.lsn)
  histories : engine.mvcc.histories = []
  covered : engine.mvcc.coveredThrough = engine.lastLsn
  active : engine.activeSnapshots = []
  shared : engine.sharedSnapshots = []
  healthy : engine.poisoned = false

/-- An engine just opened is consistent with its base. -/
theorem Opened.consistent {base : Rows} {engine : Engine} (h : Opened base engine) :
    Consistent base ⟨engine, []⟩ := by
  obtain ⟨levels, hden⟩ := h.holds
  have hserves := serves_of_empty hden h.buffer h.tombless h.whole h.storable
  have hversions : ∀ key, engine.mvcc.versions key = [] := by
    intro key
    rw [Mvcc.State.versions, h.histories]
    rfl
  have hwf : Mvcc.WellFormed engine.mvcc engine.mvccValues := by
    refine ⟨?_, fun key version hmem => ?_⟩
    · rw [h.histories]
      exact sorted_nil
    · rw [hversions] at hmem
      exact absurd hmem not_mem_nil
  refine ⟨levels, base, base, hserves, hden,
    caught_whole (fun r hr => (h.records r hr).1) h.sorted (fun r hr => (h.records r hr).2)
      (snapshotLsn_of_absorbed h.absorbed) h.storable, hwf, h.healthy, h.covered.le, ?_, ?_,
    h.revisions, fun key hkey => ⟨h.exclusive key hkey, ?_⟩⟩
  · rw [h.active]
    exact pinned_nil _
  · rw [h.shared]
    exact pinned_nil _
  · have hempty : Mvcc.historyOf engine.mvcc engine.mvccValues key = [] := by
      rw [Mvcc.historyOf, hversions]
      rfl
    rw [hempty, h.covered]
    exact ⟨fun _ => rfl, by rintro _ ⟨⟩, fun hcov hmem hlt => absurd (lt_of_le_of_lt hcov hlt)
        (not_lt.mpr (writtenIn_le hden.sorted h.revisions key _ hmem)),
      by rintro _ ⟨⟩,
      fun latest hmem _ => writtenIn_le hden.sorted h.revisions key latest hmem⟩

/-- **EXACT SNAPSHOT READS**: after any run whose steps meet the condition, a read of a user key
    at a covered revision returns its value after the commits up to that revision. -/
theorem getAt_exact {base : List (Bytes × Versioned)} {start : Engine} (hopen : Opened base start)
    {actions : List Action} {s : Traced}
    (hrun : Run Step Fits ⟨start, []⟩ actions s) (hshallow : Shallow s.engine.tree)
    {key : Bytes} (hkey : validateUserKey key = .ok ()) {revision : Nat}
    (hcov : s.engine.mvcc.coveredThrough ≤ revision) :
    s.engine.getAt key revision = .ok (referenceAt base s.commits key revision) := by
  obtain ⟨levels, treeRows, rows, h⟩ :=
    hrun.invariant (fun ht hfits hstep => Consistent.step ht hfits hstep) hopen.consistent
  exact getAt_covers h.serves (h.denotes.shallow_iff.mp hshallow) h.mvcc h.healthy hkey
    (h.keys key (validateUserKey_ok hkey).2).covers hcov

/-! ## Concrete runs -/

/-- An action that is not refused. -/
def Traced.act (s : Traced) (action : Action) : Option Traced :=
  match s.engine.perform action with
  | .ok after => some ⟨after, s.commits ++ committed s.engine after action⟩
  | .error _ => none

theorem Traced.act_step {s t : Traced} {action : Action} (h : s.act action = some t) :
    Step s action t := by
  rw [Traced.act] at h
  split at h
  · cases h
    exact Step.done (by assumption)
  · cases h

theorem atRest_opened : Opened [] (Engine.atRest PageTree.fresh) :=
  ⟨⟨0, fresh_denotes⟩, ValueLog.whole_nil, nofun, nofun,
    fun _ _ => .inl rfl, fun _ _ => rfl, nofun, rfl, nofun,
    Pairwise.nil, rfl, rfl, rfl, rfl, rfl⟩

/-- A put under a snapshot: its key is absent at 0 and there at 1. -/
theorem getAt_exact_first_put :
    ∃ s, Run Step Fits ⟨Engine.atRest PageTree.fresh, []⟩
        [.registerSnapshot, .put [1] [7]] s ∧
      s.engine.getAt [1] 0 = .ok none ∧ s.engine.getAt [1] 1 = .ok (some [7]) := by
  have hshallow : Shallow PageTree.fresh := ⟨0, [], Nat.zero_le _, fresh_denotes⟩
  obtain ⟨after, hput, hafter⟩ := @map_eq_ok _ _
    ((Engine.atRest PageTree.fresh).registerSnapshot.2.perform (.put [1] [7])) (firstPut, 0, 1)
    (fun e => (e.tree, e.mvcc.coveredThrough, e.lastLsn)) (by decide +kernel)
  simp only [Prod.mk.injEq] at hafter
  obtain ⟨htree, hcov, hlsn⟩ := hafter
  have hcommits : committed (Engine.atRest PageTree.fresh).registerSnapshot.2 after
      (.put [1] [7]) = [(1, [.put [1] [7]])] := by
    rw [committed, hlsn]
    rfl
  have hrun : Run Step Fits ⟨Engine.atRest PageTree.fresh, []⟩
      [.registerSnapshot, .put [1] [7]] ⟨after, [] ++ [] ++ [(1, [.put [1] [7]])]⟩ := by
    rw [← hcommits]
    refine Run.next (Run.next Run.start
      ⟨hshallow, fun _ _ _ hop => absurd hop not_mem_nil⟩ (Step.done rfl))
      ⟨hshallow, ?_⟩ (Step.done hput)
    exact nofun
  have hfinal : Shallow after.tree := by
    rw [htree]
    exact firstPut_shallow
  have hcovered : ∀ revision, after.mvcc.coveredThrough ≤ revision := by
    intro revision
    rw [hcov]
    exact Nat.zero_le _
  exact ⟨_, hrun, getAt_exact atRest_opened hrun hfinal rfl (hcovered 0),
    getAt_exact atRest_opened hrun hfinal rfl (hcovered 1)⟩

/-- **STALE**: a key is written under a snapshot, deleted without one, and written again under
    one. The revision of the deletion is covered, the key was absent then, and the read returns
    the value from before. -/
theorem getAt_stale :
    ∃ s, Run Step (fun _ _ => True) ⟨Engine.atRest PageTree.fresh, []⟩
        [.registerSnapshot, .put [1] [7], .releaseSnapshot 0, .delete [1], .registerSnapshot,
          .put [1] [9]] s ∧
      s.engine.mvcc.coveredThrough ≤ 2 ∧ 2 ≤ s.engine.lastLsn ∧
      referenceAt [] s.commits [1] 2 = none ∧ s.engine.getAt [1] 2 = .ok (some [7]) := by
  exact exists_run Traced.act Traced.act_step (by decide +kernel)

end Vyrn
