import Vyrn.Engine.Index

/-!
# Snapshots and reads at a revision

A snapshot pins a revision; while one is open, commits keep versions. A read at a revision takes
the live value when the key was last written at or before it, and the kept versions otherwise
(`Engine.getAt`). The last write of a key is known from its entry, or from its tombstone.

Main results: `getAt_covers`, `replayAll_key`.
-/

namespace Vyrn

open SortedMap List

/-! ## The code -/

/-- One more holder of a revision. -/
def registerIn (snapshots : List (Nat × Nat)) (revision : Nat) : List (Nat × Nat) :=
  put revision ((lookup revision snapshots).getD 0 + 1) snapshots

/-- One holder less; the last one takes the revision with it. -/
def releaseIn (snapshots : List (Nat × Nat)) (revision : Nat) : List (Nat × Nat) :=
  match lookup revision snapshots with
  | none => snapshots
  | some count =>
    if count - 1 = 0 then erase revision snapshots else put revision (count - 1) snapshots

def Engine.registerSnapshot (engine : Engine) : Nat × Engine :=
  (engine.lastLsn, { engine with
    activeSnapshots := registerIn engine.activeSnapshots engine.lastLsn })

def Engine.registerSnapshotShared (engine : Engine) : Nat × Engine :=
  (engine.lastLsn, { engine with
    sharedSnapshots := registerIn engine.sharedSnapshots engine.lastLsn })

def Engine.ensureCovered (engine : Engine) (revision : Nat) : Except Error Unit :=
  if revision < engine.mvcc.coveredThrough then
    .error (.snapshotTooOld revision engine.mvcc.coveredThrough)
  else .ok ()

def Engine.registerSnapshotAt (engine : Engine) (revision : Nat) : Except Error Engine := do
  engine.ensureCovered revision
  if engine.lastLsn < revision then
    throw (.snapshotTooOld revision engine.mvcc.coveredThrough)
  return { engine with activeSnapshots := registerIn engine.activeSnapshots revision }

def Engine.releaseSnapshot (engine : Engine) (revision : Nat) : Engine :=
  { engine with activeSnapshots := releaseIn engine.activeSnapshots revision }

def Engine.releaseSnapshotShared (engine : Engine) (revision : Nat) : Engine :=
  { engine with sharedSnapshots := releaseIn engine.sharedSnapshots revision }

def Engine.collectVersions (engine : Engine) : Nat × Engine :=
  let (removed, mvcc) := Mvcc.collect engine.mvcc engine.oldestActiveSnapshot engine.lastLsn
  (removed, { engine with mvcc := mvcc })

/-- The greater of two revisions of which either may be missing. -/
def laterOf : Option Nat → Option Nat → Option Nat
  | some retained, some live => some (max retained live)
  | value, none => value
  | none, value => value

/-- The revision that last wrote a key, over the live tree and the kept versions. -/
def Engine.revision (engine : Engine) (key : Bytes) : Except Error (Option Nat) := do
  engine.ensureHealthy
  validateKey key
  let retained := (engine.mvcc.versions key).getLast?.map Prod.fst
  let live ← engine.treeRevision key
  let tombstone ← engine.treeRevision (tombstoneKey key)
  return laterOf retained (live.or tombstone)

def Engine.getAt (engine : Engine) (key : Bytes) (revision : Nat) :
    Except Error (Option Bytes) := do
  engine.ensureHealthy
  validateUserKey key
  engine.ensureCovered revision
  let current ← engine.revision key
  if current.all (fun current => current ≤ revision) then engine.treeGet key
  else Mvcc.getAt engine.mvcc engine.mvccValues key revision

/-! ## Reading one key -/

/-- A key's value in a map. -/
def valueIn (rows : Rows) (key : Bytes) : Option Bytes :=
  (lookup key rows).map Versioned.value

/-- The revision that last wrote a key: its entry's, or its tombstone's. -/
def writtenIn (rows : Rows) (key : Bytes) : Option Nat :=
  ((lookup key rows).or (lookup (tombstoneKey key) rows)).map Versioned.revision

section Reading

variable {ordered : Bool} {engine : Engine} {levels : Nat} {rows : Rows}
  {reference : Nat → Option Bytes} {key : Bytes}

theorem validateUserKey_ok (h : validateUserKey key = .ok ()) :
    validateKey key = .ok () ∧ isInternal key = false := by
  obtain ⟨⟨⟩, hkey, h⟩ := bind_eq_ok.mp h
  exact ⟨hkey, Bool.eq_false_iff.mpr (guard_ok.mp h).1⟩

theorem laterOf_eq {retained live : Option Nat} (h : ∀ r ∈ retained, ∃ l ∈ live, r ≤ l) :
    laterOf retained live = live := by
  cases retained with
  | none => cases live <;> rfl
  | some r =>
    obtain ⟨l, rfl, hle⟩ := h r rfl
    exact congrArg some (max_eq_right hle)

/-- The kept versions never name a later write than the tree does. -/
theorem revision_covers (h : Serves ordered engine levels rows) (hd : levels ≤ maxTreeDepth)
    (hhealthy : engine.poisoned = false) (hkey : validateKey key = .ok ())
    (hc : History.Covers reference (Mvcc.historyOf engine.mvcc engine.mvccValues key)
      engine.mvcc.coveredThrough (valueIn rows key) (writtenIn rows key)) :
    engine.revision key = .ok (writtenIn rows key) := by
  have hretained : ∀ r ∈ (engine.mvcc.versions key).getLast?.map Prod.fst,
      ∃ l ∈ writtenIn rows key, r ≤ l := by
    intro r hr
    obtain ⟨version, hlast, rfl⟩ := Option.map_eq_some_iff.mp hr
    have hbound := hc.bounded (version.1, version.2.map (ValueLog.valueOf engine.mvccValues))
    rw [Mvcc.historyOf, Mvcc.readVersions, History.getLast?_mapValues, hlast] at hbound
    exact hbound rfl
  have hok := ensureHealthy_ok hhealthy
  rw [Engine.revision, hok, ok_bind, hkey, ok_bind]
  rw [(h.reads hd key).2, ok_bind, (h.reads hd (tombstoneKey key)).2, ok_bind]
  refine congrArg Except.ok ?_
  have hlive : (Option.map Versioned.revision (lookup key rows)).or
      (Option.map Versioned.revision (lookup (tombstoneKey key) rows))
        = writtenIn rows key := by
    rw [writtenIn]
    cases lookup key rows <;> rfl
  rw [hlive]
  exact laterOf_eq hretained

/-- **READ AT A REVISION**: a covered read answers what the history stands for. -/
theorem getAt_covers (h : Serves ordered engine levels rows) (hd : levels ≤ maxTreeDepth)
    (hm : Mvcc.WellFormed engine.mvcc engine.mvccValues) (hhealthy : engine.poisoned = false)
    (hkey : validateUserKey key = .ok ())
    (hc : History.Covers reference (Mvcc.historyOf engine.mvcc engine.mvccValues key)
      engine.mvcc.coveredThrough (valueIn rows key) (writtenIn rows key)) {revision : Nat}
    (hcov : engine.mvcc.coveredThrough ≤ revision) :
    engine.getAt key revision = .ok (reference revision) := by
  have hok := ensureHealthy_ok hhealthy
  have hcovered : engine.ensureCovered revision = .ok () := by
    rw [Engine.ensureCovered, if_neg (not_lt.mpr hcov)]
  rw [Engine.getAt, hok, ok_bind, hkey, ok_bind, hcovered, ok_bind,
    revision_covers h hd hhealthy (validateUserKey_ok hkey).1 hc, ok_bind]
  split_ifs with hlive
  · rw [(h.reads hd key).1, hc.recent]
    · rfl
    · intro latest hmem
      rw [hmem] at hlive
      exact of_decide_eq_true hlive
  · rw [Mvcc.getAt_ok hm key hcov]
    refine congrArg Except.ok ?_
    cases hwritten : writtenIn rows key with
    | none =>
      rw [hwritten] at hlive
      exact absurd rfl hlive
    | some =>
      rw [hwritten] at hlive
      exact hc.past hcov hwritten (not_le.mp (fun hle => hlive (decide_eq_true hle)))

end Reading

/-! ## Writing one key -/

/-- What an operation leaves of a key's value. -/
def BatchOperation.leaves (key : Bytes) (value : Option Bytes) (operation : BatchOperation) :
    Option Bytes :=
  if operation.key = key then operation.value? else value

/-- A key is live or deleted, not both. -/
def Exclusive (rows : Rows) (key : Bytes) : Prop :=
  lookup key rows = none ∨ lookup (tombstoneKey key) rows = none

variable {key : Bytes}

theorem isVersionedKey_user (h : isInternal key = false) : isVersionedKey key = true := by
  have hlog : changeLogPrefix.isPrefixOf key = false := by
    rw [Bool.eq_false_iff]
    intro hpre
    obtain ⟨rest, rfl⟩ := List.isPrefixOf_iff_prefix.mp hpre
    exact Bool.false_ne_true h.symm
  have hstart : key ≠ changeLogStartKey := by
    rintro rfl
    exact Bool.false_ne_true h.symm
  rw [isVersionedKey, hlog, decide_eq_true hstart]
  rfl

theorem tombstoneKey_ne_user (h : isInternal key = false) (other : Bytes) :
    key ≠ tombstoneKey other := by
  rintro rfl
  rw [isInternal_tombstoneKey] at h
  exact Bool.false_ne_true h.symm

section Writing

variable {revision : Nat} {key : Bytes} {rows : Rows} {operation : BatchOperation}
  {operations : List BatchOperation}

theorem lookup_replayed_ne {j : Bytes} (hkey : j ≠ operation.key)
    (htomb : j ≠ tombstoneKey operation.key) :
    lookup j (replayed revision rows operation) = lookup j rows := by
  cases operation with
  | put =>
    rw [BatchOperation.key] at hkey htomb
    rw [replayed]
    split_ifs
    · rw [lookup_put, if_neg hkey]
    · rw [lookup_erase, if_neg htomb, lookup_put, if_neg hkey]
  | delete =>
    rw [BatchOperation.key] at hkey htomb
    rw [replayed]
    split_ifs
    · rw [lookup_erase, if_neg hkey]
    · rw [lookup_put, if_neg htomb, lookup_erase, if_neg hkey]
    · rfl

/-- An operation on another key touches neither the key nor its tombstone. -/
theorem replayed_other (huser : isInternal key = false) {operation : BatchOperation}
    (hcaller : operation.FromCaller) (hne : operation.key ≠ key) :
    lookup key (replayed revision rows operation) = lookup key rows ∧
      lookup (tombstoneKey key) (replayed revision rows operation)
        = lookup (tombstoneKey key) rows :=
  ⟨lookup_replayed_ne hne.symm (tombstoneKey_ne_user huser _),
    lookup_replayed_ne (ne_tombstoneKey hcaller key).symm
      (fun heq => hne (tombstoneKey_injective heq).symm)⟩

/-- An internal key leaves no tombstone. -/
theorem replayed_plain (hint : isInternal key = true) (hcaller : operation.FromCaller) :
    lookup (tombstoneKey key) (replayed revision rows operation)
      = lookup (tombstoneKey key) rows := by
  have hne : tombstoneKey key ≠ operation.key := (ne_tombstoneKey hcaller key).symm
  by_cases hkey : operation.key = key
  · have hinternal : isInternal operation.key = true := hkey ▸ hint
    cases operation with
    | put =>
      rw [BatchOperation.key] at hne hinternal
      rw [replayed, if_pos hinternal, lookup_put, if_neg hne]
    | delete =>
      rw [BatchOperation.key] at hne hinternal
      rw [replayed]
      split_ifs
      · rw [lookup_erase, if_neg hne]
      · rfl
  · exact lookup_replayed_ne hne (fun heq => hkey (tombstoneKey_injective heq).symm)

theorem replayed_put (huser : isInternal key = false) (value : Bytes) :
    lookup key (replayed revision rows (.put key value)) = some ⟨value, revision⟩ ∧
      lookup (tombstoneKey key) (replayed revision rows (.put key value)) = none := by
  have hne : key ≠ tombstoneKey key := tombstoneKey_ne_user huser key
  rw [replayed, huser, if_neg Bool.false_ne_true, lookup_erase, if_neg hne, lookup_put, if_pos rfl,
    lookup_erase, if_pos rfl]
  exact ⟨rfl, rfl⟩

theorem replayed_delete (huser : isInternal key = false)
    (hlive : (lookup key rows).isSome = true) :
    lookup key (replayed revision rows (.delete key)) = none ∧
      lookup (tombstoneKey key) (replayed revision rows (.delete key))
        = some ⟨[], revision⟩ := by
  have hne : key ≠ tombstoneKey key := tombstoneKey_ne_user huser key
  rw [replayed, if_pos hlive, huser, if_neg Bool.false_ne_true, lookup_put, if_neg hne, lookup_erase,
    if_pos rfl, lookup_put, if_pos rfl]
  exact ⟨rfl, rfl⟩

/-- The value of a key that is no tombstone follows the operations. -/
theorem valueIn_replayed (htomb : ∀ other, key ≠ tombstoneKey other)
    (operation : BatchOperation) :
    valueIn (replayed revision rows operation) key
      = operation.leaves key (valueIn rows key) := by
  rw [BatchOperation.leaves]
  split_ifs with hkey
  · subst hkey
    cases operation with
    | put k =>
      rw [valueIn, replayed]
      dsimp only [BatchOperation.key] at htomb ⊢
      split_ifs
      · rw [lookup_put, if_pos rfl]
        rfl
      · rw [lookup_erase, if_neg (htomb k), lookup_put, if_pos rfl]
        rfl
    | delete k =>
      rw [valueIn, replayed]
      dsimp only [BatchOperation.key] at htomb ⊢
      split_ifs with hlive
      · rw [lookup_erase, if_pos rfl]
        rfl
      · rw [lookup_put, if_neg (htomb k), lookup_erase, if_pos rfl]
        rfl
      · rw [Option.not_isSome_iff_eq_none.mp hlive]
        rfl
  · rw [valueIn, lookup_replayed_ne (fun heq => hkey heq.symm) (htomb _), valueIn]

theorem valueIn_replayAll (htomb : ∀ other, key ≠ tombstoneKey other) {rows : Rows} :
    valueIn (replayAll revision rows operations) key
      = operations.foldl (BatchOperation.leaves key) (valueIn rows key) :=
  (foldl_hom (valueIn · key) (fun _ operation => (valueIn_replayed htomb operation).symm)).symm

/-- Operations leave a key alone, or one of them has the last word. -/
theorem foldl_leaves_cases :
    ∀ {value : Option Bytes},
      ((∀ operation ∈ operations, operation.key ≠ key) ∧
        operations.foldl (BatchOperation.leaves key) value = value) ∨
      ∃ operation ∈ operations, operation.key = key ∧
        operations.foldl (BatchOperation.leaves key) value = operation.value? := by
  induction operations with
  | nil => exact .inl ⟨forall_mem_nil _, rfl⟩
  | cons operation rest ih =>
    intro value
    rw [foldl_cons, BatchOperation.leaves]
    rcases @ih (if operation.key = key then operation.value? else value) with
      ⟨hne, heq⟩ | ⟨last, hlast, hkey, heq⟩
    · rw [heq]
      split_ifs with hkey
      · exact .inr ⟨operation, mem_cons_self, hkey, rfl⟩
      · exact .inl ⟨forall_mem_cons.mpr ⟨hkey, hne⟩, rfl⟩
    · exact .inr ⟨last, mem_cons_of_mem _ hlast, hkey, heq⟩

theorem foldl_leaves_ne (hne : ∀ operation ∈ operations, operation.key ≠ key)
    (value : Option Bytes) : operations.foldl (BatchOperation.leaves key) value = value := by
  rcases @foldl_leaves_cases key operations value with ⟨_, heq⟩ | ⟨operation, hop, hkey, _⟩
  · exact heq
  · exact absurd hkey (hne operation hop)

/-- What a batch that stages `staged` for a key makes of it. -/
structure Written (revision : Nat) (key : Bytes) (staged : List (Option Bytes))
    (rows rows' : Rows) : Prop where
  exclusive : Exclusive rows' key
  value : valueIn rows' key = staged.getLast?.getD (valueIn rows key)
  kept : staged = [] → lookup key rows' = lookup key rows ∧
    lookup (tombstoneKey key) rows' = lookup (tombstoneKey key) rows
  written : staged ≠ [] → writtenIn rows' key = some revision

theorem stagedValues_cons_eq (huser : isInternal key = false) (hkey : operation.key = key)
    (rest : List BatchOperation) :
    stagedValues (operation :: rest) key = operation.value? :: stagedValues rest key := by
  rw [stagedValues, filter_cons_of_pos, map_cons, stagedValues]
  rw [hkey, isVersionedKey_user huser, beq_self_eq_true]
  rfl

theorem stagedValues_cons_ne (hkey : operation.key ≠ key) (rest : List BatchOperation) :
    stagedValues (operation :: rest) key = stagedValues rest key := by
  rw [stagedValues, filter_cons_of_neg, stagedValues]
  rw [beq_eq_false_iff_ne.mpr hkey]
  exact Bool.false_ne_true

/-- What the first operation leaves and the rest makes of it. -/
theorem Written.cons {rows middle rows' : Rows} {value : Option Bytes}
    {staged : List (Option Bytes)} (hvalue : valueIn middle key = value)
    (hwritten : writtenIn middle key = some revision) (h : Written revision key staged middle rows') :
    Written revision key (value :: staged) rows rows' := by
  refine ⟨h.exclusive, ?_, nofun, fun _ => ?_⟩
  · rw [h.value, hvalue]
    cases staged using reverseRecOn with
    | nil => rfl
    | append_singleton =>
      rw [← cons_append, getLast?_concat, getLast?_concat]
      rfl
  · by_cases hnil : staged = []
    · obtain ⟨hkey, htomb⟩ := h.kept hnil
      rw [writtenIn, hkey, htomb]
      exact hwritten
    · exact h.written hnil

/-- **ONE KEY**: a batch leaves a user key as the last operation with an effect on it does. -/
theorem replayAll_key (huser : isInternal key = false)
    (hcaller : ∀ operation ∈ operations, operation.FromCaller) (hex : Exclusive rows key) :
    Written revision key (stagedValues (effective revision rows operations) key) rows
      (replayAll revision rows operations) := by
  induction operations generalizing rows with
  | nil => exact ⟨hex, rfl, fun _ => ⟨rfl, rfl⟩, fun hne => absurd rfl hne⟩
  | cons operation rest ih =>
    rw [forall_mem_cons] at hcaller
    have hop := hcaller.1
    have hrest := fun {rows : Rows} => @ih rows hcaller.2
    rw [effective]
    split_ifs with heffect
    · by_cases hkey : operation.key = key
      · rw [stagedValues_cons_eq huser hkey]
        subst hkey
        -- the operation decides; what follows starts from what it left
        cases operation with
        | put k value =>
          obtain ⟨hlive, htomb⟩ := @replayed_put revision k rows huser value
          refine Written.cons ?_ ?_ (hrest (.inr htomb))
          · exact congrArg (Option.map Versioned.value) hlive
          · exact congrArg (fun row : Option Versioned =>
              (row.or _).map Versioned.revision) hlive
        | delete k =>
          obtain ⟨hgone, htomb⟩ := @replayed_delete revision k rows huser heffect
          refine Written.cons ?_ ?_ (hrest (.inl hgone))
          · exact congrArg (Option.map Versioned.value) hgone
          · rw [BatchOperation.key, writtenIn, hgone, htomb]
            rfl
      · obtain ⟨hsame, hsame'⟩ := @replayed_other revision key rows huser operation hop hkey
        have h := @hrest (replayed revision rows operation) (by
          rw [Exclusive, hsame, hsame']
          exact hex)
        rw [stagedValues_cons_ne hkey]
        refine ⟨h.exclusive, ?_, fun hnil => ?_, h.written⟩
        · have hvalue := h.value
          rw [show valueIn (replayed revision rows operation) key = valueIn rows key from
            congrArg (Option.map Versioned.value) hsame] at hvalue
          exact hvalue
        · obtain ⟨hkept, hkept'⟩ := h.kept hnil
          exact ⟨hkept.trans hsame, hkept'.trans hsame'⟩
    · have h := @hrest rows hex
      rw [replayAll, foldl_cons, replayed_of_no_effect (Bool.eq_false_iff.mpr heffect)]
      exact h

end Writing

end Vyrn
