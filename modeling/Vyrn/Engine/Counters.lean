import Vyrn.Engine.Runs

/-!
# What a batch answers and counts

To its caller a batch is a list of operations on a map (`applyAll`). The engine answers from the
presence it read before the batch and keeps a count of user keys: **`applyBatch_tally`** says that
both are right. `Tidy` keeps the tombstones beside the values apart from the live keys, and
`replayAll_touched` says what a batch makes of one key and its tombstone.
-/

namespace Vyrn

open SortedMap List

variable {key : Bytes} {operations : List BatchOperation}

/-! ## A map of values -/

/-- What an operation does to a map, and what it answers. -/
def BatchOperation.applyTo (map : List (Bytes × Bytes)) :
    BatchOperation → List (Bytes × Bytes) × BatchResult
  | .put key value => (SortedMap.put key value map, .put)
  | .delete key => (erase key map, .delete (lookup key map).isSome)

/-- Operations one after another. -/
def applyAll : List (Bytes × Bytes) → List BatchOperation →
    List (Bytes × Bytes) × List BatchResult
  | map, [] => (map, [])
  | map, operation :: rest =>
    let (map, result) := operation.applyTo map
    let (map, results) := applyAll map rest
    (map, result :: results)

/-- The user's own keys with their values. -/
def userMap (rows : Rows) : List (Bytes × Bytes) :=
  (userRows rows).map (fun row => (row.1, row.2.value))

section Map

variable {revision : Nat} {rows : Rows}

theorem userMap_update (h : Sorted rows) (u : Bytes × Option Versioned) :
    userMap (update rows u) = if isInternal u.1 then userMap rows
      else update (userMap rows) (u.1, u.2.map Versioned.value) := by
  rw [userMap, userRows, filter_update h (fun key => !isInternal key)]
  cases isInternal u.1 with
  | true => rfl
  | false => exact map_update Versioned.value _ u

theorem lookup_userMap (huser : isInternal key = false) (rows : Rows) :
    lookup key (userMap rows) = valueIn rows key := by
  rw [userMap, lookup_mapValues Versioned.value, userRows, lookup_filter (fun key => !isInternal key), huser]
  rfl

/-- The engine's own keys are no part of the user's map. -/
theorem userMap_replayed_internal (h : Sorted rows) {operation : BatchOperation}
    (hint : isInternal operation.key = true) :
    userMap (replayed revision rows operation) = userMap rows := by
  cases operation with
  | put key value =>
    have hint : isInternal key = true := hint
    rw [replayed, if_pos hint]
    exact (userMap_update h (key, some ⟨value, revision⟩)).trans (if_pos hint)
  | delete key =>
    have hint : isInternal key = true := hint
    rw [replayed]
    split_ifs
    · exact (userMap_update h (key, none)).trans (if_pos hint)
    · rfl

/-- **ONE OPERATION**: on the user's map the replay of an operation is the operation. -/
theorem applyTo_replayed (h : Sorted rows) {operation : BatchOperation}
    (huser : isInternal operation.key = false) :
    (userMap (replayed revision rows operation), operation.answer rows)
      = operation.applyTo (userMap rows) := by
  have htomb : ∀ {m : Rows}, Sorted m → ∀ (key : Bytes) (v : Option Versioned),
      userMap (update m (tombstoneKey key, v)) = userMap m := fun hm key v =>
    (userMap_update hm _).trans (if_pos (isInternal_tombstoneKey key))
  cases operation with
  | put key value =>
    have huser : isInternal key = false := huser
    have hput := userMap_update h (key, some ⟨value, revision⟩)
    rw [if_neg (by rw [huser]; exact Bool.false_ne_true)] at hput
    rw [replayed, huser, if_neg Bool.false_ne_true]
    exact congrArg (·, BatchResult.put) ((htomb (h.put _ _) key none).trans hput)
  | delete key =>
    have huser : isInternal key = false := huser
    have hlive : (lookup key (userMap rows)).isSome = (lookup key rows).isSome := by
      rw [lookup_userMap huser, valueIn, Option.isSome_map]
    have herase := userMap_update h (key, none)
    rw [if_neg (by rw [huser]; exact Bool.false_ne_true)] at herase
    rw [BatchOperation.applyTo, hlive, BatchOperation.answer, replayed, huser]
    refine congrArg (·, _) ?_
    by_cases hsome : (lookup key rows).isSome = true
    · rw [if_pos hsome, if_neg Bool.false_ne_true]
      exact (htomb (h.filter _) key (some ⟨[], revision⟩)).trans herase
    · -- a delete of an absent key changes nothing on either side
      rw [if_neg hsome]
      refine (erase_of_lookup_none ?_).symm
      rw [← Option.not_isSome_iff_eq_none]
      exact fun hsome' => hsome (hlive.symm.trans hsome')

/-- **ANSWERS**: a batch of user operations does to the user's map what the operations do one
    after another, and answers as they do. -/
theorem applyAll_replayAll (huser : ∀ operation ∈ operations, isInternal operation.key = false)
    (h : Sorted rows) :
    (userMap (replayAll revision rows operations), batchAnswers revision rows operations)
      = applyAll (userMap rows) operations := by
  induction operations generalizing rows with
  | nil => rfl
  | cons operation rest ih =>
    rw [forall_mem_cons] at huser
    have hfirst := @applyTo_replayed revision rows h operation huser.1
    have hrest := ih huser.2
      (replayed_sorted h revision operation)
    rw [applyAll, ← hfirst]
    dsimp only
    rw [← hrest]
    rfl

theorem userMap_replayAll_internal {others : List BatchOperation}
    (hint : ∀ operation ∈ others, isInternal operation.key = true) (h : Sorted rows) :
    userMap (replayAll revision rows others) = userMap rows :=
  (foldlRecOn others _ (motive := fun m => Sorted m ∧ userMap m = userMap rows) ⟨h, rfl⟩
    (fun _ ⟨hm, hsame⟩ operation hop => ⟨replayed_sorted hm revision operation,
      (userMap_replayed_internal hm (hint operation hop)).trans hsame⟩)).2

theorem length_batchAnswers (operations : List BatchOperation) :
    ∀ rows : Rows,
      (batchAnswers revision rows operations).length = operations.length := by
  induction operations with
  | nil => exact fun _ => rfl
  | cons operation rest ih => exact fun rows => congrArg (· + 1) (ih _)

theorem batchAnswers_append (operations others : List BatchOperation) :
    ∀ rows : Rows, batchAnswers revision rows (operations ++ others)
      = batchAnswers revision rows operations
        ++ batchAnswers revision (replayAll revision rows operations) others := by
  induction operations with
  | nil => exact fun _ => rfl
  | cons operation rest ih =>
    exact fun rows => congrArg (operation.answer rows :: ·) (ih _)

/-- What stands behind the operations does not change their answers. -/
theorem take_batchAnswers (operations others : List BatchOperation) (rows : Rows) :
    (batchAnswers revision rows (operations ++ others)).take operations.length
      = batchAnswers revision rows operations := by
  rw [batchAnswers_append, take_left' (length_batchAnswers _ _)]

end Map

/-! ## Live keys and tombstones -/

/-- No key is both live and deleted, and only user keys leave tombstones. -/
structure Tidy (rows : Rows) : Prop where
  exclusive : ∀ key, isInternal key = false → Exclusive rows key
  plain : ∀ key, isInternal key = true → lookup (tombstoneKey key) rows = none

section Tidy

variable {revision : Nat} {rows : Rows} {operations : List BatchOperation}

theorem Tidy.all (h : Tidy rows) (key : Bytes) : Exclusive rows key := by
  cases hint : isInternal key with
  | true => exact .inr (h.plain key hint)
  | false => exact h.exclusive key hint

theorem tidy_nil : Tidy [] := ⟨fun _ _ => .inl rfl, fun _ _ => rfl⟩

theorem Tidy.replayed (h : Tidy rows) {operation : BatchOperation}
    (hcaller : operation.FromCaller) : Tidy (replayed revision rows operation) := by
  refine ⟨fun key huser => ?_, fun key hint => ?_⟩
  · exact (@replayAll_key revision key rows [operation] huser
      (fun o ho => mem_singleton.mp ho ▸ hcaller) (h.exclusive key huser)).exclusive
  · rw [replayed_plain hint hcaller, h.plain key hint]

theorem Tidy.replayAll (hcaller : ∀ operation ∈ operations, operation.FromCaller)
    (h : Tidy rows) : Tidy (replayAll revision rows operations) :=
  foldlRecOn operations _ h (fun _ hm operation hop => hm.replayed (hcaller operation hop))

/-- A put always has an effect. -/
theorem put_mem_effective {value : Bytes} (hput : .put key value ∈ operations) :
    .put key value ∈ effective revision rows operations := by
  induction operations generalizing rows with
  | nil => exact absurd hput not_mem_nil
  | cons first rest ih =>
    rw [effective]
    rcases mem_cons.mp hput with rfl | hput
    · rw [HasEffect, if_pos rfl]
      exact mem_cons_self
    · split_ifs
      · exact mem_cons_of_mem _ (ih hput)
      · exact ih hput

/-- A batch on `rows` writes or deletes the key: it puts it, or it names a key that is there. -/
def Touches (rows : Rows) (operations : List BatchOperation) (key : Bytes) :
    Prop :=
  (∃ value, .put key value ∈ operations) ∨
    ((lookup key rows).isSome = true ∧ ∃ operation ∈ operations, operation.key = key)

/-- **ONE KEY**: a key that a batch writes or deletes carries its revision, on its entry or on its
    tombstone, and any other key stays as it is. -/
theorem replayAll_touched (h : Tidy rows) (hcaller : ∀ operation ∈ operations, operation.FromCaller)
    {key : Bytes} (huser : isInternal key = false) :
    (Touches rows operations key →
      writtenIn (replayAll revision rows operations) key = some revision) ∧
      (¬ Touches rows operations key →
        lookup key (replayAll revision rows operations) = lookup key rows ∧
          lookup (tombstoneKey key) (replayAll revision rows operations)
            = lookup (tombstoneKey key) rows) := by
  have hwritten := @replayAll_key revision key rows operations huser hcaller (h.exclusive key huser)
  refine ⟨fun htouched => hwritten.written (fun hnil => ?_), fun huntouched => hwritten.kept ?_⟩
  · -- what it touches it has an effect on
    rcases htouched with ⟨value, hput⟩ | ⟨hlive, operation, hop, hkey⟩
    · exact stagedValues_ne_nil.mpr ⟨isVersionedKey_user huser, _, put_mem_effective hput, rfl⟩ hnil
    · rw [absent_of_unstaged huser hcaller hnil operation hop hkey] at hlive
      cases hlive
  · by_contra hstaged
    refine huntouched ?_
    cases hlive : lookup key rows with
    | none => exact .inl (put_of_staged huser hcaller hstaged hlive)
    | some => exact .inr ⟨hlive ▸ rfl, mem_of_staged hstaged⟩

end Tidy

/-! ## A commit -/

section Commit

variable {ordered : Bool} {engine after : Engine} {levels : Nat} {rows : Rows}

/-- **TALLY**: a commit answers about the map before it, one operation after the other, and keeps
    the count of user keys. -/
theorem applyBatch_tally (h : Serves ordered engine levels rows) {combined : List BatchOperation}
    (hd : Reaches levels engine.writeBack (wantedKeys engine.tombstonesPossible combined))
    (hacc : Accepts engine rows operations combined) {results : List BatchResult}
    (hrun : engine.applyBatch operations = .ok (results, after)) :
    results = batchAnswers (engine.lastLsn + 1) rows operations ∧
      (engine.userLen = (userRows rows).length →
        after.userLen = (userRows (replayAll (engine.lastLsn + 1) rows combined)).length) := by
  obtain ⟨plan, _, _, _, ⟨_, hpend, hresults, hdelta, _⟩, hcases⟩ := hacc.planned h hd hrun
  rcases hcases with ⟨hempty, rfl, possible, rfl⟩ | ⟨rfl, hcommit⟩
  · have hsame : replayAll (engine.lastLsn + 1) rows combined = rows := by
      rw [← replayAll_effective, ← hpend, hempty]
      rfl
    refine ⟨?_, fun hcount => by rw [hsame]; exact hcount⟩
    -- a change record would have an effect
    rcases withChangeLog_cases hacc.changeLog with rfl | ⟨sequence, value, rfl⟩
    · exact hresults
    · have hmem : BatchOperation.put (changeLogKey sequence) value ∈ plan.pending := by
        rw [hpend]
        exact put_mem_effective (mem_append_right _ mem_cons_self)
      rw [hempty] at hmem
      exact absurd hmem not_mem_nil
  · constructor
    · -- the answers of the caller's operations stand first
      rw [hresults]
      rcases withChangeLog_cases hacc.changeLog with rfl | ⟨sequence, value, rfl⟩
      · rw [take_of_length_le (length_batchAnswers _ _).le]
      · exact take_batchAnswers _ _ _
    · intro hcount
      obtain ⟨_, tree, buffer, record, state, values, _, rfl⟩ := commitPlan_form hcommit
      rw [(maybeFlush_keeps _).2.2.1, saturatingAdd, hdelta]
      show ((engine.userLen : Int) + _).toNat = _
      rw [hcount]
      omega

end Commit

end Vyrn
