import Vyrn.Engine.Effect

/-!
# A batch on a reachable database

A batch that is accepted does to the user's map what its operations do one after another, and
answers as they do; every key it touches carries the commit's LSN, and the counters agree with the
map (**`writeBatch_exact`**). In **`writeBatch_live_and_deleted`** a database is opened twice after
a crash: the second opening adopts a page from the middle of the first one's redo, in which a key is
live beside its tombstone.
-/

namespace Vyrn

open SortedMap List Transition

/-- The engine holds `rows`, and its count, its tombstones and its flag agree with them. -/
structure Accounts (engine : Engine) (rows : Rows) : Prop where
  holds : ∃ levels, Serves true engine levels rows
  len : engine.userLen = (userMap rows).length
  exclusive : ∀ key, Exclusive rows key
  flag : ∀ key, (lookup (tombstoneKey key) rows).isSome = true →
    engine.tombstonesPossible = true

theorem Holds.accounts {db : Database} {levels : Nat} {base treeRows rows : Rows}
    (h : Holds db levels base treeRows rows) : Accounts db.engine rows := by
  refine ⟨⟨levels, h.serves⟩, h.count.trans (length_map _).symm, h.tidy.all, fun key hsome => ?_⟩
  by_contra hflag
  rw [h.serves.tombless (Bool.eq_false_iff.mpr hflag) key] at hsome
  cases hsome

/-- What stands behind a batch on the engine's own keys does not touch a user key. -/
theorem touches_append {rows : Rows} {operations others : List BatchOperation}
    (hothers : ∀ operation ∈ others, isInternal operation.key = true) {key : Bytes}
    (huser : isInternal key = false) :
    Touches rows (operations ++ others) key ↔ Touches rows operations key := by
  have hnot : ∀ operation ∈ others, operation.key ≠ key := by
    rintro operation hop rfl
    rw [hothers operation hop] at huser
    exact Bool.false_ne_true huser.symm
  constructor
  · rintro (⟨value, hput⟩ | ⟨hlive, operation, hop, hkey⟩)
    · rcases mem_append.mp hput with hput | hput
      · exact .inl ⟨value, hput⟩
      · exact absurd rfl (hnot _ hput)
    · rcases mem_append.mp hop with hop | hop
      · exact .inr ⟨hlive, operation, hop, hkey⟩
      · exact absurd hkey (hnot operation hop)
  · rintro (⟨value, hput⟩ | ⟨hlive, operation, hop, hkey⟩)
    · exact .inl ⟨value, mem_append_left _ hput⟩
    · exact .inr ⟨hlive, operation, mem_append_left _ hop, hkey⟩

/-- **BATCH**: after any run whose steps meet the condition, the engine's counters agree with the
    map it holds, and an accepted batch leads to the map and the answers of its operations one after
    another. A key that it touches carries its LSN, on the entry or on the tombstone; any other key
    stays as it is. -/
theorem writeBatch_exact {events : List Event} {db : Database}
    (hrun : Run Database.Step Database.Fits Database.empty events db) :
    ∃ rows, Accounts db.engine rows ∧
      ∀ operations results after, db.engine.writeBatch operations = .ok (results, after) →
        ∃ rows', Accounts after rows' ∧
          (userMap rows', results) = applyAll (userMap rows) operations ∧
          ∀ key, isInternal key = false →
            (Touches rows operations key →
              writtenIn rows' key = some (db.engine.lastLsn + 1) ∧
                (lookup key rows' = none → (lookup (tombstoneKey key) rows').map
                  Versioned.revision = some (db.engine.lastLsn + 1))) ∧
            (¬ Touches rows operations key →
              lookup key rows' = lookup key rows ∧
                lookup (tombstoneKey key) rows' = lookup (tombstoneKey key) rows) := by
  obtain ⟨base, levels, treeRows, rows, h⟩ := consistent_of_run hrun
  refine ⟨rows, h.accounts, fun operations results after hwrite => ?_⟩
  obtain ⟨_, hforM, happly⟩ := bind_eq_ok.mp hwrite
  have huser := forM_user.mp hforM
  have hproper : ∀ operation ∈ operations, operation.Proper :=
    fun operation hop => proper_of_user (huser operation hop)
  obtain ⟨levels', treeRows', others, hothers, hholds, hresults, _⟩ := h.applyBatch hproper happly
  have hinternal := fun operation hop => (hothers operation hop).1
  have hall : ∀ operation ∈ operations ++ others, operation.FromCaller :=
    forall_mem_append.mpr ⟨fun operation hop => (hproper operation hop).1,
      fun operation hop => (hothers operation hop).2⟩
  refine ⟨_, hholds.accounts, ?_, fun key hkey => ?_⟩
  · have hsorted : Sorted (replayAll (db.engine.lastLsn + 1) rows operations) := by
      have hsorted := @replayLog_sorted [⟨db.engine.lastLsn + 1, operations, 0, 0⟩] rows
        h.serves.sorted
      exact hsorted
    rw [← applyAll_replayAll huser h.serves.sorted, ← hresults, replayAll, foldl_append]
    exact congrArg (·, results) (userMap_replayAll_internal hinternal hsorted)
  · rw [← touches_append hinternal hkey]
    obtain ⟨htouched, huntouched⟩ := @replayAll_touched (db.engine.lastLsn + 1) rows
      (operations ++ others) h.tidy hall key hkey
    refine ⟨fun ht => ⟨htouched ht, fun hgone => ?_⟩, huntouched⟩
    have hwritten := htouched ht
    rw [writtenIn, hgone] at hwritten
    exact hwritten

/-- A batch after a commit and a crash that lost its page. -/
theorem writeBatch_exact_reopened :
    ∃ db, Run Database.Step Database.Fits Database.empty
        [.perform (.put [1] [7]), .reopen ⟨0, false⟩ 1 0 ⟨0, 0, []⟩ []] db ∧
      ∃ after, db.engine.writeBatch [.delete [1], .put [2] [9]] = .ok ([.delete true, .put], after) ∧
        ∃ rows rows', Accounts db.engine rows ∧ Accounts after rows' ∧
          (userMap rows', [.delete true, .put])
            = applyAll (userMap rows) [.delete [1], .put [2] [9]] := by
  refine exists_run_of Database.follow Database.follow_step
    (p := fun db => (db.engine.writeBatch [.delete [1], .put [2] [9]]).map Prod.fst
      = .ok [.delete true, .put]) (by decide +kernel) (fun db hrun hresults => ?_)
  obtain ⟨⟨_, after⟩, hwrite, rfl⟩ := map_eq_ok hresults
  obtain ⟨rows, haccounts, hbatch⟩ := writeBatch_exact hrun
  obtain ⟨rows', haccounts', hmap, _⟩ := hbatch _ _ after hwrite
  exact ⟨after, hwrite, rows, rows', haccounts, haccounts', hmap⟩

/-- A key is written, deleted and checkpointed, so that the manifest's tree holds its tombstone. The
    key is written again together with another one, and the crash loses the page of that commit. The
    first opening redoes the two puts; the page it writes first, under the number of the lost root,
    holds the key and its tombstone and so as many entries as the record names. The second opening
    adopts it. -/
def twiceOpened : List Event :=
  [.perform (.put [1] [7]), .perform (.delete [1]), .beginCheckpoint, .compact, .finishCheckpoint,
    .perform (.writeBatch [.put [1] [8], .put [2] [9]]),
    .reopen ⟨0, false⟩ 2 0 ⟨0, 0, []⟩ [], .reopen ⟨0, false⟩ 8 0 ⟨0, 0, []⟩ []]

/-- **LIVE AND DELETED**: after it a batch is accepted, and the key is both live and deleted. -/
theorem writeBatch_live_and_deleted :
    ∃ db, Run Database.Step (fun _ _ => True) Database.empty twiceOpened db ∧
      ∃ results after, db.engine.writeBatch [.put [3] [5]] = .ok (results, after) ∧
        after.treeGet [1] = .ok (some [8]) ∧ after.treeGet (tombstoneKey [1]) = .ok (some []) ∧
        after.treeGet [2] = .ok none := by
  refine exists_run_of Database.follow Database.follow_step (p := fun db =>
    (do
      let written ← db.engine.writeBatch [.put [3] [5]]
      let live ← written.2.treeGet [1]
      let deleted ← written.2.treeGet (tombstoneKey [1])
      let lost ← written.2.treeGet [2]
      return (live, deleted, lost)) = .ok (some [8], some [], none))
    (by decide +kernel) (fun db _ hfacts => ?_)
  obtain ⟨⟨results, after⟩, hwrite, hfacts⟩ := bind_eq_ok.mp hfacts
  obtain ⟨live, hlive, hfacts⟩ := bind_eq_ok.mp hfacts
  obtain ⟨deleted, hdeleted, hfacts⟩ := bind_eq_ok.mp hfacts
  obtain ⟨lost, hlost, hfacts⟩ := bind_eq_ok.mp hfacts
  cases hfacts
  exact ⟨results, after, hwrite, hlive, hdeleted, hlost⟩

end Vyrn
