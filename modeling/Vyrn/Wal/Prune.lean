import Vyrn.Wal.Log

/-!
# Pruning the log

`prune_wal` deletes archived segments of a database that is not open. The manifest covers a segment
when its successor begins no later than right behind the manifest's LSN, and opening passes such a
segment without a look at its records (**`openEngine_pruned`**).

The code takes segment 0 for covered before it has looked at any. The engine begins with segment 1,
but opening accepts a directory that begins with segment 0, and pruning then deletes records that
the manifest does not have (**`pruneWal_uncovered`**).
-/

namespace Vyrn

open List

namespace Wal

/-! ## The code -/

/-- The last segment that the manifest covers, by the headers of the successors. -/
def coveredThrough (manifestLsn : Nat) : Nat → Directory → Except Error Nat
  | covered, (id, _) :: (nextId, next) :: rest => do
    let successorFirstLsn ← readSegmentFirstLsn next
    if manifestLsn < successorFirstLsn - 1 then return covered
    coveredThrough manifestLsn id ((nextId, next) :: rest)
  | covered, _ => .ok covered

/-- How many segments are deleted, the lowest ids first; `archived` are the ids that the index of
    the archive has. -/
def pruneWal (manifest : TreeState) (archived : List Nat) (directory : Directory) (through : Nat) :
    Except Error Nat := do
  let segments ← listSegments directory
  match segments.getLast? with
  | none => return 0
  | some (highest, _) =>
    match segments.find? (fun segment => segment.1 ≤ through ∧ segment.1 ∉ archived) with
    | some (id, _) =>
      throw (.corruptBackup s!"segment {id} is not archived; pruning it would destroy the only copy of its LSN range")
    | none =>
      let covered ← coveredThrough manifest.lsn 0 segments
      let cutoff := min (min through (highest - 1)) covered
      return (segments.takeWhile (fun segment => segment.1 ≤ cutoff)).length

/-! ## What opening passes -/

section Dead

variable {recovered after : Recovered} {stop first cutoff last : Nat}
  {directory replayed : Directory}

/-- A segment that ends before what was recovered is only looked at. -/
theorem replaySegments_dead {segment next : Nat × Bytes} {rest : Directory}
    (hfirst : readSegmentFirstLsn next.2 = .ok first) (hdead : first - 1 ≤ recovered.state.lsn)
    (h : replaySegments (segment :: next :: rest) recovered = .ok (stop, replayed, after)) :
    ∃ later, replayed = segment :: later ∧
      replaySegments (next :: rest) recovered = .ok (stop, later, after) := by
  have hany : (some first).any (fun next => next - 1 ≤ recovered.state.lsn) = true := by
    simpa using hdead
  rw [replaySegments, hfirst, ok_bind] at h
  obtain ⟨result, hresult, h⟩ := bind_eq_ok.mp h
  simp only [replaySegment, hany, if_true] at hresult
  -- the other branches are errors
  split_ifs at hresult <;> cases hresult
  obtain ⟨⟨stop', later, after'⟩, hrest, h⟩ := bind_eq_ok.mp h
  cases h
  exact ⟨later, rfl, hrest⟩

theorem replaySegments_ne_nil (hsome : directory ≠ [])
    (h : replaySegments directory recovered = .ok (stop, replayed, after)) : replayed ≠ [] := by
  match directory with
  | [_] =>
    obtain ⟨_, _, h⟩ := bind_eq_ok.mp h
    cases h
    exact cons_ne_nil _ _
  | _ :: _ :: _ =>
    obtain ⟨_, _, h⟩ := bind_eq_ok.mp h
    obtain ⟨_, _, h⟩ := bind_eq_ok.mp h
    obtain ⟨_, _, h⟩ := bind_eq_ok.mp h
    cases h
    exact cons_ne_nil _ _

/-- Segments up to what the manifest covers may be missing: those behind them are replayed as
    before. -/
theorem replaySegments_drop {covered : Nat} (hcut : cutoff ≤ last) (n : Nat)
    (hgap : gapless (directory.map Prod.fst) = true) (hsome : directory ≠ [])
    (hbelow : ∀ segment ∈ directory.head?, covered < segment.1)
    (hcovered : coveredThrough recovered.state.lsn covered directory = .ok last)
    (hn : n ≤ (directory.takeWhile (fun segment => segment.1 ≤ cutoff)).length)
    (h : replaySegments directory recovered = .ok (stop, replayed, after)) :
    gapless ((directory.drop n).map Prod.fst) = true ∧ ∃ later, later ≠ [] ∧
      replayed = directory.take n ++ later ∧
      replaySegments (directory.drop n) recovered = .ok (stop, later, after) := by
  induction n generalizing directory covered replayed with
  | zero => exact ⟨hgap, replayed, replaySegments_ne_nil hsome h, rfl, h⟩
  | succ n ih =>
    obtain ⟨segment, directory, rfl⟩ := exists_cons_of_ne_nil hsome
    have hcovers : segment.1 ≤ cutoff := by
      by_contra hbeyond
      simp [hbeyond] at hn
    have hless := hbelow segment rfl
    cases directory with
    | nil =>
      -- the last segment has no successor that could cover it
      have hlast : covered = last := Except.ok.inj hcovered
      omega
    | cons next rest =>
      rw [coveredThrough] at hcovered
      obtain ⟨first, hfirst, hcovered⟩ := bind_eq_ok.mp hcovered
      split_ifs at hcovered with hbeyond
      · have hlast : covered = last := Except.ok.inj hcovered
        omega
      · obtain ⟨later, rfl, hlater⟩ := replaySegments_dead hfirst (by omega) h
        obtain ⟨_, hrest⟩ : next.1 = segment.1 + 1 ∧
            gapless ((next :: rest).map Prod.fst) = true := by
          simpa [gapless] using hgap
        rw [takeWhile_cons_of_pos (by simpa using hcovers), length_cons] at hn
        obtain ⟨hgap', later', hne, rfl, hreplay⟩ := ih hrest (cons_ne_nil _ _)
          (fun other hother => by cases hother; omega) hcovered (Nat.le_of_succ_le_succ hn) hlater
        exact ⟨hgap', later', hne, rfl, hreplay⟩

/-- The log opens alike without the segments that are covered. -/
theorem openLog_drop {manifest : TreeState} {opened : OpenedLog} {n : Nat} (hcut : cutoff ≤ last)
    (hsome : directory ≠ []) (hpositive : ∀ segment ∈ directory, 0 < segment.1)
    (hcovered : coveredThrough manifest.lsn 0 directory = .ok last)
    (hn : n ≤ (directory.takeWhile (fun segment => segment.1 ≤ cutoff)).length)
    (h : openLog manifest directory = .ok opened) :
    ∃ pruned, openLog manifest (directory.drop n) = .ok pruned ∧
      opened = { pruned with sealed := directory.take n ++ pruned.sealed } := by
  rw [openLog, listSegments] at h
  split_ifs at h with hgap
  swap
  · cases h
  · rw [ok_bind] at h
    obtain ⟨⟨stop, replayed, recovered⟩, hreplay, h⟩ := bind_eq_ok.mp h
    obtain ⟨hgap', later, hne, rfl, hlater⟩ := replaySegments_drop hcut n hgap hsome
      (fun segment hsegment => hpositive segment (mem_of_mem_head? hsegment)) hcovered hn
      hreplay
    obtain ⟨front, active, rfl⟩ := (eq_nil_or_concat later).resolve_left hne
    rw [openLog, listSegments, if_pos hgap', ok_bind, hlater, ok_bind]
    simp only [concat_eq_append, ← append_assoc, getLast?_concat, dropLast_concat] at h ⊢
    split_ifs at h ⊢
    · cases h
      exact ⟨_, rfl, rfl⟩
    · obtain ⟨first, hfirst, h⟩ := bind_eq_ok.mp h
      rw [hfirst, ok_bind]
      split_ifs at h ⊢ <;>
      · cases h
        exact ⟨_, rfl, rfl⟩

end Dead

/-- **PRUNE**: when no segment has the id 0, a database that opens still opens after any number of
    the deletions, with the same tree and the same recovered state, and the segments that are left. -/
theorem openEngine_pruned {manifest : TreeState} {archived : List Nat} {directory : Directory}
    {through deleted : Nat} {pages : Pages} {values : Bytes} {opened : OpenedLog} {tree : PageTree}
    (hpositive : ∀ segment ∈ directory, 0 < segment.1)
    (hopen : openEngine manifest directory pages values = .ok (opened, tree))
    (hprune : pruneWal manifest archived directory through = .ok deleted) :
    ∀ n ≤ deleted, ∃ pruned,
      openEngine manifest (directory.drop n) pages values = .ok (pruned, tree) ∧
      pruned.recovered = opened.recovered ∧
      opened.directory = directory.take n ++ pruned.directory := by
  intro n hn
  obtain ⟨log, hlog, hopen⟩ := bind_eq_ok.mp hopen
  obtain ⟨recoveredTree, htree, hopen⟩ := bind_eq_ok.mp hopen
  cases hopen
  rw [pruneWal, listSegments] at hprune
  split_ifs at hprune with hgap
  swap
  · cases hprune
  · rw [ok_bind] at hprune
    split at hprune
    · cases hprune
      obtain rfl : n = 0 := Nat.le_zero.mp hn
      exact ⟨opened, by rw [drop_zero, openEngine, hlog, ok_bind, htree]; rfl, rfl, rfl⟩
    · next highest _ hlast =>
        split at hprune
        · cases hprune
        · obtain ⟨last, hcovered, hprune⟩ := bind_eq_ok.mp hprune
          cases hprune
          have hsome : directory ≠ [] := by
            rintro rfl
            cases hlast
          obtain ⟨pruned, hpruned, rfl⟩ := openLog_drop (min_le_right _ _) hsome hpositive
            hcovered hn hlog
          refine ⟨pruned, ?_, rfl, ?_⟩
          · rw [openEngine, hpruned, ok_bind, htree]
            rfl
          · rw [OpenedLog.directory, OpenedLog.directory, append_assoc]

/-- A segment with one record, a delete that leaves an empty tree, and an empty successor. -/
def deletedOnce (id : Nat) : Directory :=
  files [⟨id, 1, [⟨1, [.delete [107]], 0, 0⟩], 0⟩, ⟨id + 1, 2, [], 0⟩]

/-- The manifest covers segment 1, and the delete is in both states. -/
theorem openEngine_pruned_checkpointed :
    ∃ opened pruned tree, openEngine ⟨0, 0, 1⟩ (deletedOnce 1) [.super] [] = .ok (opened, tree) ∧
      pruneWal ⟨0, 0, 1⟩ [1] (deletedOnce 1) 1 = .ok 1 ∧
      openEngine ⟨0, 0, 1⟩ ((deletedOnce 1).drop 1) [.super] [] = .ok (pruned, tree) ∧
      pruned.recovered = opened.recovered := by
  have hprune : pruneWal ⟨0, 0, 1⟩ [1] (deletedOnce 1) 1 = .ok 1 := by decide +kernel
  have hok : (openEngine ⟨0, 0, 1⟩ (deletedOnce 1) [.super] []).isOk = true := by decide +kernel
  cases hopen : openEngine ⟨0, 0, 1⟩ (deletedOnce 1) [.super] [] with
  | error =>
    rw [hopen] at hok
    cases hok
  | ok result =>
    obtain ⟨pruned, hpruned, hsame, -⟩ :=
      openEngine_pruned (by decide +kernel) hopen hprune 1 le_rfl
    exact ⟨result.1, pruned, result.2, rfl, hprune, hpruned, hsame⟩

/-- Nothing is covered, and segment 0 is deleted with the only record: the database opens without
    it. -/
theorem pruneWal_uncovered :
    pruneWal ⟨0, 0, 0⟩ [0] (deletedOnce 0) 0 = .ok 1 ∧
      ((openEngine ⟨0, 0, 0⟩ (deletedOnce 0) [.super] []).map
        (fun result => result.1.recovered.state.lsn)) = .ok 1 ∧
      ((openEngine ⟨0, 0, 0⟩ ((deletedOnce 0).drop 1) [.super] []).map
        (fun result => result.1.recovered.state.lsn)) = .ok 0 := by
  decide +kernel

end Wal

end Vyrn
