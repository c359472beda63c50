import Vyrn.Engine.Checkpoint
import Vyrn.PageTree.Changed

/-!
# The merged reads of a range — scans, changes and the greatest key

The point reads of the tree under the buffer are in `Overlay`. Those of a range have to make up for
what a buffered delete masks: a scan asks the tree for as many more rows as there are deletes in
the range, and the search for the greatest key steps its bound down past each masked key.

Main results: `mergedScan_ok`, `mergedLastKeyIn_ok`.
-/

namespace Vyrn

open SortedMap List

/-! ## The code -/

def mergedGetShared (tree : PageTree) (buffer : Option Overlay) (key : Bytes) :
    Except Error (Option Bytes) :=
  match buffered buffer key with
  | some entry => .ok entry.value
  | none => tree.getShared key

/-- `mergedScan` without copying values out. -/
def mergedScanShared (tree : PageTree) (buffer : Option Overlay) (range : ScanRange)
    (limit : Nat) : Except Error (Rows) :=
  mergedScan tree buffer range limit

def mergedChangedSince (tree : PageTree) (buffer : Option Overlay) (range : ScanRange)
    (revision : Nat) : Except Error Bool :=
  match buffer with
  | none => tree.changedSince range revision
  | some buffer => do
    let inRange ← buffer.range range
    if inRange.any (fun e => revision < e.2.revision) then return true
    tree.changedSince range revision

/-- Whether a buffered delete hides the tree's row of a key. -/
def Overlay.masks (buffer : Overlay) (key : Bytes) : Bool :=
  (buffer.get key).any (fun entry => entry.value.isNone)

/-- The tree's greatest key below `bound` that no buffered delete masks. A masked key is the next
    bound; there are no more rounds than deletes. -/
def lastUnmasked (tree : PageTree) (buffer : Overlay) (start : Bytes) :
    Nat → Option Bytes → Except Error (Option Bytes)
  | 0, _ => .error (.io "more masked keys than buffered deletes")
  | fuel + 1, bound => do
    match ← tree.lastKeyIn start bound with
    | none => return none
    | some key =>
      if buffer.masks key then lastUnmasked tree buffer start fuel (some key)
      else return some key

/-- The greater of two keys that may be missing. -/
def laterKey : Option Bytes → Option Bytes → Option Bytes
  | some a, some b => some (max a b)
  | a, b => a.or b

def mergedLastKeyIn (tree : PageTree) (buffer : Option Overlay) (start : Bytes)
    (stop : Option Bytes) : Except Error (Option Bytes) :=
  match buffer with
  | none => tree.lastKeyIn start stop
  | some buffer => do
    let inRange ← buffer.range ⟨some start, stop, none⟩
    let live := (inRange.reverse.find? (fun e => e.2.value.isSome)).map Prod.fst
    let fromTree ← lastUnmasked tree buffer start (buffer.entries.length + 1) stop
    return laterKey live fromTree

theorem Overlay.range_ok {range : ScanRange} (h : range.reversed = false) (buffer : Overlay) :
    buffer.range range = .ok (range.select buffer.entries) := by
  rw [Overlay.range, h]
  rfl

theorem mergedChangedSince_eq {range : ScanRange} (h : range.reversed = false) (tree : PageTree)
    (buffer : Option Overlay) (revision : Nat) :
    mergedChangedSince tree buffer range revision = if buffer.any (fun buffer =>
        range.changed (fun entry => revision < entry.revision) buffer.entries) then .ok true
      else tree.changedSince range revision := by
  cases buffer with
  | none => rfl
  | some =>
    rw [mergedChangedSince, Overlay.range_ok h, ok_bind, ScanRange.select, any_filter]
    rfl

theorem reversed_eq_false {range : ScanRange} :
    range.reversed = false ↔ ∀ start ∈ range.start, ∀ stop ∈ range.stop, start ≤ stop := by
  obtain ⟨start, stop, excluded⟩ := range
  cases start <;> cases stop <;> simp [ScanRange.reversed]

/-! ## Scans -/

section Scan

variable {ordered : Bool} {entry : BufferedEntry} {key : Bytes} {rows : Rows} {levels limit : Nat}
  {tree : PageTree} {range : ScanRange} {buffered : List (Bytes × BufferedEntry)}

/-- How many of the buffered states are deletes. -/
def deletesIn (buffered : List (Bytes × BufferedEntry)) : Nat :=
  (buffered.filter (fun e => e.2.value.isNone)).length

/-- The updates that buffered states stand for. -/
def updatesOf (buffered : List (Bytes × BufferedEntry)) : List (Bytes × Option Versioned) :=
  buffered.map (fun e => (e.1, e.2.row))

theorem mergeRows_nil (limit : Nat) (rows : Rows) :
    mergeRows limit [] rows = rows.take limit := by
  induction rows generalizing limit with
  | nil => cases limit <;> rw [mergeRows, take_nil]
  | cons row rows ih =>
    cases limit with
    | zero => rw [mergeRows, take_zero]
    | succ limit => rw [mergeRows, ih, take_succ_cons]

/-- The head of the buffer is not above the rows: it goes out if it is a write, and the tree's copy
    of its key is passed over either way. -/
theorem mergeRows_front (hle : ∀ row ∈ rows.head?, key ≤ row.1) :
    mergeRows (limit + 1) ((key, entry) :: buffered) rows =
      let rest := if rows.head?.any (fun row => row.1 = key) then rows.tail else rows
      match entry.row with
      | some kept => (key, kept) :: mergeRows limit buffered rest
      | none => mergeRows (limit + 1) buffered rest := by
  cases rows with
  | nil => rw [mergeRows]; rfl
  | cons row rows =>
    rw [mergeRows, if_pos (hle row rfl)]
    cases entry.row <;>
      simp only [head?_cons, Option.any_some, decide_eq_true_eq, tail_cons]

/-- What the merge of the rest of the buffer returns, with the head of the buffer before it. -/
theorem mergeRows_buffered {n : Nat} (habove : ∀ e ∈ buffered, key < e.1) (hs : Sorted rows)
    (hle : ∀ row ∈ rows.head?, key ≤ row.1) (hn : limit + deletesIn ((key, entry) :: buffered) ≤ n)
    (ih : ∀ {limit n : Nat} {rows : Rows}, Sorted rows →
      limit + deletesIn buffered ≤ n → mergeRows limit buffered (rows.take n)
        = (updateAll rows (updatesOf buffered)).take limit) :
    mergeRows (limit + 1) ((key, entry) :: buffered) (rows.take (n + 1))
      = (updateAll rows (updatesOf ((key, entry) :: buffered))).take (limit + 1) := by
  have hall : ∀ row ∈ rows, key ≤ row.1 := by
    cases rows with
    | nil => exact forall_mem_nil _
    | cons first rows =>
      intro row hrow
      rcases mem_cons.mp hrow with rfl | hrow
      · exact hle row rfl
      · exact (hle first rfl).trans ((sorted_cons.mp hs).1 row hrow).le
  have hhead : (rows.take (n + 1)).head? = rows.head? := by
    rw [head?_take, if_neg (Nat.succ_ne_zero n)]
  rw [mergeRows_front (by rw [hhead]; exact hle), hhead, updatesOf, map_cons, updateAll_cons,
    update_front hs hall]
  generalize hrest : (if rows.head?.any (fun row => row.1 = key) then rows.tail else rows) = rest
  -- what is left of the rows is long enough for what is left of the buffer
  obtain ⟨m, _, htake⟩ : ∃ m, n ≤ m ∧
      (if rows.head?.any (fun row => row.1 = key) then (rows.take (n + 1)).tail
        else rows.take (n + 1)) = rest.take m := by
    rw [← hrest]
    split_ifs
    · exact ⟨n, le_rfl, by cases rows <;> simp⟩
    · exact ⟨n + 1, Nat.le_succ n, rfl⟩
  have hsorted : Sorted rest := by
    rw [← hrest]
    split_ifs
    · exact Pairwise.sublist (tail_sublist _) hs
    · exact hs
  rw [htake, updateAll_append_right]
  · obtain ⟨value, revision⟩ := entry
    cases value with
    | none =>
      have hn : limit + (deletesIn buffered + 1) ≤ n := hn
      exact ih hsorted (by omega)
    | some kept =>
      have hn : limit + deletesIn buffered ≤ n := hn
      show _ = (key, Versioned.mk kept revision) :: take limit _
      exact congrArg _ (ih hsorted (by omega))
  · intro u hu e he
    obtain ⟨b, hmem, rfl⟩ := mem_map.mp hu
    rw [Option.mem_toList] at he
    obtain ⟨_, _, rfl⟩ := Option.map_eq_some_iff.mp he
    exact habove b hmem

/-- **ENOUGH ROWS**: the merge returns the first rows of the merged map when it has the tree's first
    `limit` rows and one more for each delete, which masks at most one. -/
theorem mergeRows_eq {n : Nat} (hb : Sorted buffered) (hs : Sorted rows)
    (hn : limit + deletesIn buffered ≤ n) :
    mergeRows limit buffered (rows.take n) = (updateAll rows (updatesOf buffered)).take limit := by
  induction buffered generalizing limit n rows with
  | nil =>
    rw [mergeRows_nil, take_take, min_eq_left (by omega)]
    rfl
  | cons head buffered ihb =>
    obtain ⟨key, entry⟩ := head
    obtain ⟨habove, hb'⟩ := sorted_cons.mp hb
    -- the rows below the buffer's head go out one by one
    induction rows generalizing limit n with
    | nil =>
      cases limit with
      | zero => rw [mergeRows, take_zero]
      | succ limit =>
        obtain ⟨n, rfl⟩ : ∃ k, n = k + 1 := ⟨n - 1, by omega⟩
        exact mergeRows_buffered habove hs (by rintro _ ⟨⟩) (by omega) (ihb hb')
    | cons row rows ihr =>
      cases limit with
      | zero => rw [mergeRows, take_zero]
      | succ limit =>
        obtain ⟨n, rfl⟩ : ∃ k, n = k + 1 := ⟨n - 1, by omega⟩
        by_cases hle : key ≤ row.1
        · exact mergeRows_buffered habove hs (by rintro _ ⟨⟩; exact hle) (by omega) (ihb hb')
        · have hbelow : ∀ u ∈ updatesOf ((key, entry) :: buffered), ∀ e ∈ [row],
              e.1 < u.1 := by
            intro u hu e he
            obtain ⟨b, hmem, rfl⟩ := mem_map.mp hu
            rw [mem_singleton.mp he]
            rcases mem_cons.mp hmem with rfl | hmem
            · exact not_le.mp hle
            · exact (not_le.mp hle).trans (habove b hmem)
          rw [take_succ_cons, mergeRows, if_neg hle,
            show row :: rows = [row] ++ rows from rfl, updateAll_append_right hbelow,
            singleton_append, take_succ_cons, ihr (sorted_cons.mp hs).2 (by omega)]

theorem select_updateAll (range : ScanRange) {us : List (Bytes × Option Versioned)}
    (hs : Sorted rows) :
    range.select (updateAll rows us) = updateAll (range.select rows) (range.select us) := by
  induction us generalizing rows with
  | nil => rfl
  | cons u us ih =>
    rw [updateAll_cons, ih (hs.update u)]
    have hstep : range.select (update rows u)
        = if range.admits u.1 then update (range.select rows) u else range.select rows :=
      filter_update hs range.admits u
    cases hadmits : range.admits u.1 with
    | true =>
      rw [hstep, if_pos hadmits, ScanRange.select_cons_pos hadmits, updateAll_cons]
    | false =>
      rw [hstep, if_neg (by rw [hadmits]; exact Bool.false_ne_true),
        ScanRange.select_cons_neg hadmits]

/-- A range with room between its bounds. -/
def ScanRange.Spans (range : ScanRange) : Prop :=
  ∀ start ∈ range.start, ∀ stop ∈ range.stop, start < stop

/-- Among children that all fail, a scan looks into the one that holds its start. -/
theorem scanChildren_deep {α : Type} {descend : Nat → Nat → Except Error (List α)} {pages : Pages}
    {id : Nat} (hspans : range.Spans) {room : Nat} (hroom : 0 < room) {cells : List InternalCell}
    {offset child : Nat} {childMin : Option Bytes}
    (hfails : ∀ c ∈ child :: cells.map InternalCell.child, ∃ error, descend room c = .error error)
    (hmin : ∀ min ∈ childMin, ∃ start ∈ range.start, min ≤ start) :
    ∃ error, scanChildren descend pages id range room offset child childMin cells
      = .error error := by
  have hpast : ∀ {childMin : Option Bytes}, (∀ min ∈ childMin, ∃ start ∈ range.start, min ≤ start) →
      pastEnd range childMin = false := by
    intro childMin hmin
    rw [pastEnd, Bool.eq_false_iff]
    intro hany
    obtain ⟨stop, hstop, hany⟩ := (Option.any_eq_true _ _).mp hany
    obtain ⟨min, hchild, hle⟩ := (Option.any_eq_true _ _).mp hany
    obtain ⟨start, hstart, hle'⟩ := hmin min hchild
    exact absurd ((of_decide_eq_true hle).trans hle') (not_le.mpr (hspans start hstart stop hstop))
  induction cells generalizing offset child childMin with
  | nil =>
    rw [scanChildren, hpast hmin, scanChild, if_neg Bool.false_ne_true]
    exact hfails child mem_cons_self
  | cons cell cells ih =>
    rw [forall_mem_cons] at hfails
    rw [scanChildren]
    refine bind_error (fun _ _ => ?_)
    by_cases hkey : cell.key.len = 0 ∨ maxStoredKeySize < cell.key.len
    · rw [if_pos hkey]
      exact ⟨_, rfl⟩
    by_cases hself : cell.child = id
    · rw [if_neg hkey, if_pos hself]
      exact ⟨_, rfl⟩
    rw [if_neg hkey, if_neg hself]
    refine bind_error (fun decoded _ => ?_)
    obtain ⟨separator, next⟩ := decoded
    dsimp only
    rw [hpast hmin, Bool.or_false]
    cases hskip : range.start.any (fun start => separator ≤ start) with
    | false =>
      rw [scanChild, if_neg Bool.false_ne_true]
      exact bind_fails _ hfails.1
    | true =>
      rw [scanChild, if_pos rfl, ok_bind, length_nil, if_neg (not_le.mpr hroom), Nat.sub_zero]
      refine bind_fails _ (ih hfails.2 ?_)
      rintro _ ⟨⟩
      obtain ⟨start, hstart, hle⟩ := (Option.any_eq_true _ _).mp hskip
      exact ⟨start, hstart, of_decide_eq_true hle⟩

section

variable (ht : Denotes ordered tree levels rows)
include ht

/-- **TOO DEEP**: below the depth bound no scan of a range with room in it succeeds. -/
theorem scan_deep (hd : maxTreeDepth < levels) (hspans : range.Spans) (hlimit : 0 < limit) :
    ∃ error, tree.scanSharedWithRevisions range limit = .error error := by
  obtain ⟨hroot, h, entries, hle, hnode⟩ := ht.deep hd
  rw [PageTree.scanSharedWithRevisions, PageTree.scanWith, if_pos ⟨hroot, hlimit.ne'⟩]
  refine @everyChild_deep ordered tree.pages entries _ h _ Rows Nat
    (fun fuel id room => scanNode (fillRows tree.values) tree.pages range fuel room id)
    (fun room => 0 < room) (fun id room => ⟨_, rfl⟩) ?_ hnode hle limit hlimit
  intro fuel id slots first cells hp hchild room hroom
  show ∃ error, scanNode (fillRows tree.values) tree.pages range (fuel + 1) room id = .error error
  rw [scanNode, if_neg hroom.ne', readPage_ok.mpr hp, ok_bind]
  dsimp only
  split_ifs
  · exact ⟨_, rfl⟩
  · exact ⟨_, rfl⟩
  · exact scanChildren_deep hspans hroom (fun c hc => hchild c hc room hroom) (by rintro _ ⟨⟩)

theorem mergedScan_within {found : Rows} {buffer : Option Overlay} (hspans : range.Spans)
    (hlimit : 0 < limit) (hrun : mergedScan tree buffer range limit = .ok found)
    (hmax : limit ≤ usizeMax) : levels ≤ maxTreeDepth := by
  by_contra hdeep
  rw [mergedScan] at hrun
  cases hbuf : buffer.filter (fun buffer => !buffer.isEmpty) with
  | none =>
    rw [hbuf] at hrun
    obtain ⟨error, herr⟩ := scan_deep ht (not_le.mp hdeep) hspans hlimit
    cases herr.symm.trans hrun
  | some =>
    rw [hbuf] at hrun
    dsimp only at hrun
    rw [if_neg hlimit.ne'] at hrun
    obtain ⟨_, _, hrun⟩ := bind_eq_ok.mp hrun
    obtain ⟨found, hscan, _⟩ := bind_eq_ok.mp hrun
    obtain ⟨error, herr⟩ := scan_deep ht (not_le.mp hdeep) hspans
      (lt_min (Nat.add_pos_left hlimit _) (hlimit.trans_le hmax))
    cases herr.symm.trans hscan

/-- **SCAN**: a merged scan returns the first rows of the merged map. -/
theorem mergedScan_ok {buffer : Option Overlay} (hd : levels ≤ maxTreeDepth)
    (hb : ∀ b, buffer = some b → b.WellFormed) (hlen : tree.len ≤ usizeMax)
    (hrange : range.reversed = false) (limit : Nat) :
    mergedScan tree buffer range limit
      = .ok ((range.select (overlaid rows buffer)).take limit) := by
  have hplain : tree.scanSharedWithRevisions range limit = .ok ((range.select rows).take limit) :=
    (scan_denotes ht hd range limit).1
  rw [mergedScan]
  cases hbuf : buffer with
  | none => exact hplain
  | some b =>
    rw [Option.filter_some]
    cases hempty : b.isEmpty with
    | true =>
      rw [overlaid_of_empty (fun _ hb => Option.some.inj hb ▸ isEmpty_iff.mp hempty)]
      exact hplain
    | false =>
      rw [Bool.not_false, if_pos rfl]
      dsimp only
      split_ifs with hzero
      · rw [hzero, take_zero]
      · rw [Overlay.range_ok hrange, ok_bind, (scan_denotes ht hd range _).1, ok_bind]
        -- a tree has no more rows than its length says, so that the bound never cuts
        have hall : (range.select rows).take
            (min (limit + deletesIn (range.select b.entries)) usizeMax)
            = (range.select rows).take (limit + deletesIn (range.select b.entries)) := by
          have hle : (range.select rows).length ≤ usizeMax :=
            (length_filter_le _ _).trans (ht.len ▸ hlen)
          rw [← take_take, take_of_length_le hle]
        rw [show ((range.select b.entries).filter (fun e => e.2.value.isNone)).length
          = deletesIn (range.select b.entries) from rfl, hall,
          @mergeRows_eq (range.select rows) limit (range.select b.entries) _
            (Sorted.filter (hb b hbuf) _) (ht.sorted.filter _) le_rfl, overlaid,
          Option.map_some, Option.getD_some, select_updateAll range ht.sorted]
        simp only [ScanRange.select, updatesOf, Overlay.updates, filter_map]
        rfl

end

end Scan

/-! ## The greatest key -/

section LastKey

variable {start : Bytes} {stop : Option Bytes} {key : Bytes} {V : Type} {m : List (Bytes × V)}

/-- `key` is the greatest key in bounds that a map has. -/
def IsLast {V : Type} (start : Bytes) (stop : Option Bytes) (m : List (Bytes × V))
    (key : Bytes) : Prop :=
  (∃ e ∈ m, e.1 = key) ∧ inBounds start stop key = true ∧
    ∀ e ∈ m, inBounds start stop e.1 = true → e.1 ≤ key

theorem lastInBounds_isLast (hs : Sorted m) (h : lastInBounds start stop m = some key) :
    IsLast start stop m key := by
  obtain ⟨e, hlast, rfl⟩ := Option.map_eq_some_iff.mp h
  obtain ⟨front, hsplit⟩ := getLast?_eq_some_iff.mp hlast
  have hmem : ∀ x, x ∈ m ∧ inBounds start stop x.1 = true ↔ x ∈ front ++ [e] := by
    intro x
    rw [← hsplit, mem_filter]
  obtain ⟨he, hbounds⟩ := (hmem e).mpr (mem_append_right _ mem_cons_self)
  refine ⟨⟨e, he, rfl⟩, hbounds, fun x hx hxb => ?_⟩
  have hsorted : Sorted (front ++ [e]) := hsplit ▸ hs.filter _
  rcases mem_append.mp ((hmem x).mp ⟨hx, hxb⟩) with hfront | hend
  · exact ((sorted_append.mp hsorted).2.2 x hfront e mem_cons_self).le
  · rw [mem_singleton.mp hend]

theorem lastInBounds_none (h : lastInBounds start stop m = none) :
    ∀ e ∈ m, inBounds start stop e.1 = false := by
  intro e he
  rw [lastInBounds, Option.map_eq_none_iff, getLast?_eq_none_iff, filter_eq_nil_iff] at h
  exact Bool.eq_false_iff.mpr (h e he)

theorem lastInBounds_of_isLast (hs : Sorted m) (h : IsLast start stop m key) :
    lastInBounds start stop m = some key := by
  obtain ⟨⟨e, he, rfl⟩, hbounds, hmax⟩ := h
  cases hlast : lastInBounds start stop m with
  | none => cases (lastInBounds_none hlast e he).symm.trans hbounds
  | some =>
    obtain ⟨⟨e', he', rfl⟩, hbounds', hmax'⟩ := lastInBounds_isLast hs hlast
    exact congrArg some (le_antisymm (hmax e' he' hbounds') (hmax' e he hbounds))

/-- The greatest key of a map that has the keys of two others is the later of theirs. -/
theorem laterKey_lastInBounds {U W : Type} {a : List (Bytes × U)} {b : List (Bytes × V)}
    {c : List (Bytes × W)} (ha : Sorted a) (hb : Sorted b) (hc : Sorted c)
    (hkeys : ∀ key, (∃ e ∈ c, e.1 = key) ↔ (∃ e ∈ a, e.1 = key) ∨ ∃ e ∈ b, e.1 = key) :
    laterKey (lastInBounds start stop a) (lastInBounds start stop b)
      = lastInBounds start stop c := by
  have hlast : ∀ {key : Bytes}, ((∃ e ∈ a, e.1 = key) ∨ ∃ e ∈ b, e.1 = key) →
      inBounds start stop key = true →
      (∀ e ∈ a, inBounds start stop e.1 = true → e.1 ≤ key) →
      (∀ e ∈ b, inBounds start stop e.1 = true → e.1 ≤ key) →
      some key = lastInBounds start stop c := by
    intro key hmem hbounds hmaxa hmaxb
    refine (lastInBounds_of_isLast hc ⟨(hkeys key).mpr hmem, hbounds, fun e he heb => ?_⟩).symm
    rcases (hkeys e.1).mp ⟨e, he, rfl⟩ with ⟨x, hx, hxe⟩ | ⟨x, hx, hxe⟩
    · rw [← hxe] at heb ⊢
      exact hmaxa x hx heb
    · rw [← hxe] at heb ⊢
      exact hmaxb x hx heb
  have hno : ∀ {V : Type} {m : List (Bytes × V)}, lastInBounds start stop m = none →
      ∀ key, ∀ e ∈ m, inBounds start stop e.1 = true → e.1 ≤ key := fun hnone _ e he heb =>
    nomatch (lastInBounds_none hnone e he).symm.trans heb
  cases hla : lastInBounds start stop a with
  | none =>
    cases hlb : lastInBounds start stop b with
    | none =>
      refine (lastInBounds_eq_none (fun e he => ?_)).symm
      rcases (hkeys e.1).mp ⟨e, he, rfl⟩ with ⟨x, hx, hxe⟩ | ⟨x, hx, hxe⟩
      · rw [← hxe, lastInBounds_none hla x hx]
      · rw [← hxe, lastInBounds_none hlb x hx]
    | some key =>
      obtain ⟨hmem, hbounds, hmax⟩ := lastInBounds_isLast hb hlb
      exact hlast (.inr hmem) hbounds (hno hla key) hmax
  | some left =>
    obtain ⟨hmem, hbounds, hmax⟩ := lastInBounds_isLast ha hla
    cases hlb : lastInBounds start stop b with
    | none => exact hlast (.inl hmem) hbounds hmax (hno hlb left)
    | some right =>
      obtain ⟨hmem', hbounds', hmax'⟩ := lastInBounds_isLast hb hlb
      rw [laterKey]
      rcases le_total left right with hle | hle
      · rw [max_eq_right hle]
        exact hlast (.inr hmem') hbounds' (fun e he heb => (hmax e he heb).trans hle) hmax'
      · rw [max_eq_left hle]
        exact hlast (.inl hmem) hbounds hmax (fun e he heb => (hmax' e he heb).trans hle)

variable {ordered : Bool} {tree : PageTree} {levels : Nat} {rows : Rows} {buffer : Overlay}
  {bound : Option Bytes}

/-- The buffered deletes in bounds. -/
def Overlay.deletesBelow (buffer : Overlay) (start : Bytes) (bound : Option Bytes) : Nat :=
  (buffer.entries.filter (fun e => inBounds start bound e.1 && e.2.value.isNone)).length

theorem inBounds_mono {other : Bytes} (hkey : inBounds start bound key = true)
    (h : inBounds start (some key) other = true) : inBounds start bound other = true := by
  rw [inBounds, Bool.and_eq_true] at hkey h ⊢
  have hlt : other < key := of_decide_eq_true h.2
  cases bound with
  | none => exact ⟨h.1, rfl⟩
  | some => exact ⟨h.1, decide_eq_true (hlt.trans (of_decide_eq_true hkey.2))⟩

/-- A masked key is one delete less. -/
theorem deletesBelow_lt (hwf : buffer.WellFormed) (hkey : inBounds start bound key = true)
    (hmasks : buffer.masks key = true) :
    buffer.deletesBelow start (some key) < buffer.deletesBelow start bound := by
  have hsub : Sublist
      (buffer.entries.filter (fun e => inBounds start (some key) e.1 && e.2.value.isNone))
      (buffer.entries.filter (fun e => inBounds start bound e.1 && e.2.value.isNone)) := by
    refine monotone_filter_right _ (fun e he => ?_)
    rw [Bool.and_eq_true] at he ⊢
    exact ⟨inBounds_mono hkey he.1, he.2⟩
  refine lt_of_le_of_ne hsub.length_le (fun hlen => ?_)
  obtain ⟨entry, hget, hnone⟩ := (Option.any_eq_true _ _).mp hmasks
  have hin : (key, entry) ∈ buffer.entries.filter
      (fun e => inBounds start bound e.1 && e.2.value.isNone) :=
    mem_filter.mpr ⟨(lookup_eq_some hwf).mp hget, Bool.and_eq_true_iff.mpr ⟨hkey, hnone⟩⟩
  rw [← hsub.eq_of_length hlen] at hin
  have hself : inBounds start (some key) key = true :=
    (Bool.and_eq_true_iff.mp (mem_filter.mp hin).2).1
  simp [inBounds] at hself

/-- **STEPPING DOWN**: the loop ends, at the tree's greatest key that no delete masks. -/
theorem lastUnmasked_ok (ht : Denotes ordered tree levels rows) (hd : levels ≤ maxTreeDepth)
    (hwf : buffer.WellFormed) {fuel : Nat} (hfuel : buffer.deletesBelow start bound < fuel) :
    lastUnmasked tree buffer start fuel bound
      = .ok (lastInBounds start bound (rows.filter (fun row => !buffer.masks row.1))) := by
  induction fuel generalizing bound with
  | zero => exact absurd hfuel (Nat.not_lt_zero _)
  | succ fuel ih =>
    rw [lastUnmasked, lastKeyIn_denotes ht hd, ok_bind]
    cases hlast : lastInBounds start bound rows with
    | none =>
      refine congrArg Except.ok (lastInBounds_eq_none (fun e he => ?_)).symm
      exact lastInBounds_none hlast e (mem_of_mem_filter he)
    | some key =>
      obtain ⟨⟨e, he, rfl⟩, hbounds, hmax⟩ := lastInBounds_isLast ht.sorted hlast
      dsimp only
      split_ifs with hmasks
      · rw [ih (by have := deletesBelow_lt hwf hbounds hmasks; omega)]
        -- between the masked key and the bound there is no other row
        refine congrArg (fun m : Rows => Except.ok (m.getLast?.map Prod.fst))
          (filter_congr (fun row hrow => ?_))
        obtain ⟨hmem, hunmasked⟩ := mem_filter.mp hrow
        rw [Bool.eq_iff_iff]
        refine ⟨inBounds_mono hbounds, fun hrowb => ?_⟩
        have hne : row.1 ≠ e.1 := by
          intro heq
          rw [heq, hmasks] at hunmasked
          cases hunmasked
        have hlt : row.1 < e.1 := lt_of_le_of_ne (hmax row hmem hrowb) hne
        rw [inBounds, Bool.and_eq_true] at hrowb ⊢
        exact ⟨hrowb.1, decide_eq_true hlt⟩
      · refine congrArg Except.ok (lastInBounds_of_isLast (ht.sorted.filter _)
          ⟨⟨e, mem_filter.mpr ⟨he, ?_⟩, rfl⟩, hbounds, fun row hrow =>
            hmax row (mem_of_mem_filter hrow)⟩).symm
        rw [Bool.eq_false_iff.mpr hmasks]
        rfl

/-- The live buffered keys and the unmasked ones of the tree are the keys of the merged map. -/
theorem mem_overlaid_iff (hwf : buffer.WellFormed) (key : Bytes) :
    (∃ e ∈ overlaid rows (some buffer), e.1 = key) ↔
      (∃ e ∈ buffer.entries.filter (fun e => e.2.value.isSome), e.1 = key) ∨
        ∃ e ∈ rows.filter (fun row => !buffer.masks row.1), e.1 = key := by
  have hlive : (∃ e ∈ buffer.entries.filter (fun e => e.2.value.isSome), e.1 = key) ↔
      ∃ entry, buffer.get key = some entry ∧ entry.value.isSome = true := by
    constructor
    · rintro ⟨⟨_, entry⟩, he, rfl⟩
      obtain ⟨hmem, hsome⟩ := mem_filter.mp he
      exact ⟨entry, (lookup_eq_some hwf).mpr hmem, hsome⟩
    · rintro ⟨entry, hget, hsome⟩
      exact ⟨(key, entry), mem_filter.mpr ⟨(lookup_eq_some hwf).mp hget, hsome⟩, rfl⟩
  have hunmasked : (∃ e ∈ rows.filter (fun row => !buffer.masks row.1), e.1 = key) ↔
      (lookup key rows).isSome = true ∧ buffer.masks key = false := by
    rw [lookup_isSome]
    constructor
    · rintro ⟨e, he, rfl⟩
      obtain ⟨hmem, hmasks⟩ := mem_filter.mp he
      exact ⟨⟨e, hmem, rfl⟩, by simpa using hmasks⟩
    · rintro ⟨⟨e, hmem, rfl⟩, hmasks⟩
      exact ⟨e, mem_filter.mpr ⟨hmem, by rw [hmasks]; rfl⟩, rfl⟩
  rw [hlive, hunmasked, ← lookup_isSome,
    lookup_overlaid (by rintro _ ⟨⟩; exact hwf), buffered, Option.bind_some, Overlay.masks]
  cases hget : buffer.get key with
  | none => simp
  | some entry =>
    obtain ⟨value, revision⟩ := entry
    cases value <;> simp [BufferedEntry.row]

/-- **LAST KEY**: the greatest key of the merged map in range. -/
theorem mergedLastKeyIn_ok {buffer : Option Overlay} (ht : Denotes ordered tree levels rows)
    (hd : levels ≤ maxTreeDepth) (hb : ∀ b, buffer = some b → b.WellFormed)
    (hrange : ∀ s ∈ stop, start ≤ s) :
    mergedLastKeyIn tree buffer start stop
      = .ok (lastInBounds start stop (overlaid rows buffer)) := by
  cases hbuf : buffer with
  | none => exact lastKeyIn_denotes ht hd
  | some b =>
    have hwf := hb b hbuf
    have hselect : ScanRange.select ⟨some start, stop, none⟩ b.entries
        = b.entries.filter (fun e => inBounds start stop e.1) := by
      simp [ScanRange.select, ScanRange.admits, inBounds]
    have hlive : ((b.entries.filter (fun e => inBounds start stop e.1)).reverse.find?
        (fun e => e.2.value.isSome)).map Prod.fst
        = lastInBounds start stop (b.entries.filter (fun e => e.2.value.isSome)) := by
      rw [← head?_filter, filter_reverse, head?_reverse, lastInBounds, filter_filter, filter_filter]
      simp only [Bool.and_comm]
    rw [mergedLastKeyIn, Overlay.range_ok (reversed_eq_false.mpr (by rintro _ ⟨⟩; exact hrange)),
      ok_bind, hselect, lastUnmasked_ok ht hd hwf, ok_bind, hlive,
      laterKey_lastInBounds (Sorted.filter hwf _) (ht.sorted.filter _)
        (overlaid_sorted ht.sorted _) (mem_overlaid_iff hwf)]
    · rfl
    · exact Nat.lt_succ_of_le (length_filter_le _ _)

end LastKey

/-! ## Shared values and changes -/

section Reads

variable {ordered : Bool} {tree : PageTree} {levels : Nat} {rows : Rows}
  {buffer : Option Overlay}

theorem mergedGetShared_ok (ht : Denotes ordered tree levels rows) (hd : levels ≤ maxTreeDepth)
    (hb : ∀ b, buffer = some b → b.WellFormed) (key : Bytes) :
    mergedGetShared tree buffer key
      = .ok ((lookup key (overlaid rows buffer)).map Versioned.value) := by
  rw [mergedGetShared, lookup_overlaid hb]
  cases buffered buffer key with
  | none => exact (getWithRevision_denotes ht hd key).2
  | some entry =>
    obtain ⟨value, revision⟩ := entry
    cases value with
    | none => rfl
    | some => rfl

end Reads

end Vyrn
