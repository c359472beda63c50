import Vyrn.PageTree.Refines
import Vyrn.PageTree.Read

/-!
# Range scans — the first rows of a range, without an excluded prefix

A scan walks the tree in key order and stops at its limit. Internal pages prune the children whose
keys all lie outside `[start, stop)`. A leaf with a slot directory turns the range into index bounds
and cuts the excluded prefix out of the middle; a version-4 leaf is walked cell by cell. There are
two collectors over one walk: `scanSharedWithRevisions` returns rows, `scanVisit` hands out a leaf's
rows until the first value that is in the log, and the others after a batch read.

Main results: `leafEntries_holds`, `scanNode_node`, `pageTree_reads_map`.
-/

namespace Vyrn

open SortedMap List ByteString

/-! ## The code -/

/-- `[start, stop)` without the keys that start with `excluded`. -/
structure ScanRange where
  start : Option Bytes
  stop : Option Bytes
  excluded : Option Bytes
  deriving DecidableEq, Repr

/-- The entry behind slot `index`. -/
def slotEntry (pages : Pages) (pageId : Nat) (cells : List LeafCell) (index : Nat) :
    Except Error Entry := do
  let cell ← slotCell cells pageId index
  if maxValueSize < cell.value.len then
    throw (.corruptPage pageId "invalid leaf cell metadata")
  let key ← slotKey pages pageId "invalid leaf cell metadata" cell.key
  return (key, cell.stored)

/-- The slot of a bound that may be missing. -/
def lowerBoundOr (pages : Pages) (pageId : Nat) (cells : List LeafCell) (missing : Nat) :
    Option Bytes → Except Error Nat
  | none => .ok missing
  | some target => leafLowerBound pages pageId cells target

def lastSlot (pages : Pages) (pageId : Nat) (cells : List LeafCell) (first : Nat) :
    Option Bytes → Except Error Nat
  | none => .ok cells.length
  | some stop => do
    let last ← leafLowerBound pages pageId cells stop
    return max last first

def clamp (n low high : Nat) : Nat := max low (min n high)

/-- The slots of the excluded prefix: from its own lower bound to its successor's. -/
def skippedSlots (pages : Pages) (pageId : Nat) (cells : List LeafCell) (first last : Nat) :
    Option Bytes → Except Error (Nat × Nat)
  | none => .ok (last, last)
  | some excluded => do
    let lo ← leafLowerBound pages pageId cells excluded
    let hi ← lowerBoundOr pages pageId cells cells.length (successor excluded)
    return (clamp lo first last, clamp hi first last)

/-- The slots of a leaf a scan should emit. -/
def leafEmitSegments (pages : Pages) (pageId : Nat) (cells : List LeafCell)
    (range : ScanRange) : Except Error (List Nat) := do
  let first ← lowerBoundOr pages pageId cells 0 range.start
  let last ← lastSlot pages pageId cells first range.stop
  let (skipFrom, skipTo) ← skippedSlots pages pageId cells first last range.excluded
  return List.range' first (skipFrom - first) ++ List.range' skipTo (last - skipTo)

/-- Emits slots until `room` runs out. -/
def emitSlots (pages : Pages) (pageId : Nat) (cells : List LeafCell) :
    Nat → List Nat → Except Error (List Entry)
  | 0, _ => .ok []
  | _ + 1, [] => .ok []
  | room + 1, index :: indexes => do
    let entry ← slotEntry pages pageId cells index
    let entries ← emitSlots pages pageId cells room indexes
    return entry :: entries

/-- Walks the cells of a version-4 leaf until `room` runs out or a key is past the range. -/
def emitWalk (pages : Pages) (pageId : Nat) (range : ScanRange) :
    Nat → Nat → List LeafCell → Except Error (List Entry)
  | 0, _, _ => .ok []
  | _ + 1, _, [] => .ok []
  | room + 1, offset, cell :: cells => do
    let (entry, offset) ← decodeLeafCell pages pageId offset cell
    if range.start.any (fun start => entry.1 < start) then
      emitWalk pages pageId range (room + 1) offset cells
    else if range.stop.any (fun stop => stop ≤ entry.1) then return []
    else if range.excluded.any (fun excluded => excluded.isPrefixOf entry.1) then
      emitWalk pages pageId range (room + 1) offset cells
    else do
      let entries ← emitWalk pages pageId range room offset cells
      return entry :: entries

/-- The entries a leaf emits, their values not yet read. -/
def leafEntries (pages : Pages) (pageId : Nat) (slots : Bool) (cells : List LeafCell)
    (range : ScanRange) (room : Nat) : Except Error (List Entry) :=
  if maxLeafEntries < cells.length then
    .error (.corruptPage pageId ("leaf claims " ++ toString cells.length ++
      " entries but a page holds at most " ++ toString maxLeafEntries))
  else if slots then do
    let indexes ← leafEmitSegments pages pageId cells range
    emitSlots pages pageId cells room indexes
  else emitWalk pages pageId range room headerSize cells

def externalRef (entry : Entry) : Option ValueRef :=
  match entry.2.value with
  | .inline _ => none
  | .external reference => some reference

/-- Puts the batch's values into the places that wait for them. -/
def placeValues : List Entry → List Bytes → Rows
  | [], _ => []
  | (key, ⟨.inline value, revision⟩) :: entries, values =>
    (key, ⟨value, revision⟩) :: placeValues entries values
  | (key, ⟨.external _, revision⟩) :: entries, [] =>
    (key, ⟨[], revision⟩) :: placeValues entries []
  | (key, ⟨.external _, revision⟩) :: entries, value :: values =>
    (key, ⟨value, revision⟩) :: placeValues entries values

/-- A leaf's rows, with one batch read of the values in the log. -/
def fillRows (values : Bytes) (entries : List Entry) :
    Except Error (Rows) := do
  let pending := entries.filterMap externalRef
  if pending = [] then return placeValues entries []
  let resolved ← ValueLog.readMany values pending
  return placeValues entries resolved

/-- The rows a visitor sees: at once up to the first value in the log, the rest after the
    batch read. -/
def visitRows (values : Bytes) (entries : List Entry) : Except Error (List (Bytes × Bytes)) := do
  let eager := entries.takeWhile (fun entry => (externalRef entry).isNone)
  let deferred := entries.dropWhile (fun entry => (externalRef entry).isNone)
  let rows ← fillRows values deferred
  return (placeValues eager [] ++ rows).map (fun row => (row.1, row.2.value))

/-- Whether a child starts at or past the range's end. Child 0 has no minimum. -/
def pastEnd (range : ScanRange) (childMin : Option Bytes) : Bool :=
  range.stop.any (fun stop => childMin.any (fun min => stop ≤ min))

def scanChild {α : Type} (descend : Nat → Nat → Except Error (List α)) (skip : Bool)
    (room child : Nat) : Except Error (List α) :=
  if skip then .ok [] else descend room child

/-- Walks an internal page's children in key order until `room` runs out. -/
def scanChildren {α : Type} (descend : Nat → Nat → Except Error (List α)) (pages : Pages)
    (pageId : Nat) (range : ScanRange) :
    Nat → Nat → Nat → Option Bytes → List InternalCell → Except Error (List α)
  | room, _, child, childMin, [] => scanChild descend (pastEnd range childMin) room child
  | room, offset, child, childMin, cell :: cells => do
    requirePage offset internalCellHeader pageId
    if cell.key.len = 0 ∨ maxStoredKeySize < cell.key.len then
      throw (.corruptPage pageId "invalid internal cell metadata")
    if cell.child = pageId then
      throw (.corruptPage pageId "internal page names itself as its own child")
    let (separator, offset) ← decodeKey pages pageId (offset + internalCellHeader) cell.key
    let skip := range.start.any (fun start => separator ≤ start) || pastEnd range childMin
    let rows ← scanChild descend skip room child
    if room ≤ rows.length then return rows
    let more ← scanChildren descend pages pageId range (room - rows.length) offset cell.child
      (some separator) cells
    return rows ++ more

/-- The walk under both scans; `finish` reads a leaf's values and makes its rows. -/
def scanNode {α : Type} (finish : List Entry → Except Error (List α)) (pages : Pages)
    (range : ScanRange) : Nat → Nat → Nat → Except Error (List α)
  | 0, _, pageId => .error (excessiveDepth pageId)
  | fuel + 1, room, pageId =>
    if room = 0 then .ok []
    else do
      match ← readPage pages pageId with
      | .leaf slots cells => do
        let entries ← leafEntries pages pageId slots cells range room
        finish entries
      | .internal _ first cells =>
        if maxInternalChildren ≤ cells.length then
          throw (.corruptPage pageId ("internal page claims " ++ toString (cells.length + 1) ++
            " children but a page holds at most " ++ toString maxInternalChildren))
        else if first = pageId then
          throw (.corruptPage pageId "internal page names itself as its own child")
        else
          scanChildren (scanNode finish pages range fuel) pages pageId range room headerSize
            first none cells
      | page => throw (unexpectedType pageId page)

def PageTree.scanWith {α : Type} (tree : PageTree)
    (finish : List Entry → Except Error (List α)) (range : ScanRange) (limit : Nat) :
    Except Error (List α) :=
  if tree.root ≠ 0 ∧ limit ≠ 0 then
    scanNode finish tree.pages range maxTreeDepth limit tree.root
  else .ok []

/-- The first `limit` rows of a range. -/
def PageTree.scanSharedWithRevisions (tree : PageTree) (range : ScanRange) (limit : Nat) :
    Except Error (Rows) :=
  tree.scanWith (fillRows tree.values) range limit

/-- The rows a visitor is handed, in order. -/
def PageTree.scanVisit (tree : PageTree) (range : ScanRange) (limit : Nat) :
    Except Error (List (Bytes × Bytes)) :=
  tree.scanWith (visitRows tree.values) range limit

/-! ## Leaves -/

/-- Whether a scan of `range` emits `key`. -/
def ScanRange.admits (range : ScanRange) (key : Bytes) : Bool :=
  range.start.all (fun start => start ≤ key) && range.stop.all (fun stop => key < stop) &&
    !range.excluded.any (fun excluded => excluded.isPrefixOf key)

/-- The rows of a map that a scan of `range` emits. -/
def ScanRange.select {V : Type} (range : ScanRange) (m : List (Bytes × V)) :
    List (Bytes × V) :=
  m.filter (fun e => range.admits e.1)

variable {entries : List Entry} {range : ScanRange} {V : Type} {m : List (Bytes × V)}
  {tree : PageTree} {levels : Nat} {e : Bytes × V} {rows : Rows}

theorem ScanRange.select_cons_pos (h : range.admits e.1 = true) :
    range.select (e :: m) = e :: range.select m :=
  filter_cons_of_pos (p := fun e : Bytes × V => range.admits e.1) h

theorem ScanRange.select_cons_neg (h : range.admits e.1 = false) :
    range.select (e :: m) = range.select m :=
  filter_cons_of_neg (p := fun e : Bytes × V => range.admits e.1) (by simp [h])

theorem ScanRange.select_append (range : ScanRange) (m n : List (Bytes × V)) :
    range.select (m ++ n) = range.select m ++ range.select n :=
  filter_append m n

theorem ScanRange.select_eq_nil (h : ∀ e ∈ m, range.admits e.1 = false) : range.select m = [] :=
  filter_eq_nil_iff.mpr (fun e he => by simp [h e he])

/-- A key at or past the end is not admitted. -/
theorem ScanRange.admits_of_stop_le {key stop : Bytes} (hr : range.stop = some stop)
    (h : stop ≤ key) : range.admits key = false := by
  simp [ScanRange.admits, hr, h]

/-- Nor is a key below the start. -/
theorem ScanRange.admits_of_lt_start {key start : Bytes} (hr : range.start = some start)
    (h : key < start) : range.admits key = false := by
  simp [ScanRange.admits, hr, h]

section Leaf

variable {pages : Pages} {id : Nat} {cells : List LeafCell} {entries : List Entry}
  {range : ScanRange}

section

variable (h : Forall₂ (LeafCell.Holds pages) cells entries)
include h

theorem slotEntry_holds {i : Nat} (hi : i < entries.length) :
    slotEntry pages id cells i = .ok entries[i] := by
  have hc : i < cells.length := h.length_eq ▸ hi
  have hcell : cells[i].Holds pages entries[i] := h.get hc hi
  rw [slotEntry, slotCell_ok hc, ok_bind, if_neg (not_lt.mpr hcell.value_len_le)]
  simp only [pure_eq_ok]
  rw [slotKey_holds _ hcell.2.1 hcell.1.1, ok_bind, hcell.stored_eq]

theorem emitSlots_holds {indexes : List Nat} {room : Nat}
    (hall : ∀ i ∈ indexes, i < entries.length) :
    emitSlots pages id cells room indexes
      = .ok ((indexes.filterMap (fun i => entries[i]?)).take room) := by
  induction indexes generalizing room with
  | nil =>
    cases room with
    | zero => rfl
    | succ room => rfl
  | cons i indexes ih =>
    rw [forall_mem_cons] at hall
    have hi : i < entries.length := hall.1
    cases room with
    | zero => rfl
    | succ room =>
      rw [emitSlots, slotEntry_holds h hi, ok_bind, ih hall.2,
        filterMap_cons_some (getElem?_eq_getElem hi)]
      rfl

end

/-- A run of slots is a segment of the entries. -/
theorem filterMap_range' {count first : Nat} (hle : first + count ≤ entries.length) :
    (List.range' first count).filterMap (fun i => entries[i]?)
      = (entries.drop first).take count := by
  induction count generalizing first with
  | zero => rw [take_zero]; rfl
  | succ count ih =>
    have hi : first < entries.length := by omega
    rw [range'_succ, filterMap_cons_some (getElem?_eq_getElem hi),
      ih (by omega), drop_eq_getElem_cons hi, take_succ_cons]

/-- The slot a bound falls on. -/
def slotOf (entries : List Entry) (target : Bytes) : Nat :=
  (entries.takeWhile (fun e => e.1 < target)).length

theorem slotOf_le (target : Bytes) : slotOf entries target ≤ entries.length :=
  (takeWhile_sublist _).length_le

section

variable (hs : Sorted entries)
include hs

theorem lt_slotOf (target : Bytes) {i : Nat} (hi : i < entries.length) :
    i < slotOf entries target ↔ entries[i].1 < target := by
  have h := BinarySearch.getElem_iff_lt_takeWhile (hs.front_lt target) hi
  rw [slotOf, ← decide_eq_true_iff (p := i < _), ← h, decide_eq_true_iff]

theorem slotOf_mono {a b : Bytes} (hab : a ≤ b) : slotOf entries a ≤ slotOf entries b := by
  by_contra hlt
  have hi : slotOf entries b < entries.length := by
    have := @slotOf_le entries a
    omega
  have hkey := (lt_slotOf hs a hi).mp (not_le.mp hlt)
  exact lt_irrefl _ ((lt_slotOf hs b hi).mpr (hkey.trans_le hab))

/-- Where the range starts, stops, and where the excluded keys lie, as slots. -/
def startSlot (entries : List Entry) (range : ScanRange) : Nat :=
  (range.start.map (slotOf entries)).getD 0

def stopSlot (entries : List Entry) (range : ScanRange) : Nat :=
  (range.stop.map (slotOf entries)).getD entries.length

def excludedFrom (entries : List Entry) (range : ScanRange) : Nat :=
  (range.excluded.map (slotOf entries)).getD entries.length

def excludedTo (entries : List Entry) (range : ScanRange) : Nat :=
  ((range.excluded.bind successor).map (slotOf entries)).getD entries.length

omit hs in
theorem slotOr_le (bound : Option Bytes) {missing : Nat} (h : missing ≤ entries.length) :
    (bound.map (slotOf entries)).getD missing ≤ entries.length := by
  cases bound with
  | none => exact h
  | some target => exact slotOf_le target

theorem excludedFrom_le (range : ScanRange) :
    excludedFrom entries range ≤ excludedTo entries range := by
  rw [excludedFrom, excludedTo]
  cases range.excluded with
  | none => exact le_rfl
  | some excluded =>
    rw [Option.bind_some, Option.map_some, Option.getD_some]
    cases hsucc : successor excluded with
    | none => exact slotOf_le excluded
    | some => exact slotOf_mono hs (lt_successor hsucc).le

theorem startSlot_le {i : Nat} (hi : i < entries.length) :
    startSlot entries range ≤ i ↔
      range.start.all (fun start => start ≤ entries[i].1) = true := by
  rw [startSlot]
  cases range.start with
  | none => simp
  | some start =>
    rw [Option.map_some, Option.getD_some, ← not_lt, lt_slotOf hs start hi, not_lt,
      Option.all_some, decide_eq_true_iff]

theorem lt_stopSlot {i : Nat} (hi : i < entries.length) :
    i < stopSlot entries range ↔
      range.stop.all (fun stop => entries[i].1 < stop) = true := by
  rw [stopSlot]
  cases range.stop with
  | none => simpa using hi
  | some stop =>
    rw [Option.map_some, Option.getD_some, lt_slotOf hs stop hi, Option.all_some,
      decide_eq_true_iff]

/-- The slots of a prefix are those between its own bound and its successor's. -/
theorem excluded_slots {i : Nat} (hi : i < entries.length) :
    (excludedFrom entries range ≤ i ∧ i < excludedTo entries range) ↔
      range.excluded.any (fun excluded => excluded.isPrefixOf entries[i].1) = true := by
  rw [excludedFrom, excludedTo]
  cases range.excluded with
  | none => simp
  | some excluded =>
    rw [Option.map_some, Option.getD_some, Option.bind_some, Option.any_some,
      List.isPrefixOf_iff_prefix, ← not_lt, lt_slotOf hs excluded hi, not_lt]
    constructor
    · rintro ⟨hle, hlt⟩
      rw [prefix_iff_lt_successor hle]
      intro s hsucc
      rw [hsucc, Option.map_some, Option.getD_some] at hlt
      exact (lt_slotOf hs s hi).mp hlt
    · intro hpre
      have hle : excluded ≤ entries[i].1 := le_of_isPrefix hpre
      refine ⟨hle, ?_⟩
      rw [prefix_iff_lt_successor hle] at hpre
      cases hsucc : successor excluded with
      | none => exact hi
      | some s => exact (lt_slotOf hs s hi).mpr (hpre s hsucc)

end

section

variable (h : Forall₂ (LeafCell.Holds pages) cells entries)
include h

/-- The slots a directory leaf emits, in terms of its entries. -/
theorem leafEmitSegments_eq (hs : Sorted entries) {first last : Nat}
    (hfirst : first = startSlot entries range) (hlast : last = max (stopSlot entries range) first) :
    leafEmitSegments pages id cells range
      = .ok (List.range' first (clamp (excludedFrom entries range) first last - first) ++
          List.range' (clamp (excludedTo entries range) first last)
            (last - clamp (excludedTo entries range) first last)) := by
  have hlen : cells.length = entries.length := h.length_eq
  have hle : startSlot entries range ≤ entries.length := slotOr_le range.start (Nat.zero_le _)
  have hstop : stopSlot entries range ≤ entries.length := slotOr_le range.stop le_rfl
  have hbound : ∀ missing bound,
      lowerBoundOr pages id cells missing bound
        = .ok ((bound.map (slotOf entries)).getD missing) := by
    intro missing bound
    cases bound with
    | none => rfl
    | some target => exact leafLowerBound_holds h hs target
  have hlast' : lastSlot pages id cells first range.stop = .ok last := by
    rw [hlast]
    rw [stopSlot] at hstop ⊢
    cases hs' : range.stop with
    | none =>
      rw [lastSlot, hlen, Option.map_none, Option.getD_none, max_eq_left (hfirst ▸ hle)]
    | some =>
      rw [lastSlot, leafLowerBound_holds h hs]
      rfl
  have hskip : skippedSlots pages id cells first last range.excluded
      = .ok (clamp (excludedFrom entries range) first last,
          clamp (excludedTo entries range) first last) := by
    rw [excludedFrom, excludedTo]
    cases range.excluded with
    | none =>
      have hclamp : clamp entries.length first last = last := by
        rw [clamp]
        omega
      rw [Option.map_none, Option.bind_none, Option.map_none, Option.getD_none, hclamp]
      rfl
    | some =>
      rw [skippedSlots, leafLowerBound_holds h hs, ok_bind, hbound, hlen]
      rfl
  rw [leafEmitSegments, hbound, ← startSlot, ← hfirst, ok_bind, hlast', ok_bind, hskip]
  rfl

/-- **SEGMENTS**: the slots a directory leaf emits are those of the selected entries. -/
theorem leafEmitSegments_holds (hs : Sorted entries) :
    ∃ indexes, leafEmitSegments pages id cells range = .ok indexes ∧
      (∀ i ∈ indexes, i < entries.length) ∧
      indexes.filterMap (fun i => entries[i]?) = range.select entries := by
  have hle : startSlot entries range ≤ entries.length := slotOr_le range.start (Nat.zero_le _)
  have hstop : stopSlot entries range ≤ entries.length := slotOr_le range.stop le_rfl
  have hexc := excludedFrom_le hs range
  obtain ⟨first, hfirst⟩ : ∃ n, n = startSlot entries range := ⟨_, rfl⟩
  obtain ⟨last, hlast⟩ : ∃ n, n = max (stopSlot entries range) first := ⟨_, rfl⟩
  obtain ⟨lo, hlo⟩ : ∃ n, n = clamp (excludedFrom entries range) first last := ⟨_, rfl⟩
  obtain ⟨hi, hhi⟩ : ∃ n, n = clamp (excludedTo entries range) first last := ⟨_, rfl⟩
  refine ⟨_, leafEmitSegments_eq h hs hfirst hlast, ?_, ?_⟩
  all_goals rw [← hlo, ← hhi]
  all_goals rw [clamp] at hlo hhi
  · intro i hi
    rw [mem_append, mem_range'_1, mem_range'_1] at hi
    omega
  · rw [filterMap_append, filterMap_range' (by omega), filterMap_range' (by omega)]
    refine (BinarySearch.filter_eq_segments (by omega) (by omega) (by omega) (by omega) ?_).symm
    intro i hilt
    have hstart := @startSlot_le entries range hs i hilt
    have hend := @lt_stopSlot entries range hs i hilt
    have hskip := @excluded_slots entries range hs i hilt
    rw [ScanRange.admits, Bool.and_eq_true, Bool.and_eq_true, Bool.not_eq_true',
      ← Bool.not_eq_true, ← hstart, ← hend, ← hskip]
    omega

/-- A walk over a leaf emits the rows in range, up to the room. -/
theorem emitWalk_holds {room offset : Nat} (hs : Sorted entries)
    (hfit : offset + (cells.map LeafCell.bytes).sum ≤ pageSize) :
    emitWalk pages id range room offset cells = .ok ((range.select entries).take room) := by
  induction h generalizing room offset with
  | nil =>
    cases room with
    | zero => rfl
    | succ room => rfl
  | @cons _ entry _ entries hc _ ih =>
    obtain ⟨hlt, hsorted⟩ := sorted_cons.mp hs
    rw [map_cons, sum_cons] at hfit
    cases room with
    | zero => rfl
    | succ room =>
      rw [emitWalk, decodeLeafCell_holds hc (by omega), ok_bind]
      dsimp only
      split_ifs with hstart hstop hexc
      · obtain ⟨start, hr, hbelow⟩ := (Option.any_eq_true _ _).mp hstart
        rw [ScanRange.select_cons_neg, ih hsorted (by omega)]
        exact ScanRange.admits_of_lt_start hr (of_decide_eq_true hbelow)
      · -- every later key is past the end too
        obtain ⟨stop, hr, hle⟩ := (Option.any_eq_true _ _).mp hstop
        have hall : ∀ e ∈ entry :: entries, entry.1 ≤ e.1 :=
          forall_mem_cons.mpr ⟨le_rfl, fun e he => (hlt e he).le⟩
        rw [ScanRange.select_eq_nil (fun e he =>
          ScanRange.admits_of_stop_le hr ((of_decide_eq_true hle).trans (hall e he)))]
        rfl
      · rw [ScanRange.select_cons_neg, ih hsorted (by omega)]
        simp [ScanRange.admits, hexc]
      · have hyes : range.admits entry.1 = true := by
          simp only [ScanRange.admits, Bool.and_eq_true, Bool.not_eq_true', ← Bool.not_eq_true]
          refine ⟨⟨?_, ?_⟩, hexc⟩
          · cases hr : range.start with
            | none => rfl
            | some => simpa [hr] using hstart
          · cases hr : range.stop with
            | none => rfl
            | some => simpa [hr] using hstop
        rw [ih hsorted (by omega), ScanRange.select_cons_pos hyes]
        rfl

/-- **LEAF SCAN**: a leaf of either version emits the first selected entries. -/
theorem leafEntries_holds {slots : Bool} (hs : Sorted entries)
    (hfit : cellsBytes slots (cells.map LeafCell.bytes) ≤ pageSize) (room : Nat) :
    leafEntries pages id slots cells range room = .ok ((range.select entries).take room) := by
  rw [leafEntries, if_neg (not_lt.mpr (leafCount_le hfit))]
  cases slots with
  | false => exact emitWalk_holds h hs (by rw [cellsBytes] at hfit; omega)
  | true =>
    obtain ⟨indexes, hrun, hbound, hselect⟩ :=
      @leafEmitSegments_holds pages id cells entries range h hs
    rw [if_pos rfl, hrun, ok_bind, emitSlots_holds h hbound, hselect]

end

end Leaf

/-! ## Values -/

section Values

variable {values : Bytes}

/-- The row an entry becomes. -/
def rowOf (values : Bytes) (entry : Entry) : Bytes × Versioned :=
  match entry.2.value with
  | .inline value => (entry.1, ⟨value, entry.2.revision⟩)
  | .external reference => (entry.1, ⟨ValueLog.valueOf values reference, entry.2.revision⟩)

theorem rowOf_eq {entry : Entry} {versioned : Versioned}
    (h : Resolves values entry.2 versioned) : rowOf values entry = (entry.1, versioned) := by
  obtain ⟨key, ⟨value, revision⟩⟩ := entry
  obtain ⟨hvalue, hrev⟩ := h
  obtain ⟨bytes, rev⟩ := versioned
  cases value with
  | inline =>
    cases hvalue
    cases hrev
    rfl
  | external reference =>
    have hread : ValueLog.Readable values reference :=
      ValueLog.readable_of_read hvalue
    have heq : ValueLog.valueOf values reference = bytes :=
      Except.ok.inj (hread.symm.trans hvalue)
    cases hrev
    exact congrArg (fun value => (key, Versioned.mk value revision)) heq

theorem placeValues_rows (entries : List Entry) :
    placeValues entries ((entries.filterMap externalRef).map (ValueLog.valueOf values))
      = entries.map (rowOf values) := by
  induction entries with
  | nil => rfl
  | cons entry entries ih =>
    obtain ⟨key, ⟨value, revision⟩⟩ := entry
    cases value with
    | inline =>
      rw [filterMap_cons_none rfl, placeValues, ih]
      rfl
    | external reference =>
      have href : externalRef (key, ⟨.external reference, revision⟩) = some reference := rfl
      rw [filterMap_cons_some href, map_cons, placeValues, ih]
      rfl

/-- Every value of the entries is in reach. -/
def InReach (values : Bytes) (entries : List Entry) : Prop :=
  ∀ e ∈ entries, ∀ r, externalRef e = some r → ValueLog.Readable values r

theorem fillRows_ok (h : InReach values entries) :
    fillRows values entries = .ok (entries.map (rowOf values)) := by
  have hplace := @placeValues_rows values entries
  rw [fillRows]
  by_cases hnil : entries.filterMap externalRef = []
  · rw [hnil] at hplace ⊢
    rw [if_pos rfl, ← hplace]
    rfl
  · rw [if_neg hnil, ValueLog.readMany_ok, ok_bind, hplace]
    · rfl
    · intro r hr
      obtain ⟨e, he, heq⟩ := mem_filterMap.mp hr
      exact h e he r heq

/-- Deferring rows does not reorder them. -/
theorem visitRows_ok (h : InReach values entries) :
    visitRows values entries
      = .ok (entries.map (fun e => ((rowOf values e).1, (rowOf values e).2.value))) := by
  have heager : (entries.takeWhile (fun e => (externalRef e).isNone)).filterMap externalRef
      = [] := by
    refine filterMap_eq_nil_iff.mpr (fun e he => ?_)
    have hnone := mem_takeWhile_imp he
    exact Option.isNone_iff_eq_none.mp hnone
  have hplace := @placeValues_rows values
    (entries.takeWhile (fun e => (externalRef e).isNone))
  rw [heager] at hplace
  rw [visitRows, fillRows_ok (fun e he => h e ((dropWhile_sublist _).subset he)), ok_bind,
    show placeValues _ [] = _ from hplace, ← map_append, takeWhile_append_dropWhile,
    map_map]
  rfl

end Values

/-! ## The tree -/

section Walk

variable {ordered : Bool} {pages : Pages} {α : Type} {range : ScanRange}
  {finish : List Entry → Except Error (List α)} {g : Entry → α} {a b entries : List Entry}
  {room id : Nat} {descend : Nat → Nat → Except Error (List α)} {childMin : Option Bytes}

/-- The rows a scan of `entries` returns. -/
def scanned (range : ScanRange) (g : Entry → α) (room : Nat) (entries : List Entry) : List α :=
  ((range.select entries).take room).map g

theorem scanned_append_full (h : room ≤ (scanned range g room a).length) :
    scanned range g room (a ++ b) = scanned range g room a := by
  rw [scanned, length_map, length_take] at h
  rw [scanned, scanned, ScanRange.select_append, take_append_of_le_length (by omega)]

theorem scanned_append_room (h : ¬ room ≤ (scanned range g room a).length) :
    scanned range g room (a ++ b) = scanned range g room a ++
      scanned range g (room - (scanned range g room a).length) b := by
  rw [scanned, length_map, length_take] at h
  have hlen : (scanned range g room a).length = (range.select a).length := by
    rw [scanned, length_map, length_take]
    omega
  rw [hlen, scanned, scanned, scanned, ScanRange.select_append, take_append, map_append]

/-- A child that starts at or past the end has nothing to emit. -/
theorem select_of_pastEnd
    (hlow : ∀ low, childMin = some low → ∀ e ∈ entries, low ≤ e.1)
    (hpast : pastEnd range childMin = true) : range.select entries = [] := by
  obtain ⟨stop, hr, hmin⟩ := (Option.any_eq_true _ _).mp hpast
  obtain ⟨low, rfl, hle⟩ := (Option.any_eq_true _ _).mp hmin
  exact ScanRange.select_eq_nil (fun e he =>
    ScanRange.admits_of_stop_le hr ((of_decide_eq_true hle).trans (hlow low rfl e he)))

/-- A child is left out only when nothing of it is in range. -/
theorem scanChild_holds {skip : Bool} (hskip : skip = true → range.select entries = [])
    (hdesc : ∀ room, descend room id = .ok (scanned range g room entries)) :
    scanChild descend skip room id = .ok (scanned range g room entries) := by
  rw [scanChild]
  split_ifs with hs
  · rw [scanned, hskip hs, take_nil]
    rfl
  · exact hdesc room

/-- The children's answers put together, until the room is used up. -/
theorem scanChildren_holds {h offset : Nat} {cells : List InternalCell}
    {kid : NodeRef × List Entry} {tail : Kids}
    (hl : Linked (Node ordered h pages) (kid :: tail))
    (hcells : Forall₂ (InternalCell.Holds pages) cells (tail.map Prod.fst))
    (hne : ∀ x ∈ tail, x.1.pageId ≠ id)
    (hfit : offset + (cells.map InternalCell.bytes).sum ≤ pageSize)
    (hlow : ∀ low, childMin = some low → ∀ e ∈ kid.2, low ≤ e.1)
    (hdesc : ∀ x ∈ kid :: tail, ∀ room,
      descend room x.1.pageId = .ok (scanned range g room x.2)) :
    scanChildren descend pages id range room offset kid.1.pageId childMin cells
      = .ok (scanned range g room (contents (kid :: tail))) := by
  induction cells generalizing kid tail room offset childMin with
  | nil =>
    obtain rfl : tail = [] := map_eq_nil_iff.mp (forall₂_nil_left_iff.mp hcells)
    rw [scanChildren, scanChild_holds (select_of_pastEnd hlow) (hdesc kid mem_cons_self),
      contents_cons, contents_nil, append_nil]
  | cons cell cells ih =>
    cases tail with
    | nil => cases hcells
    | cons next tail =>
      rw [forall_mem_cons] at hdesc hne
      obtain ⟨⟨⟨_, _⟩, hkey, hnext⟩, hrest⟩ := forall₂_cons.mp hcells
      obtain ⟨_, hltail, hapart⟩ := linked_cons.mp hl
      have hself : next.1.pageId ≠ id := hne.1
      -- nor has one that ends at or below the start
      have hskip : (range.start.any (fun start => next.1.minKey ≤ start) ||
          pastEnd range childMin) = true → range.select kid.2 = [] := by
        intro hs
        rcases Bool.or_eq_true_iff.mp hs with hstart | hstop
        · obtain ⟨start, hr, hle⟩ := (Option.any_eq_true _ _).mp hstart
          exact ScanRange.select_eq_nil (fun e he => ScanRange.admits_of_lt_start hr
            ((hapart next mem_cons_self e he).trans_le (of_decide_eq_true hle)))
        · exact select_of_pastEnd hlow hstop
      rw [map_cons, sum_cons, InternalCell.bytes] at hfit
      rw [scanChildren, requirePage, if_neg (by omega), ok_bind,
        if_neg (by rw [hkey.len_eq]; omega), if_neg (by rw [hnext]; exact hself)]
      simp only [pure_eq_ok]
      rw [decodeKey_holds hkey (by omega), ok_bind]
      rw [scanChild_holds hskip hdesc.1, ok_bind, contents_cons]
      split_ifs with hfull
      · rw [scanned_append_full hfull]
      · rw [hnext, ih hltail hrest hne.2 (by omega) _ hdesc.2, scanned_append_room hfull]
        · rfl
        · intro low hlow'
          cases hlow'
          exact hltail.above next mem_cons_self

/-- **SCAN**: a scan of a subtree returns the first selected entries below it. -/
theorem scanNode_node {h fuel : Nat} (hn : Node ordered h pages id entries) (hf : h < fuel)
    (hfin : ∀ es : List Entry, es ⊆ entries → finish es = .ok (es.map g)) :
    scanNode finish pages range fuel room id = .ok (scanned range g room entries) := by
  have hzero : ∀ entries, scanned range g 0 entries = [] := fun _ => rfl
  induction h generalizing fuel room id entries with
  | zero =>
    obtain ⟨fuel, rfl⟩ := exists_fuel hf
    rw [scanNode]
    split_ifs with hroom
    · rw [hroom, hzero]
    obtain ⟨slots, cells, hp, hcells, _, hs, hfit⟩ := hn
    rw [readPage_ok.mpr hp, ok_bind]
    dsimp only
    rw [leafEntries_holds (forall₂_mono_view hcells) hs hfit, ok_bind, hfin]
    · rfl
    · exact ((take_sublist _ _).trans filter_sublist).subset
  | succ h ih =>
    obtain ⟨fuel, rfl⟩ := exists_fuel hf
    rw [scanNode]
    split_ifs with hroom
    · rw [hroom, hzero]
    have hnode := hn
    obtain ⟨slots, first, cells, head, tail, hp, hr⟩ := hn.row
    obtain ⟨slots', hfit⟩ := hr.fits
    have hself := hr.child_ne hnode
    have hfirst : first = head.1.pageId := by rw [hr.first_eq]
    rw [readPage_ok.mpr hp, ok_bind]
    dsimp only
    rw [if_neg (not_le.mpr (internalCount_lt hfit)),
      if_neg (by rw [hfirst]; exact hself head mem_cons_self), hr.entries_eq, hfirst]
    refine scanChildren_holds hr.linked hr.cells_hold
      (fun x hx => hself x (mem_cons_of_mem _ hx)) (by rw [cellsBytes] at hfit; omega)
      (fun low hlow => by cases hlow) (fun x hx room => ?_)
    refine ih (hr.linked.holds x hx) (by omega) (fun es hes => hfin es (fun e he => ?_))
    rw [hr.entries_eq]
    exact mem_contents.mpr ⟨x, hx, hes he⟩

theorem scanWith_denotes (hsuper : SuperFirst tree.pages)
    (hrooted : Rooted ordered tree.pages tree.root levels entries) (hd : levels ≤ maxTreeDepth)
    (hfin : ∀ es : List Entry, es ⊆ entries → finish es = .ok (es.map g)) (limit : Nat) :
    tree.scanWith finish range limit = .ok (scanned range g limit entries) := by
  rw [PageTree.scanWith]
  cases levels with
  | zero =>
    obtain ⟨hroot, rfl⟩ := hrooted
    rw [if_neg (fun h => h.1 hroot), scanned, ScanRange.select, filter_nil, take_nil]
    rfl
  | succ h =>
    by_cases hlimit : limit = 0
    · rw [if_neg (fun h => h.2 hlimit), hlimit]
      rfl
    · rw [if_pos ⟨hsuper.id_ne_zero hrooted, hlimit⟩, scanNode_node hrooted hd hfin]

end Walk

/-- The rows of a tree are its entries with their values read. -/
theorem rows_eq_map {values : Bytes} (h : Related (Resolves values) entries rows) :
    rows = entries.map (rowOf values) ∧ InReach values entries := by
  induction h with
  | nil => exact ⟨rfl, forall_mem_nil _⟩
  | @cons _ _ _ _ hr _ ih =>
    obtain ⟨hmap, hreach⟩ := ih
    obtain ⟨hkey, hres⟩ := hr
    refine ⟨?_, fun e he r href => ?_⟩
    · rw [map_cons, rowOf_eq hres, ← hmap, hkey]
    · rcases mem_cons.mp he with rfl | he
      · obtain ⟨key, ⟨value, revision⟩⟩ := e
        cases value with
        | inline => cases href
        | external =>
          cases href
          exact ValueLog.readable_of_read hres.1
      · exact hreach e he r href

theorem rowOf_fst (values : Bytes) (e : Entry) : (rowOf values e).1 = e.1 := by
  rw [rowOf]
  cases e.2.value with
  | inline => rfl
  | external => rfl

theorem select_map_rowOf (range : ScanRange) (values : Bytes) (entries : List Entry) :
    range.select (entries.map (rowOf values)) = (range.select entries).map (rowOf values) := by
  rw [ScanRange.select, ScanRange.select, filter_map]
  refine congrArg (map _) (filter_congr (fun e _ => ?_))
  rw [Function.comp_apply, rowOf_fst]

/-- **RANGE SCAN**: both scans return the first rows of the range. -/
theorem scan_denotes {ordered : Bool} (ht : Denotes ordered tree levels rows)
    (hd : levels ≤ maxTreeDepth) (range : ScanRange) (limit : Nat) :
    tree.scanSharedWithRevisions range limit = .ok ((range.select rows).take limit) ∧
      tree.scanVisit range limit
        = .ok (((range.select rows).take limit).map (fun row => (row.1, row.2.value))) := by
  obtain ⟨entries, hsuper, hrooted, _, hrel⟩ := ht
  obtain ⟨hrows, hreach⟩ := rows_eq_map hrel
  rw [PageTree.scanSharedWithRevisions, PageTree.scanVisit, scanWith_denotes hsuper hrooted hd
      (fun es hes => fillRows_ok (fun e he => hreach e (hes he))),
    scanWith_denotes hsuper hrooted hd
      (fun es hes => visitRows_ok (fun e he => hreach e (hes he))),
    hrows, select_map_rowOf, scanned, scanned, map_take, ← map_take, map_map]
  exact ⟨rfl, rfl⟩

/-! ## All reads -/

/-- **READS**: on a well-formed tree within the depth bound every read answers what the map
    says: point reads, sorted batches of distinct keys, scans of a range without an excluded
    prefix up to a limit, and the greatest key of a range. -/
theorem pageTree_reads_map {ordered : Bool} {tree : PageTree} {levels : Nat}
    {rows : List (Bytes × Versioned)} (ht : Denotes ordered tree levels rows)
    (hd : levels ≤ maxTreeDepth) :
    (∀ key, tree.getWithRevision key = .ok (lookup key rows) ∧
      tree.get key = .ok ((lookup key rows).map Versioned.value) ∧
      tree.getShared key = .ok ((lookup key rows).map Versioned.value)) ∧
    (∀ keys : List Bytes, keys.Pairwise (· < ·) →
      tree.getManyWithRevision keys = .ok (keys.map (fun key => lookup key rows)) ∧
      tree.getManyRevisions keys
        = .ok (keys.map (fun key => (lookup key rows).map Versioned.revision))) ∧
    (∀ (range : ScanRange) (limit : Nat),
      tree.scanSharedWithRevisions range limit
        = .ok ((rows.filter (fun row => range.admits row.1)).take limit) ∧
      tree.scanVisit range limit
        = .ok (((rows.filter (fun row => range.admits row.1)).take limit).map
            (fun row => (row.1, row.2.value)))) ∧
    ∀ (start : Bytes) (stop : Option Bytes),
      tree.lastKeyIn start stop
        = .ok ((rows.filter (fun row => inBounds start stop row.1)).getLast?.map Prod.fst) := by
  refine ⟨fun key => ?_, fun keys hk => getMany_denotes ht hd hk,
    fun range limit => scan_denotes ht hd range limit,
    fun start stop => lastKeyIn_denotes ht hd⟩
  obtain ⟨hget, hshared⟩ := getWithRevision_denotes ht hd key
  refine ⟨hget, ?_, hshared⟩
  rw [PageTree.get, hget]
  rfl

/-- The column of two levels, scanned past an empty excluded prefix and without one. -/
theorem pageTree_reads_map_chain_one :
    Denotes false (chain 1) 2 [([1], ⟨[], 0⟩)] ∧ 2 ≤ maxTreeDepth ∧
      (chain 1).scanVisit ⟨none, some [2], none⟩ 3 = .ok [([1], [])] ∧
      (chain 1).scanVisit ⟨none, some [2], some []⟩ 3 = .ok [] ∧
      (chain 1).getManyRevisions [[0], [1]] = .ok [none, some 0] := by
  have h := pageTree_reads_map (chain_denotes 1) (by decide)
  exact ⟨chain_denotes 1, by decide, (h.2.2.1 ⟨none, some [2], none⟩ 3).2,
    (h.2.2.1 ⟨none, some [2], some []⟩ 3).2, (h.2.1 [[0], [1]] (by decide)).2⟩

/-- Without the depth bound it fails: no read gets to the leaf of the column of 65 levels. -/
theorem chain_too_deep_to_read :
    Denotes false (chain 64) 65 [([1], ⟨[], 0⟩)] ∧
      (chain 64).get [1] = .error (excessiveDepth 1) ∧
      (chain 64).scanVisit ⟨none, none, none⟩ 1 = .error (excessiveDepth 1) :=
  ⟨chain_denotes 64, by decide +kernel, by decide +kernel⟩

end Vyrn
