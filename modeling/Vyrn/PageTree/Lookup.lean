import Mathlib.Data.List.Induction
import Mathlib.Data.List.TakeWhile
import Vyrn.Lib.BinarySearch
import Vyrn.PageTree.Write

/-!
# Point lookups — from the root to the cell of a key

`find_leaf` follows separators down to the leaf that owns a key and `find_in_leaf` finds its cell
there, by a binary search over the slot directory of a version-5 page or a walk over the cells of a
version-4 page. Both forms answer by the order of the keys alone.

Main results: `childForKey_row`, `lookupInLeaf_node`, `lookup_node`.
-/

namespace Vyrn

open SortedMap List BinarySearch

variable {ordered : Bool} {key : Bytes} {tail : Kids} {entries : List Entry}
  {cells : List InternalCell} {first h id : Nat} {head kid : NodeRef × List Entry} {pages : Pages}
  {cell : LeafCell} {entry : Entry}

/-! ## The code -/

/-- A cell's key as the slot-directory readers read it. `reason` is the corruption text of
    the page kind. -/
def slotKey (pages : Pages) (pageId : Nat) (reason : String) (cell : KeyCell) :
    Except Error Bytes :=
  if cell.len = 0 ∨ maxStoredKeySize < cell.len then .error (.corruptPage pageId reason)
  else
    match cell with
    | .inline key => .ok key
    | .blob page len => readBlob pages page len

/-- The cell behind slot `index`. -/
def slotCell {α : Type} (cells : List α) (pageId index : Nat) : Except Error α :=
  match cells[index]? with
  | some cell => .ok cell
  | none => .error (.corruptPage pageId "invalid slot directory entry")

/-- The walk over the separators of a version-4 page: keeps the last child whose separator
    is at or below the key. -/
def childWalk (pages : Pages) (pageId : Nat) (key : Bytes) :
    Nat → Nat → Nat × Nat → List InternalCell → Except Error (Nat × Nat)
  | _, _, chosen, [] => .ok chosen
  | offset, index, chosen, cell :: cells => do
    requirePage offset internalCellHeader pageId
    if cell.key.len = 0 ∨ maxStoredKeySize < cell.key.len then
      throw (.corruptPage pageId "invalid internal cell metadata")
    if cell.child = pageId then
      throw (.corruptPage pageId "internal page names itself as its own child")
    let (separator, offset) ← decodeKey pages pageId (offset + internalCellHeader) cell.key
    if separator ≤ key then
      childWalk pages pageId key offset (index + 1) (index + 1, cell.child) cells
    else return chosen

/-- The child of an internal page that owns `key`: its index and its page. -/
def childForKey (pages : Pages) (pageId : Nat) (slots : Bool) (first : Nat)
    (cells : List InternalCell) (key : Bytes) : Except Error (Nat × Nat) :=
  if maxInternalChildren ≤ cells.length then
    .error (.corruptPage pageId ("internal page claims " ++ toString (cells.length + 1) ++
      " children but a page holds at most " ++ toString maxInternalChildren))
  else if first = pageId then
    .error (.corruptPage pageId "internal page names itself as its own child")
  else if slots then do
    let low ← search (fun index => do
      let cell ← slotCell cells pageId index
      let separator ← slotKey pages pageId "invalid internal cell metadata" cell.key
      return decide (separator ≤ key)) cells.length 0 cells.length
    if low = 0 then return (0, first)
    let cell ← slotCell cells pageId (low - 1)
    if cell.child = pageId then
      throw (.corruptPage pageId "internal page names itself as its own child")
    return (low, cell.child)
  else childWalk pages pageId key headerSize 0 (0, first) cells

/-- Descends to the leaf that owns `key`; returns it with the path of pages and child
    indexes above it, from the top. -/
def findLeafFrom (pages : Pages) (key : Bytes) :
    Nat → Nat → Except Error (Nat × List (Nat × Nat))
  | 0, pageId => .error (excessiveDepth pageId)
  | fuel + 1, pageId => do
    match ← readPage pages pageId with
    | .leaf _ _ => return (pageId, [])
    | .internal slots first cells => do
      let (index, child) ← childForKey pages pageId slots first cells key
      let (leaf, path) ← findLeafFrom pages key fuel child
      return (leaf, (pageId, index) :: path)
    | page => throw (unexpectedType pageId page)

def findLeaf (pages : Pages) (root : Nat) (key : Bytes) :
    Except Error (Nat × List (Nat × Nat)) :=
  findLeafFrom pages key maxTreeDepth root

/-- The first slot whose key is at or past `target`. -/
def leafLowerBound (pages : Pages) (pageId : Nat) (cells : List LeafCell) (target : Bytes) :
    Except Error Nat :=
  search (fun index => do
    let cell ← slotCell cells pageId index
    let key ← slotKey pages pageId "invalid leaf cell metadata" cell.key
    return decide (key < target)) cells.length 0 cells.length

/-- What a leaf cell stores, once its value's place is known. -/
def LeafCell.stored (cell : LeafCell) : Stored :=
  match cell.value with
  | .inline value => ⟨.inline value, cell.revision⟩
  | .external offset len => ⟨.external ⟨offset, len, cell.revision⟩, cell.revision⟩

def findInLeafSlots (pages : Pages) (pageId : Nat) (cells : List LeafCell) (key : Bytes) :
    Except Error (Option Stored) := do
  let index ← leafLowerBound pages pageId cells key
  if index = cells.length then return none
  let cell ← slotCell cells pageId index
  if maxValueSize < cell.value.len then
    throw (.corruptPage pageId "invalid leaf cell metadata")
  let stored ← slotKey pages pageId "invalid leaf cell metadata" cell.key
  if stored = key then return some cell.stored
  return none

/-- The walk over the cells of a version-4 leaf; keys ascend, so it stops at the first key
    past the target. -/
def findInLeafWalk (pages : Pages) (pageId : Nat) (key : Bytes) :
    Nat → List LeafCell → Except Error (Option Stored)
  | _, [] => .ok none
  | offset, cell :: cells => do
    requirePage offset leafCellHeader pageId
    if cell.key.len = 0 ∨ maxStoredKeySize < cell.key.len ∨ maxValueSize < cell.value.len then
      throw (.corruptPage pageId "invalid leaf cell metadata")
    let (stored, offset) ← decodeKey pages pageId (offset + leafCellHeader) cell.key
    if key < stored then return none
    requirePage offset cell.value.inPage pageId
    if stored = key then return some cell.stored
    findInLeafWalk pages pageId key (offset + cell.value.inPage) cells

def findInLeaf (pages : Pages) (pageId : Nat) (slots : Bool) (cells : List LeafCell)
    (key : Bytes) : Except Error (Option Stored) :=
  if maxLeafEntries < cells.length then
    .error (.corruptPage pageId ("leaf claims " ++ toString cells.length ++
      " entries but a page holds at most " ++ toString maxLeafEntries))
  else if slots then findInLeafSlots pages pageId cells key
  else findInLeafWalk pages pageId key headerSize cells

/-- Reads page `pageId`, which must be a leaf, and looks `key` up there. -/
def lookupInLeaf (pages : Pages) (pageId : Nat) (key : Bytes) :
    Except Error (Option Stored) := do
  match ← readPage pages pageId with
  | .leaf slots cells => findInLeaf pages pageId slots cells key
  | page => throw (unexpectedType pageId page)

/-! ## A page is never its own child -/

/-- A page has one height. -/
theorem Node.height_unique {ordered' : Bool} {h' : Nat} {entries' : List Entry}
    (hn : Node ordered h pages id entries) (hn' : Node ordered' h' pages id entries') : h = h' := by
  induction h generalizing h' pages id entries entries' with
  | zero =>
    cases h' with
    | zero => rfl
    | succ h' =>
      obtain ⟨_, _, hp, _⟩ := hn
      obtain ⟨_, _, _, hp', _⟩ := hn'
      rw [hp] at hp'
      exact absurd hp' (by simp)
  | succ h ih =>
    cases h' with
    | zero =>
      obtain ⟨_, _, _, hp, _⟩ := hn
      obtain ⟨_, _, hp', _⟩ := hn'
      rw [hp] at hp'
      exact absurd hp' (by simp)
    | succ h' =>
      obtain ⟨_, first, cells, head, tail, hp, hr⟩ := hn.row
      obtain ⟨_, first', cells', head', tail', hp', hr'⟩ := hn'.row
      have hfirst : first = first' := by
        rw [hp] at hp'
        injection hp' with heq
        injection heq
      have hhead := hr.linked.holds head mem_cons_self
      have hhead' := hr'.linked.holds head' mem_cons_self
      rw [hr.first_eq] at hhead
      rw [hr'.first_eq, ← hfirst] at hhead'
      exact congrArg Nat.succ (ih hhead hhead')

theorem Row.child_ne {entries' : List Entry} (hn : Node ordered (h + 1) pages id entries')
    (hr : Row ordered h pages first cells entries head tail) :
    ∀ kid ∈ head :: tail, kid.1.pageId ≠ id := by
  intro kid hk heq
  have hkid := hr.linked.holds kid hk
  rw [heq] at hkid
  exact absurd (hkid.height_unique hn) (ne_of_lt (Nat.lt_succ_self h))

/-- Separators ascend along a row. -/
theorem Linked.separators {kids : Kids} (hl : Linked (Node ordered h pages) kids) :
    kids.Pairwise (fun a b => a.1.minKey < b.1.minKey) :=
  hl.apart.imp_of_mem (fun {a b} ha _ hab => by
    obtain ⟨e, he⟩ := exists_mem_of_ne_nil _ (hl.holds a ha).ne_nil
    exact (hl.above a ha e he).trans_lt (hab e he))

/-! ## Choosing a child -/

theorem slotKey_holds (reason : String) {cell : KeyCell} (h : cell.Holds pages key)
    (hk : StoredKey key) : slotKey pages id reason cell = .ok key := by
  have hlen := h.len_eq
  obtain ⟨_, _⟩ := hk
  cases cell with
  | inline =>
    rw [slotKey, if_neg (by rw [hlen]; omega)]
    exact congrArg Except.ok h.1
  | blob =>
    rw [slotKey, if_neg (by rw [hlen]; omega)]
    exact h.2.2

theorem slotCell_ok {α : Type} {cells : List α} {i : Nat} (hi : i < cells.length) :
    slotCell cells id i = .ok cells[i] := by
  rw [slotCell, getElem?_eq_getElem hi]

/-- The children whose separators are at or below the key. -/
def below (key : Bytes) (tail : List (NodeRef × List Entry)) : List (NodeRef × List Entry) :=
  tail.takeWhile (fun kid => kid.1.minKey ≤ key)

theorem below_cons_of_le (h : kid.1.minKey ≤ key) (tail : Kids) :
    below key (kid :: tail) = kid :: below key tail :=
  takeWhile_cons_of_pos (decide_eq_true h)

theorem childWalk_holds {offset index child : Nat}
    (h : Forall₂ (InternalCell.Holds pages) cells (tail.map Prod.fst))
    (hself : ∀ kid ∈ tail, kid.1.pageId ≠ id)
    (hfit : offset + (cells.map InternalCell.bytes).sum ≤ pageSize) :
    childWalk pages id key offset index (index, child) cells
      = .ok (index + (below key tail).length,
          ((below key tail).map (fun kid => kid.1.pageId)).getLastD child) := by
  induction cells generalizing tail offset index child with
  | nil =>
    obtain rfl : tail = [] := map_eq_nil_iff.mp (forall₂_nil_left_iff.mp h)
    rfl
  | cons cell cells ih =>
    cases tail with
    | nil => cases h
    | cons kid tail =>
      rw [forall_mem_cons] at hself
      obtain ⟨hc, hcells⟩ := forall₂_cons.mp h
      obtain ⟨⟨_, _⟩, hkey, hchild⟩ := hc
      have hne : kid.1.pageId ≠ id := hself.1
      rw [map_cons, sum_cons, InternalCell.bytes] at hfit
      rw [childWalk, requirePage, if_neg (by omega), ok_bind,
        if_neg (by rw [hkey.len_eq]; omega), if_neg (by rw [hchild]; exact hne)]
      simp only [pure_eq_ok]
      rw [decodeKey_holds hkey (by omega), ok_bind]
      split_ifs with hle
      · rw [hchild, ih hcells hself.2 (by omega),
          below_cons_of_le hle, length_cons, map_cons, getLastD_cons]
        rw [show index + 1 + (below key tail).length
          = index + ((below key tail).length + 1) by omega]
      · rw [below, takeWhile_cons_of_neg (by simpa using hle)]
        rfl

theorem Row.below_mono (hr : Row ordered h pages first cells entries head tail) (key : Bytes) :
    tail.Pairwise (fun a b => decide (b.1.minKey ≤ key) = true →
      decide (a.1.minKey ≤ key) = true) :=
  (linked_cons.mp hr.linked).2.1.separators.imp (fun hab hb =>
    decide_eq_true (hab.le.trans (of_decide_eq_true hb)))

section

variable (slots : Bool) (hr : Row ordered h pages first cells entries head tail)
  (hself : ∀ kid ∈ head :: tail, kid.1.pageId ≠ id)
include hr hself

/-- The child of a key is the last whose separator is not above. -/
theorem childForKey_below (key : Bytes) :
    childForKey pages id slots first cells key = .ok ((below key tail).length,
      ((below key tail).map (fun kid => kid.1.pageId)).getLastD first) := by
  obtain ⟨slots', hfit⟩ := hr.fits
  have hfirst : first ≠ id := by
    have := hself head mem_cons_self
    rwa [hr.first_eq] at this
  have htail : ∀ kid ∈ tail, kid.1.pageId ≠ id :=
    fun kid hk => hself kid (mem_cons_of_mem _ hk)
  rw [childForKey, if_neg (not_le.mpr (internalCount_lt hfit)), if_neg hfirst]
  cases slots with
  | false =>
    rw [if_neg (by simp), childWalk_holds hr.cells_hold htail
      (by rw [cellsBytes] at hfit; omega), zero_add]
  | true =>
    have hlen : cells.length = tail.length := by
      rw [hr.cells_hold.length_eq, length_map]
    have hcell : ∀ i (hi : i < tail.length) (hc : i < cells.length),
        cells[i].Holds pages tail[i].1 := by
      intro i hi hc
      have := hr.cells_hold.get hc (by rw [length_map]; exact hi)
      simpa using this
    rw [if_pos rfl, hlen, search_list (hr.below_mono key) (fun i hi => by
      have hc : i < cells.length := hlen ▸ hi
      rw [slotCell_ok hc, ok_bind, slotKey_holds _ (hcell i hi hc).2.1 (hcell i hi hc).1]
      rfl), ok_bind]
    rw [← below]
    -- no separator at or below the key: its child is the leftmost
    cases hb : below key tail using List.reverseRec with
    | nil => rfl
    | append_singleton front kid =>
      have hpre : front ++ [kid] <+: tail := hb ▸ List.takeWhile_prefix _
      have hi : front.length < tail.length := by
        have := hpre.length_le
        rw [length_append, length_singleton] at this
        omega
      have hc : front.length < cells.length := hlen ▸ hi
      have hkid : tail[front.length] = kid := by
        obtain ⟨rest, rfl⟩ := hpre
        simp
      have hchild : cells[front.length].child = kid.1.pageId := by
        rw [(hcell _ hi hc).2.2, hkid]
      rw [length_append, length_singleton, if_neg (Nat.succ_ne_zero _),
        Nat.add_sub_cancel, slotCell_ok hc]
      simp only [ok_bind, pure_eq_ok]
      rw [if_neg (by rw [hchild]; exact htail kid (hpre.subset (by simp))), hchild]
      simp

/-- Where a key falls in a row: everything to its left lies below it, every separator to its
    right above it. -/
structure Routed (key : Bytes) (pre : List (NodeRef × List Entry)) (kid : NodeRef × List Entry)
    (post : List (NodeRef × List Entry)) : Prop where
  left : pre ≠ [] → kid.1.minKey ≤ key
  right : ∀ x ∈ post, key < x.1.minKey

/-- **ROUTING**: the child chosen is the one the key falls to. -/
theorem childForKey_row (key : Bytes) :
    ∃ pre kid post, head :: tail = pre ++ kid :: post ∧
      childForKey pages id slots first cells key = .ok (pre.length, kid.1.pageId) ∧
      Routed key pre kid post := by
  have hchild := childForKey_below slots hr hself key
  have hsplit : tail = below key tail ++ tail.dropWhile (fun kid => kid.1.minKey ≤ key) :=
    takeWhile_append_dropWhile.symm
  have hright : ∀ x ∈ tail.dropWhile (fun kid => kid.1.minKey ≤ key), key < x.1.minKey := by
    intro x hx
    have hnot := not_of_mem_dropWhile (hr.below_mono key) x hx
    exact not_le.mp (fun hle => hnot (decide_eq_true hle))
  cases hb : below key tail using List.reverseRec with
  | nil =>
    rw [hb] at hchild hsplit
    refine ⟨[], head, tail, rfl, ?_, fun h => absurd rfl h, ?_⟩
    · rw [hchild, hr.first_eq]
      rfl
    · rw [nil_append] at hsplit
      rw [hsplit]
      exact hright
  | append_singleton front kid =>
    rw [hb] at hchild
    refine ⟨head :: front, kid, tail.dropWhile (fun kid => kid.1.minKey ≤ key), ?_, ?_,
      fun _ => ?_, hright⟩
    · rw [hb] at hsplit
      conv_lhs => rw [hsplit]
      simp
    · rw [hchild]
      simp
    · have hmem : kid ∈ below key tail := by rw [hb]; simp
      have hp := mem_takeWhile_imp hmem
      exact of_decide_eq_true hp

end

/-- A key's lookup in a row is its lookup in the child it falls to. -/
theorem Routed.lookup_eq {P : Nat → List Entry → Prop} {pre : Kids} {post : Kids}
    (hroute : Routed key pre kid post) (hl : Linked P (pre ++ kid :: post)) :
    lookup key (contents (pre ++ kid :: post)) = lookup key kid.2 := by
  obtain ⟨_, hright, hpre⟩ := linked_append.mp hl
  obtain ⟨_, hpost, _⟩ := linked_cons.mp hright
  rw [contents_append, contents_cons, lookup_append_right, lookup_append_left]
  · intro e he
    obtain ⟨x, hx, hex⟩ := mem_contents.mp he
    exact (hroute.right x hx).trans_le (hpost.above x hx e hex)
  · intro e he
    obtain ⟨x, hx, hex⟩ := mem_contents.mp he
    exact (hpre x hx kid mem_cons_self e hex).trans_le (hroute.left (ne_nil_of_mem hx))

/-! ## Descending to a leaf -/

/-- The descent for `key` from page `id` ends at `leaf` along `path`. -/
inductive OnPath (ordered : Bool) (pages : Pages) (key : Bytes) :
    Nat → Nat → List Entry → Nat → List Entry → List (Nat × Nat) → Prop where
  | here {id : Nat} {entries : List Entry} (hn : Node ordered 0 pages id entries) :
      OnPath ordered pages key 0 id entries id entries []
  | down {h id leaf : Nat} {leafEntries : List Entry} {path : List (Nat × Nat)}
      {pre : List (NodeRef × List Entry)} {kid : NodeRef × List Entry}
      {post : List (NodeRef × List Entry)}
      (hread : ∀ pages', pages <+: pages' →
        readInternalChildren pages' id = .ok ((pre ++ kid :: post).map Prod.fst))
      (hbytes : rowBytes (pre ++ kid :: post) ≤ 5489)
      (hfirst : ∀ x ∈ pre ++ kid :: post,
        firstKey (contents (pre ++ kid :: post)) ≤ x.1.minKey)
      (hl : Linked (Node ordered h pages) (pre ++ kid :: post))
      (hroute : Routed key pre kid post)
      (hdown : OnPath ordered pages key h kid.1.pageId kid.2 leaf leafEntries path) :
      OnPath ordered pages key (h + 1) id (contents (pre ++ kid :: post)) leaf leafEntries
        ((id, pre.length) :: path)

/-- **DESCENT**: within the depth bound the descent reaches a leaf. -/
theorem findLeafFrom_node (key : Bytes) {fuel : Nat} (hn : Node ordered h pages id entries)
    (hf : h < fuel) (hmax : fuel ≤ maxTreeDepth) :
    ∃ leaf leafEntries path, findLeafFrom pages key fuel id = .ok (leaf, path) ∧
      OnPath ordered pages key h id entries leaf leafEntries path := by
  induction h generalizing fuel id entries with
  | zero =>
    obtain ⟨fuel, rfl⟩ := exists_fuel hf
    refine ⟨id, entries, [], ?_, OnPath.here hn⟩
    obtain ⟨slots, cells, hp, _⟩ := hn
    rw [findLeafFrom, readPage_ok.mpr hp, ok_bind]
    rfl
  | succ h ih =>
    obtain ⟨fuel, rfl⟩ := exists_fuel hf
    obtain ⟨slots, first, cells, head, tail, hp, hr⟩ := hn.row
    obtain ⟨pre, kid, post, hkids, hchild, hroute⟩ :=
      childForKey_row slots hr (hr.child_ne hn) key
    have hl := hr.linked
    rw [hkids] at hl
    have hkid := hl.holds kid (by simp)
    obtain ⟨leaf, leafEntries, path, hfind, hpath⟩ :=
      ih hkid (Nat.lt_of_succ_lt_succ hf) (Nat.le_of_succ_le hmax)
    refine ⟨leaf, leafEntries, (id, pre.length) :: path, ?_, ?_⟩
    · rw [findLeafFrom, readPage_ok.mpr hp, ok_bind]
      dsimp only
      rw [hchild, ok_bind]
      rw [hfind]
      rfl
    · rw [hr.entries_eq, hkids]
      have hfirst := hr.firstKey_le
      rw [hr.entries_eq, hkids] at hfirst
      refine OnPath.down ?_ (hkids ▸ hr.rowBytes_le) hfirst hl hroute hpath
      rintro pages' ⟨more, rfl⟩
      rw [readInternalChildren, readPage_ok.mpr (getElem?_append_some more hp), ok_bind, ← hkids]
      exact decodeInternal_row (hr.mono more) (Nat.lt_of_succ_le (le_trans hf.le hmax))

/-- The leaf reached is a leaf of the tree and answers for all of it. -/
theorem OnPath.leaf {leaf : Nat} {leafEntries : List Entry} {path : List (Nat × Nat)}
    (hpath : OnPath ordered pages key h id entries leaf leafEntries path) :
    Node ordered 0 pages leaf leafEntries ∧
      lookup key entries = lookup key leafEntries := by
  induction hpath with
  | here hn => exact ⟨hn, rfl⟩
  | down _ _ _ hl hroute _ ih => exact ⟨ih.1, (hroute.lookup_eq hl).trans ih.2⟩

/-! ## Inside a leaf -/

theorem LeafCell.Holds.stored_eq (h : cell.Holds pages entry) : cell.stored = entry.2 := by
  obtain ⟨⟨_, hvalid⟩, _, hvalue, hrev⟩ := h
  obtain ⟨key, ⟨value, revision⟩⟩ := entry
  rw [LeafCell.stored, hvalue]
  cases value with
  | inline => exact congrArg _ hrev
  | external reference =>
    obtain ⟨offset, len, rev⟩ := reference
    obtain rfl : rev = revision := hvalid.2.2
    rw [hrev]
    rfl

theorem LeafCell.Holds.value_len_le (h : cell.Holds pages entry) :
    cell.value.len ≤ maxValueSize := by
  obtain ⟨⟨_, hvalid⟩, _, hvalue, _⟩ := h
  rw [hvalue]
  cases hv : entry.2.value with
  | inline value =>
    rw [hv] at hvalid
    have hle : value.length ≤ 1024 := hvalid
    show value.length ≤ 16 * 1024 * 1024
    omega
  | external =>
    rw [hv] at hvalid
    exact hvalid.2.1

section

variable {cells : List LeafCell} (hholds : Forall₂ (LeafCell.Holds pages) cells entries)
include hholds

/-- The search arrives at the first key that is not below the target. -/
theorem leafLowerBound_holds (hs : Sorted entries) (target : Bytes) :
    leafLowerBound pages id cells target
      = .ok (entries.takeWhile (fun e => e.1 < target)).length := by
  have hlen : cells.length = entries.length := hholds.length_eq
  rw [leafLowerBound, hlen]
  refine search_list (hs.front_lt target) (fun i hi => ?_)
  have hc : i < cells.length := hlen ▸ hi
  have hcell : cells[i].Holds pages entries[i] := hholds.get hc hi
  rw [slotCell_ok hc, ok_bind, slotKey_holds _ hcell.2.1 hcell.1.1]
  rfl

theorem findInLeafSlots_holds (hs : Sorted entries) (key : Bytes) :
    findInLeafSlots pages id cells key = .ok (lookup key entries) := by
  have hlen : cells.length = entries.length := hholds.length_eq
  have hhead := getElem?_length_takeWhile (p := fun e : Entry => e.1 < key) entries
  have hle := (takeWhile_sublist (fun e : Entry => decide (e.1 < key)) (l := entries)).length_le
  rw [findInLeafSlots, leafLowerBound_holds hholds hs, ok_bind, lookup_eq_head hs, ← hhead]
  generalize (entries.takeWhile (fun e => e.1 < key)).length = i at hle
  split_ifs with hend
  · rw [getElem?_eq_none (by omega)]
    rfl
  · have hi : i < entries.length := by omega
    have hc : i < cells.length := hlen ▸ hi
    have hcell : cells[i].Holds pages entries[i] := hholds.get hc hi
    rw [slotCell_ok hc, ok_bind, if_neg (not_lt.mpr hcell.value_len_le)]
    simp only [pure_eq_ok]
    rw [slotKey_holds _ hcell.2.1 hcell.1.1, ok_bind, getElem?_eq_getElem hi]
    dsimp only
    by_cases hk : entries[i].1 = key
    · rw [if_pos hk, if_pos hk]
      exact congrArg (fun s => Except.ok (some s)) hcell.stored_eq
    · rw [if_neg hk, if_neg hk]

theorem findInLeafWalk_holds (key : Bytes) (offset : Nat) (hs : Sorted entries)
    (hfit : offset + (cells.map LeafCell.bytes).sum ≤ pageSize) :
    findInLeafWalk pages id key offset cells = .ok (lookup key entries) := by
  induction hholds generalizing offset with
  | nil => rfl
  | @cons _ entry _ _ hc _ ih =>
    obtain ⟨hlt, hsorted⟩ := sorted_cons.mp hs
    have hvlen := hc.value_len_le
    have hstored := hc.stored_eq
    obtain ⟨⟨⟨_, _⟩, _⟩, hkey, _⟩ := hc
    rw [map_cons, sum_cons, LeafCell.bytes] at hfit
    rw [findInLeafWalk, requirePage, if_neg (by omega), ok_bind,
      if_neg (by rw [hkey.len_eq]; omega)]
    simp only [pure_eq_ok]
    rw [decodeKey_holds hkey (by omega), ok_bind]
    by_cases hgt : key < entry.1
    · rw [if_pos hgt, lookup_eq_none]
      exact forall_mem_cons.mpr ⟨hgt.ne', fun e he => (hgt.trans (hlt e he)).ne'⟩
    · rw [if_neg hgt, requirePage, if_neg (by omega)]
      simp only [ok_bind]
      split_ifs with heq
      · rw [hstored, lookup_entry, if_pos heq.symm]
      · rw [ih _ hsorted (by omega), lookup_entry, if_neg (Ne.symm heq)]

end

/-- **LEAF LOOKUP**: a leaf, with a slot directory or without, answers by the order of its
    keys. -/
theorem lookupInLeaf_node (hn : Node ordered 0 pages id entries) (key : Bytes) :
    lookupInLeaf pages id key = .ok (lookup key entries) := by
  obtain ⟨slots, cells, hp, hcells, _, hs, hfit⟩ := hn
  have hholds := forall₂_mono_view hcells
  rw [lookupInLeaf, readPage_ok.mpr hp, ok_bind]
  dsimp only
  rw [findInLeaf, if_neg (not_lt.mpr (leafCount_le hfit))]
  cases slots with
  | true => rw [if_pos rfl, findInLeafSlots_holds hholds hs]
  | false =>
    rw [if_neg (by simp), findInLeafWalk_holds hholds key headerSize hs
      (by rw [cellsBytes] at hfit; omega)]

/-- **POINT LOOKUP**: the leaf a tree within the depth bound leads to answers for it. -/
theorem lookup_node {root : Nat} (hn : Node ordered h pages root entries) (hd : h < maxTreeDepth)
    (key : Bytes) :
    ∃ leaf path, findLeaf pages root key = .ok (leaf, path) ∧
      lookupInLeaf pages leaf key = .ok (lookup key entries) := by
  obtain ⟨leaf, leafEntries, path, hfind, hpath⟩ := findLeafFrom_node key hn hd le_rfl
  refine ⟨leaf, path, hfind, ?_⟩
  rw [hpath.leaf.2]
  exact lookupInLeaf_node hpath.leaf.1 key

end Vyrn
