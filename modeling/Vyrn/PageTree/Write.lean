import Mathlib.Algebra.Order.BigOperators.Group.List
import Vyrn.PageTree.Node

/-!
# Decoding what pages hold, and writing levels of pages

Decoding a page of a tree succeeds and returns what the page holds (**`readLeaf_node`**,
**`nodeRefFrom_node`**, **`decodeInternal_row`**); the level writers succeed and append a row of
siblings that holds what they were given (**`writeLeafLevel_spec`**, **`writeInternalLevel_spec`**).
Later modules use these and never unfold a codec.
-/

namespace Vyrn

open SortedMap List Packing

variable {ordered slots : Bool} {key : Bytes} {entry : Entry} {cell : KeyCell} {tail : Kids}
  {entries : List Entry} {cells : List InternalCell} {first h id offset : Nat} {child : NodeRef}
  {head : NodeRef × List Entry} {pages pages' : Pages} {children : List NodeRef}
  {leaf : List LeafCell}

/-! ## Sizes -/

theorem view_grows (ordered : Bool) (pages : Pages) (id : Nat) :
    view ordered pages id <+: pages := by
  cases ordered with
  | false => exact prefix_refl pages
  | true => exact List.take_prefix id pages

theorem KeyCell.Holds.grow (hp : pages <+: pages') (h : cell.Holds pages key) :
    cell.Holds pages' key := by
  obtain ⟨more, rfl⟩ := hp
  exact h.mono more

/-- A cell takes the bytes its key is priced at. -/
theorem KeyCell.Holds.inPage_eq (h : cell.Holds pages key) : cell.inPage = inlineKeyBytes key := by
  cases cell with
  | inline =>
    obtain ⟨rfl, hle⟩ := h
    rw [inlineKeyBytes, if_pos hle]; rfl
  | blob =>
    rw [inlineKeyBytes, if_neg (not_le.mpr h.2.1)]; rfl

theorem KeyCell.Holds.len_eq (h : cell.Holds pages key) : cell.len = key.length := by
  cases cell with
  | inline => rw [h.1]; rfl
  | blob => exact h.1

theorem inlineKeyBytes_le (key : Bytes) : inlineKeyBytes key ≤ inlineLimit := by
  rw [inlineKeyBytes]
  split_ifs with h
  · exact h
  · exact Nat.zero_le _

theorem leafCellSize_le (h : StoredEntry entry) : leafCellSize entry ≤ 2081 := by
  have hk := inlineKeyBytes_le entry.1
  rw [inlineLimit] at hk
  have hv := h.2
  rw [leafCellSize, leafCellHeader]
  cases hvalue : entry.2.value with
  | inline value =>
    rw [hvalue] at hv
    have : value.length ≤ 1024 := hv
    dsimp only
    omega
  | external => dsimp only; omega

theorem leafCell_fits (h : StoredEntry entry) :
    headerSize + (leafCellSize entry + slotSize) ≤ pageSize := by
  have hle := leafCellSize_le h
  rw [headerSize, slotSize, pageSize]
  omega

theorem internalCellSize_le (key : Bytes) : internalCellSize key ≤ 1045 := by
  have hk := inlineKeyBytes_le key
  rw [inlineLimit] at hk
  rw [internalCellSize, internalCellHeader]
  omega

theorem leafBytes_eq (h : Forall₂ (LeafCell.Holds pages) leaf entries) :
    leaf.map LeafCell.bytes = entries.map leafCellSize := by
  refine map_eq_map_of_forall₂ h (fun _ entry hc => ?_)
  rw [LeafCell.bytes, leafCellSize, hc.2.1.inPage_eq, hc.2.2.1]
  cases entry.2.value <;> rfl

theorem internalBytes_eq (h : Forall₂ (InternalCell.Holds pages) cells children) :
    cells.map InternalCell.bytes = children.map (fun child => internalCellSize child.minKey) :=
  map_eq_map_of_forall₂ h (fun _ _ hc => by
    rw [InternalCell.bytes, internalCellSize, hc.2.1.inPage_eq])

/-- A page within its size holds a bounded number of cells of `least` bytes or more. -/
theorem length_le_of_cellsBytes {sizes : List Nat} (least : Nat) (hleast : ∀ n ∈ sizes, least ≤ n)
    (h : cellsBytes slots sizes ≤ pageSize) : sizes.length * least ≤ pageSize - headerSize := by
  have hsum : sizes.length * least ≤ sizes.sum := card_nsmul_le_sum sizes least hleast
  rw [cellsBytes] at h
  omega

/-! ## Decoding a leaf -/

theorem decodeKey_holds (h : cell.Holds pages key) (hfit : offset + cell.inPage ≤ pageSize) :
    decodeKey pages id offset cell = .ok (key, offset + cell.inPage) := by
  cases cell with
  | inline =>
    obtain ⟨rfl, _⟩ := h
    rw [KeyCell.inPage] at hfit ⊢
    rw [decodeKey, requirePage, if_neg (not_lt.mpr hfit)]
    rfl
  | blob =>
    rw [decodeKey, h.2.2]
    rfl

theorem decodeLeafCell_holds {cell : LeafCell} (h : cell.Holds pages entry)
    (hfit : offset + cell.bytes ≤ pageSize) :
    decodeLeafCell pages id offset cell = .ok (entry, offset + cell.bytes) := by
  obtain ⟨⟨⟨_, _⟩, hvalid⟩, hkey, hvalue, hrev⟩ := h
  rw [LeafCell.bytes] at hfit ⊢
  have hlen := hkey.len_eq
  have hvlen : cell.value.len ≤ maxValueSize := by
    rw [hvalue]
    cases hv : entry.2.value with
    | inline value =>
      rw [hv] at hvalid
      have h1 : value.length ≤ 1024 := hvalid
      show value.length ≤ maxValueSize
      rw [maxValueSize]; omega
    | external =>
      rw [hv] at hvalid
      exact hvalid.2.1
  rw [decodeLeafCell, requirePage, if_neg (by omega), ok_bind, if_neg (by rw [hlen]; omega)]
  simp only [pure_eq_ok]
  rw [decodeKey_holds hkey (by omega), ok_bind]
  cases hv : entry.2.value with
  | inline value =>
    have hcv : cell.value = .inline value := by rw [hvalue, hv]; rfl
    rw [hcv] at hfit ⊢
    dsimp only
    rw [requirePage, if_neg (by rw [ValueCell.inPage] at hfit; omega), ok_bind, hrev, ← hv]
    rw [show offset + (leafCellHeader + cell.key.inPage + (ValueCell.inline value).inPage)
      = offset + leafCellHeader + cell.key.inPage + value.length by
        rw [ValueCell.inPage]; omega]
  | external reference =>
    have hcv : cell.value = .external reference.offset reference.len := by
      rw [hvalue, hv]; rfl
    rw [hv] at hvalid
    rw [hcv]
    dsimp only
    rw [hrev, ← hvalid.2.2, ← hv, show offset + (leafCellHeader + cell.key.inPage
      + (ValueCell.external reference.offset reference.len).inPage)
      = offset + leafCellHeader + cell.key.inPage by rw [ValueCell.inPage]; omega]
    rw [hvalid.2.2]

theorem decodeLeafCells_holds (h : Forall₂ (LeafCell.Holds pages) leaf entries) (offset : Nat)
    (hfit : offset + (leaf.map LeafCell.bytes).sum ≤ pageSize) :
    decodeLeafCells pages id offset leaf = .ok entries := by
  induction h generalizing offset with
  | nil => rfl
  | cons hc _ ih =>
    rw [map_cons, sum_cons] at hfit
    rw [decodeLeafCells, decodeLeafCell_holds hc (by omega), ok_bind]
    dsimp only
    rw [ih _ (by omega)]
    rfl

theorem leafCount_le (hfit : cellsBytes slots (leaf.map LeafCell.bytes) ≤ pageSize) :
    leaf.length ≤ maxLeafEntries := by
  have hl := length_le_of_cellsBytes 33 (fun n hn => by
    rw [mem_map] at hn
    obtain ⟨cell, _, rfl⟩ := hn
    rw [LeafCell.bytes, leafCellHeader]; omega) hfit
  rw [length_map, pageSize, headerSize] at hl
  show leaf.length ≤ 122
  omega

theorem LeafCell.Holds.grow (hp : pages <+: pages') {cell : LeafCell} (h : cell.Holds pages entry) :
    cell.Holds pages' entry := by
  obtain ⟨more, rfl⟩ := hp
  exact h.mono more

theorem InternalCell.Holds.grow (hp : pages <+: pages') {cell : InternalCell}
    (h : cell.Holds pages child) : cell.Holds pages' child := by
  obtain ⟨more, rfl⟩ := hp
  exact h.mono more

theorem decodeLeaf_holds (h : Forall₂ (LeafCell.Holds pages) leaf entries)
    (hfit : cellsBytes slots (leaf.map LeafCell.bytes) ≤ pageSize) :
    decodeLeaf pages id leaf = .ok entries := by
  rw [decodeLeaf, if_neg (not_lt.mpr (leafCount_le hfit))]
  exact decodeLeafCells_holds h headerSize (by rw [cellsBytes] at hfit; omega)

theorem forall₂_mono_view (h : Forall₂ (LeafCell.Holds (view ordered pages id)) leaf entries) :
    Forall₂ (LeafCell.Holds pages) leaf entries :=
  h.imp (fun _ _ hc => hc.grow (view_grows ordered pages id))

/-- **LEAF**: a leaf of a tree decodes to the entries it holds. -/
theorem readLeaf_node (h : Node ordered 0 pages id entries) : readLeaf pages id = .ok entries := by
  obtain ⟨slots, cells, hp, hcells, _, _, hfit⟩ := h
  rw [readLeaf, readPage_ok.mpr hp, ok_bind]
  exact decodeLeaf_holds (forall₂_mono_view hcells) hfit

/-! ## The smallest key below a page -/

/-- The first key of a nonempty run of entries. -/
def firstKey : List Entry → Bytes
  | [] => []
  | entry :: _ => entry.1

theorem firstKey_mem (h : entries ≠ []) : ∃ e ∈ entries, e.1 = firstKey entries := by
  cases entries with
  | nil => exact absurd rfl h
  | cons entry entries => exact ⟨entry, mem_cons_self, rfl⟩

theorem firstKey_le (hs : Sorted entries) : ∀ e ∈ entries, firstKey entries ≤ e.1 := by
  cases entries with
  | nil => simp
  | cons entry entries =>
    exact forall_mem_cons.mpr ⟨le_rfl, fun e he => ((sorted_cons.mp hs).1 e he).le⟩

theorem firstKey_append {a : List Entry} (h : a ≠ []) (b : List Entry) :
    firstKey (a ++ b) = firstKey a := by
  cases a with
  | nil => exact absurd rfl h
  | cons entry a => rfl

theorem firstLeafKey_holds (h : Forall₂ (LeafCell.Holds pages) leaf entries) (hne : entries ≠ [])
    (hfit : cellsBytes slots (leaf.map LeafCell.bytes) ≤ pageSize) :
    firstLeafKey pages id leaf = .ok (firstKey entries) := by
  have hcount := leafCount_le hfit
  cases h with
  | nil => exact absurd rfl hne
  | @cons cell _ _ _ hc =>
    obtain ⟨⟨⟨_, _⟩, _⟩, hkey, _⟩ := hc
    have hbytes : headerSize + cell.bytes ≤ pageSize := by
      rw [cellsBytes, map_cons, sum_cons] at hfit; omega
    rw [firstLeafKey, if_neg (not_lt.mpr hcount),
      if_neg (by rw [hkey.len_eq]; omega), decodeKey_holds hkey
        (by rw [LeafCell.bytes] at hbytes; omega)]
    rfl

/-- A walk that may still go down makes a step. -/
theorem exists_fuel {depth fuel : Nat} (h : depth < fuel) : ∃ rest, fuel = rest + 1 :=
  ⟨fuel - 1, by omega⟩

theorem nodeRefFrom_node (pageId : Nat) {fuel : Nat} (hn : Node ordered h pages id entries)
    (hf : h < fuel) : nodeRefFrom pages pageId fuel id = .ok ⟨pageId, firstKey entries⟩ := by
  induction h generalizing fuel pages id entries with
  | zero =>
    obtain ⟨fuel, rfl⟩ := exists_fuel hf
    obtain ⟨slots, cells, hp, hcells, hne, _, hfit⟩ := hn
    rw [nodeRefFrom, readPage_ok.mpr hp, ok_bind]
    dsimp only
    rw [firstLeafKey_holds (forall₂_mono_view hcells) hne hfit]
    rfl
  | succ h ih =>
    obtain ⟨fuel, rfl⟩ := exists_fuel hf
    obtain ⟨slots, first, cells, hp, _, minKey, head, tail, _, hl, rfl⟩ := hn
    obtain ⟨⟨hhead, _⟩, _⟩ := linked_cons.mp hl
    rw [nodeRefFrom, readPage_ok.mpr hp, ok_bind]
    dsimp only
    rw [ih (hhead.grow (view_grows ordered pages id)) (by omega), firstKey_append hhead.ne_nil]

/-! ## Decoding an internal page -/

theorem decodeInternalCell_holds {cell : InternalCell} (h : cell.Holds pages child)
    (hfit : offset + cell.bytes ≤ pageSize) :
    decodeInternalCell pages id offset cell = .ok (child, offset + cell.bytes) := by
  obtain ⟨⟨_, _⟩, hkey, hchild⟩ := h
  rw [InternalCell.bytes] at hfit ⊢
  rw [decodeInternalCell, requirePage, if_neg (by omega), ok_bind,
    if_neg (by rw [hkey.len_eq]; omega)]
  simp only [pure_eq_ok]
  rw [decodeKey_holds hkey (by omega), ok_bind]
  rw [hchild, add_assoc]

theorem decodeInternalCells_holds (h : Forall₂ (InternalCell.Holds pages) cells children)
    (offset : Nat) (hfit : offset + (cells.map InternalCell.bytes).sum ≤ pageSize) :
    decodeInternalCells pages id offset cells = .ok children := by
  induction h generalizing offset with
  | nil => rfl
  | cons hc _ ih =>
    rw [map_cons, sum_cons] at hfit
    rw [decodeInternalCells, decodeInternalCell_holds hc (by omega), ok_bind]
    dsimp only
    rw [ih _ (by omega)]
    rfl

theorem internalCount_lt (hfit : cellsBytes slots (cells.map InternalCell.bytes) ≤ pageSize) :
    cells.length < maxInternalChildren := by
  have hl := length_le_of_cellsBytes 21 (fun n hn => by
    rw [mem_map] at hn
    obtain ⟨cell, _, rfl⟩ := hn
    rw [InternalCell.bytes, internalCellHeader]; omega) hfit
  rw [length_map, pageSize, headerSize] at hl
  show cells.length < 194
  omega

/-- The bytes a row of siblings takes as cells of one page, slots included. -/
def rowBytes (kids : List (NodeRef × List Entry)) : Nat :=
  (kids.map (fun kid => internalCellSize kid.1.minKey + slotSize)).sum

/-- What an internal page holds, as a row of siblings of the whole file: the first child
    named by its smallest key, the others by their separators. -/
structure Row (ordered : Bool) (h : Nat) (pages : Pages) (first : Nat)
    (cells : List InternalCell) (entries : List Entry)
    (head : NodeRef × List Entry) (tail : List (NodeRef × List Entry)) : Prop where
  first_eq : head.1 = ⟨first, firstKey head.2⟩
  linked : Linked (Node ordered h pages) (head :: tail)
  entries_eq : entries = contents (head :: tail)
  cells_hold : Forall₂ (InternalCell.Holds pages) cells (tail.map Prod.fst)
  fits : ∃ slots, cellsBytes slots (cells.map InternalCell.bytes) ≤ pageSize

/-- **INTERNAL**: an internal page of a tree is a row of siblings. -/
theorem Node.row (hn : Node ordered (h + 1) pages id entries) :
    ∃ slots first cells head tail, pages[id]? = some (.internal slots first cells) ∧
      Row ordered h pages first cells entries head tail := by
  obtain ⟨slots, first, cells, hp, hfit, minKey, head, tail, hcells, hl, rfl⟩ := hn
  have hview := view_grows ordered pages id
  obtain ⟨⟨hhead, _⟩, htail, hapart⟩ := linked_cons.mp (hl.grow hview)
  refine ⟨slots, first, cells, (⟨first, firstKey head⟩, head), tail, hp, ⟨rfl, ?_, rfl,
    hcells.imp (fun _ _ hc => hc.grow hview), slots, hfit⟩⟩
  obtain ⟨e, he, heq⟩ := firstKey_mem hhead.ne_nil
  exact linked_cons.mpr ⟨⟨hhead, heq ▸ (hhead.storedEntry e he).1, firstKey_le hhead.sorted⟩,
    htail, hapart⟩

section

variable (hr : Row ordered h pages first cells entries head tail)
include hr

theorem decodeInternal_row (hd : h < maxTreeDepth) :
    decodeInternal pages id first cells = .ok ((head :: tail).map Prod.fst) := by
  obtain ⟨slots, hfit⟩ := hr.fits
  obtain ⟨⟨hhead, _⟩, _⟩ := linked_cons.mp hr.linked
  rw [hr.first_eq] at hhead
  rw [decodeInternal, if_neg (not_le.mpr (internalCount_lt hfit)), nodeRef,
    nodeRefFrom_node first hhead hd, ok_bind,
    decodeInternalCells_holds hr.cells_hold headerSize (by rw [cellsBytes] at hfit; omega)]
  rw [map_cons, hr.first_eq]
  rfl

/-- The children of a page, freshly decoded, have no separator below its first key. -/
theorem Row.firstKey_le : ∀ kid ∈ head :: tail, firstKey entries ≤ kid.1.minKey := by
  obtain ⟨⟨hhead, _⟩, _, hapart⟩ := linked_cons.mp hr.linked
  have hfirst : firstKey entries = firstKey head.2 := by
    rw [hr.entries_eq, contents_cons, firstKey_append hhead.ne_nil]
  intro kid hk
  rw [hfirst]
  rcases mem_cons.mp hk with rfl | hk
  · rw [hr.first_eq]
  · obtain ⟨e, he, heq⟩ := firstKey_mem hhead.ne_nil
    exact heq ▸ (hapart kid hk e he).le

omit hr in
theorem Row.mono (more : Pages) (hr : Row ordered h pages first cells entries head tail) :
    Row ordered h (pages ++ more) first cells entries head tail :=
  ⟨hr.first_eq, hr.linked.grow (prefix_append pages more), hr.entries_eq,
    hr.cells_hold.imp (fun _ _ hc => hc.mono more), hr.fits⟩

/-- The bytes a page's children take, all written as cells with slots. -/
theorem Row.rowBytes_le : rowBytes (head :: tail) ≤ 5489 := by
  obtain ⟨slots, hfit⟩ := hr.fits
  have hcount : cells.length < 194 := internalCount_lt hfit
  have hsum : (cells.map InternalCell.bytes).sum ≤ 4056 := by
    rw [cellsBytes, headerSize, pageSize] at hfit
    omega
  have hlen : cells.length = tail.length := by
    rw [hr.cells_hold.length_eq, length_map]
  rw [internalBytes_eq hr.cells_hold, map_map] at hsum
  have hhead := internalCellSize_le head.1.minKey
  have htail : rowBytes tail = (tail.map (fun kid => internalCellSize kid.1.minKey)).sum
      + tail.length * 2 := by
    rw [rowBytes, sum_map_add, map_const', sum_replicate]
    rfl
  rw [rowBytes, map_cons, sum_cons, ← rowBytes, htail, slotSize]
  have hsum' : (tail.map (fun kid => internalCellSize kid.1.minKey)).sum ≤ 4056 := hsum
  omega

end

/-! ## Writing one page -/

theorem encodeKey_spec (hp : pages ≠ []) (key : Bytes) :
    pages <+: (encodeKey pages key).2 ∧
      (encodeKey pages key).1.Holds (encodeKey pages key).2 key := by
  rw [encodeKey]
  split_ifs with h
  · have hk : key ≠ [] := fun hnil => by rw [hnil] at h; exact absurd h (by decide)
    exact ⟨writeBlob_grows pages key, rfl, h, readBlob_writeBlob hp hk⟩
  · exact ⟨prefix_refl pages, rfl, not_lt.mp h⟩

theorem encodeLeafCells_spec (hp : pages ≠ []) (hs : ∀ e ∈ entries, StoredEntry e) :
    pages <+: (encodeLeafCells pages entries).2 ∧
      Forall₂ (LeafCell.Holds (encodeLeafCells pages entries).2)
        (encodeLeafCells pages entries).1 entries := by
  induction entries generalizing pages with
  | nil => exact ⟨prefix_refl pages, Forall₂.nil⟩
  | cons entry entries ih =>
    rw [forall_mem_cons] at hs
    obtain ⟨hpre, hkey⟩ := encodeKey_spec hp entry.1
    obtain ⟨hpre', hcells⟩ := ih (hpre.ne_nil hp) hs.2
    exact ⟨hpre.trans hpre', Forall₂.cons ⟨hs.1, hkey.grow hpre', rfl, rfl⟩ hcells⟩

theorem encodeInternalCells_spec (hp : pages ≠ [])
    (hs : ∀ child ∈ children, StoredKey child.minKey) :
    pages <+: (encodeInternalCells pages children).2 ∧
      Forall₂ (InternalCell.Holds (encodeInternalCells pages children).2)
        (encodeInternalCells pages children).1 children := by
  induction children generalizing pages with
  | nil => exact ⟨prefix_refl pages, Forall₂.nil⟩
  | cons child children ih =>
    rw [forall_mem_cons] at hs
    obtain ⟨hpre, hkey⟩ := encodeKey_spec hp child.minKey
    obtain ⟨hpre', hcells⟩ := ih (hpre.ne_nil hp) hs.2
    exact ⟨hpre.trans hpre', Forall₂.cons ⟨hs.1, hkey.grow hpre', rfl⟩ hcells⟩

/-- The page just appended may look at everything before it. -/
theorem view_concat (ordered : Bool) (pages : Pages) (page : Page) :
    pages <+: view ordered (pages ++ [page]) pages.length := by
  cases ordered with
  | false => exact prefix_append _ _
  | true =>
    have hview : view true (pages ++ [page]) pages.length = pages := by
      rw [view, if_pos rfl, take_left]
    exact ⟨[], (append_nil _).trans hview.symm⟩

theorem cellsBytes_true (sizes : List Nat) :
    cellsBytes true sizes = headerSize + (sizes.map (fun n => n + slotSize)).sum := by
  have hsum : (sizes.map (fun n => n + slotSize)).sum = sizes.sum + sizes.length * slotSize := by
    induction sizes with
    | nil => rfl
    | cons n sizes ih =>
      rw [map_cons, sum_cons, ih, sum_cons, length_cons, Nat.succ_mul]
      omega
  rw [cellsBytes, hsum, if_pos rfl]
  omega

/-- Page zero is the super page, so no page of a tree is page zero. -/
def SuperFirst (pages : Pages) : Prop := pages[0]? = some .super

theorem SuperFirst.ne_nil (h : SuperFirst pages) : pages ≠ [] := by
  rintro rfl
  exact absurd h (by simp [SuperFirst])

theorem SuperFirst.grow (h : SuperFirst pages) (hp : pages <+: pages') : SuperFirst pages' := by
  obtain ⟨more, rfl⟩ := hp
  exact getElem?_append_some more h

theorem SuperFirst.id_ne_zero (hs : SuperFirst pages) (hn : Node ordered h pages id entries) :
    id ≠ 0 := by
  rintro rfl
  cases h with
  | zero =>
    obtain ⟨_, _, hp, _⟩ := hn
    rw [hs] at hp; exact absurd hp (by simp)
  | succ h =>
    obtain ⟨_, _, _, hp, _⟩ := hn
    rw [hs] at hp; exact absurd hp (by simp)

/-- **LEAF WRITER**. -/
theorem writeLeaf_spec (ordered : Bool) (hp : pages ≠ []) (hne : entries ≠ []) (hs : Sorted entries)
    (hstored : ∀ e ∈ entries, StoredEntry e)
    (hfit : headerSize + (entries.map (fun e => leafCellSize e + slotSize)).sum ≤ pageSize) :
    ∃ node pages', writeLeaf pages entries = .ok (node, pages') ∧ pages <+: pages' ∧
      Node ordered 0 pages' node.pageId entries ∧ node.minKey = firstKey entries := by
  obtain ⟨hpre, hcells⟩ := encodeLeafCells_spec hp hstored
  have hbytes : cellsBytes true ((encodeLeafCells pages entries).1.map LeafCell.bytes)
      ≤ pageSize := by
    rw [leafBytes_eq hcells, cellsBytes_true, map_map]
    exact hfit
  cases entries with
  | nil => exact absurd rfl hne
  | cons first rest =>
    refine ⟨⟨(encodeLeafCells pages (first :: rest)).2.length, first.1⟩,
      (encodeLeafCells pages (first :: rest)).2 ++
        [.leaf true (encodeLeafCells pages (first :: rest)).1], ?_, ?_, ?_, rfl⟩
    · rw [writeLeaf]; exact if_neg (not_lt.mpr hbytes)
    · exact hpre.trans (prefix_append _ _)
    · exact ⟨true, _, by simp, hcells.imp (fun _ _ hc =>
        hc.grow (view_concat ordered _ _)), hne, hs, hbytes⟩

/-- What a row takes in one page, the first child free. -/
theorem writeInternal_spec (ordered : Bool) (hp : pages ≠ [])
    (hl : Linked (Node ordered h pages) (head :: tail))
    (hfit : headerSize + rowBytes tail ≤ pageSize) :
    ∃ node pages', writeInternal pages ((head :: tail).map Prod.fst) = .ok (node, pages') ∧
      pages <+: pages' ∧ Node ordered (h + 1) pages' node.pageId (contents (head :: tail)) ∧
      node.minKey = head.1.minKey ∧ (h < maxTreeDepth → head.1.minKey = firstKey head.2 →
        readInternalChildren pages' node.pageId = .ok ((head :: tail).map Prod.fst)) := by
  have hstored : ∀ child ∈ tail.map Prod.fst, StoredKey child.minKey := by
    intro child hc
    obtain ⟨kid, hk, rfl⟩ := mem_map.mp hc
    exact hl.stored kid (mem_cons_of_mem _ hk)
  obtain ⟨hpre, hcells⟩ := encodeInternalCells_spec hp hstored
  set encoded := encodeInternalCells pages (tail.map Prod.fst)
  have hbytes : cellsBytes true (encoded.1.map InternalCell.bytes) ≤ pageSize := by
    rw [internalBytes_eq hcells, cellsBytes_true, map_map, map_map]
    exact hfit
  have hview := view_concat ordered encoded.2 (.internal true head.1.pageId encoded.1)
  refine ⟨⟨encoded.2.length, head.1.minKey⟩,
    encoded.2 ++ [.internal true head.1.pageId encoded.1], ?_, hpre.trans (prefix_append _ _), ?_,
    rfl, fun hd hfirst => ?_⟩
  · rw [map_cons, writeInternal]; exact if_neg (not_lt.mpr hbytes)
  · exact ⟨true, head.1.pageId, _, by simp, hbytes, head.1.minKey, head.2, tail,
      hcells.imp (fun _ _ hc => hc.grow hview), hl.grow (hpre.trans hview), rfl⟩
  · rw [readInternalChildren, readPage_ok.mpr getElem?_concat_length, ok_bind]
    exact decodeInternal_row ⟨congrArg (NodeRef.mk _) hfirst,
      hl.grow (hpre.trans (prefix_append _ _)), rfl,
      hcells.imp (fun _ _ hc => hc.grow (prefix_append _ _)), true, hbytes⟩ hd

/-! ## Writing a level -/

/-- Writing chunk after chunk: what holds of each page when it is written holds of all of
    them at the end. -/
theorem writeAll_spec {α β : Type} (write : Pages → List α → Except Error (NodeRef × Pages))
    (f : List β → List α) (written : Pages → NodeRef → List β → Prop)
    (hmono : ∀ {pages pages' : Pages} {node : NodeRef} {chunk : List β}, pages <+: pages' →
      written pages node chunk → written pages' node chunk) {chunks : List (List β)}
    (hwrite : ∀ chunk ∈ chunks, ∀ pages', pages <+: pages' → ∃ node pages'',
      write pages' (f chunk) = .ok (node, pages'') ∧ pages' <+: pages'' ∧
        written pages'' node chunk) :
    ∃ (out : List (NodeRef × List β)) (pages' : Pages),
      writeAll write pages (chunks.map f) = .ok (out.map Prod.fst, pages') ∧
      pages <+: pages' ∧ out.map Prod.snd = chunks ∧ ∀ x ∈ out, written pages' x.1 x.2 := by
  induction chunks generalizing pages with
  | nil => exact ⟨[], pages, rfl, prefix_refl pages, rfl, by simp⟩
  | cons chunk chunks ih =>
    obtain ⟨node, pages₁, hok, hpre, hw⟩ :=
      hwrite chunk mem_cons_self pages (prefix_refl pages)
    obtain ⟨out, pages₂, hok', hpre', hchunks, hall⟩ := ih
      (fun c hc pages' hp => hwrite c (mem_cons_of_mem _ hc) pages' (hpre.trans hp))
    refine ⟨(node, chunk) :: out, pages₂, ?_, hpre.trans hpre', ?_, ?_⟩
    · rw [map_cons, writeAll, hok, ok_bind]
      dsimp only
      rw [hok']
      rfl
    · rw [map_cons, hchunks]
    · exact forall_mem_cons.mpr ⟨hmono hpre' hw, hall⟩

/-- **LEVEL**: items in order, cut into chunks and written chunk by chunk, make a row of siblings
    that holds what the items hold, each named by the first item of its chunk. -/
theorem writeLevel_spec {α β : Type} {write : Pages → List α → Except Error (NodeRef × Pages)}
    {f : List β → List α} {key : β → Bytes} {hold : β → List Entry} {items : List β}
    {chunks : List (List β)} (hflat : chunks.flatten = items)
    (hitems : ∀ x ∈ items, StoredKey (key x) ∧ hold x ≠ [] ∧ ∀ e ∈ hold x, key x ≤ e.1)
    (hapart : items.Pairwise (fun a b => ∀ e ∈ hold a, e.1 < key b))
    (hwrite : ∀ chunk ∈ chunks, ∀ pages', pages <+: pages' → ∃ node pages'',
      write pages' (f chunk) = .ok (node, pages'') ∧ pages' <+: pages'' ∧
        Node ordered h pages'' node.pageId (chunk.flatMap hold) ∧
        ∃ x ∈ chunk.head?, node.minKey = key x) :
    ∃ kids pages', writeAll write pages (chunks.map f) = .ok (kids.map Prod.fst, pages') ∧
      pages <+: pages' ∧ Linked (Node ordered h pages') kids ∧
      contents kids = items.flatMap hold ∧ kids.length = chunks.length ∧
      ∀ kid ∈ kids, ∃ x ∈ items, kid.1.minKey = key x := by
  obtain ⟨out, pages', hok, hpre, rfl, hall⟩ := writeAll_spec write f
    (fun pages node chunk => Node ordered h pages node.pageId (chunk.flatMap hold) ∧
      ∃ x ∈ chunk.head?, node.minKey = key x)
    (fun hpre hw => ⟨hw.1.grow hpre, hw.2⟩) hwrite
  obtain ⟨hwithin, hbetween⟩ := pairwise_flatten.mp (hflat.symm ▸ hapart)
  have hsub : ∀ out' ∈ out, ∀ x ∈ out'.2, x ∈ items := fun out' hout x hx =>
    hflat ▸ mem_flatten.mpr ⟨out'.2, mem_map_of_mem hout, hx⟩
  have hname : ∀ out' ∈ out, ∃ x ∈ out'.2, out'.1.minKey = key x := by
    intro out' hout
    obtain ⟨_, x, hx, heq⟩ := hall out' hout
    exact ⟨x, mem_of_mem_head? hx, heq⟩
  refine ⟨out.map (fun x => (x.1, x.2.flatMap hold)), pages', by rw [hok, map_map]; rfl, hpre,
    ⟨?_, ?_, ?_, pairwise_map.mpr ?_⟩, ?_, by rw [length_map, length_map], ?_⟩
  · exact forall_mem_map.mpr (fun out' hout => (hall out' hout).1)
  · refine forall_mem_map.mpr (fun out' hout => ?_)
    obtain ⟨x, hx, heq⟩ := hname out' hout
    exact heq ▸ (hitems x (hsub out' hout x hx)).1
  · -- the page is named by its first item, which names the least of the chunk
    refine forall_mem_map.mpr (fun out' hout e he => ?_)
    obtain ⟨_, x, hx, heq⟩ := hall out' hout
    obtain ⟨rest, hchunk⟩ := head?_eq_some_iff.mp hx
    obtain ⟨y, hy, hey⟩ := mem_flatMap.mp he
    have hordered := hwithin out'.2 (mem_map_of_mem hout)
    have hitem := fun z hz => hitems z (hsub out' hout z hz)
    rw [hchunk] at hy hordered hitem
    dsimp only
    rw [heq]
    rcases mem_cons.mp hy with rfl | hrest
    · exact (hitem y mem_cons_self).2.2 e hey
    · obtain ⟨e', he'⟩ := exists_mem_of_ne_nil _ (hitem x mem_cons_self).2.1
      exact (((hitem x mem_cons_self).2.2 e' he').trans_lt
        ((pairwise_cons.mp hordered).1 y hrest e' he')).le.trans ((hitem y hy).2.2 e hey)
  · refine (pairwise_map.mp hbetween).imp_of_mem (fun {a b} _ hb hab e he => ?_)
    obtain ⟨x, hx, heq⟩ := hname b hb
    obtain ⟨y, hy, hey⟩ := mem_flatMap.mp he
    exact heq ▸ hab y hy x hx e hey
  · rw [contents, map_map, ← hflat, flatMap_def, map_flatten, flatten_flatten, map_map, map_map]
    rfl
  · refine forall_mem_map.mpr (fun out' hout => ?_)
    obtain ⟨x, hx, heq⟩ := hname out' hout
    exact ⟨x, hsub out' hout x hx, heq⟩

/-- **LEAF LEVEL**: the leaf writer succeeds on admissible ascending entries and appends a
    row of leaves that holds them, each named by a key it was given. -/
theorem writeLeafLevel_spec (ordered : Bool) (hp : pages ≠ []) (hne : entries ≠ [])
    (hs : Sorted entries) (hstored : ∀ e ∈ entries, StoredEntry e) :
    ∃ kids pages', writeLeafLevel pages entries = .ok (kids.map Prod.fst, pages') ∧
      pages <+: pages' ∧ Linked (Node ordered 0 pages') kids ∧ contents kids = entries ∧
      kids.length = (leafChunks entries).length ∧
      ∀ kid ∈ kids, ∃ e ∈ entries, kid.1.minKey = e.1 := by
  have hsmall := fun e he => leafCell_fits (hstored e he)
  have hflat : (leafChunks entries).flatten = entries := flatten_pack entries
  have hsorted := (pairwise_flatten.mp (hflat.symm ▸ hs)).1
  have hwrite : ∀ chunk ∈ leafChunks entries, ∀ pages', pages <+: pages' →
      ∃ node pages'', writeLeaf pages' (id chunk) = .ok (node, pages'') ∧ pages' <+: pages'' ∧
        Node ordered 0 pages'' node.pageId (chunk.flatMap (fun e => [e])) ∧
        ∃ e ∈ chunk.head?, node.minKey = e.1 := by
    intro chunk hc pages' hpages
    have hcost := cost_le_of_mem_pack hsmall chunk hc
    have hcne := ne_nil_of_mem_pack hne chunk hc
    have hstored' : ∀ e ∈ chunk, StoredEntry e := fun e he =>
      hstored e (hflat ▸ mem_flatten.mpr ⟨chunk, hc, he⟩)
    rw [flatMap_singleton']
    cases chunk with
    | nil => exact absurd rfl hcne
    | cons x xs =>
      obtain ⟨node, pages'', h1, h2, h3, h4⟩ := writeLeaf_spec ordered
        (hpages.ne_nil hp) hcne (hsorted _ hc) hstored'
        (by rw [cost] at hcost; rw [map_cons, sum_cons]; omega)
      exact ⟨node, pages'', h1, h2, h3, x, rfl, h4⟩
  obtain ⟨kids, pages', hok, hpre, hlinked, hcontents, hlen, hname⟩ :=
    writeLevel_spec hflat (fun e he => ⟨(hstored e he).1, cons_ne_nil _ _,
      forall_mem_singleton.mpr le_rfl⟩)
      (hs.imp (fun hab e he => mem_singleton.mp he ▸ hab)) hwrite
  rw [flatMap_singleton'] at hcontents
  refine ⟨kids, pages', ?_, hpre, hlinked, hcontents, hlen, hname⟩
  rw [writeLeafLevel, if_neg, ← hok, map_id]
  rw [any_eq_true]
  rintro ⟨e, he, hlt⟩
  have h1 := hsmall e he
  have h2 := of_decide_eq_true hlt
  omega

/-- The chunks of an internal level, seen on the row they come from. -/
def rowChunks (kids : List (NodeRef × List Entry)) : List (List (NodeRef × List Entry)) :=
  pack (fun _ => headerSize + 8)
    (fun kid => internalCellSize kid.1.minKey + slotSize) pageSize kids

theorem internalChunks_map (kids : Kids) :
    internalChunks (kids.map Prod.fst) = (rowChunks kids).map (map Prod.fst) := by
  cases kids with
  | nil => rfl
  | cons kid kids => exact packFrom_map Prod.fst kids [kid] _

/-- **INTERNAL LEVEL**: the internal writer succeeds on a row of siblings and appends a row
    of parents that holds the same entries, each named by a child it was given. -/
theorem writeInternalLevel_spec (ordered : Bool) {kids : Kids} (hp : pages ≠ []) (hne : kids ≠ [])
    (hl : Linked (Node ordered h pages) kids) :
    ∃ parents pages', writeInternalLevel pages (kids.map Prod.fst)
        = .ok (parents.map Prod.fst, pages') ∧
      pages <+: pages' ∧ Linked (Node ordered (h + 1) pages') parents ∧
      contents parents = contents kids ∧ parents.length = (rowChunks kids).length ∧
      ∀ parent ∈ parents, ∃ kid ∈ kids, parent.1.minKey = kid.1.minKey := by
  have hflat : (rowChunks kids).flatten = kids := flatten_pack kids
  have hchunk : ∀ chunk ∈ rowChunks kids, Linked (Node ordered h pages) chunk := by
    intro chunk hc
    have hsub : ∀ kid ∈ chunk, kid ∈ kids := fun kid hk =>
      hflat ▸ mem_flatten.mpr ⟨chunk, hc, hk⟩
    exact ⟨fun k hk => hl.holds k (hsub k hk), fun k hk => hl.stored k (hsub k hk),
      fun k hk => hl.above k (hsub k hk), (pairwise_flatten.mp (hflat.symm ▸ hl.apart)).1 chunk hc⟩
  rw [writeInternalLevel, internalChunks_map]
  refine writeLevel_spec hflat (fun kid hk => ⟨hl.stored kid hk, (hl.holds kid hk).ne_nil,
    hl.above kid hk⟩) hl.apart (fun chunk hc pages' hpages => ?_)
  have hcost := cost_le_of_mem_pack (fun _ _ => by decide) chunk hc
  have hcne := ne_nil_of_mem_pack hne chunk hc
  cases chunk with
  | nil => exact absurd rfl hcne
  | cons x xs =>
    rw [cost] at hcost
    obtain ⟨node, pages'', h1, h2, h3, h4, _⟩ := writeInternal_spec ordered
      (hpages.ne_nil hp) ((hchunk _ hc).grow hpages) (by rw [rowBytes]; omega)
    exact ⟨node, pages'', h1, h2, h3, x, rfl, h4⟩

end Vyrn
