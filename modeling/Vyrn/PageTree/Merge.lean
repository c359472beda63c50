import Vyrn.PageTree.Deep

/-!
# What the merge test predicts

An underfull page is merged with a neighbour when `pairFits` finds that both share a page; the
rewrite then packs their contents by the level writer's own sum. For internal pages that sum starts
with 8 bytes for the first child, which lies inside the header: a pair that fits with fewer than 8
bytes to spare is written as two pages again.

Main results: `pairFits_predicts`, `pairFits_overpromises`.
-/

namespace Vyrn

open SortedMap List Packing

variable {ordered : Bool} {entries : List Entry} {h id : Nat} {pages pages' : Pages}

/-! ## What the writers charge -/

/-- What the internal level writer charges one page for these children. -/
def levelBytes (children : List NodeRef) : Nat :=
  headerSize + 8 + (children.tail.map (fun child => internalCellSize child.minKey + slotSize)).sum

/-- What the cells and slots of a leaf's entries take. -/
def entriesBytes (entries : List Entry) : Nat :=
  (entries.map (fun e => leafCellSize e + slotSize)).sum

/-- A leaf that can be measured takes what its entries are priced at. -/
theorem pageUsedBytes_leaf (hn : Node ordered 0 pages id entries) {used : Nat}
    (h : pageUsedBytes pages id = .ok (some used)) : used = headerSize + entriesBytes entries := by
  obtain ⟨slots, cells, hp, hcells, hne, _, hfit⟩ := hn
  rw [pageUsedBytes, readPage_ok.mpr hp, ok_bind] at h
  dsimp only at h
  split_ifs at h with _ hempty hslots
  · cases h
  · subst hempty
    exact absurd (forall₂_nil_left_iff.mp hcells) hne
  · cases h
    rw [hslots] at hfit
    rw [min_eq_left hfit, leafBytes_eq hcells, cellsBytes_true, map_map]
    rfl
  · cases h

/-- Entries that fit a page together are written as one. -/
theorem leafChunks_one (hne : entries ≠ []) (hstored : ∀ e ∈ entries, StoredEntry e)
    (hfit : headerSize + entriesBytes entries ≤ pageSize) : (leafChunks entries).length = 1 := by
  refine (length_pack_eq_one hne (fun e he => leafCell_fits (hstored e he))).mpr ?_
  obtain ⟨e, rest, rfl⟩ := exists_cons_of_ne_nil hne
  rwa [entriesBytes, map_cons, sum_cons, ← add_assoc] at hfit

/-! ## Children that can be read -/

/-- The children of a page can be read only within the depth bound. -/
theorem readInternalChildren_shallow {children : List NodeRef}
    (hn : Node ordered (h + 1) pages id entries)
    (hread : readInternalChildren pages id = .ok children) : h < maxTreeDepth := by
  obtain ⟨slots, first, cells, head, tail, hp, hr⟩ := hn.row
  rw [readInternalChildren, readPage_ok.mpr hp, ok_bind] at hread
  dsimp only at hread
  rw [decodeInternal] at hread
  split_ifs at hread
  obtain ⟨child, hchild, _⟩ := bind_eq_ok.mp hread
  by_contra hdeep
  obtain ⟨error, herr⟩ := nodeRefFrom_deep (hr.linked.holds head mem_cons_self) (not_lt.mp hdeep)
  rw [hr.first_eq] at herr
  cases herr.symm.trans hchild

/-- Children that the internal writer's sum lets share a page are written as one page, and read
    back from it as they were. -/
theorem writeInternalLevel_one {head : NodeRef × List Entry} {tail : Kids} (hp : pages ≠ [])
    (hl : Linked (Node ordered h pages) (head :: tail)) (hd : h < maxTreeDepth)
    (hfirst : firstKey (contents (head :: tail)) ≤ head.1.minKey)
    (hsum : levelBytes ((head :: tail).map Prod.fst) ≤ pageSize) :
    ∃ node pages', writeInternalLevel pages ((head :: tail).map Prod.fst) = .ok ([node], pages') ∧
      Node ordered (h + 1) pages' node.pageId (contents (head :: tail)) ∧
      readInternalChildren pages' node.pageId = .ok ((head :: tail).map Prod.fst) := by
  have hhead := hl.holds head mem_cons_self
  obtain ⟨e, he, heq⟩ := firstKey_mem hhead.ne_nil
  rw [contents_cons, firstKey_append hhead.ne_nil] at hfirst
  have hchunk : internalChunks ((head :: tail).map Prod.fst) = [(head :: tail).map Prod.fst] :=
    pack_of_fits (cons_ne_nil _ _) hsum
  have hfit : headerSize + rowBytes tail ≤ pageSize := by
    rw [levelBytes, map_cons, tail_cons, map_map] at hsum
    have hsum : headerSize + 8 + rowBytes tail ≤ pageSize := hsum
    omega
  obtain ⟨node, pages', hwrite, _, hnode, _, hread⟩ := writeInternal_spec ordered hp hl hfit
  refine ⟨node, pages', ?_, hnode,
    hread hd ((heq ▸ hl.above head mem_cons_self e he).antisymm hfirst)⟩
  rw [writeInternalLevel, hchunk, writeAll, hwrite]
  rfl

/-! ## The prediction -/

section

variable {left right own neighbor : NodeRef × List Entry} {used : Nat}
  (hpair : own = left ∧ neighbor = right ∨ own = right ∧ neighbor = left)
  (hused : pageUsedBytes pages own.1.pageId = .ok (some used))
  (hfits : pairFits pages used neighbor.1 right.1 = .ok true)
include hpair hused hfits

/-- Two leaves that pass the test: their own sums, less one header, fit a page. -/
theorem pairFits_leaves (hleft : Node ordered 0 pages left.1.pageId left.2)
    (hright : Node ordered 0 pages right.1.pageId right.2) :
    headerSize + entriesBytes (left.2 ++ right.2) ≤ pageSize := by
  obtain ⟨bytes, hbytes, hfits⟩ := bind_eq_ok.mp hfits
  rw [entriesBytes, map_append, sum_append]
  cases bytes with
  | none => cases hfits
  | some =>
    have hle := of_decide_eq_true (Except.ok.inj hfits)
    rcases hpair with ⟨rfl, rfl⟩ | ⟨rfl, rfl⟩
    · have hown := pageUsedBytes_leaf hleft hused
      have hother := pageUsedBytes_leaf hright hbytes
      rw [entriesBytes] at hown hother
      omega
    · have hown := pageUsedBytes_leaf hright hused
      have hother := pageUsedBytes_leaf hleft hbytes
      rw [entriesBytes] at hown hother
      omega

/-- **MERGE TEST**: for two adjacent pages that the test lets merge, the rewrite writes one page
    with the contents of both exactly when they are leaves or the internal writer's own sum, with
    the 8 bytes it sets aside for a child that lies in the header, fits the page. -/
theorem pairFits_predicts (hp : pages ≠ []) (hl : Linked (Node ordered h pages) [left, right]) :
    (∃ node pages', rewriteSiblings pages [left.1, right.1] = .ok ([node], pages') ∧
        Node ordered h pages' node.pageId (left.2 ++ right.2) ∧
        (0 < h → readInternalChildren pages' node.pageId
          = readRun readInternalChildren pages [left.1, right.1])) ↔
      (0 < h → ∃ children, readRun readInternalChildren pages [left.1, right.1] = .ok children ∧
        levelBytes children ≤ pageSize) := by
  have hleft := hl.holds left mem_cons_self
  have hboth : contents [left, right] = left.2 ++ right.2 := by
    rw [contents_cons, contents_cons, contents_nil, append_nil]
  have hcne := contents_ne_nil hl (cons_ne_nil _ _)
  cases h with
  | zero =>
    refine iff_of_true ?_ (fun h0 => absurd h0 (lt_irrefl 0))
    have hright := hl.holds right (mem_cons_of_mem _ mem_cons_self)
    have hstored : ∀ e ∈ contents [left, right], StoredEntry e := by
      rw [hboth]
      exact forall_mem_append.mpr ⟨hleft.storedEntry, hright.storedEntry⟩
    obtain ⟨kids, pages', hwrite, _, hlinked, hcontents, hlen, _⟩ :=
      writeLeafLevel_spec ordered hp hcne (hl.sorted (fun _ _ hn => hn.sorted)) hstored
    have hone := leafChunks_one hcne hstored
      (hboth ▸ pairFits_leaves hpair hused hfits hleft hright)
    obtain ⟨kid, rfl⟩ := length_eq_one_iff.mp (hlen.trans hone)
    refine ⟨kid.1, pages', ?_, ?_, fun h0 => absurd h0 (lt_irrefl 0)⟩
    · have hread := readRun_leaf hl
      rw [map_cons, map_cons, map_nil] at hread
      rw [rewriteSiblings_leaf hleft, hread, ok_bind, hwrite]
      rfl
    · rw [← hboth, ← hcontents, contents_cons, contents_nil, append_nil]
      exact hlinked.holds kid mem_cons_self
  | succ h =>
    rw [rewriteSiblings_internal hleft]
    cases hread : readRun readInternalChildren pages [left.1, right.1] with
    | error =>
      refine iff_of_false (fun ⟨_, _, hrun, _⟩ => nomatch hrun) (fun hsum => ?_)
      obtain ⟨_, hnone, _⟩ := hsum (Nat.succ_pos h)
      cases hnone
    | ok children =>
      -- reading the children bounds the depth, so they are a row of the tree
      obtain ⟨_, hown, _⟩ := bind_eq_ok.mp hread
      have hd := readInternalChildren_shallow hleft hown
      obtain ⟨kids, hkids, hrow, hcontents, hlow⟩ := readRun_internal hd hl
      cases hread.symm.trans hkids
      obtain ⟨head, tail, rfl⟩ := exists_cons_of_ne_nil (fun hnil : kids = [] =>
        hcne (by rw [← hcontents, hnil, contents_nil]))
      rw [ok_bind]
      constructor
      · rintro ⟨node, pages', hrun, _⟩ _
        obtain ⟨parents, _, hok, _, _, _, hlen, _⟩ :=
          writeInternalLevel_spec ordered hp (cons_ne_nil _ _) hrow
        obtain ⟨hnode, _⟩ := Prod.mk.inj (Except.ok.inj (hok.symm.trans hrun))
        have hone : (internalChunks ((head :: tail).map Prod.fst)).length = 1 ↔
            levelBytes ((head :: tail).map Prod.fst) ≤ pageSize :=
          length_pack_eq_one (cons_ne_nil _ _) (fun _ _ => by decide)
        refine ⟨_, rfl, hone.mp ?_⟩
        rw [internalChunks_map, length_map, ← hlen, ← length_map Prod.fst, hnode, length_singleton]
      · intro hsum
        obtain ⟨_, heq, hsum⟩ := hsum (Nat.succ_pos h)
        cases heq
        obtain ⟨node, pages', hrun, hnode, hchildren⟩ :=
          writeInternalLevel_one hp hrow hd (hcontents ▸ hlow head mem_cons_self) hsum
        rw [← hboth, ← hcontents]
        exact ⟨node, pages', hrun, hnode, fun _ => hchildren⟩

end

/-- A leaf with one key. -/
def keyLeaf (n : Nat) (byte : Byte) : Page :=
  .leaf true [⟨.inline (replicate n byte), .inline [], 1⟩]

/-- Two internal pages over two leaves each become one. -/
theorem pairFits_predicts_internal :
    let entry (byte : Byte) : Entry := ([byte], ⟨.inline [], 1⟩)
    ∃ node pages', rewriteSiblings [.super, keyLeaf 1 1, keyLeaf 1 2, keyLeaf 1 3, keyLeaf 1 4,
        .internal true 1 [⟨.inline [2], 2⟩], .internal true 3 [⟨.inline [4], 4⟩]]
        [⟨5, [1]⟩, ⟨6, [3]⟩] = .ok ([node], pages') ∧
      Node false 1 pages' node.pageId [entry 1, entry 2, entry 3, entry 4] := by
  intro entry
  generalize hpages : [Page.super, keyLeaf 1 1, keyLeaf 1 2, keyLeaf 1 3, keyLeaf 1 4,
    .internal true 1 [⟨.inline [2], 2⟩], .internal true 3 [⟨.inline [4], 4⟩]] = pages
  have hkey (byte : Byte) : StoredKey [byte] := ⟨Nat.one_pos, Nat.succ_le_of_lt (by decide)⟩
  have hleaf {id : Nat} {byte : Byte} (hpage : pages[id]? = some (keyLeaf 1 byte)) :
      Node false 0 pages id [entry byte] :=
    ⟨true, _, hpage, .cons ⟨⟨hkey byte, Nat.zero_le _⟩, ⟨rfl, Nat.succ_le_of_lt (by decide)⟩,
      rfl, rfl⟩ .nil, cons_ne_nil _ _, pairwise_singleton _ _, Nat.le_of_ble_eq_true rfl⟩
  have hrow {a b : Nat} {x y : Byte} (ha : pages[a]? = some (keyLeaf 1 x))
      (hb : pages[b]? = some (keyLeaf 1 y)) (hxy : [x] < [y]) :
      Linked (Node false 0 pages) [(⟨a, [x]⟩, [entry x]), (⟨b, [y]⟩, [entry y])] := by
    refine ⟨forall_mem_cons.mpr ⟨hleaf ha, forall_mem_singleton.mpr (hleaf hb)⟩,
      forall_mem_cons.mpr ⟨hkey x, forall_mem_singleton.mpr (hkey y)⟩, ?_, ?_⟩
    · simp [entry]
    · simpa [entry] using hxy
  have hinner {id a b : Nat} {x y : Byte}
      (hpage : pages[id]? = some (.internal true a [⟨.inline [y], b⟩]))
      (ha : pages[a]? = some (keyLeaf 1 x)) (hb : pages[b]? = some (keyLeaf 1 y))
      (hxy : [x] < [y]) : Node false 1 pages id [entry x, entry y] :=
    ⟨true, a, _, hpage, Nat.le_of_ble_eq_true rfl, [x], [entry x], [(⟨b, [y]⟩, [entry y])],
      .cons ⟨hkey y, ⟨rfl, Nat.succ_le_of_lt (by decide)⟩, rfl⟩ .nil, hrow ha hb hxy, rfl⟩
  subst hpages
  have hl := (⟨forall_mem_cons.mpr ⟨hinner rfl rfl rfl (by decide),
      forall_mem_singleton.mpr (hinner rfl rfl rfl (by decide))⟩,
      forall_mem_cons.mpr ⟨hkey 1, forall_mem_singleton.mpr (hkey 3)⟩, by decide, by decide⟩ :
    Linked (Node false 1 _) [(⟨5, [1]⟩, [entry 1, entry 2]), (⟨6, [3]⟩, [entry 3, entry 4])])
  obtain ⟨node, pages', hrun, hnode, _⟩ := (pairFits_predicts (.inl ⟨rfl, rfl⟩)
    (show pageUsedBytes _ 5 = .ok (some 64) by decide) (by decide) (cons_ne_nil _ _) hl).mpr
    (fun _ => ⟨[⟨1, [1]⟩, ⟨2, [2]⟩, ⟨3, [3]⟩, ⟨4, [4]⟩], by decide, by decide⟩)
  exact ⟨node, pages', hrun, hnode⟩

/-- Two internal pages over six leaves: with the separator between them they take 4092 bytes of a
    page. -/
def tightTree : PageTree :=
  let cell (n : Nat) (byte : Byte) (child : Nat) :=
    InternalCell.mk (.inline (replicate n byte)) child
  ⟨[.super, keyLeaf 1 1, keyLeaf 470 2, keyLeaf 467 3, keyLeaf 1000 4, keyLeaf 1000 5,
    keyLeaf 1000 6, .internal true 1 [cell 470 2 2],
    .internal true 3 [cell 1000 4 4, cell 1000 5 5, cell 1000 6 6],
    .internal true 7 [cell 467 3 8]], [], 9, 6⟩

/-- The tree is valid and the underfull left page passes the test with the right one; the rewrite
    makes two pages of them. -/
theorem pairFits_overpromises :
    tightTree.validate = .ok () ∧
      readInternalChildren tightTree.pages tightTree.root
        = .ok [⟨7, [1]⟩, ⟨8, replicate 467 3⟩] ∧
      pageUsedBytes tightTree.pages 7 = .ok (some 533) ∧ 533 < underfullBytes ∧
      pairFits tightTree.pages 533 ⟨8, replicate 467 3⟩ ⟨8, replicate 467 3⟩ = .ok true ∧
      (rewriteSiblings tightTree.pages [⟨7, [1]⟩, ⟨8, replicate 467 3⟩]).map (·.1.length)
        = .ok 2 := by
  decide +kernel

end Vyrn
