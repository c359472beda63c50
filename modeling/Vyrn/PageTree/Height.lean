import Vyrn.PageTree.Deep

/-!
# Single puts deepen a tree

A put that finds every page on its path full splits them all, the root included, and so adds a
level. `Crowded` is such a path, and `spine` a well-formed tree with a crowded path of any height
whose other subtrees are columns of one entry. **`spineTree_putSplits`**: a put below all keys of a
spine leaves a tree one level deeper.
-/

namespace Vyrn

open SortedMap List Packing

variable {ordered : Bool} {key value : Bytes} {entries leafEntries : List Entry}
  {children nodes : List NodeRef} {h id level i j revision : Nat} {pages : Pages} {α : Type}
  {path : List (Nat × Nat)} {kid : NodeRef × List Entry} {f : α → Nat}

/-! ## Levels that need two pages -/

/-- Items that cost more than one page take two. -/
theorem two_le_pack {first size : α → Nat} {cap : Nat} {l : List α}
    (hfirst : ∀ x ∈ l, first x ≤ cap) (hcost : cap < cost first size l) :
    2 ≤ (pack first size cap l).length := by
  have hpos := @Packing.length_pack_pos α first size cap l
  by_contra hlt
  have hone : (pack first size cap l).length = 1 := by omega
  obtain ⟨page, hpage⟩ := length_eq_one_iff.mp hone
  have hflat := @Packing.flatten_pack α first size cap l
  rw [hpage, flatten_singleton] at hflat
  have hle := cost_le_of_mem_pack hfirst page (by rw [hpage]; exact mem_singleton_self _)
  rw [hflat] at hle
  omega

/-- A key as long as a page keeps in place. -/
abbrev Wide (key : Bytes) : Prop := key.length = 1024

theorem Wide.stored (h : Wide key) : StoredKey key := by
  refine ⟨by omega, ?_⟩
  rw [maxStoredKeySize_eq]
  omega

theorem Wide.internalCellSize (h : Wide key) : internalCellSize key = 1045 := by
  rw [Vyrn.internalCellSize, inlineKeyBytes, if_pos (by exact le_of_eq h), h]
  rfl

theorem Wide.leafCellSize_le {entry : Entry} (h : Wide entry.1) : 1057 ≤ leafCellSize entry := by
  rw [leafCellSize, inlineKeyBytes, if_pos (by exact le_of_eq h), h, leafCellHeader]
  omega

theorem length_mul_le_map_sum {least : Nat} {l : List α} (h : ∀ x ∈ l, least ≤ f x) :
    l.length * least ≤ (l.map f).sum := by
  have hsum := card_nsmul_le_sum (l.map f) least (forall_mem_map.mpr h)
  rwa [length_map] at hsum

theorem sum_map_eq_length_mul {each : Nat} {l : List α} (h : ∀ x ∈ l, f x = each) :
    (l.map f).sum = l.length * each := by
  rw [map_congr_left h, map_const', sum_replicate]
  rfl

/-- Four wide entries do not fit a leaf. -/
theorem two_le_leafChunks (hwide : ∀ e ∈ entries, Wide e.1) (hstored : ∀ e ∈ entries, StoredEntry e)
    (hlen : 4 ≤ entries.length) : 2 ≤ (leafChunks entries).length := by
  refine two_le_pack (fun e he => leafCell_fits (hstored e he)) ?_
  · cases entries with
    | nil => exact absurd hlen (by simp)
    | cons e rest =>
      have hfirst := Wide.leafCellSize_le (hwide e mem_cons_self)
      have hrest := @length_mul_le_map_sum Entry (fun e => leafCellSize e + slotSize) 1059 rest
        (fun x hx => by
          have hx' := Wide.leafCellSize_le (hwide x (mem_cons_of_mem _ hx))
          rw [slotSize]
          omega)
      rw [length_cons] at hlen
      show pageSize < headerSize + (leafCellSize e + slotSize) + _
      rw [pageSize, headerSize, slotSize] at *
      omega

/-- Five wide children do not fit an internal page. -/
theorem two_le_internalChunks (hwide : ∀ child ∈ children, Wide child.minKey)
    (hlen : 5 ≤ children.length) : 2 ≤ (internalChunks children).length := by
  refine two_le_pack (fun child _ => by rw [headerSize, pageSize]; omega) ?_
  cases children with
  | nil => exact absurd hlen (by simp)
  | cons first rest =>
    have hrest := @length_mul_le_map_sum NodeRef
      (fun child => internalCellSize child.minKey + slotSize) 1047 rest (fun x hx => by
        have hx' := (hwide x (mem_cons_of_mem _ hx)).internalCellSize
        rw [hx', slotSize])
    rw [length_cons] at hlen
    show pageSize < headerSize + 8 + _
    rw [pageSize, headerSize]
    omega

/-! ## What the level writers return -/

theorem writeAll_nodes {write : Pages → List α → Except Error (NodeRef × Pages)}
    {P : List α → NodeRef → Prop}
    (hwrite : ∀ pages chunk node pages', write pages chunk = .ok (node, pages') →
      pages <+: pages' ∧ P chunk node)
    {chunks : List (List α)} {pages' : Pages}
    (h : writeAll write pages chunks = .ok (nodes, pages')) :
    pages <+: pages' ∧ nodes.length = chunks.length ∧
      ∀ node ∈ nodes, ∃ chunk ∈ chunks, P chunk node := by
  induction chunks generalizing pages pages' nodes with
  | nil =>
    cases h
    exact ⟨prefix_rfl, rfl, forall_mem_nil _⟩
  | cons chunk chunks ih =>
    obtain ⟨⟨node, middle⟩, hfirst, h⟩ := bind_eq_ok.mp h
    obtain ⟨⟨others, last⟩, hrest, h⟩ := bind_eq_ok.mp h
    cases h
    obtain ⟨hgrow, hnode⟩ := hwrite _ _ _ _ hfirst
    obtain ⟨hgrow', hlen, hothers⟩ := ih hrest
    refine ⟨hgrow.trans hgrow', congrArg (· + 1) hlen, fun other hother => ?_⟩
    rcases mem_cons.mp hother with rfl | hother
    · exact ⟨chunk, mem_cons_self, hnode⟩
    · obtain ⟨c, hc, hP⟩ := hothers other hother
      exact ⟨c, mem_cons_of_mem _ hc, hP⟩

theorem encodeInternalCells_grows :
    ∀ pages : Pages, pages <+: (encodeInternalCells pages children).2 := by
  induction children with
  | nil => exact fun _ => prefix_rfl
  | cons child children ih =>
    intro pages
    have hkey : pages <+: (encodeKey pages child.minKey).2 := by
      rw [encodeKey]
      split_ifs
      · exact writeBlob_grows pages child.minKey
      · exact prefix_rfl
    exact hkey.trans (ih _)

/-- The new pages name the first children of their chunks. -/
theorem writeInternalLevel_nodes {pages' : Pages}
    (h : writeInternalLevel pages children = .ok (nodes, pages')) :
    pages <+: pages' ∧ nodes.length = (internalChunks children).length ∧
      ∀ node ∈ nodes, ∃ child ∈ children, node.minKey = child.minKey := by
  obtain ⟨hgrow, hlen, hall⟩ := @writeAll_nodes nodes pages NodeRef writeInternal
    (fun chunk node => ∃ child ∈ chunk, node.minKey = child.minKey) (by
      intro pages chunk node pages' hwrite
      cases chunk with
      | nil => cases hwrite
      | cons first rest =>
        rw [writeInternal] at hwrite
        dsimp only at hwrite
        split_ifs at hwrite
        cases hwrite
        exact ⟨(encodeInternalCells_grows pages).trans (prefix_append _ _),
          first, mem_cons_self, rfl⟩) _ _ h
  refine ⟨hgrow, hlen, fun node hnode => ?_⟩
  obtain ⟨chunk, hchunk, child, hchild, hmin⟩ := hall node hnode
  refine ⟨child, ?_, hmin⟩
  rw [← @Packing.flatten_pack NodeRef (fun _ => headerSize + 8)
    (fun child => internalCellSize child.minKey + slotSize) pageSize children]
  exact mem_flatten.mpr ⟨chunk, hchunk, hchild⟩

/-! ## A crowded path -/

/-- The cells of children whose separators stay in the page. -/
def inlineCells (children : List NodeRef) : List InternalCell :=
  children.map (fun child => ⟨.inline child.minKey, child.pageId⟩)

theorem inlineCells_hold (pages : Pages) (hwide : ∀ child ∈ children, Wide child.minKey) :
    Forall₂ (InternalCell.Holds pages) (inlineCells children) children := by
  induction children with
  | nil => exact Forall₂.nil
  | cons child children ih =>
    rw [forall_mem_cons] at hwide
    exact Forall₂.cons ⟨Wide.stored hwide.1, ⟨rfl, le_of_eq hwide.1⟩, rfl⟩ (ih hwide.2)

/-- From page `id` down, the pages a descent for `key` meets are full: three separators wider
    than a quarter of a page in each, all above `key`, and three wide keys in the leaf. -/
def Crowded (pages : Pages) (key : Bytes) : Nat → Nat → Prop
  | 0, id => ∃ entries, readLeaf pages id = .ok entries ∧ 3 ≤ entries.length ∧
      ∀ e ∈ entries, Wide e.1 ∧ key < e.1
  | h + 1, id => ∃ first children,
      pages[id]? = some (.internal true first (inlineCells children)) ∧ children.length = 3 ∧
      (∀ child ∈ children, Wide child.minKey ∧ key < child.minKey) ∧ Crowded pages key h first

/-- The descent for the key follows the crowded path: it takes the first child. -/
theorem Crowded.row (hc : Crowded pages key (h + 1) id) {pre post : Kids}
    (hread : readInternalChildren pages id = .ok ((pre ++ kid :: post).map Prod.fst))
    (hroute : Routed key pre kid post) :
    pre = [] ∧ Crowded pages key h kid.1.pageId ∧ post.length = 3 ∧
      ∀ x ∈ post, Wide x.1.minKey := by
  obtain ⟨first, children, hp, hthree, hwide, hdown⟩ := hc
  have hcells : decodeInternalCells pages id headerSize (inlineCells children) = .ok children := by
    have hholds := inlineCells_hold pages (fun c hc => (hwide c hc).1)
    refine decodeInternalCells_holds hholds headerSize ?_
    have hsum := @sum_map_eq_length_mul _ _ 1045 children
      (fun c hc => (hwide c hc).1.internalCellSize)
    rw [internalBytes_eq hholds, hsum, hthree, headerSize, pageSize]
    omega
  rw [readInternalChildren, readPage_ok.mpr hp, ok_bind] at hread
  dsimp only at hread
  rw [decodeInternal] at hread
  split_ifs at hread with hmany
  obtain ⟨head, hhead, hread⟩ := bind_eq_ok.mp hread
  rw [hcells, ok_bind] at hread
  have hrow : head :: children = (pre ++ kid :: post).map Prod.fst := Except.ok.inj hread
  cases pre with
  | nil =>
    rw [nil_append, map_cons] at hrow
    obtain ⟨rfl, rfl⟩ := cons.inj hrow
    refine ⟨rfl, ?_, by rwa [length_map] at hthree, fun x hx => ?_⟩
    · rw [nodeRefFrom_pageId hhead]
      exact hdown
    · exact (hwide x.1 (mem_map_of_mem hx)).1
  | cons p pre =>
    -- every other child's separator is above the key
    rw [cons_append, map_cons] at hrow
    obtain ⟨_, rfl⟩ := cons.inj hrow
    have habove := (hwide kid.1 (mem_map_of_mem (by simp))).2
    exact absurd (hroute.left (cons_ne_nil _ _)) (not_le.mpr habove)

section

variable {leaf : Nat} (hpath : OnPath ordered pages key h id entries leaf leafEntries path)
  (hc : Crowded pages key h id)
include hpath hc

/-- The leaf at the end of a crowded path is full. -/
theorem Crowded.leaf_full : 3 ≤ leafEntries.length ∧ ∀ e ∈ leafEntries, Wide e.1 ∧ key < e.1 := by
  induction hpath with
  | here hn =>
    obtain ⟨entries, hread, hthree, hwide⟩ := hc
    cases (readLeaf_node hn).symm.trans hread
    exact ⟨hthree, hwide⟩
  | down hread _ _ _ hroute _ ih => exact ih (hc.row (hread _ prefix_rfl) hroute).2.1

/-- **CASCADE**: two wide nodes for the leaf become two nodes on every level of a crowded
    path. -/
theorem Crowded.rebuildPath {pages₁ : Pages} (hgrow : pages <+: pages₁) (htwo : 2 ≤ nodes.length)
    (hwide : ∀ node ∈ nodes, Wide node.minKey) {nodes' : List NodeRef} {pages₂ : Pages}
    (hrun : Vyrn.rebuildPath pages₁ nodes path = .ok (nodes', pages₂)) :
    pages <+: pages₂ ∧ 2 ≤ nodes'.length ∧ ∀ node ∈ nodes', Wide node.minKey := by
  induction hpath generalizing nodes' pages₂ with
  | here =>
    cases hrun
    exact ⟨hgrow, htwo, hwide⟩
  | @down _ _ _ _ _ _ _ post hread _ _ _ hroute _ ih =>
    obtain ⟨rfl, hdown, _, hpost⟩ := hc.row (hread _ prefix_rfl) hroute
    obtain ⟨⟨lower, middle⟩, hlower, hrun⟩ := bind_eq_ok.mp hrun
    obtain ⟨hgrow', _, hwide'⟩ := ih hdown hlower
    dsimp only at hrun
    rw [hread middle hgrow', ok_bind] at hrun
    have hlevel : writeInternalLevel middle (lower ++ post.map Prod.fst) = .ok (nodes', pages₂) :=
      hrun
    obtain ⟨hgrow'', hlen, hmin⟩ := writeInternalLevel_nodes hlevel
    have hchildren : ∀ child ∈ lower ++ post.map Prod.fst, Wide child.minKey := by
      intro child hchild
      rcases mem_append.mp hchild with hchild | hchild
      · exact hwide' child hchild
      · obtain ⟨x, hx, rfl⟩ := mem_map.mp hchild
        exact hpost x hx
    refine ⟨hgrow'.trans hgrow'', ?_, fun node hnode => ?_⟩
    · rw [hlen]
      refine two_le_internalChunks hchildren ?_
      rw [length_append, length_map]
      omega
    · obtain ⟨child, hchild, heq⟩ := hmin node hnode
      rw [heq]
      exact hchildren child hchild

end

/-- **DEEPER**: a put at the head of a crowded path splits the root. -/
theorem Crowded.putSplits {tree : PageTree} {rows : Rows} (ht : Denotes ordered tree (h + 1) rows)
    (hd : h + 1 ≤ maxTreeDepth) (hkey : Wide key) (hvalue : ValueLog.Admissible revision value)
    (hc : Crowded tree.pages key h tree.root) : PutSplits tree key value revision := by
  obtain ⟨entries, hsuper, hrooted, _⟩ := ht
  obtain ⟨stored, values, hstore, _, _, _, hentry⟩ := storeValue_spec tree.values hvalue
  obtain ⟨leaf, leafEntries, path, hfind, hpath⟩ := findLeafFrom_node key hrooted hd le_rfl
  obtain ⟨hleaf, _⟩ := hpath.leaf
  obtain ⟨_, hwide⟩ := hc.leaf_full hpath
  obtain ⟨hsplice, _⟩ := spliceEntry_eq hleaf.sorted key stored
  have hvalid := forall_mem_put (hentry key hkey.stored) hleaf.storedEntry
  have hallwide : ∀ e ∈ put key stored leafEntries, Wide e.1 :=
    forall_mem_put hkey (fun e he => (hwide e he).1)
  obtain ⟨new, pages₁, hwrite, hgrow, hnew, hcontents, hcount, hmin⟩ :=
    writeLeafLevel_spec ordered hsuper.ne_nil (put_ne_nil key stored leafEntries)
      (hleaf.sorted.put key stored) hvalid
  obtain ⟨kids, pages₂, hrebuild, _⟩ :=
    rebuildPath_spec hpath hsuper.ne_nil hgrow hnew hcontents hmin
      (hcount ▸ leafChunks_put_le hleaf (hentry key hkey.stored))
  -- the key is new, so the leaf gets a fourth wide entry
  have hfour : 4 ≤ (put key stored leafEntries).length := by
    have habsent : lookup key leafEntries = none :=
      lookup_eq_none (fun e he => ne_of_gt (hwide e he).2)
    have hlen := length_update hleaf.sorted (key, some stored)
    rw [habsent] at hlen
    rw [show update leafEntries (key, some stored) = put key stored leafEntries from rfl] at hlen
    simp at hlen
    omega
  have htwo : 2 ≤ (new.map Prod.fst).length := by
    rw [length_map, hcount]
    exact two_le_leafChunks hallwide hvalid hfour
  have hnodes : ∀ node ∈ new.map Prod.fst, Wide node.minKey := by
    intro node hnode
    obtain ⟨kid, hkid, rfl⟩ := mem_map.mp hnode
    obtain ⟨e, he, heq⟩ := hmin kid hkid
    rw [heq]
    exact hallwide e he
  obtain ⟨_, htwo', _⟩ := hc.rebuildPath hpath hgrow htwo hnodes hrebuild
  refine ⟨stored, values, leaf, path, leafEntries, _, pages₁, _, pages₂, hstore, hfind,
    readLeaf_node hleaf, ?_, hrebuild, htwo'⟩
  rw [hsplice]
  exact hwrite

/-! ## A tree with a crowded path -/

/-- The `i`-th of the wide keys of a level. -/
def wideKey (level i : Nat) : Bytes :=
  Fin.ofNat 256 (level + 1) :: Fin.ofNat 256 i :: replicate 1022 0

/-- The key below all of them. -/
def lowKey : Bytes := replicate 1024 0

def wideEntry (level i : Nat) : Entry := (wideKey level i, ⟨.inline [], 0⟩)

/-- A leaf with one entry and `height` internal pages above it, from page `base` on. -/
def towerPages (base : Nat) (key : Bytes) (height : Nat) : Pages :=
  .leaf true [⟨.inline key, .inline [], 0⟩] ::
    (List.range height).map (fun i => .internal true (base + i) [])

/-- Pages and root of a spine: above the leaf, each page has the spine below it and three
    towers as children. -/
def spine : Nat → Pages × Nat
  | 0 => ([.super, .leaf true [⟨.inline (wideKey 0 0), .inline [], 0⟩,
      ⟨.inline (wideKey 0 1), .inline [], 0⟩, ⟨.inline (wideKey 0 2), .inline [], 0⟩]], 1)
  | h + 1 =>
    let below := spine h
    let first := below.1 ++ towerPages below.1.length (wideKey (h + 1) 0) h
    let second := first ++ towerPages first.length (wideKey (h + 1) 1) h
    let third := second ++ towerPages second.length (wideKey (h + 1) 2) h
    (third ++ [.internal true below.2 (inlineCells
      [⟨below.1.length + h, wideKey (h + 1) 0⟩, ⟨first.length + h, wideKey (h + 1) 1⟩,
        ⟨second.length + h, wideKey (h + 1) 2⟩])], third.length)

def levelEntries (level : Nat) : List Entry :=
  [wideEntry level 0, wideEntry level 1, wideEntry level 2]

def spineEntries : Nat → List Entry
  | 0 => levelEntries 0
  | h + 1 => spineEntries h ++ levelEntries (h + 1)

theorem wideKey_wide (level i : Nat) : Wide (wideKey level i) := by
  show (_ :: _ :: replicate 1022 (0 : Byte)).length = 1024
  rw [length_cons, length_cons, length_replicate]

theorem lowKey_wide : Wide lowKey := length_replicate

theorem wideKey_lt {level' : Nat} (hlevel : level' < 255) (hi : i < 256) (hj : j < 256)
    (h : level < level' ∨ level = level' ∧ i < j) : wideKey level i < wideKey level' j := by
  rw [wideKey, wideKey, cons_lt_cons_iff]
  rcases h with h | ⟨rfl, h⟩
  · refine .inl ?_
    rw [Fin.lt_def]
    show (level + 1) % 256 < (level' + 1) % 256
    rw [Nat.mod_eq_of_lt (by omega), Nat.mod_eq_of_lt (by omega)]
    omega
  · refine .inr ⟨rfl, ?_⟩
    rw [cons_lt_cons_iff]
    refine .inl ?_
    rw [Fin.lt_def]
    show i % 256 < j % 256
    rw [Nat.mod_eq_of_lt hi, Nat.mod_eq_of_lt hj]
    exact h

theorem lowKey_lt (hlevel : level < 255) (i : Nat) : lowKey < wideKey level i := by
  show (0 : Byte) :: replicate 1023 0 < wideKey level i
  rw [wideKey, cons_lt_cons_iff]
  refine .inl ?_
  rw [Fin.lt_def]
  show 0 < (level + 1) % 256
  rw [Nat.mod_eq_of_lt (by omega)]
  omega

theorem wideCell_holds (pages : Pages) (level i : Nat) :
    LeafCell.Holds pages ⟨.inline (wideKey level i), .inline [], 0⟩ (wideEntry level i) := by
  have hwide := wideKey_wide level i
  exact ⟨⟨hwide.stored, Nat.zero_le _⟩, ⟨rfl, le_of_eq hwide⟩, rfl, rfl⟩

theorem wideCell_bytes (level i : Nat) :
    LeafCell.bytes ⟨.inline (wideKey level i), .inline [], 0⟩ = 1057 := by
  show leafCellHeader + (wideKey level i).length + 0 = 1057
  rw [wideKey_wide level i, leafCellHeader]

theorem tower_node (front : Pages) (level i : Nat) (height : Nat) :
    ∀ {h : Nat}, h ≤ height →
      Node false h (front ++ towerPages front.length (wideKey level i) height)
        (front.length + h) [wideEntry level i] := by
  intro h
  induction h with
  | zero =>
    intro _
    refine ⟨true, [⟨.inline (wideKey level i), .inline [], 0⟩], ?_, ?_, by simp,
      pairwise_singleton _ _, ?_⟩
    · rw [Nat.add_zero, getElem?_append_right le_rfl, Nat.sub_self]
      rfl
    · exact Forall₂.cons (wideCell_holds _ level i) Forall₂.nil
    · rw [map_singleton, wideCell_bytes]
      decide
  | succ h ih =>
    intro hle
    refine ⟨true, front.length + h, [], ?_, by decide, wideKey level i, [wideEntry level i], [],
      Forall₂.nil, ?_, rfl⟩
    · rw [getElem?_append_right (Nat.le_add_right _ _), Nat.add_sub_cancel_left]
      show ((List.range height).map (fun j => Page.internal true (front.length + j) []))[h]? = _
      rw [getElem?_map, getElem?_range hle]
      rfl
    · exact linked_singleton.mpr ⟨ih (Nat.le_of_succ_le hle), (wideKey_wide level i).stored,
        forall_mem_singleton.mpr (le_refl (wideKey level i))⟩

theorem spineEntries_key {e : Entry} (he : e ∈ spineEntries h) :
    ∃ level i, level ≤ h ∧ i < 3 ∧ e = wideEntry level i := by
  have hlevel : ∀ {level : Nat}, e ∈ levelEntries level → ∃ i, i < 3 ∧ e = wideEntry level i := by
    intro level he
    obtain ⟨i, hi, rfl⟩ := mem_map.mp (show e ∈ (range 3).map (wideEntry level) from he)
    exact ⟨i, mem_range.mp hi, rfl⟩
  induction h with
  | zero =>
    obtain ⟨i, hi, rfl⟩ := hlevel he
    exact ⟨0, i, le_rfl, hi, rfl⟩
  | succ h ih =>
    rcases mem_append.mp he with he | he
    · obtain ⟨level, i, hle, hi, rfl⟩ := ih he
      exact ⟨level, i, Nat.le_succ_of_le hle, hi, rfl⟩
    · obtain ⟨i, hi, rfl⟩ := hlevel he
      exact ⟨h + 1, i, le_rfl, hi, rfl⟩

/-- The wide keys of a level ascend. -/
theorem wideKeys_pairwise (hlevel : level < 255) :
    (range 3).Pairwise (fun i j => wideKey level i < wideKey level j) := by
  refine pairwise_lt_range.imp_of_mem (fun hi hj hlt => ?_)
  rw [mem_range] at hi hj
  exact wideKey_lt hlevel (by omega) (by omega) (.inr ⟨rfl, hlt⟩)

theorem spine_zero_node : Node false 0 (spine 0).1 (spine 0).2 (spineEntries 0) := by
  refine ⟨true, _, rfl, ?_, by simp [spineEntries, levelEntries],
    show ((range 3).map (wideEntry 0)).Pairwise _ from
      pairwise_map.mpr (wideKeys_pairwise (by decide)), ?_⟩
  · exact Forall₂.cons (wideCell_holds _ 0 0) (Forall₂.cons (wideCell_holds _ 0 1)
      (Forall₂.cons (wideCell_holds _ 0 2) Forall₂.nil))
  · rw [map_cons, map_cons, map_singleton, wideCell_bytes, wideCell_bytes, wideCell_bytes]
    decide

/-- The children a spine's page has beside the spine below it. -/
def spineTowers (h : Nat) : List (NodeRef × List Entry) :=
  let below := (spine h).1.length
  [(⟨below + h, wideKey (h + 1) 0⟩, [wideEntry (h + 1) 0]),
    (⟨below + (h + 1) + h, wideKey (h + 1) 1⟩, [wideEntry (h + 1) 1]),
    (⟨below + (h + 1) + (h + 1) + h, wideKey (h + 1) 2⟩, [wideEntry (h + 1) 2])]

theorem length_towerPages (base : Nat) (key : Bytes) (height : Nat) :
    (towerPages base key height).length = height + 1 := by
  rw [towerPages, length_cons, length_map, length_range]

/-- The pages of a spine up to its `i`-th tower. -/
def towersUpTo (h : Nat) : Nat → Pages
  | 0 => (spine h).1
  | i + 1 => towersUpTo h i ++ towerPages (towersUpTo h i).length (wideKey (h + 1) i) h

theorem towersUpTo_mono (h : Nat) (hij : i ≤ j) : towersUpTo h i <+: towersUpTo h j := by
  induction j, hij using Nat.le_induction with
  | base => exact prefix_rfl
  | succ j _ ih => exact ih.trans (prefix_append _ _)

theorem spine_succ_pages (hi : i ≤ 3) : towersUpTo h i <+: (spine (h + 1)).1 :=
  (towersUpTo_mono h hi).trans (prefix_append (towersUpTo h 3) _)

theorem spine_succ_root (h : Nat) : (spine (h + 1)).1[(spine (h + 1)).2]? =
    some (.internal true (spine h).2 (inlineCells ((spineTowers h).map Prod.fst))) := by
  rw [spine, getElem?_append_right le_rfl, Nat.sub_self]
  simp only [length_append, length_towerPages]
  rfl

theorem spineTowers_eq (h : Nat) : spineTowers h = (range 3).map (fun i =>
    (⟨(towersUpTo h i).length + h, wideKey (h + 1) i⟩, [wideEntry (h + 1) i])) := by
  rw [show range 3 = [0, 1, 2] from rfl, map_cons, map_cons, map_singleton]
  simp only [towersUpTo, length_append, length_towerPages]
  rfl

theorem exists_of_mem_spineTowers (hkid : kid ∈ spineTowers h) :
    ∃ i < 3, kid =
      (⟨(towersUpTo h i).length + h, wideKey (h + 1) i⟩, [wideEntry (h + 1) i]) := by
  rw [spineTowers_eq] at hkid
  obtain ⟨i, hi, rfl⟩ := mem_map.mp hkid
  exact ⟨i, mem_range.mp hi, rfl⟩

theorem spineTowers_wide (hh : h + 1 < 255) :
    ∀ child ∈ (spineTowers h).map Prod.fst, Wide child.minKey ∧ lowKey < child.minKey := by
  intro child hchild
  obtain ⟨kid, hkid, rfl⟩ := mem_map.mp hchild
  obtain ⟨i, _, rfl⟩ := exists_of_mem_spineTowers hkid
  exact ⟨wideKey_wide _ _, lowKey_lt hh _⟩

/-- A page's towers stand in the order of their keys. -/
theorem spineTowers_linked (hh : h + 1 < 255) :
    Linked (Node false h (spine (h + 1)).1) (spineTowers h) := by
  refine ⟨fun kid hkid => ?_, fun kid hkid => ?_, fun kid hkid e he => ?_, ?_⟩
  · obtain ⟨i, hi, rfl⟩ := exists_of_mem_spineTowers hkid
    exact (tower_node (towersUpTo h i) (h + 1) i h le_rfl).grow (spine_succ_pages hi)
  · exact ((spineTowers_wide hh) kid.1 (mem_map_of_mem hkid)).1.stored
  · obtain ⟨i, _, rfl⟩ := exists_of_mem_spineTowers hkid
    exact le_of_eq (congrArg Prod.fst (mem_singleton.mp he)).symm
  · rw [spineTowers_eq, pairwise_map]
    refine (wideKeys_pairwise hh).imp (fun hlt e he => ?_)
    rw [mem_singleton.mp he]
    exact hlt

/-- The spine is a well-formed tree of any height below 255. -/
theorem spine_node (hh : h < 255) : Node false h (spine h).1 (spine h).2 (spineEntries h) := by
  induction h with
  | zero => exact spine_zero_node
  | succ h ih =>
    have hbelow := (ih (Nat.lt_of_succ_lt hh)).grow (spine_succ_pages (Nat.zero_le 3))
    have hwide := spineTowers_wide hh
    refine ⟨true, (spine h).2, inlineCells ((spineTowers h).map Prod.fst), spine_succ_root h, ?_,
      lowKey, spineEntries h, spineTowers h,
      inlineCells_hold _ (fun child hchild => (hwide child hchild).1),
      linked_cons.mpr ⟨⟨hbelow, lowKey_wide.stored, ?_⟩, spineTowers_linked hh, ?_⟩, rfl⟩
    · rw [internalBytes_eq (inlineCells_hold [] (fun child hchild => (hwide child hchild).1)),
        cellsBytes, sum_map_eq_length_mul (fun child hchild =>
          (hwide child hchild).1.internalCellSize)]
      show headerSize + 3 * 1045 + 3 * slotSize ≤ pageSize
      decide
    · intro e he
      obtain ⟨level, i, hlevel, _, rfl⟩ := spineEntries_key he
      exact le_of_lt (lowKey_lt (by omega) i)
    · intro kid hkid e he
      obtain ⟨level, i, hlevel, _, rfl⟩ := spineEntries_key he
      obtain ⟨j, _, rfl⟩ := exists_of_mem_spineTowers hkid
      exact wideKey_lt hh (by omega) (by omega) (.inl (Nat.lt_succ_of_le hlevel))

theorem spine_crowded (hh : h < 255) (hgrow : (spine h).1 <+: pages) :
    Crowded pages lowKey h (spine h).2 := by
  induction h generalizing pages with
  | zero =>
    refine ⟨spineEntries 0, readLeaf_node (spine_zero_node.grow hgrow), le_refl 3, fun e he => ?_⟩
    obtain ⟨level, i, _, _, rfl⟩ := spineEntries_key he
    exact ⟨wideKey_wide level i, lowKey_lt (by omega) i⟩
  | succ h ih =>
    refine ⟨(spine h).2, (spineTowers h).map Prod.fst, ?_, rfl, spineTowers_wide hh,
      ih (Nat.lt_of_succ_lt hh) ((spine_succ_pages (Nat.zero_le 3)).trans hgrow)⟩
    obtain ⟨more, rfl⟩ := hgrow
    exact getElem?_append_some more (spine_succ_root h)

theorem spine_super (h : Nat) : SuperFirst (spine h).1 := by
  induction h with
  | zero => rfl
  | succ h ih => exact ih.grow (spine_succ_pages (Nat.zero_le 3))

/-- The spine as a tree. -/
def spineTree (h : Nat) : PageTree := ⟨(spine h).1, [], (spine h).2, (spineEntries h).length⟩

def spineRows (h : Nat) : Rows :=
  (spineEntries h).map (fun e => (e.1, ⟨[], 0⟩))

theorem spineTree_denotes (hh : h < 255) : Denotes false (spineTree h) (h + 1) (spineRows h) := by
  refine ⟨spineEntries h, spine_super h, spine_node hh, rfl, ?_⟩
  rw [Related, spineRows, forall₂_map_right_iff, forall₂_same]
  intro e he
  obtain ⟨level, i, _, _, rfl⟩ := spineEntries_key he
  exact ⟨rfl, rfl, rfl⟩

/-- **ONE PUT DEEPER**: the key below all others adds a level to the spine. -/
theorem spineTree_putSplits (hh : h + 1 ≤ maxTreeDepth)
    (hvalue : ValueLog.Admissible revision value) :
    PutSplits (spineTree h) lowKey value revision := by
  have hlt : h < 255 := lt_of_lt_of_le (Nat.lt_succ_self h) (hh.trans (by decide))
  exact (spine_crowded hlt prefix_rfl).putSplits (spineTree_denotes hlt) hh lowKey_wide hvalue

end Vyrn
