import Vyrn.PageTree.Validate

/-!
# Trees that are too deep

Every descent counts its levels and gives up at the depth bound. On a well-formed tree with more
levels a walk fails as soon as it has something to look for, whichever child it goes to
(**`everyChild_deep`**, once for all walks). **`tooDeep_denotes`**, **`collect_deep`**,
**`prepareBatch_deep`**: such a tree cannot be validated, counted, written or asked for a key.
-/

namespace Vyrn

open SortedMap List

/-- A computation that fails or goes on to fail, fails. -/
theorem bind_error {α β : Type} {x : Except Error α} {f : α → Except Error β}
    (h : ∀ a, x = .ok a → ∃ error, f a = .error error) : ∃ error, (x >>= f) = .error error := by
  cases x with
  | error error => exact ⟨error, rfl⟩
  | ok a => exact h a rfl

theorem bind_fails {α β : Type} {x : Except Error α} (f : α → Except Error β)
    (h : ∃ error, x = .error error) : ∃ error, (x >>= f) = .error error := by
  obtain ⟨error, rfl⟩ := h
  exact ⟨error, rfl⟩

/-! ## The children of a page -/

variable {keys : List Bytes} {values : Bytes}

section Deep

variable {ordered : Bool} {pages : Pages} {entries : List Entry} {cells : List InternalCell}
  {first fuel h id : Nat} {existed : Nat → Bool}

theorem nodeRefFrom_pageId {pageId : Nat} {ref : NodeRef} {current : Nat}
    (h : nodeRefFrom pages pageId fuel current = .ok ref) : ref.pageId = pageId := by
  induction fuel generalizing current with
  | zero => cases h
  | succ fuel ih =>
    obtain ⟨page, _, hpage⟩ := bind_eq_ok.mp h
    cases page with
    | leaf =>
      obtain ⟨key, _, hkey⟩ := bind_eq_ok.mp hpage
      cases hkey
      rfl
    | internal => exact ih hpage
    | super => cases hpage
    | blob => cases hpage

theorem decodeInternalCell_child {offset offset' : Nat} {cell : InternalCell} {child : NodeRef}
    (h : decodeInternalCell pages id offset cell = .ok (child, offset')) :
    child.pageId = cell.child := by
  obtain ⟨_, _, h⟩ := bind_eq_ok.mp h
  obtain ⟨-, h⟩ := guard_ok.mp h
  obtain ⟨⟨minKey, _⟩, _, h⟩ := bind_eq_ok.mp h
  cases h
  rfl

theorem decodeInternalCells_children {offset : Nat} {children : List NodeRef}
    (h : decodeInternalCells pages id offset cells = .ok children) :
    children.map NodeRef.pageId = cells.map InternalCell.child := by
  induction cells generalizing offset children with
  | nil =>
    cases h
    rfl
  | cons cell cells ih =>
    obtain ⟨⟨child, next⟩, hcell, h⟩ := bind_eq_ok.mp h
    obtain ⟨rest, hrest, h⟩ := bind_eq_ok.mp h
    cases h
    rw [map_cons, map_cons, decodeInternalCell_child hcell, ih hrest]

/-- Decoding an internal page fails or gives the children the page names, in order. -/
theorem decodeInternal_children {children : List NodeRef}
    (h : decodeInternal pages id first cells = .ok children) :
    children.map NodeRef.pageId = first :: cells.map InternalCell.child := by
  rw [decodeInternal] at h
  split_ifs at h
  obtain ⟨child, hchild, h⟩ := bind_eq_ok.mp h
  obtain ⟨rest, hrest, h⟩ := bind_eq_ok.mp h
  cases h
  rw [map_cons, nodeRefFrom_pageId hchild, decodeInternalCells_children hrest]

/-- The pages an internal page names are its row's. -/
theorem Row.children {head : NodeRef × List Entry} {tail : Kids}
    (hr : Row ordered h pages first cells entries head tail) :
    first :: cells.map InternalCell.child
      = (head :: tail).map (fun kid => kid.1.pageId) := by
  rw [map_eq_map_of_forall₂ (g := NodeRef.pageId) hr.cells_hold (fun _ _ hcell => hcell.2.2),
    map_cons, hr.first_eq, map_map]
  rfl

/-- **DEPTH**: a walk that has something to look for, and looks for it below some child of every
    internal page it meets, fails below its bound. -/
theorem everyChild_deep {α β : Type} {visit : Nat → Nat → β → Except Error α} {Asks : β → Prop}
    (hzero : ∀ id b, ∃ error, visit 0 id b = .error error)
    (hstep : ∀ {fuel id : Nat} {slots : Bool} {first : Nat} {cells : List InternalCell},
      pages[id]? = some (.internal slots first cells) →
      (∀ child ∈ first :: cells.map InternalCell.child, ∀ b, Asks b →
        ∃ error, visit fuel child b = .error error) →
      ∀ b, Asks b → ∃ error, visit (fuel + 1) id b = .error error)
    (hn : Node ordered h pages id entries) (hf : fuel ≤ h) :
    ∀ b, Asks b → ∃ error, visit fuel id b = .error error := by
  induction h generalizing fuel id entries with
  | zero =>
    intro b _
    obtain rfl : fuel = 0 := by omega
    exact hzero id b
  | succ h ih =>
    intro b hb
    cases fuel with
    | zero => exact hzero id b
    | succ fuel =>
      obtain ⟨slots, first, cells, head, tail, hp, hr⟩ := hn.row
      refine hstep hp (fun child hchild => ?_) b hb
      rw [hr.children] at hchild
      obtain ⟨kid, hkid, rfl⟩ := mem_map.mp hchild
      exact ih (hr.linked.holds kid hkid) (Nat.le_of_succ_le_succ hf)

/-! ## Walks that look everywhere -/

theorem findLeafFrom_deep (key : Bytes) (hn : Node ordered h pages id entries) (hf : fuel ≤ h) :
    ∃ error, findLeafFrom pages key fuel id = .error error := by
  induction h generalizing fuel id entries with
  | zero =>
    obtain rfl : fuel = 0 := by omega
    exact ⟨_, rfl⟩
  | succ h ih =>
    cases fuel with
    | zero => exact ⟨_, rfl⟩
    | succ fuel =>
      obtain ⟨slots, first, cells, head, tail, hp, hr⟩ := hn.row
      obtain ⟨pre, kid, post, hkids, hchild, _⟩ :=
        childForKey_row slots hr (hr.child_ne hn) key
      have hkid := hr.linked.holds kid (by rw [hkids]; simp)
      obtain ⟨error, herr⟩ := ih hkid (Nat.le_of_succ_le_succ hf)
      refine ⟨error, ?_⟩
      rw [findLeafFrom, readPage_ok.mpr hp, ok_bind]
      dsimp only
      rw [hchild, ok_bind]
      rw [herr]
      rfl

/-- Decoding an internal page fails or gives the first child first. -/
theorem decodeInternal_first {children : List NodeRef}
    (h : decodeInternal pages id first cells = .ok children) :
    ∃ minKey rest, children = ⟨first, minKey⟩ :: rest := by
  have hids := decodeInternal_children h
  cases children with
  | nil => cases hids
  | cons child rest =>
    obtain ⟨hfirst, _⟩ := cons.inj hids
    exact ⟨child.minKey, rest, by rw [← hfirst]⟩

section

variable (hn : Node ordered h pages id entries)
include hn

theorem nodeRefFrom_deep {pageId : Nat} (hf : fuel ≤ h) :
    ∃ error, nodeRefFrom pages pageId fuel id = .error error := by
  refine @everyChild_deep ordered pages entries fuel h id NodeRef Unit
    (fun fuel id _ => nodeRefFrom pages pageId fuel id) (fun _ => True)
    (fun _ _ => ⟨_, rfl⟩) ?_ hn hf () trivial
  intro fuel id slots first cells hp hchild b _
  show ∃ error, nodeRefFrom pages pageId (fuel + 1) id = .error error
  rw [nodeRefFrom, readPage_ok.mpr hp, ok_bind]
  exact hchild first mem_cons_self () trivial

theorem validateNode_deep (hf : fuel ≤ h) (lower upper : Option Bytes) (visited : List Nat) :
    ∃ error, validateNode pages fuel id lower upper visited = .error error := by
  refine @everyChild_deep ordered pages entries fuel h id (Nat × List Nat)
    (Option Bytes × Option Bytes × List Nat)
    (fun fuel id b => validateNode pages fuel id b.1 b.2.1 b.2.2) (fun _ => True)
    (fun id b => ⟨_, rfl⟩) ?_ hn hf (lower, upper, visited) trivial
  intro fuel id slots first cells hp hchild b _
  show ∃ error, validateNode pages (fuel + 1) id b.1 b.2.1 b.2.2 = .error error
  rw [validateNode]
  split_ifs with hseen
  · exact ⟨_, rfl⟩
  · rw [readPage_ok.mpr hp, ok_bind]
    refine bind_error (fun children hdec => ?_)
    obtain ⟨minKey, rest, rfl⟩ := decodeInternal_first hdec
    split_ifs
    · obtain ⟨error, herr⟩ := hchild first mem_cons_self
        (b.1, ((rest.head?.map NodeRef.minKey).or b.2.1), id :: b.2.2) trivial
      exact ⟨error, by rw [validateChildren, herr, error_bind]⟩
    · exact ⟨_, rfl⟩

theorem countNode_deep (hf : fuel ≤ h) (excluded : Bytes) :
    ∃ error, countNodeExcludingPrefix pages excluded fuel id = .error error := by
  refine @everyChild_deep ordered pages entries fuel h id Nat Unit
    (fun fuel id _ => countNodeExcludingPrefix pages excluded fuel id) (fun _ => True)
    (fun id b => ⟨_, rfl⟩) ?_ hn hf () trivial
  intro fuel id slots first cells hp hchild b _
  show ∃ error, countNodeExcludingPrefix pages excluded (fuel + 1) id = .error error
  rw [countNodeExcludingPrefix, readPage_ok.mpr hp, ok_bind]
  refine bind_error (fun children hdec => ?_)
  obtain ⟨minKey, rest, rfl⟩ := decodeInternal_first hdec
  obtain ⟨error, herr⟩ := hchild first mem_cons_self () trivial
  exact ⟨error, by rw [countChildren, herr, error_bind]⟩

/-! ## The sweep for many keys -/

omit hn in
/-- Some child gets the first key, and the sweep fails there. -/
theorem collectChildren_deep {collect : Nat → List Bytes → Except Error (List MaybeValued)}
    {offset child : Nat}
    (hall : ∀ page ∈ child :: cells.map InternalCell.child, ∀ own, own ≠ [] →
      ∃ error, collect page own = .error error) (hkeys : keys ≠ []) :
    ∃ error, collectChildren collect pages id offset child cells keys = .error error := by
  induction cells generalizing offset child keys with
  | nil =>
    rw [collectChildren, collectOwn, if_neg hkeys]
    exact hall child mem_cons_self keys hkeys
  | cons cell cells ih =>
    rw [collectChildren]
    refine bind_error (fun decoded hcell => ?_)
    obtain ⟨next, offset'⟩ := decoded
    dsimp only
    by_cases hown : keys.takeWhile (fun key => key < next.minKey) = []
    · -- nothing falls to this child, so the next ones have it all
      rw [hown, collectOwn, if_pos rfl, ok_bind]
      refine bind_fails _ (ih (fun page hpage => ?_) hkeys)
      rw [decodeInternalCell_child hcell] at hpage
      exact hall page (mem_cons_of_mem _ hpage)
    · rw [collectOwn, if_neg hown]
      exact bind_fails _ (hall child mem_cons_self _ hown)

theorem collectMany_deep {wantValues : Bool} (hf : fuel ≤ h) (hkeys : keys ≠ []) :
    ∃ error, collectMany pages values wantValues fuel id keys = .error error := by
  refine @everyChild_deep ordered pages entries fuel h id (List MaybeValued) (List Bytes)
    (collectMany pages values wantValues) (fun keys => keys ≠ []) (fun id b => ⟨_, rfl⟩) ?_
    hn hf keys hkeys
  intro fuel id slots first cells hp hchild keys hkeys
  rw [collectMany, readPage_ok.mpr hp, ok_bind]
  dsimp only
  split_ifs
  · exact ⟨_, rfl⟩
  · exact collectChildren_deep hchild hkeys

/-! ## The rewrite for a batch -/

omit hn in
/-- Some child gets the first mutation; the ones before it are kept, so the pages it is looked
    up in are the tree's. -/
theorem applyChildren_deep {apply : Rewriter} {children : List NodeRef}
    {mutations : List PreparedMutation}
    (hall : ∀ child ∈ children, ∀ own, own ≠ [] →
      ∃ error, apply pages child.pageId own existed = .error error)
    (hne : children ≠ []) (hmut : mutations ≠ []) :
    ∃ error, applyChildren apply pages children mutations existed = .error error := by
  induction children generalizing mutations with
  | nil => exact absurd rfl hne
  | cons child rest ih =>
    rw [forall_mem_cons] at hall
    rw [applyChildren]
    by_cases hown : ownMutations rest mutations = []
    · have hrest : rest ≠ [] := by
        rintro rfl
        exact hmut hown
      rw [hown, applyChild, if_pos rfl, ok_bind]
      exact bind_fails _ (ih hall.2 hrest hmut)
    · rw [applyChild, if_neg hown]
      exact bind_fails _ (bind_fails _ (hall.1 _ hown))

theorem applyNode_deep {isRoot : Bool} (hf : fuel ≤ h) {mutations : List PreparedMutation}
    (hmut : mutations ≠ []) :
    ∃ error, applyNode fuel isRoot pages id mutations existed = .error error := by
  refine @everyChild_deep ordered pages entries fuel h id (List NodeRef × (Nat → Bool) × Pages)
    (Bool × List PreparedMutation)
    (fun fuel id b => applyNode fuel b.1 pages id b.2 existed) (fun b => b.2 ≠ [])
    (fun id b => ⟨_, rfl⟩) ?_ hn hf (isRoot, mutations) hmut
  intro fuel id slots first cells hp hchild b hb
  show ∃ error, applyNode (fuel + 1) b.1 pages id b.2 existed = .error error
  rw [applyNode, readPage_ok.mpr hp, ok_bind]
  refine bind_error (fun children hdec => ?_)
  have hids := decodeInternal_children hdec
  refine bind_fails _ (applyChildren_deep (fun child hmem own hown => ?_) ?_ hb)
  · exact hchild child.pageId (hids ▸ mem_map_of_mem hmem) (false, own) hown
  · rintro rfl
    cases hids

end

end Deep

/-! ## Whole trees -/

section Tree

variable {ordered : Bool} {tree : PageTree} {levels : Nat} {rows : Rows}
  {mutations : List (Bytes × Mutation)}

section

variable (ht : Denotes ordered tree levels rows)
include ht

theorem Denotes.deep (hd : maxTreeDepth < levels) :
    tree.root ≠ 0 ∧ ∃ h entries, maxTreeDepth ≤ h ∧
      Node ordered h tree.pages tree.root entries := by
  obtain ⟨entries, hsuper, hrooted, _⟩ := ht
  obtain ⟨h, rfl⟩ : ∃ h, levels = h + 1 := ⟨levels - 1, by omega⟩
  have hnode : Node ordered h tree.pages tree.root entries := hrooted
  exact ⟨hsuper.id_ne_zero hnode, h, entries, Nat.le_of_lt_succ hd, hnode⟩

/-- **TOO DEEP**: below the depth bound a well-formed tree cannot be validated, counted,
    written or deleted from. -/
theorem tooDeep_denotes (hd : maxTreeDepth < levels) :
    (∃ error, tree.validate = .error error) ∧
      (∀ excluded, ∃ error, tree.countExcluding excluded = .error error) ∧
      (∀ key value revision, ∃ error, tree.preparePut key value revision = .error error) ∧
      ∀ key, ∃ error, tree.prepareDelete key = .error error := by
  obtain ⟨hroot, h, entries, hle, hnode⟩ := ht.deep hd
  have hfind : ∀ key, ∃ error, findLeaf tree.pages tree.root key = .error error :=
    fun key => findLeafFrom_deep key hnode hle
  refine ⟨?_, fun excluded => ?_, fun key value revision => ?_, fun key => ?_⟩
  · obtain ⟨error, herr⟩ := validateNode_deep hnode hle none none []
    exact ⟨error, by rw [PageTree.validate, PageTree.countEntries, if_neg hroot, herr]; rfl⟩
  · rw [PageTree.countExcluding, if_neg hroot]
    exact countNode_deep hnode hle excluded
  · rw [PageTree.preparePut]
    refine bind_error (fun stored _ => ?_)
    obtain ⟨error, herr⟩ := hfind key
    exact ⟨error, by dsimp only; rw [if_neg hroot, herr, error_bind]⟩
  · rw [PageTree.prepareDelete, if_neg hroot]
    obtain ⟨error, herr⟩ := hfind key
    exact ⟨error, by rw [herr, error_bind]⟩

/-- A tree that can be counted is within the depth bound. -/
theorem Denotes.within_of_count {excluded : Bytes} {count : Nat}
    (hcount : tree.countExcluding excluded = .ok count) : levels ≤ maxTreeDepth := by
  by_contra hdeep
  obtain ⟨error, herr⟩ := (tooDeep_denotes ht (not_le.mp hdeep)).2.1 excluded
  rw [herr] at hcount
  cases hcount

theorem collect_deep (hd : maxTreeDepth < levels) (wantValues : Bool) (hkeys : keys ≠ []) :
    ∃ error, tree.collect wantValues keys = .error error := by
  obtain ⟨hroot, h, entries, hle, hnode⟩ := ht.deep hd
  rw [PageTree.collect, if_pos ⟨hroot, hkeys⟩]
  exact collectMany_deep hnode hle hkeys

end

theorem prepareMutations_ne_nil (hmut : mutations ≠ []) {index : Nat} {values' : Bytes}
    {prepared : List PreparedMutation}
    (h : prepareMutations index values mutations = .ok (prepared, values')) : prepared ≠ [] := by
  obtain ⟨⟨key, mutation⟩, rest, rfl⟩ := exists_cons_of_ne_nil hmut
  cases mutation with
  | put =>
    obtain ⟨_, _, h⟩ := bind_eq_ok.mp h
    obtain ⟨_, _, h⟩ := bind_eq_ok.mp h
    cases h
    exact cons_ne_nil _ _
  | delete =>
    obtain ⟨_, _, h⟩ := bind_eq_ok.mp h
    cases h
    exact cons_ne_nil _ _

theorem prepareBatch_deep (ht : Denotes ordered tree levels rows) (hd : maxTreeDepth < levels)
    (hmut : mutations ≠ []) : ∃ error, tree.prepareBatch mutations = .error error := by
  obtain ⟨hroot, h, entries, hle, hnode⟩ := ht.deep hd
  rw [PageTree.prepareBatch, if_neg hmut]
  refine bind_error (fun prepared hprep => ?_)
  obtain ⟨prepared, values⟩ := prepared
  have hsorted : prepared.insertionSort (fun a b => a.key ≤ b.key) ≠ [] := by
    rw [← length_pos_iff, length_insertionSort]
    exact length_pos_iff.mpr (prepareMutations_ne_nil hmut hprep)
  refine bind_fails _ ?_
  rw [applyRoot, if_neg hroot]
  exact applyNode_deep hnode hle hsorted

end Tree

end Vyrn
