import Vyrn.PageTree.Scan

/-!
# Opening and validating a tree

`PageTree.open` takes the two files and the root and count a manifest or a log record names;
`validate` walks the pages below the root: no page twice, keys in order and within the
separators above them, and as many entries as the count says. It reads tree pages only, never
the value log. Main result: `validate_rooted`.
-/

namespace Vyrn

open SortedMap List

variable {rows : Rows} {tree : PageTree} {levels : Nat}

/-! ## The code -/

/-- Opens the files at a root. An empty page file gets its super page; the value log drops a
    torn tail. -/
def PageTree.open (pages : Pages) (values : Bytes) (root len : Nat) :
    Except Error PageTree := do
  let pages := if pages = [] then [.super] else pages
  match ← readPage pages 0 with
  | .super => do
    let values ← ValueLog.recoverTail values
    if root = 0 then
      if len ≠ 0 then throw (.corruptManifest "empty root has a nonzero entry count")
      else return ⟨pages, values, root, len⟩
    else
      match ← readPage pages root with
      | .leaf _ _ => return ⟨pages, values, root, len⟩
      | .internal _ _ _ => return ⟨pages, values, root, len⟩
      | _ => throw (.corruptPage root "root is not a tree node")
  | page => throw (unexpectedType 0 page)

/-- Whether a leaf's keys ascend strictly and lie in `[lower, upper)`. -/
def orderedWithin (lower upper : Option Bytes) : Option Bytes → List Entry → Bool
  | _, [] => true
  | previous, entry :: rest =>
    if previous.any (fun previous => entry.1 ≤ previous) ||
        lower.any (fun lower => entry.1 < lower) || upper.any (fun upper => upper ≤ entry.1) then
      false
    else orderedWithin lower upper (some entry.1) rest

def separatorsOrdered : List Bytes → Bool
  | [] => true
  | [_] => true
  | a :: b :: rest => a < b && separatorsOrdered (b :: rest)

/-- The children in order; a separator ends one child's bounds and begins the next one's. -/
def validateChildren
    (validate : Nat → Option Bytes → Option Bytes → List Nat → Except Error (Nat × List Nat))
    (upper : Option Bytes) : Option Bytes → List NodeRef → List Nat →
      Except Error (Nat × List Nat)
  | _, [], visited => .ok (0, visited)
  | lower, child :: rest, visited => do
    let boundary := (rest.head?.map NodeRef.minKey)
    let (count, visited) ← validate child.pageId lower (boundary.or upper) visited
    let (total, visited) ← validateChildren validate upper boundary rest visited
    return (count + total, visited)

/-- The number of entries below a page, with the pages seen so far. -/
def validateNode (pages : Pages) : Nat → Nat → Option Bytes → Option Bytes → List Nat →
    Except Error (Nat × List Nat)
  | 0, pageId, _, _, _ => .error (excessiveDepth pageId)
  | fuel + 1, pageId, lower, upper, visited =>
    if pageId ∈ visited then
      .error (.corruptPage pageId "tree page is referenced more than once or cyclic")
    else do
      match ← readPage pages pageId with
      | .leaf _ cells => do
        let entries ← decodeLeaf pages pageId cells
        if orderedWithin lower upper none entries then return (entries.length, pageId :: visited)
        else throw (.corruptPage pageId "leaf keys are not strictly ordered within bounds")
      | .internal _ first cells => do
        let children ← decodeInternal pages pageId first cells
        if separatorsOrdered ((children.drop 1).map NodeRef.minKey) then
          validateChildren (validateNode pages fuel) upper lower children (pageId :: visited)
        else throw (.corruptPage pageId "internal separators are not strictly ordered")
      | page => throw (unexpectedType pageId page)

def PageTree.countEntries (tree : PageTree) : Except Error Nat :=
  if tree.root = 0 then .ok 0
  else do
    let (count, _) ← validateNode tree.pages maxTreeDepth tree.root none none []
    return count

def PageTree.validate (tree : PageTree) : Except Error Unit := do
  let count ← tree.countEntries
  if count ≠ tree.len then
    throw (.corruptPage tree.root ("tree contains " ++ toString count ++
      " entries but metadata reports " ++ toString tree.len))
  return ()

def countChildren (count : Nat → Except Error Nat) : List NodeRef → Except Error Nat
  | [] => .ok 0
  | child :: rest => do
    let own ← count child.pageId
    let others ← countChildren count rest
    return own + others

def countNodeExcludingPrefix (pages : Pages) (excluded : Bytes) : Nat → Nat → Except Error Nat
  | 0, pageId => .error (excessiveDepth pageId)
  | fuel + 1, pageId => do
    match ← readPage pages pageId with
    | .leaf _ cells => do
      let entries ← decodeLeaf pages pageId cells
      return (entries.filter (fun entry => !excluded.isPrefixOf entry.1)).length
    | .internal _ first cells => do
      let children ← decodeInternal pages pageId first cells
      countChildren (countNodeExcludingPrefix pages excluded fuel) children
    | page => throw (unexpectedType pageId page)

/-- The number of keys that do not start with `excluded`. -/
def PageTree.countExcluding (tree : PageTree) (excluded : Bytes) : Except Error Nat :=
  if tree.root = 0 then .ok 0
  else countNodeExcludingPrefix tree.pages excluded maxTreeDepth tree.root

/-! ## Well-formed trees validate -/

section Valid

variable {ordered : Bool} {pages : Pages} {entries : List Entry} {levels h id : Nat}

/-- A page holds one list of entries. -/
theorem Node.unique {h' : Nat} {entries' : List Entry} (hn : Node ordered h pages id entries)
    (hn' : Node ordered h' pages id entries') : entries = entries' := by
  obtain rfl := hn.height_unique hn'
  -- both are what a scan of the page without bounds returns
  have hscan : ∀ {es : List Entry}, Node ordered h pages id es →
      scanNode (fun es => .ok es) pages ⟨none, none, none⟩ (h + 1)
        (entries.length + entries'.length) id
      = .ok (es.take (entries.length + entries'.length)) := by
    intro es hes
    have hall : (ScanRange.mk none none none).select es = es :=
      filter_eq_self.mpr (fun e _ => rfl)
    rw [scanNode_node (g := fun e => e) hes (Nat.lt_succ_self h)
      (fun es _ => by rw [map_id']), scanned, hall, map_id']
  have heq := Except.ok.inj ((hscan hn).symm.trans (hscan hn'))
  rwa [take_of_length_le (by omega), take_of_length_le (by omega)] at heq

theorem orderedWithin_eq_true {lower upper : Option Bytes} (hs : Sorted entries)
    (hlow : ∀ l, lower = some l → ∀ e ∈ entries, l ≤ e.1)
    (hupp : ∀ u, upper = some u → ∀ e ∈ entries, e.1 < u) {previous : Option Bytes}
    (hprev : ∀ p, previous = some p → ∀ e ∈ entries, p < e.1) :
    orderedWithin lower upper previous entries = true := by
  induction entries generalizing previous with
  | nil => rfl
  | cons entry entries ih =>
    obtain ⟨hlt, hsorted⟩ := sorted_cons.mp hs
    rw [orderedWithin, if_neg]
    · refine ih hsorted (fun l hl e he => hlow l hl e (mem_cons_of_mem _ he))
        (fun u hu e he => hupp u hu e (mem_cons_of_mem _ he)) ?_
      rintro _ ⟨⟩ e he
      exact hlt e he
    · simp only [Bool.or_eq_true, not_or, Option.any_eq_true, decide_eq_true_eq]
      refine ⟨⟨?_, ?_⟩, ?_⟩
      · rintro ⟨p, hp, hle⟩
        exact absurd (hprev p hp entry mem_cons_self) (not_lt.mpr hle)
      · rintro ⟨l, hl, hle⟩
        exact absurd hle (not_lt.mpr (hlow l hl entry mem_cons_self))
      · rintro ⟨u, hu, hle⟩
        exact absurd (hupp u hu entry mem_cons_self) (not_lt.mpr hle)

theorem separatorsOrdered_eq_true {keys : List Bytes} (h : keys.Pairwise (· < ·)) :
    separatorsOrdered keys = true := by
  induction keys with
  | nil => rfl
  | cons a keys ih =>
    obtain ⟨ha, hk⟩ := pairwise_cons.mp h
    cases keys with
    | nil => rfl
    | cons b rest =>
      rw [separatorsOrdered, ih hk, Bool.and_true]
      exact decide_eq_true (ha b mem_cons_self)

/-- No page seen so far holds, at height `h` or below, an entry of `entries`. -/
def Fresh (ordered : Bool) (pages : Pages) (h : Nat) (entries : List Entry)
    (visited : List Nat) : Prop :=
  ∀ p ∈ visited, ∀ h' es, Node ordered h' pages p es → h' ≤ h → ∀ e ∈ es, e ∉ entries

/-- The pages seen are the ones seen before and pages of the subtree. -/
def SeenBelow (ordered : Bool) (pages : Pages) (entries : List Entry)
    (visited visited' : List Nat) : Prop :=
  ∀ p ∈ visited', p ∈ visited ∨ ∃ h es, Node ordered h pages p es ∧ es ⊆ entries

theorem Fresh.not_mem {visited : List Nat} (hf : Fresh ordered pages h entries visited)
    (hn : Node ordered h pages id entries) : id ∉ visited := by
  intro hmem
  obtain ⟨e, he⟩ := exists_mem_of_ne_nil _ hn.ne_nil
  exact hf id hmem h entries hn le_rfl e he he

/-- The children's counts add up, and no page is met twice. -/
theorem validateChildren_holds
    {validate : Nat → Option Bytes → Option Bytes → List Nat → Except Error (Nat × List Nat)}
    {upper : Option Bytes} {kids : Kids} {lower : Option Bytes} {visited : List Nat}
    (hl : Linked (Node ordered h pages) kids)
    (hlow : ∀ l, lower = some l → ∀ x ∈ kids.head?, ∀ e ∈ x.2, l ≤ e.1)
    (hupp : ∀ u, upper = some u → ∀ x ∈ kids, ∀ e ∈ x.2, e.1 < u)
    (hfresh : Fresh ordered pages h (contents kids) visited)
    (hval : ∀ x ∈ kids, ∀ lower upper visited, (∀ l, lower = some l → ∀ e ∈ x.2, l ≤ e.1) →
      (∀ u, upper = some u → ∀ e ∈ x.2, e.1 < u) → Fresh ordered pages h x.2 visited →
      ∃ visited', validate x.1.pageId lower upper visited = .ok (x.2.length, visited') ∧
        SeenBelow ordered pages x.2 visited visited') :
    ∃ visited', validateChildren validate upper lower (kids.map Prod.fst) visited
        = .ok ((contents kids).length, visited') ∧
      SeenBelow ordered pages (contents kids) visited visited' := by
  induction kids generalizing lower visited with
  | nil => exact ⟨visited, rfl, fun p hp => .inl hp⟩
  | cons kid tail ih =>
    rw [forall_mem_cons] at hval
    obtain ⟨_, hltail, hapart⟩ := linked_cons.mp hl
    have hown : Fresh ordered pages h kid.2 visited := by
      intro p hp h' es hn hle e he hmem
      exact hfresh p hp h' es hn hle e he (mem_contents.mpr ⟨kid, mem_cons_self, hmem⟩)
    -- the boundary is the next child's separator
    have hbound : ∀ u, ((tail.map Prod.fst).head?.map NodeRef.minKey).or upper = some u →
        ∀ e ∈ kid.2, e.1 < u := by
      intro u hu e he
      cases tail with
      | nil => exact hupp u hu kid mem_cons_self e he
      | cons next tail =>
        cases hu
        exact hapart next mem_cons_self e he
    obtain ⟨seen, hrun, hseen⟩ := hval.1 lower _ visited
      (fun l hle => hlow l hle kid rfl) hbound hown
    have hfresh' : Fresh ordered pages h (contents tail) seen := by
      intro p hp h' es hn hle e he hmem
      rcases hseen p hp with hp | ⟨_, es', hn', hsub⟩
      · refine hfresh p hp h' es hn hle e he ?_
        rw [contents_cons]
        exact mem_append_right _ hmem
      · -- a page of the child just done: its entries are the child's
        obtain rfl := hn.unique hn'
        obtain ⟨x, hx, hex⟩ := mem_contents.mp hmem
        have hlt := hapart x hx e (hsub he)
        exact absurd (hltail.above x hx e hex) (not_le.mpr hlt)
    have hlow' : ∀ l, (tail.map Prod.fst).head?.map NodeRef.minKey = some l →
        ∀ x ∈ tail.head?, ∀ e ∈ x.2, l ≤ e.1 := by
      intro l hle x hx e he
      cases tail with
      | nil => cases hx
      | cons next tail =>
        cases hx
        cases hle
        exact hltail.above x mem_cons_self e he
    obtain ⟨visited', hrest, hseen'⟩ := ih hltail hlow'
      (fun u hu x hx => hupp u hu x (mem_cons_of_mem _ hx)) hfresh'
      hval.2
    refine ⟨visited', ?_, ?_⟩
    · rw [map_cons, validateChildren, hrun, ok_bind]
      dsimp only
      rw [hrest, ok_bind, contents_cons, length_append]
      rfl
    · intro p hp
      rw [contents_cons]
      rcases hseen' p hp with hp | ⟨h', es, hn, hsub⟩
      · rcases hseen p hp with hp | ⟨h', es, hn, hsub⟩
        · exact .inl hp
        · exact .inr ⟨h', es, hn, fun e he => mem_append_left _ (hsub he)⟩
      · exact .inr ⟨h', es, hn, fun e he => mem_append_right _ (hsub he)⟩

/-- **VALIDATE**: a subtree within the depth bound passes and its entries are counted. -/
theorem validateNode_node {fuel : Nat} {lower upper : Option Bytes} {visited : List Nat}
    (hn : Node ordered h pages id entries) (hf : h < fuel) (hmax : fuel ≤ maxTreeDepth)
    (hlow : ∀ l, lower = some l → ∀ e ∈ entries, l ≤ e.1)
    (hupp : ∀ u, upper = some u → ∀ e ∈ entries, e.1 < u)
    (hfresh : Fresh ordered pages h entries visited) :
    ∃ visited', validateNode pages fuel id lower upper visited
        = .ok (entries.length, visited') ∧
      SeenBelow ordered pages entries visited visited' := by
  induction h generalizing fuel id entries lower upper visited with
  | zero =>
    obtain ⟨fuel, rfl⟩ := exists_fuel hf
    have hnode := hn
    obtain ⟨slots, cells, hp, hcells, _, hs, hfit⟩ := hn
    refine ⟨id :: visited, ?_, ?_⟩
    · rw [validateNode, if_neg (hfresh.not_mem hnode), readPage_ok.mpr hp, ok_bind]
      dsimp only
      rw [decodeLeaf_holds (forall₂_mono_view hcells) hfit, ok_bind,
        orderedWithin_eq_true hs hlow hupp (fun p hp => by cases hp)]
      rfl
    · exact forall_mem_cons.mpr ⟨.inr ⟨0, entries, hnode, fun e he => he⟩, fun _ => .inl⟩
  | succ h ih =>
    obtain ⟨fuel, rfl⟩ := exists_fuel hf
    obtain ⟨slots, first, cells, head, tail, hp, hr⟩ := hn.row
    have hsep : ((head :: tail).map Prod.fst).drop 1 = tail.map Prod.fst := rfl
    have hordered : separatorsOrdered ((tail.map Prod.fst).map NodeRef.minKey) = true := by
      refine separatorsOrdered_eq_true ?_
      rw [map_map]
      exact pairwise_map.mpr (linked_cons.mp hr.linked).2.1.separators
    have hmem : ∀ x ∈ head :: tail, ∀ e ∈ x.2, e ∈ entries := by
      intro x hx e he
      rw [hr.entries_eq]
      exact mem_contents.mpr ⟨x, hx, he⟩
    have hfresh' : Fresh ordered pages h (contents (head :: tail)) (id :: visited) := by
      intro p hp h' es hn' hle e he hmem
      rcases mem_cons.mp hp with rfl | hp
      · have := hn.height_unique hn'
        omega
      · exact hfresh p hp h' es hn' (by omega) e he (hr.entries_eq ▸ hmem)
    obtain ⟨visited', hrun, hseen⟩ := @validateChildren_holds ordered pages h
      (validateNode pages fuel) upper (head :: tail) lower (id :: visited) hr.linked
      (fun l hl x hx e he => hlow l hl e (hmem x (mem_of_mem_head? hx) e he))
      (fun u hu x hx e he => hupp u hu e (hmem x hx e he)) hfresh'
      (fun x hx lower upper visited hlo hup hfr =>
        ih (hr.linked.holds x hx) (by omega) (by omega) hlo hup hfr)
    refine ⟨visited', ?_, ?_⟩
    · rw [validateNode, if_neg (hfresh.not_mem hn), readPage_ok.mpr hp, ok_bind]
      dsimp only
      rw [decodeInternal_row hr (by omega), ok_bind, hsep, hordered, if_pos rfl, hrun,
        hr.entries_eq]
    · intro p hp
      rcases hseen p hp with hp | ⟨h', es, hn', hsub⟩
      · rcases mem_cons.mp hp with rfl | hp
        · exact .inr ⟨h + 1, entries, hn, fun e he => he⟩
        · exact .inl hp
      · exact .inr ⟨h', es, hn', hr.entries_eq ▸ hsub⟩

/-- A well-formed tree within the depth bound validates. -/
theorem validate_rooted (hsuper : SuperFirst tree.pages)
    (hrooted : Rooted ordered tree.pages tree.root levels entries)
    (hlen : tree.len = entries.length) (hd : levels ≤ maxTreeDepth) : tree.validate = .ok () := by
  have hcount : tree.countEntries = .ok entries.length := by
    rw [PageTree.countEntries]
    cases levels with
    | zero =>
      obtain ⟨hroot, rfl⟩ := hrooted
      rw [if_pos hroot]
      rfl
    | succ h =>
      obtain ⟨visited, hrun, _⟩ := @validateNode_node ordered tree.pages entries h
        tree.root maxTreeDepth none none [] hrooted hd le_rfl (fun l hl => by cases hl)
        (fun u hu => by cases hu) (forall_mem_nil _)
      rw [if_neg (hsuper.id_ne_zero hrooted), hrun]
      rfl
  rw [PageTree.validate, hcount, ok_bind, if_neg (by rw [hlen]; simp)]
  rfl

/-- A root that is there opens, over the value log its tail leaves. -/
theorem open_rooted {root : Nat} (hsuper : SuperFirst pages)
    (hrooted : Rooted ordered pages root levels entries) {len : Nat} (hlen : len = entries.length)
    {values values' : Bytes} (htail : ValueLog.recoverTail values = .ok values') :
    PageTree.open pages values root len = .ok ⟨pages, values', root, len⟩ := by
  have hzero : readPage pages 0 = .ok .super := readPage_ok.mpr hsuper
  rw [PageTree.open, if_neg hsuper.ne_nil, hzero, ok_bind]
  rw [htail, ok_bind]
  cases levels with
  | zero =>
    obtain ⟨rfl, rfl⟩ := hrooted
    rw [if_pos rfl, if_neg (by rw [hlen]; simp)]
    rfl
  | succ h =>
    rw [if_neg (hsuper.id_ne_zero hrooted)]
    cases h with
    | zero =>
      obtain ⟨slots, cells, hp, _⟩ := hrooted
      rw [readPage_ok.mpr hp]
      rfl
    | succ h =>
      obtain ⟨slots, first, cells, hp, _⟩ := hrooted
      rw [readPage_ok.mpr hp]
      rfl

end Valid

/-! ## Counting -/

section Count

variable {ordered : Bool} {pages : Pages} {excluded : Bytes}

theorem countChildren_holds {count : Nat → Except Error Nat} {kids : Kids}
    (hcount : ∀ x ∈ kids, count x.1.pageId
      = .ok (x.2.filter (fun e => !excluded.isPrefixOf e.1)).length) :
    countChildren count (kids.map Prod.fst)
      = .ok ((contents kids).filter (fun e => !excluded.isPrefixOf e.1)).length := by
  induction kids with
  | nil => rfl
  | cons kid tail ih =>
    rw [forall_mem_cons] at hcount
    rw [map_cons, countChildren, hcount.1, ok_bind, ih hcount.2, ok_bind, contents_cons,
      filter_append, length_append]
    rfl

/-- **COUNT**: the keys outside the prefix are counted. -/
theorem countExcluding_denotes (ht : Denotes ordered tree levels rows)
    (hd : levels ≤ maxTreeDepth) :
    tree.countExcluding excluded
      = .ok (rows.filter (fun row => !excluded.isPrefixOf row.1)).length := by
  obtain ⟨entries, hsuper, hrooted, _, hrel⟩ := ht
  rw [PageTree.countExcluding, ← (hrel.filter (fun key => !excluded.isPrefixOf key)).length_eq]
  cases levels with
  | zero =>
    rw [if_pos hrooted.1, hrooted.2]
    rfl
  | succ h =>
    rw [if_neg (hsuper.id_ne_zero hrooted)]
    exact @Node.walk _ _ _ _ _ countChildren (countNodeExcludingPrefix tree.pages excluded)
      (fun _ _ => rfl) (fun _ hcount => countChildren_holds hcount) _ _ _ hrooted hd le_rfl

end Count

/-! ## Cut files -/

/-- **CUT**: a page file cut behind its root still holds the tree. -/
theorem Denotes.cut {n : Nat} (ht : Denotes true tree levels rows) (hroot : tree.root < n) :
    Denotes true { tree with pages := tree.pages.take n } levels rows := by
  obtain ⟨entries, hsuper, hrooted, hlen, hrel⟩ := ht
  refine ⟨entries, ?_, ?_, hlen, hrel⟩
  · exact (getElem?_take_of_lt (Nat.zero_lt_of_lt hroot)).trans hsuper
  · cases levels with
    | zero => exact hrooted
    | succ h => exact Node.cut hrooted hroot

end Vyrn
