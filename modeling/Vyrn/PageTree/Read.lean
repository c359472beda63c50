import Vyrn.PageTree.Tree

/-!
# Point reads — one key, many keys, the greatest key of a range

`getWithRevision` descends for one key. `collectMany` answers a sorted list of keys in one sweep; a
leaf searches its slot directory for each key when the keys are few against its entries, and
otherwise walks its cells beside them. `lastKeyIn` descends from the right. Each answers what the
map says: **`getWithRevision_denotes`**, **`collectMany_node`**, **`lastKeyInNode_node`**.
-/

namespace Vyrn

open SortedMap List

variable {rows : Rows} {levels h : Nat} {tree : PageTree} {versioned : Versioned} {stored : Stored}

/-! ## The code -/

def readStored (values : Bytes) (stored : Stored) : Except Error Versioned := do
  let value ← resolve values stored.value
  return ⟨value, stored.revision⟩

/-- One key's value and revision. -/
def PageTree.getWithRevision (tree : PageTree) (key : Bytes) :
    Except Error (Option Versioned) :=
  if tree.root = 0 then .ok none
  else do
    let (leaf, _) ← findLeaf tree.pages tree.root key
    match ← lookupInLeaf tree.pages leaf key with
    | none => return none
    | some stored => do
      let versioned ← readStored tree.values stored
      return some versioned

def PageTree.get (tree : PageTree) (key : Bytes) : Except Error (Option Bytes) := do
  let found ← tree.getWithRevision key
  return found.map Versioned.value

def PageTree.revision (tree : PageTree) (key : Bytes) : Except Error (Option Nat) := do
  let found ← tree.getWithRevision key
  return found.map Versioned.revision

/-- One key's value, handed out where it lies. -/
def PageTree.getShared (tree : PageTree) (key : Bytes) : Except Error (Option Bytes) :=
  if tree.root = 0 then .ok none
  else do
    let (leaf, _) ← findLeaf tree.pages tree.root key
    match ← lookupInLeaf tree.pages leaf key with
    | none => return none
    | some stored => do
      let value ← resolve tree.values stored.value
      return some value

/-- What the sweep found for a key: its revision, and its value when values are wanted. -/
abbrev MaybeValued := Option (Option Bytes × Nat)

def foundValue (values : Bytes) (wantValues : Bool) (stored : Stored) :
    Except Error (Option Bytes × Nat) :=
  if wantValues then do
    let value ← resolve values stored.value
    return (some value, stored.revision)
  else .ok (none, stored.revision)

def foundHit (values : Bytes) (wantValues : Bool) : Option Stored → Except Error MaybeValued
  | none => .ok none
  | some stored => do
    let found ← foundValue values wantValues stored
    return some found

/-- A sparse batch: a binary search per key. -/
def collectSlots (pages : Pages) (values : Bytes) (wantValues : Bool) (pageId : Nat)
    (cells : List LeafCell) : List Bytes → Except Error (List MaybeValued)
  | [] => .ok []
  | key :: keys => do
    let hit ← findInLeafSlots pages pageId cells key
    let found ← foundHit values wantValues hit
    let others ← collectSlots pages values wantValues pageId cells keys
    return found :: others

/-- A dense batch: one walk over the cells beside the keys. Keys below a cell's are absent. -/
def collectWalk (pages : Pages) (values : Bytes) (wantValues : Bool) (pageId : Nat) :
    Nat → List LeafCell → List Bytes → Except Error (List MaybeValued)
  | _, [], keys => .ok (keys.map (fun _ => none))
  | offset, cell :: cells, keys =>
    if keys = [] then .ok []
    else do
      let (entry, offset) ← decodeLeafCell pages pageId offset cell
      let absent := keys.takeWhile (fun key => key < entry.1)
      let rest := keys.dropWhile (fun key => key < entry.1)
      if rest.head? = some entry.1 then
        let found ← foundValue values wantValues entry.2
        let others ← collectWalk pages values wantValues pageId offset cells rest.tail
        return absent.map (fun _ => none) ++ some found :: others
      else
        let others ← collectWalk pages values wantValues pageId offset cells rest
        return absent.map (fun _ => none) ++ others

def collectLeaf (pages : Pages) (values : Bytes) (wantValues : Bool) (pageId : Nat)
    (slots : Bool) (cells : List LeafCell) (keys : List Bytes) :
    Except Error (List MaybeValued) :=
  if maxLeafEntries < cells.length then
    .error (.corruptPage pageId ("leaf claims " ++ toString cells.length ++
      " entries but a page holds at most " ++ toString maxLeafEntries))
  else if keys.length * 4 < cells.length ∧ slots = true then
    collectSlots pages values wantValues pageId cells keys
  else collectWalk pages values wantValues pageId headerSize cells keys

/-- A child is only read when keys fall to it. -/
def collectOwn (collect : Nat → List Bytes → Except Error (List MaybeValued)) (child : Nat)
    (own : List Bytes) : Except Error (List MaybeValued) :=
  if own = [] then .ok [] else collect child own

/-- Walks an internal page's separators beside the keys. -/
def collectChildren (collect : Nat → List Bytes → Except Error (List MaybeValued))
    (pages : Pages) (pageId : Nat) :
    Nat → Nat → List InternalCell → List Bytes → Except Error (List MaybeValued)
  | _, child, [], keys => collectOwn collect child keys
  | offset, child, cell :: cells, keys => do
    let (next, offset) ← decodeInternalCell pages pageId offset cell
    let own := keys.takeWhile (fun key => key < next.minKey)
    let found ← collectOwn collect child own
    let others ← collectChildren collect pages pageId offset next.pageId cells
      (keys.drop own.length)
    return found ++ others

def collectMany (pages : Pages) (values : Bytes) (wantValues : Bool) :
    Nat → Nat → List Bytes → Except Error (List MaybeValued)
  | 0, pageId, _ => .error (excessiveDepth pageId)
  | fuel + 1, pageId, keys => do
    match ← readPage pages pageId with
    | .leaf slots cells => collectLeaf pages values wantValues pageId slots cells keys
    | .internal _ first cells =>
      if maxInternalChildren ≤ cells.length then
        throw (.corruptPage pageId ("internal page claims " ++ toString (cells.length + 1) ++
          " children but a page holds at most " ++ toString maxInternalChildren))
      else
        collectChildren (collectMany pages values wantValues fuel) pages pageId headerSize first
          cells keys
    | page => throw (unexpectedType pageId page)

def PageTree.collect (tree : PageTree) (wantValues : Bool) (keys : List Bytes) :
    Except Error (List MaybeValued) :=
  if tree.root ≠ 0 ∧ keys ≠ [] then
    collectMany tree.pages tree.values wantValues maxTreeDepth tree.root keys
  else .ok (keys.map (fun _ => none))

/-- Values and revisions of a sorted list of distinct keys, in their order. -/
def PageTree.getManyWithRevision (tree : PageTree) (keys : List Bytes) :
    Except Error (List (Option Versioned)) := do
  let results ← tree.collect true keys
  return results.map (fun found => found.map (fun hit => ⟨hit.1.getD [], hit.2⟩))

def PageTree.getManyRevisions (tree : PageTree) (keys : List Bytes) :
    Except Error (List (Option Nat)) := do
  let results ← tree.collect false keys
  return results.map (fun found => found.map Prod.snd)

/-- Whether a key is in `[start, stop)`. -/
def inBounds (start : Bytes) (stop : Option Bytes) (key : Bytes) : Bool :=
  start ≤ key && stop.all (fun stop => key < stop)

/-- The children from the right, skipping those that cannot meet the range. -/
def lastKeyInChildren (descend : Nat → Except Error (Option Bytes)) (start : Bytes)
    (stop : Option Bytes) : List NodeRef → Except Error (Option Bytes)
  | [] => .ok none
  | child :: rest => do
    match ← lastKeyInChildren descend start stop rest with
    | some found => return some found
    | none =>
      if stop.any (fun stop => stop ≤ child.minKey) then return none
      else if rest.head?.any (fun next => next.minKey ≤ start) then return none
      else descend child.pageId

def lastKeyInNode (pages : Pages) (start : Bytes) (stop : Option Bytes) :
    Nat → Nat → Except Error (Option Bytes)
  | 0, pageId => .error (excessiveDepth pageId)
  | fuel + 1, pageId => do
    match ← readPage pages pageId with
    | .leaf _ cells => do
      let entries ← decodeLeaf pages pageId cells
      return (entries.filter (fun entry => inBounds start stop entry.1)).getLast?.map Prod.fst
    | .internal _ first cells => do
      let children ← decodeInternal pages pageId first cells
      lastKeyInChildren (lastKeyInNode pages start stop fuel) start stop children
    | page => throw (unexpectedType pageId page)

/-- The greatest key in `[start, stop)`. -/
def PageTree.lastKeyIn (tree : PageTree) (start : Bytes) (stop : Option Bytes) :
    Except Error (Option Bytes) :=
  if tree.root = 0 then .ok none
  else lastKeyInNode tree.pages start stop maxTreeDepth tree.root

/-! ## One key -/

/-- **GET**: a point read answers the map's binding. -/
theorem getWithRevision_denotes {ordered : Bool} (ht : Denotes ordered tree levels rows)
    (hd : levels ≤ maxTreeDepth) (key : Bytes) :
    tree.getWithRevision key = .ok (lookup key rows) ∧
      tree.getShared key = .ok ((lookup key rows).map Versioned.value) := by
  obtain ⟨entries, hsuper, hrooted, _, hrel⟩ := ht
  rw [PageTree.getWithRevision, PageTree.getShared]
  cases levels with
  | zero =>
    obtain ⟨hroot, rfl⟩ := hrooted
    cases hrel
    rw [if_pos hroot, if_pos hroot]
    exact ⟨rfl, rfl⟩
  | succ h =>
    obtain ⟨leaf, path, hfind, hlookup⟩ := lookup_node hrooted hd key
    have hroot := hsuper.id_ne_zero hrooted
    have hvalue := hrel.lookup key
    rw [if_neg hroot, if_neg hroot, hfind, ok_bind, ok_bind]
    dsimp only
    rw [hlookup, ok_bind, ok_bind]
    generalize lookup key entries = found at hvalue
    generalize lookup key rows = row at hvalue
    cases hvalue with
    | none => exact ⟨rfl, rfl⟩
    | some hr =>
      dsimp only
      rw [readStored, hr.1, ok_bind, hr.2]
      exact ⟨rfl, rfl⟩

/-! ## Many keys -/

section Collect

variable {pages : Pages} {values : Bytes} {wantValues : Bool} {ordered : Bool} {keys : List Bytes}
  {entries : List Entry} {id : Nat} {f : Stored → Option Bytes × Nat} {cells : List LeafCell}

/-- What the sweep should answer for `keys` against `entries`. -/
def answers (f : Stored → Option Bytes × Nat) (entries : List Entry) (keys : List Bytes) :
    List MaybeValued :=
  keys.map (fun key => (lookup key entries).map f)

/-- Keys that every entry lies above are absent. -/
theorem answers_below (h : ∀ key ∈ keys, ∀ e ∈ entries, key < e.1) :
    answers f entries keys = keys.map (fun _ => none) := by
  refine map_congr_left (fun key hk => ?_)
  rw [lookup_eq_none (fun e he => (h key hk e he).ne')]
  rfl

theorem answers_append (f : Stored → Option Bytes × Nat) (entries : List Entry)
    (a b : List Bytes) : answers f entries (a ++ b) = answers f entries a ++ answers f entries b :=
  map_append

theorem answers_congr {entries' : List Entry}
    (h : ∀ key ∈ keys, lookup key entries = lookup key entries') :
    answers f entries keys = answers f entries' keys :=
  map_congr_left (fun key hk => by rw [h key hk])

/-- Sorted distinct keys cut at `bound`. -/
theorem split_keys (hk : keys.Pairwise (· < ·)) (bound : Bytes) :
    ∃ a b, keys.takeWhile (fun key => key < bound) = a ∧
      keys.dropWhile (fun key => key < bound) = b ∧ keys.drop a.length = b ∧ keys = a ++ b ∧
      (∀ key ∈ a, key < bound) ∧ (∀ key ∈ b, bound ≤ key) ∧ b.Pairwise (· < ·) := by
  obtain ⟨a, b, ha, hb, hdrop, hsplit, hlow, hhigh⟩ :=
    BinarySearch.cut_below id (hk.imp le_of_lt) bound
  exact ⟨a, b, ha, hb, hdrop, hsplit, hlow, hhigh, hk.sublist (hb ▸ dropWhile_sublist _)⟩

theorem collectSlots_holds (h : Forall₂ (LeafCell.Holds pages) cells entries)
    (hs : Sorted entries) (hf : ∀ e ∈ entries, foundValue values wantValues e.2 = .ok (f e.2))
    (keys : List Bytes) :
    collectSlots pages values wantValues id cells keys = .ok (answers f entries keys) := by
  induction keys with
  | nil => rfl
  | cons key keys ih =>
    have hhit : foundHit values wantValues (lookup key entries)
        = .ok ((lookup key entries).map f) := by
      cases hl : lookup key entries with
      | none => rfl
      | some stored =>
        rw [foundHit, hf (key, stored) ((lookup_eq_some hs).mp hl)]
        rfl
    rw [collectSlots, findInLeafSlots_holds h hs, ok_bind, hhit, ok_bind, ih]
    rfl

/-- One pass over a leaf answers sorted keys. -/
theorem collectWalk_holds (h : Forall₂ (LeafCell.Holds pages) cells entries) {offset : Nat}
    (hs : Sorted entries) (hk : keys.Pairwise (· < ·))
    (hf : ∀ e ∈ entries, foundValue values wantValues e.2 = .ok (f e.2))
    (hfit : offset + (cells.map LeafCell.bytes).sum ≤ pageSize) :
    collectWalk pages values wantValues id offset cells keys = .ok (answers f entries keys) := by
  induction h generalizing offset keys with
  | nil => rfl
  | @cons _ entry _ entries hc _ ih =>
    obtain ⟨hlt, hsorted⟩ := sorted_cons.mp hs
    rw [map_cons, sum_cons] at hfit
    have hf' : ∀ e ∈ entries, foundValue values wantValues e.2 = .ok (f e.2) :=
      fun e he => hf e (mem_cons_of_mem _ he)
    rw [collectWalk]
    split_ifs with hnil
    · rw [hnil]
      rfl
    · obtain ⟨absent, rest, habs, hrest, _, rfl, hbelow, habove, hpair⟩ :=
        split_keys hk entry.1
      have hbefore : ∀ key ∈ absent, ∀ e ∈ entry :: entries, key < e.1 := by
        intro key hm e he
        rcases mem_cons.mp he with rfl | he
        · exact hbelow key hm
        · exact (hbelow key hm).trans (hlt e he)
      rw [decodeLeafCell_holds hc (by omega), ok_bind]
      dsimp only
      rw [habs, hrest, answers_append, answers_below hbefore]
      -- behind the cell's own key, the entry no longer matters
      have hskip : ∀ ks : List Bytes, (∀ key ∈ ks, entry.1 < key) →
          answers f entries ks = answers f (entry :: entries) ks := by
        intro ks hks
        refine answers_congr (fun key hm => ?_)
        rw [lookup_entry, if_neg (hks key hm).ne']
      cases rest with
      | nil =>
        rw [if_neg (by simp), ih hsorted Pairwise.nil hf' (by omega)]
        rfl
      | cons key rest =>
        obtain ⟨hhead, htail⟩ := pairwise_cons.mp hpair
        by_cases heq : key = entry.1
        · subst heq
          rw [head?_cons, if_pos rfl, hf entry mem_cons_self, ok_bind, tail_cons,
            ih hsorted htail hf' (by omega), ok_bind, hskip rest hhead]
          rw [answers, answers, map_cons, lookup_entry, if_pos rfl]
          rfl
        · have hgt : entry.1 < key :=
            lt_of_le_of_ne (habove key mem_cons_self) (Ne.symm heq)
          rw [if_neg (by simpa using heq), ih hsorted hpair hf' (by omega), ok_bind,
            hskip (key :: rest) (fun k hm => by
              rcases mem_cons.mp hm with rfl | hm
              · exact hgt
              · exact hgt.trans (hhead k hm))]
          rfl

/-- Each key is looked up in the child it belongs to. -/
theorem collectChildren_holds {collect : Nat → List Bytes → Except Error (List MaybeValued)}
    {cells : List InternalCell} {kid : NodeRef × List Entry} {tail : Kids} {offset : Nat}
    (hl : Linked (Node ordered h pages) (kid :: tail))
    (hcells : Forall₂ (InternalCell.Holds pages) cells (tail.map Prod.fst))
    (hk : keys.Pairwise (· < ·)) (hfit : offset + (cells.map InternalCell.bytes).sum ≤ pageSize)
    (hcol : ∀ x ∈ kid :: tail, ∀ ks : List Bytes, ks.Pairwise (· < ·) →
      collect x.1.pageId ks = .ok (answers f x.2 ks)) :
    collectChildren collect pages id offset kid.1.pageId cells keys
      = .ok (answers f (contents (kid :: tail)) keys) := by
  have hown : ∀ (x : NodeRef × List Entry) (ks : List Bytes), ks.Pairwise (· < ·) →
      (∀ ks : List Bytes, ks.Pairwise (· < ·) →
        collect x.1.pageId ks = .ok (answers f x.2 ks)) →
      collectOwn collect x.1.pageId ks = .ok (answers f x.2 ks) := by
    intro x ks hks hcol
    rw [collectOwn]
    split_ifs with hnil
    · rw [hnil]
      rfl
    · exact hcol ks hks
  induction cells generalizing kid tail offset keys with
  | nil =>
    obtain rfl : tail = [] := map_eq_nil_iff.mp (forall₂_nil_left_iff.mp hcells)
    rw [collectChildren, hown kid keys hk (hcol kid mem_cons_self), contents_cons,
      contents_nil, append_nil]
  | cons cell cells ih =>
    cases tail with
    | nil => cases hcells
    | cons next tail =>
      rw [forall_mem_cons] at hcol
      obtain ⟨hc, hrest⟩ := forall₂_cons.mp hcells
      obtain ⟨_, hltail, hapart⟩ := linked_cons.mp hl
      obtain ⟨a, b, ha, _, hb, rfl, hbelow, habove, hpair⟩ := split_keys hk next.1.minKey
      have hge := hltail.head_le (hltail.holds next mem_cons_self).ne_nil
      rw [map_cons, sum_cons] at hfit
      rw [collectChildren, decodeInternalCell_holds hc (by omega), ok_bind]
      dsimp only
      rw [ha, hb, hown kid a (hk.sublist (sublist_append_left a b)) hcol.1, ok_bind,
        ih hltail hrest hpair (by omega) hcol.2, ok_bind, answers_append, contents_cons]
      refine congrArg Except.ok (congrArg₂ (· ++ ·) ?_ ?_)
      · refine answers_congr (fun key hm => ?_)
        exact (lookup_append_left (fun e he => (hbelow key hm).trans_le (hge e he))).symm
      · refine answers_congr (fun key hm => ?_)
        exact (lookup_append_right (fun e he =>
          (hapart next mem_cons_self e he).trans_le (habove key hm))).symm

/-- **SWEEP**: a sorted batch of keys is answered as the keys are one by one. -/
theorem collectMany_node {fuel : Nat} (hn : Node ordered h pages id entries) (hf : h < fuel)
    (hk : keys.Pairwise (· < ·))
    (hval : ∀ e ∈ entries, foundValue values wantValues e.2 = .ok (f e.2)) :
    collectMany pages values wantValues fuel id keys = .ok (answers f entries keys) := by
  induction h generalizing fuel id entries keys with
  | zero =>
    obtain ⟨fuel, rfl⟩ := exists_fuel hf
    obtain ⟨slots, cells, hp, hcells, _, hs, hfit⟩ := hn
    have hholds := forall₂_mono_view hcells
    rw [collectMany, readPage_ok.mpr hp, ok_bind]
    dsimp only
    rw [collectLeaf, if_neg (not_lt.mpr (leafCount_le hfit))]
    split_ifs with hsparse
    · exact collectSlots_holds hholds hs hval keys
    · exact collectWalk_holds hholds hs hk hval (by rw [cellsBytes] at hfit; omega)
  | succ h ih =>
    obtain ⟨fuel, rfl⟩ := exists_fuel hf
    obtain ⟨slots, first, cells, head, tail, hp, hr⟩ := hn.row
    obtain ⟨slots', hfit⟩ := hr.fits
    rw [collectMany, readPage_ok.mpr hp, ok_bind]
    dsimp only
    have hfirst : first = head.1.pageId := by rw [hr.first_eq]
    rw [if_neg (not_le.mpr (internalCount_lt hfit)), hr.entries_eq, hfirst]
    refine collectChildren_holds hr.linked hr.cells_hold hk
      (by rw [cellsBytes] at hfit; omega) (fun x hx ks hks => ?_)
    refine ih (hr.linked.holds x hx) (by omega) hks (fun e he => hval e ?_)
    rw [hr.entries_eq]
    exact mem_contents.mpr ⟨x, hx, he⟩

/-- What the sweep finds for a row of the map. -/
def foundOf (wantValues : Bool) (versioned : Versioned) : Option Bytes × Nat :=
  (if wantValues then some versioned.value else none, versioned.revision)

theorem foundValue_ok (h : Resolves values stored versioned) :
    foundValue values wantValues stored = .ok (foundOf wantValues versioned) := by
  rw [foundValue, foundOf]
  split_ifs with hwant
  · rw [h.1, ok_bind, h.2]
    rfl
  · rw [h.2]

/-- **MANY**: sorted keys are answered as single ones are. -/
theorem collect_denotes (ht : Denotes ordered tree levels rows) (hd : levels ≤ maxTreeDepth)
    (wantValues : Bool) (hk : keys.Pairwise (· < ·)) :
    tree.collect wantValues keys
      = .ok (keys.map (fun key => (lookup key rows).map (foundOf wantValues))) := by
  obtain ⟨entries, hsuper, hrooted, _, hrel⟩ := ht
  rw [PageTree.collect]
  cases levels with
  | zero =>
    obtain ⟨hroot, rfl⟩ := hrooted
    cases hrel
    rw [if_neg (fun h => h.1 hroot)]
    rfl
  | succ h =>
    have hroot := hsuper.id_ne_zero hrooted
    by_cases hnil : keys = []
    · rw [if_neg (fun h => h.2 hnil), hnil]
      rfl
    -- the value an entry resolves to, as a function of the entry
    let f : Stored → Option Bytes × Nat := fun stored =>
      ((foundValue tree.values wantValues stored).toOption).getD (none, 0)
    have hf : ∀ {stored versioned}, Resolves tree.values stored versioned →
        f stored = foundOf wantValues versioned := by
      intro stored versioned hr
      show ((foundValue tree.values wantValues stored).toOption).getD (none, 0) = _
      rw [foundValue_ok hr]
      rfl
    have hval : ∀ e ∈ entries, foundValue tree.values wantValues e.2 = .ok (f e.2) := by
      intro e he
      obtain ⟨row, _, _, hr⟩ := exists_of_mem_forall₂ hrel e he
      rw [foundValue_ok hr, hf hr]
    rw [if_pos ⟨hroot, hnil⟩, collectMany_node hrooted hd hk hval]
    refine congrArg Except.ok (map_congr_left (fun key _ => ?_))
    have hlookup := hrel.lookup key
    generalize lookup key entries = found at hlookup
    generalize lookup key rows = row at hlookup
    cases hlookup with
    | none => rfl
    | some hr => exact congrArg some (hf hr)

/-- **GET MANY**: a sorted batch of distinct keys reads each key's binding. -/
theorem getMany_denotes (ht : Denotes ordered tree levels rows) (hd : levels ≤ maxTreeDepth)
    (hk : keys.Pairwise (· < ·)) :
    tree.getManyWithRevision keys = .ok (keys.map (fun key => lookup key rows)) ∧
      tree.getManyRevisions keys
        = .ok (keys.map (fun key => (lookup key rows).map Versioned.revision)) := by
  rw [PageTree.getManyWithRevision, PageTree.getManyRevisions, collect_denotes ht hd _ hk,
    collect_denotes ht hd _ hk, ok_bind, ok_bind]
  refine ⟨congrArg Except.ok ?_, congrArg Except.ok ?_⟩
  all_goals
    rw [map_map]
    refine map_congr_left (fun key _ => ?_)
    cases h : lookup key rows
    all_goals simp [h, foundOf]

end Collect

/-! ## The greatest key of a range -/

section LastKey

variable {start : Bytes} {stop : Option Bytes} {ordered : Bool} {V : Type} {pages : Pages}
  {m : List (Bytes × V)}

/-- The greatest key in bounds of a sorted map. -/
def lastInBounds {V : Type} (start : Bytes) (stop : Option Bytes) (m : List (Bytes × V)) :
    Option Bytes :=
  (m.filter (fun e => inBounds start stop e.1)).getLast?.map Prod.fst

theorem lastInBounds_append (a b : List (Bytes × V)) :
    lastInBounds start stop (a ++ b) = (lastInBounds start stop b).or
      (lastInBounds start stop a) := by
  rw [lastInBounds, filter_append, getLast?_append, Option.map_or]
  rfl

theorem lastInBounds_eq_none (h : ∀ e ∈ m, inBounds start stop e.1 = false) :
    lastInBounds start stop m = none := by
  rw [lastInBounds, filter_eq_nil_iff.mpr (fun e he => by rw [h e he]; simp)]
  rfl

theorem lastInBounds_congr {W : Type} {R : V → W → Prop} {n : List (Bytes × W)}
    (h : Related R m n) : lastInBounds start stop m = lastInBounds start stop n := by
  have hkeys : ∀ {U : Type} (m : List (Bytes × U)), lastInBounds start stop m
      = ((m.map Prod.fst).filter (inBounds start stop)).getLast? := by
    intro U m
    rw [filter_map, getLast?_map]
    rfl
  rw [hkeys m, hkeys n, h.keys]

/-- The greatest key in range of a row of children. -/
theorem lastKeyInChildren_holds {descend : Nat → Except Error (Option Bytes)} {kids : Kids}
    (hl : Linked (Node ordered h pages) kids)
    (hdesc : ∀ x ∈ kids, descend x.1.pageId = .ok (lastInBounds start stop x.2)) :
    lastKeyInChildren descend start stop (kids.map Prod.fst)
      = .ok (lastInBounds start stop (contents kids)) := by
  induction kids with
  | nil => rfl
  | cons kid tail ih =>
    rw [forall_mem_cons] at hdesc
    obtain ⟨⟨_, _, hmin⟩, hltail, hapart⟩ := linked_cons.mp hl
    rw [map_cons, lastKeyInChildren, ih hltail hdesc.2, ok_bind, contents_cons, lastInBounds_append]
    cases lastInBounds start stop (contents tail) with
    | some => rfl
    | none =>
      rw [Option.none_or]
      split_ifs with hstop hstart
      · -- the child starts at or past the end
        obtain ⟨bound, rfl, hle⟩ := (Option.any_eq_true _ _).mp hstop
        rw [lastInBounds_eq_none]
        · rfl
        · intro e he
          have hnot : ¬ e.1 < bound := not_lt.mpr ((of_decide_eq_true hle).trans (hmin e he))
          simp [inBounds, hnot]
      · -- the next child starts at or before the start
        cases tail with
        | nil => exact absurd hstart (by simp)
        | cons next tail =>
          rw [lastInBounds_eq_none]
          · rfl
          · intro e he
            have hle : next.1.minKey ≤ start := by simpa using hstart
            have hnot : ¬ start ≤ e.1 := not_le.mpr
              ((hapart next mem_cons_self e he).trans_le hle)
            simp [inBounds, hnot]
      · exact hdesc.1

/-- A walk that answers for the entries of a leaf, and for an internal node from what it answers for
    the children, answers for the entries of every subtree. -/
theorem Node.walk {α : Type} {answer : List Entry → α}
    {join : (Nat → Except Error α) → List NodeRef → Except Error α}
    {walk : Nat → Nat → Except Error α}
    (hwalk : ∀ fuel id, walk (fuel + 1) id = do
      match ← readPage pages id with
      | .leaf _ cells => do
        let entries ← decodeLeaf pages id cells
        return answer entries
      | .internal _ first cells => do
        let children ← decodeInternal pages id first cells
        join (walk fuel) children
      | page => throw (unexpectedType id page))
    (hjoin : ∀ {h descend kids}, Linked (Node ordered h pages) kids →
      (∀ x ∈ kids, descend x.1.pageId = .ok (answer x.2)) →
      join descend (kids.map Prod.fst) = .ok (answer (contents kids))) {fuel id : Nat}
    {entries : List Entry} (hn : Node ordered h pages id entries) (hf : h < fuel)
    (hmax : fuel ≤ maxTreeDepth) : walk fuel id = .ok (answer entries) := by
  induction h generalizing fuel id entries with
  | zero =>
    obtain ⟨fuel, rfl⟩ := exists_fuel hf
    obtain ⟨slots, cells, hp, hcells, _, _, hfit⟩ := hn
    rw [hwalk, readPage_ok.mpr hp, ok_bind]
    dsimp only
    rw [decodeLeaf_holds (forall₂_mono_view hcells) hfit]
    rfl
  | succ h ih =>
    obtain ⟨fuel, rfl⟩ := exists_fuel hf
    obtain ⟨slots, first, cells, head, tail, hp, hr⟩ := hn.row
    rw [hwalk, readPage_ok.mpr hp, ok_bind]
    dsimp only
    rw [decodeInternal_row hr (by omega), ok_bind, hr.entries_eq]
    exact hjoin hr.linked (fun x hx => ih (hr.linked.holds x hx) (by omega) (by omega))

/-- **LAST KEY**: the descent from the right finds the greatest key in bounds. -/
theorem lastKeyInNode_node :
    ∀ {h fuel id : Nat} {entries : List Entry}, Node ordered h pages id entries → h < fuel →
      fuel ≤ maxTreeDepth →
      lastKeyInNode pages start stop fuel id = .ok (lastInBounds start stop entries) :=
  Node.walk (fun _ _ => rfl) lastKeyInChildren_holds

theorem lastKeyIn_denotes (ht : Denotes ordered tree levels rows) (hd : levels ≤ maxTreeDepth) :
    tree.lastKeyIn start stop = .ok (lastInBounds start stop rows) := by
  obtain ⟨entries, hsuper, hrooted, _, hrel⟩ := ht
  rw [PageTree.lastKeyIn]
  cases levels with
  | zero =>
    obtain ⟨hroot, rfl⟩ := hrooted
    cases hrel
    rw [if_pos hroot]
    rfl
  | succ h =>
    rw [if_neg (hsuper.id_ne_zero hrooted), lastKeyInNode_node hrooted hd le_rfl,
      lastInBounds_congr hrel]

end LastKey

end Vyrn
