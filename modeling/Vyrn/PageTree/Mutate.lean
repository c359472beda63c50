import Vyrn.PageTree.Lookup

/-!
# Copy-on-write mutation — splicing one key, rewriting for a sorted batch

The two ways the tree is changed. `preparePut` rewrites the pages on one path from the leaf
up (`rebuildPath`). `applyNode` rewrites one subtree for a sorted run of mutations: it groups
them by separator, rewrites the children they fall to, and merges the underfull pages this
leaves behind. This file holds the code and its leaf case. Main result: `mergeEntries_spec`.
-/

namespace Vyrn

open SortedMap List

/-! ## The code -/

/-- A mutation as the rewrite sees it; `index` is its place in the batch. -/
structure PreparedMutation where
  key : Bytes
  value : Option Stored
  index : Nat
  deriving DecidableEq, Repr

/-- Merges sorted mutations into a leaf's sorted entries and records in `existed` whether each
    key was there before. Of a run of mutations of one key, all see the entry as the batch
    found it and the last one decides what becomes of it. -/
def mergeEntries : List Entry → List PreparedMutation → (Nat → Bool) →
    List Entry × (Nat → Bool)
  | entries, [], existed => (entries, existed)
  | entries, mutation :: rest, existed =>
    let before := entries.takeWhile (fun entry => entry.1 < mutation.key)
    let after := entries.dropWhile (fun entry => entry.1 < mutation.key)
    let present := after.head?.any (fun entry => entry.1 = mutation.key)
    let existed := Function.update existed mutation.index present
    if rest.head?.any (fun next => next.key = mutation.key) then
      let (merged, existed) := mergeEntries after rest existed
      (before ++ merged, existed)
    else
      let written := (mutation.value.map (fun stored => (mutation.key, stored))).toList
      let (merged, existed) :=
        mergeEntries (if present then after.tail else after) rest existed
      (before ++ written ++ merged, existed)

/-- Where `key` is, or would go, among sorted entries. -/
def findEntry (entries : List Entry) (key : Bytes) : Nat × Bool :=
  ((entries.takeWhile (fun entry => entry.1 < key)).length,
    (entries.dropWhile (fun entry => entry.1 < key)).head?.any (fun entry => entry.1 = key))

/-- A leaf's entries with `entry` put in place, over the one of its key if there is one. -/
def spliceEntry (entries : List Entry) (entry : Entry) : List Entry :=
  let (position, existed) := findEntry entries entry.1
  if existed then entries.set position entry
  else entries.take position ++ entry :: entries.drop position

/-- The rewrite of the pages on a path: the replacements of a child are spliced into its
    parent's children and these written as a new level, from the leaf's parent up. -/
def rebuildPath (pages : Pages) (replacements : List NodeRef) :
    List (Nat × Nat) → Except Error (List NodeRef × Pages)
  | [] => .ok (replacements, pages)
  | (parent, index) :: path => do
    let (replacements, pages) ← rebuildPath pages replacements path
    let children ← readInternalChildren pages parent
    writeInternalLevel pages (children.take index ++ replacements ++ children.drop (index + 1))

/-- A tree page's used bytes, or `none` for a page without a slot directory or of another
    kind. -/
def pageUsedBytes (pages : Pages) (pageId : Nat) : Except Error (Option Nat) := do
  match ← readPage pages pageId with
  | .leaf slots cells =>
    if maxLeafEntries < cells.length then return none
    if cells = [] then return some headerSize
    if slots then return some (min (cellsBytes true (cells.map LeafCell.bytes)) pageSize)
    return none
  | .internal slots _ cells =>
    if maxInternalChildren - 1 < cells.length then return none
    if cells = [] then return some headerSize
    if slots then return some (min (cellsBytes true (cells.map InternalCell.bytes)) pageSize)
    return none
  | _ => return none

/-- Whether an underfull page of `own` bytes and `neighbor` share one page. The right page's
    first child becomes a cell, priced by the right page's separator. -/
def pairFits (pages : Pages) (own : Nat) (neighbor right : NodeRef) : Except Error Bool := do
  match ← pageUsedBytes pages neighbor.pageId with
  | none => return false
  | some bytes =>
    return decide (own + bytes + (internalCellSize right.minKey + slotSize)
      ≤ pageSize + headerSize)

/-- Decodes each page of a run and returns their contents joined. -/
def readRun {α : Type} (read : Pages → Nat → Except Error (List α)) (pages : Pages) :
    List NodeRef → Except Error (List α)
  | [] => .ok []
  | node :: run => do
    let items ← read pages node.pageId
    let rest ← readRun read pages run
    return items ++ rest

/-- Re-emits the contents of a run of siblings through the level writers. -/
def rewriteSiblings (pages : Pages) (run : List NodeRef) :
    Except Error (List NodeRef × Pages) :=
  match run with
  | [] => .error (.corruptPage 0 "cannot merge an empty run")
  | first :: _ => do
    match ← readPage pages first.pageId with
    | .leaf _ _ => do
      let entries ← readRun readLeaf pages run
      writeLeafLevel pages entries
    | .internal _ _ _ => do
      let grandchildren ← readRun readInternalChildren pages run
      writeInternalLevel pages grandchildren
    | page => throw (unexpectedType first.pageId page)

def underfull (used : Option Nat) : Bool :=
  used.any (fun bytes => bytes < underfullBytes)

/-- The used bytes of the children this batch rewrote; the others are not measured. -/
def measure (pages : Pages) :
    List (NodeRef × Bool) → Except Error (List (NodeRef × Option Nat))
  | [] => .ok []
  | (child, false) :: rest => do
    let rest ← measure pages rest
    return (child, none) :: rest
  | (child, true) :: rest => do
    let used ← pageUsedBytes pages child.pageId
    let rest ← measure pages rest
    return (child, used) :: rest

/-- Whether a neighbour exists and shares a page with an underfull one of `own` bytes. -/
def neighborFits (pages : Pages) (own : Nat) (neighbor : Option NodeRef) (right : NodeRef) :
    Except Error Bool :=
  match neighbor with
  | none => .ok false
  | some neighbor => pairFits pages own neighbor right

/-- What a lone underfull child does: absorb its right neighbour, or the last page already
    emitted, or stay. Returns the run to rewrite with what is left on both sides. -/
def absorb (pages : Pages) (own : Nat) (child : NodeRef) (merged : List NodeRef)
    (rest : List (NodeRef × Option Nat)) :
    Except Error (Option (List NodeRef × List NodeRef × List (NodeRef × Option Nat))) := do
  let next := rest.head?.map Prod.fst
  if ← neighborFits pages own next (next.getD child) then
    return some (merged, child :: next.toList, rest.tail)
  if ← neighborFits pages own merged.getLast? child then
    return some (merged.dropLast, merged.getLast?.toList ++ [child], rest)
  return none

/-- The merging pass. Every turn passes a child, so their number is fuel enough. -/
def mergeLoop : Nat → Pages → List NodeRef → List (NodeRef × Option Nat) →
    Except Error (List NodeRef × Pages)
  | 0, pages, merged, rest => .ok (merged ++ rest.map Prod.fst, pages)
  | _ + 1, pages, merged, [] => .ok (merged, pages)
  | fuel + 1, pages, merged, (child, used) :: rest =>
    if underfull used then
      let run := rest.takeWhile (fun next => underfull next.2)
      if run = [] then do
        match ← absorb pages (used.getD 0) child merged rest with
        | some (merged, run, rest) =>
          let (nodes, pages) ← rewriteSiblings pages run
          mergeLoop fuel pages (merged ++ nodes) rest
        | none => mergeLoop fuel pages (merged ++ [child]) rest
      else do
        let (nodes, pages) ← rewriteSiblings pages (child :: run.map Prod.fst)
        mergeLoop fuel pages (merged ++ nodes)
          (rest.dropWhile (fun next => underfull next.2))
    else mergeLoop fuel pages (merged ++ [child]) rest

/-- Merges the underfull pages a rewrite left behind. -/
def mergeUnderfullChildren (pages : Pages) (children : List (NodeRef × Bool)) :
    Except Error (List NodeRef × Pages) :=
  if children.length < 2 ∨ children.all (fun child => !child.2) then
    .ok (children.map Prod.fst, pages)
  else do
    let measured ← measure pages children
    mergeLoop measured.length pages [] measured

/-- A subtree's rewrite: the nodes that replace it, the presence table and the page file. -/
abbrev Rewriter := Pages → Nat → List PreparedMutation → (Nat → Bool) →
  Except Error (List NodeRef × (Nat → Bool) × Pages)

/-- One child: kept when no mutation falls to it. The flags say which nodes are new. -/
def applyChild (apply : Rewriter) (pages : Pages) (child : NodeRef)
    (own : List PreparedMutation) (existed : Nat → Bool) :
    Except Error (List (NodeRef × Bool) × (Nat → Bool) × Pages) :=
  if own = [] then .ok ([(child, false)], existed, pages)
  else do
    let (replacements, existed, pages) ← apply pages child.pageId own existed
    return (replacements.map (fun node => (node, true)), existed, pages)

/-- The mutations that fall to a child whose right siblings are `rest`: everything below the
    next separator. -/
def ownMutations (rest : List NodeRef) (mutations : List PreparedMutation) :
    List PreparedMutation :=
  match rest with
  | [] => mutations
  | next :: _ => mutations.takeWhile (fun mutation => mutation.key < next.minKey)

/-- The children of an internal page, each rewritten for the mutations that fall to it. -/
def applyChildren (apply : Rewriter) :
    Pages → List NodeRef → List PreparedMutation → (Nat → Bool) →
      Except Error (List (NodeRef × Bool) × (Nat → Bool) × Pages)
  | pages, [], _, existed => .ok ([], existed, pages)
  | pages, child :: rest, mutations, existed => do
    let own := ownMutations rest mutations
    let (nodes, existed, pages) ← applyChild apply pages child own existed
    let (others, existed, pages) ←
      applyChildren apply pages rest (mutations.drop own.length) existed
    return (nodes ++ others, existed, pages)

/-- Rewrites the subtree at `pageId` for the mutations that fall inside it; returns the nodes
    that replace it, none when it became empty. `fuel` is what is left of the depth bound. -/
def applyNode : Nat → Bool → Pages → Nat → List PreparedMutation → (Nat → Bool) →
    Except Error (List NodeRef × (Nat → Bool) × Pages)
  | 0, _, _, pageId, _, _ => .error (excessiveDepth pageId)
  | fuel + 1, isRoot, pages, pageId, mutations, existed => do
    match ← readPage pages pageId with
    | .leaf _ cells => do
      let entries ← decodeLeaf pages pageId cells
      let (entries, existed) := mergeEntries entries mutations existed
      if entries = [] then return ([], existed, pages)
      let (nodes, pages) ← writeLeafLevel pages entries
      return (nodes, existed, pages)
    | .internal _ first cells => do
      let children ← decodeInternal pages pageId first cells
      let (children, existed, pages) ←
        applyChildren (applyNode fuel false) pages children mutations existed
      if children = [] then return ([], existed, pages)
      let (children, pages) ← mergeUnderfullChildren pages children
      if isRoot ∧ children.length = 1 then return (children, existed, pages)
      let (nodes, pages) ← writeInternalLevel pages children
      return (nodes, existed, pages)
    | page => throw (unexpectedType pageId page)

/-! ## Merging mutations into a leaf -/

/-- The update a mutation asks for. -/
def PreparedMutation.update (mutation : PreparedMutation) : Bytes × Option Stored :=
  (mutation.key, mutation.value)

def updates (mutations : List PreparedMutation) : List (Bytes × Option Stored) :=
  mutations.map PreparedMutation.update

theorem updates_cons (mutation : PreparedMutation) (rest : List PreparedMutation) :
    updates (mutation :: rest) = mutation.update :: updates rest := rfl

/-- The mutations a rewrite is given: sorted by key, each with an index of its own, and each
    writing what a page may hold. -/
structure Prepared (mutations : List PreparedMutation) : Prop where
  sorted : mutations.Pairwise (fun a b => a.key ≤ b.key)
  indexes : mutations.Pairwise (fun a b => a.index ≠ b.index)
  stored : ∀ mutation ∈ mutations, ∀ stored, mutation.value = some stored →
    StoredEntry (mutation.key, stored)

/-- `existed'` is `existed` with the presence of each mutated key in `entries` filled in. -/
structure Records (entries : List Entry) (mutations : List PreparedMutation)
    (existed existed' : Nat → Bool) : Prop where
  marked : ∀ mutation ∈ mutations,
    existed' mutation.index = (lookup mutation.key entries).isSome
  kept : ∀ index, (∀ mutation ∈ mutations, mutation.index ≠ index) →
    existed' index = existed index

variable {a b : List PreparedMutation}

theorem Prepared.append (h : Prepared (a ++ b)) : Prepared a ∧ Prepared b := by
  obtain ⟨hs, hi, hst⟩ := h
  exact ⟨⟨(pairwise_append.mp hs).1, (pairwise_append.mp hi).1,
      fun m hm => hst m (mem_append_left b hm)⟩,
    ⟨(pairwise_append.mp hs).2.1, (pairwise_append.mp hi).2.1,
      fun m hm => hst m (mem_append_right a hm)⟩⟩

theorem Records.nil (entries : List Entry) (existed : Nat → Bool) :
    Records entries [] existed existed :=
  ⟨by simp, fun _ _ => rfl⟩

variable {entries : List Entry}

/-- Presence recorded part by part is recorded for the whole. -/
theorem Records.append {left right : List Entry} {existed existed' existed'' : Nat → Bool}
    (hi : (a ++ b).Pairwise (fun x y => x.index ≠ y.index)) (ha : Records left a existed existed')
    (hb : Records right b existed' existed'')
    (hleft : ∀ m ∈ a, lookup m.key entries = lookup m.key left)
    (hright : ∀ m ∈ b, lookup m.key entries = lookup m.key right) :
    Records entries (a ++ b) existed existed'' := by
  obtain ⟨_, _, hab⟩ := pairwise_append.mp hi
  constructor
  · intro m hm
    rcases mem_append.mp hm with hma | hmb
    · rw [hb.kept m.index (fun x hx => (hab m hma x hx).symm), ha.marked m hma, hleft m hma]
    · rw [hb.marked m hmb, hright m hmb]
  · intro index hne
    rw [hb.kept index (fun m hm => hne m (mem_append_right a hm)),
      ha.kept index (fun m hm => hne m (mem_append_left b hm))]

/-- The part of a sorted map at or past a key, with what its head says about the key. -/
theorem split_at_key (hs : Sorted entries) (key : Bytes) :
    ∃ before after, entries.takeWhile (fun e => e.1 < key) = before ∧
      entries.dropWhile (fun e => e.1 < key) = after ∧ entries = before ++ after ∧
      (∀ e ∈ before, e.1 < key) ∧ (∀ e ∈ after, key ≤ e.1) ∧ Sorted after ∧
      (lookup key entries).isSome = after.head?.any (fun e => e.1 = key) := by
  obtain ⟨before, after, hfront, hback, hsplit, hlt, hle, hsorted⟩ := hs.cut key
  refine ⟨before, after, hfront, hback, hsplit, hlt, hle, hsorted, ?_⟩
  rw [lookup_eq_head hs, hback]
  cases after with
  | nil => rfl
  | cons e rest => by_cases he : e.1 = key <;> simp [he]

/-- Dropping a key from the head of a map leaves the larger keys alone. -/
theorem drop_key {after : List Entry} (hs : Sorted after) (key : Bytes) :
    Sorted (if after.head?.any (fun e => e.1 = key) then after.tail else after) ∧
      ∀ k, key < k → lookup k after
        = lookup k (if after.head?.any (fun e => e.1 = key) then after.tail else after) := by
  cases after with
  | nil => exact ⟨by simp, fun _ _ => by simp⟩
  | cons e after =>
    by_cases hk : e.1 = key
    · simp only [head?_cons, Option.any_some, hk, decide_true, if_true, tail_cons]
      refine ⟨(sorted_cons.mp hs).2, fun k hlt => ?_⟩
      rw [lookup_entry, if_neg (hk ▸ hlt.ne')]
    · simp only [head?_cons, Option.any_some, hk, decide_false]
      exact ⟨hs, fun _ _ => rfl⟩

/-- Behind the last mutation of a key come larger keys only. -/
theorem Prepared.lt_of_head_ne {m : PreparedMutation} {rest : List PreparedMutation}
    (hp : Prepared (m :: rest))
    (hlast : ¬ rest.head?.any (fun next => next.key = m.key) = true) :
    ∀ x ∈ rest, m.key < x.key := by
  obtain ⟨hle, hrest⟩ := pairwise_cons.mp hp.sorted
  intro x hx
  cases rest with
  | nil => exact absurd hx (by simp)
  | cons next rest =>
    have hne : next.key ≠ m.key := by simpa using hlast
    have hnext : m.key < next.key := lt_of_le_of_ne (hle next mem_cons_self) hne.symm
    rcases mem_cons.mp hx with rfl | hx
    · exact hnext
    · exact hnext.trans_le ((pairwise_cons.mp hrest).1 x hx)

/-- **LEAF MERGE**: sorted mutations merged into a leaf update its map. -/
theorem mergeEntries_spec {mutations : List PreparedMutation} (existed : Nat → Bool)
    (hs : Sorted entries) (hp : Prepared mutations) :
    (mergeEntries entries mutations existed).1 = updateAll entries (updates mutations) ∧
      Records entries mutations existed (mergeEntries entries mutations existed).2 := by
  induction mutations generalizing entries existed with
  | nil => exact ⟨rfl, Records.nil entries existed⟩
  | cons m rest ih =>
    obtain ⟨_, hrest⟩ := Prepared.append (a := [m]) hp
    have hle : ∀ x ∈ rest, m.key ≤ x.key := (pairwise_cons.mp hp.sorted).1
    obtain ⟨before, after, hbe, haf, hsplit, hbefore, hafter, hsorted, hpresent⟩ :=
      split_at_key hs m.key
    have hmark : Records entries [m] existed (Function.update existed m.index
        (after.head?.any (fun e => e.1 = m.key))) := by
      constructor
      · intro x hx
        rw [mem_singleton.mp hx, Function.update_self, hpresent]
      · intro index hne
        exact Function.update_of_ne (hne m mem_cons_self).symm _ _
    have hcut : updateAll entries (updates (m :: rest))
        = before ++ updateAll after (updates (m :: rest)) := by
      rw [hsplit]
      refine updateAll_append_right (fun u hu e he => ?_) after
      obtain ⟨x, hx, rfl⟩ := mem_map.mp hu
      rcases mem_cons.mp hx with rfl | hx
      · exact hbefore e he
      · exact (hbefore e he).trans_le (hle x hx)
    have hlook : ∀ x ∈ rest, lookup x.key entries = lookup x.key after := by
      intro x hx
      rw [hsplit, lookup_append_right (fun e he => (hbefore e he).trans_le (hle x hx))]
    rw [mergeEntries, hbe, haf, hcut]
    by_cases hsame : rest.head?.any (fun next => next.key = m.key) = true
    · -- a later mutation of the same key follows: this one leaves nothing behind
      rw [if_pos hsame]
      obtain ⟨hmerged, hrec⟩ := ih (Function.update existed m.index
        (after.head?.any (fun e => e.1 = m.key))) hsorted hrest
      refine ⟨?_, Records.append hp.indexes hmark hrec (fun _ _ => rfl) hlook⟩
      dsimp only
      rw [hmerged]
      cases rest with
      | nil => exact absurd hsame (by simp)
      | cons next rest =>
        have hkey : next.key = m.key := by simpa using hsame
        refine congrArg (before ++ ·) ?_
        have hover := updateAll_overwrite hsorted m.key m.value next.value (updates rest)
        rw [← hkey] at hover
        simpa [updates, PreparedMutation.update, hkey] using hover.symm
    · rw [if_neg hsame]
      -- the last mutation of its key decides what is left of it
      have hlt := hp.lt_of_head_ne hsame
      have hfront := update_front hsorted hafter m.value
      generalize hrem : (if after.head?.any (fun e => e.1 = m.key) = true then after.tail
        else after) = remaining at hfront
      have hremaining := drop_key hsorted m.key
      rw [hrem] at hremaining
      obtain ⟨hmerged, hrec⟩ := ih (Function.update existed m.index
        (after.head?.any (fun e => e.1 = m.key))) hremaining.1 hrest
      refine ⟨?_, Records.append hp.indexes hmark hrec (fun _ _ => rfl)
        (fun x hx => (hlook x hx).trans (hremaining.2 x.key (hlt x hx)))⟩
      dsimp only
      rw [hmerged, append_assoc]
      refine congrArg (before ++ ·) ?_
      rw [updates_cons, updateAll_cons, show m.update = (m.key, m.value) from rfl, hfront]
      refine (updateAll_append_right (fun u hu e he => ?_) remaining).symm
      obtain ⟨x, hx, rfl⟩ := mem_map.mp hu
      cases hv : m.value with
      | none => rw [hv] at he; exact absurd he (by simp)
      | some stored =>
        rw [hv] at he
        have : e = (m.key, stored) := by simpa using he
        rw [this]
        exact hlt x hx

/-- **LEAF PUT**: splicing an entry into a leaf updates its map. -/
theorem spliceEntry_eq (hs : Sorted entries) (key : Bytes) (stored : Stored) :
    spliceEntry entries (key, stored) = put key stored entries ∧
      (findEntry entries key).2 = (lookup key entries).isSome := by
  obtain ⟨before, after, hbe, haf, hsplit, hbefore, hafter, hsorted, hpresent⟩ :=
    split_at_key hs key
  have hput : put key stored entries = before ++ update after (key, some stored) := by
    rw [hsplit]
    exact put_append_right stored hbefore
  rw [update_front hsorted hafter] at hput
  rw [spliceEntry, findEntry, hbe, haf, hpresent, hput]
  refine ⟨?_, rfl⟩
  dsimp only
  rw [hsplit]
  split_ifs with hany
  · cases after with
    | nil => exact absurd hany (by simp)
    | cons e after => simp
  · simp

end Vyrn
