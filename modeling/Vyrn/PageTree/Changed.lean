import Vyrn.PageTree.Validate

/-!
# Changes of a range — whether a key of it has a newer revision

`changedSince` walks as a scan does: children whose keys all lie outside `[start, stop)` are
skipped, and the walk stops at the first change it meets. A deleted key is no key of the range any
more, so a deletion is no change here; the engine asks for its tombstone separately.
**`nodeChangedSince_node`**: the walk of a subtree answers about its entries.
-/

namespace Vyrn

open SortedMap List

/-! ## The code -/

/-- The children in key order, skipping those that cannot meet the range, up to the first that has
    a change. -/
def changedInChildren (descend : Nat → Except Error Bool) (range : ScanRange) :
    List NodeRef → Except Error Bool
  | [] => .ok false
  | child :: rest =>
    if range.start.any (fun start => rest.head?.any (fun next => next.minKey ≤ start)) ||
        range.stop.any (fun stop => stop ≤ child.minKey) then
      changedInChildren descend range rest
    else do
      if ← descend child.pageId then return true
      changedInChildren descend range rest

def nodeChangedSince (pages : Pages) (range : ScanRange) (revision : Nat) :
    Nat → Nat → Except Error Bool
  | 0, pageId => .error (excessiveDepth pageId)
  | fuel + 1, pageId => do
    match ← readPage pages pageId with
    | .leaf _ cells => do
      let entries ← decodeLeaf pages pageId cells
      return entries.any (fun entry => range.admits entry.1 && revision < entry.2.revision)
    | .internal _ first cells => do
      let children ← decodeInternal pages pageId first cells
      changedInChildren (nodeChangedSince pages range revision fuel) range children
    | page => throw (unexpectedType pageId page)

/-- Whether a key of the range has a revision above `revision`. -/
def PageTree.changedSince (tree : PageTree) (range : ScanRange) (revision : Nat) :
    Except Error Bool :=
  if tree.root = 0 then .ok false
  else nodeChangedSince tree.pages range revision maxTreeDepth tree.root

/-! ## What the walk answers -/

section Changed

variable {range : ScanRange} {revision : Nat} {ordered : Bool} {V : Type} {newer : V → Bool}
  {m : List (Bytes × V)} {pages : Pages}

/-- Whether a map has a row of the range that is newer than `revision`. -/
def ScanRange.changed {V : Type} (range : ScanRange) (newer : V → Bool) (m : List (Bytes × V)) :
    Bool :=
  m.any (fun e => range.admits e.1 && newer e.2)

theorem ScanRange.changed_of_outside (h : ∀ e ∈ m, range.admits e.1 = false) :
    range.changed newer m = false := by
  refine any_eq_false.mpr (fun e he => ?_)
  rw [h e he]
  simp

theorem ScanRange.changed_iff :
    range.changed newer m = true ↔ ∃ e ∈ m, range.admits e.1 = true ∧ newer e.2 = true := by
  rw [ScanRange.changed, any_eq_true]
  simp only [Bool.and_eq_true]

theorem ScanRange.changed_congr {W : Type} {R : V → W → Prop} {newer' : W → Bool}
    (hnewer : ∀ v w, R v w → newer v = newer' w) {n : List (Bytes × W)} (h : Related R m n) :
    range.changed newer m = range.changed newer' n := by
  induction h with
  | nil => rfl
  | cons hab _ ih =>
    rw [ScanRange.changed, ScanRange.changed, any_cons, any_cons, hab.1, hnewer _ _ hab.2]
    exact congrArg _ ih

/-- Whether an entry in range of a row of children is newer. -/
theorem changedInChildren_holds {h : Nat} {descend : Nat → Except Error Bool}
    {newer : Stored → Bool} {kids : Kids} (hl : Linked (Node ordered h pages) kids)
    (hdesc : ∀ x ∈ kids, descend x.1.pageId = .ok (range.changed newer x.2)) :
    changedInChildren descend range (kids.map Prod.fst)
      = .ok (range.changed newer (contents kids)) := by
  induction kids with
  | nil => rfl
  | cons kid tail ih =>
    rw [forall_mem_cons] at hdesc
    obtain ⟨⟨_, _, hmin⟩, hltail, hapart⟩ := linked_cons.mp hl
    have hrest := ih hltail hdesc.2
    rw [map_cons, changedInChildren, contents_cons, ScanRange.changed, any_append,
      ← ScanRange.changed, ← ScanRange.changed]
    split_ifs with hskip
    · suffices hout : ∀ e ∈ kid.2, range.admits e.1 = false by
        rw [hrest, ScanRange.changed_of_outside hout, Bool.false_or]
      intro e he
      rcases Bool.or_eq_true_iff.mp hskip with hbelow | habove
      · obtain ⟨start, hstart, hnext⟩ := (Option.any_eq_true _ _).mp hbelow
        cases tail with
        | nil => exact absurd hnext (by simp)
        | cons next tail =>
          have hle : next.1.minKey ≤ start := by simpa using hnext
          exact ScanRange.admits_of_lt_start hstart ((hapart next mem_cons_self e he).trans_le hle)
      · obtain ⟨stop, hstop, hle⟩ := (Option.any_eq_true _ _).mp habove
        exact ScanRange.admits_of_stop_le hstop ((of_decide_eq_true hle).trans (hmin e he))
    · rw [hdesc.1, ok_bind, hrest]
      cases range.changed newer kid.2 with
      | true => rfl
      | false => rfl

/-- **CHANGES**: the walk of a subtree answers whether one of its entries changed. -/
theorem nodeChangedSince_node :
    ∀ {h fuel id : Nat} {entries : List Entry}, Node ordered h pages id entries → h < fuel →
      fuel ≤ maxTreeDepth →
      nodeChangedSince pages range revision fuel id
        = .ok (range.changed (fun stored => revision < stored.revision) entries) :=
  Node.walk (fun _ _ => rfl) changedInChildren_holds

theorem changedSince_denotes {tree : PageTree} {levels : Nat} {rows : Rows}
    (ht : Denotes ordered tree levels rows) (hd : levels ≤ maxTreeDepth) :
    tree.changedSince range revision
      = .ok (range.changed (fun versioned => revision < versioned.revision) rows) := by
  obtain ⟨entries, hsuper, hrooted, _, hrel⟩ := ht
  rw [PageTree.changedSince]
  cases levels with
  | zero =>
    obtain ⟨hroot, rfl⟩ := hrooted
    cases hrel
    rw [if_pos hroot]
    rfl
  | succ h =>
    rw [if_neg (hsuper.id_ne_zero hrooted), nodeChangedSince_node hrooted hd le_rfl]
    refine congrArg Except.ok (ScanRange.changed_congr (fun stored versioned hres => ?_) hrel)
    rw [hres.2]

end Changed

end Vyrn
