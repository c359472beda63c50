import Vyrn.PageTree.Tree

/-!
# The page tree refines an ordered map, up to the depth bound

Every descent gives up below `maxTreeDepth` levels, so the refinement is stated for trees within
the bound. The bound is part of it: `chain` is a well-formed tree one level deeper, a column of
internal pages with one child each, that no mutation gets through.
-/

namespace Vyrn

open SortedMap List

/-! ## A column of pages -/

/-- One entry under the key `[1]`. -/
def chainEntry : Entry := ([1], ⟨.inline [], 0⟩)

/-- A leaf with `height` internal pages above it, each naming only the page below. -/
def chainPages (height : Nat) : Pages :=
  .super :: .leaf true [⟨.inline [1], .inline [], 0⟩] ::
    (List.range height).map (fun i => .internal true (i + 1) [])

def chain (height : Nat) : PageTree :=
  ⟨chainPages height, [], height + 1, 1⟩

theorem storedKey_one : StoredKey [1] :=
  ⟨by decide, by decide⟩

theorem chain_node (total : Nat) :
    ∀ {height : Nat}, height ≤ total →
      Node false height (chainPages total) (height + 1) [chainEntry] := by
  intro height
  induction height with
  | zero =>
    intro _
    refine ⟨true, [⟨.inline [1], .inline [], 0⟩], rfl, ?_, by simp,
      pairwise_singleton _ _, by decide⟩
    have hstored : StoredEntry chainEntry := ⟨storedKey_one, Nat.zero_le _⟩
    exact Forall₂.cons ⟨hstored, ⟨rfl, by decide⟩, rfl, rfl⟩ Forall₂.nil
  | succ height ih =>
    intro hle
    refine ⟨true, height + 1, [], ?_, by decide, [1], [chainEntry], [], Forall₂.nil, ?_,
      rfl⟩
    · show ((List.range total).map (fun i => Page.internal true (i + 1) []))[height]? = _
      rw [getElem?_map, getElem?_range hle]
      rfl
    · exact linked_singleton.mpr ⟨ih (Nat.le_of_succ_le hle), storedKey_one,
        forall_mem_singleton.mpr (le_refl ([1] : Bytes))⟩

/-- The column is a well-formed tree. -/
theorem chain_denotes (height : Nat) :
    Denotes false (chain height) (height + 1) [([1], ⟨[], 0⟩)] :=
  ⟨[chainEntry], rfl, chain_node height le_rfl, rfl,
    Forall₂.cons ⟨rfl, rfl, rfl⟩ Forall₂.nil⟩

/-! ## Refinement -/

/-- **REFINEMENT**: a well-formed tree within the depth bound takes every batch, put and delete
    to a well-formed tree that holds the map so updated, and keeps the old map under the old
    root. A delete returns nothing exactly when the key is absent. -/
theorem pageTree_refines_map {ordered : Bool} {tree : PageTree} {levels : Nat}
    {rows : List (Bytes × Versioned)} (ht : Denotes ordered tree levels rows)
    (hd : levels ≤ maxTreeDepth) :
    (∀ mutations : List (Bytes × Mutation), (∀ m ∈ mutations, Mutation.Admissible m) →
      ∃ outcome tree', tree.prepareBatch mutations = .ok (outcome, tree') ∧
        Denotes ordered (tree'.publish tree.root tree.len) levels rows ∧
        ∃ levels', Denotes ordered (tree'.publish outcome.root outcome.len) levels'
          (updateAll rows (mutations.map Mutation.update))) ∧
    (∀ key value revision, StoredKey key → ValueLog.Admissible revision value →
      ∃ outcome tree', tree.preparePut key value revision = .ok (outcome, tree') ∧
        Denotes ordered (tree'.publish tree.root tree.len) levels rows ∧
        ∃ levels', Denotes ordered (tree'.publish outcome.root outcome.len) levels'
          (updateAll rows [Mutation.update (key, .put value revision)])) ∧
    (∀ key, (lookup key rows = none ↔ tree.prepareDelete key = .ok (none, tree)) ∧
      ((lookup key rows).isSome → ∃ outcome tree',
        tree.prepareDelete key = .ok (some outcome, tree') ∧
        Denotes ordered (tree'.publish tree.root tree.len) levels rows ∧
        ∃ levels', Denotes ordered (tree'.publish outcome.root outcome.len) levels'
          (updateAll rows [Mutation.update (key, .delete)]))) := by
  refine ⟨fun mutations hadm => ?_, fun key value revision hkey hvalue => ?_, fun key => ?_⟩
  · obtain ⟨outcome, tree', hrun, hgrows, hnew⟩ := prepareBatch_denotes ht hd hadm
    exact ⟨outcome, tree', hrun, ht.mono hgrows.pages hgrows.values rfl rfl, hnew⟩
  · obtain ⟨outcome, tree', hrun, hgrows, levels', _, hnew, _⟩ :=
      preparePut_denotes ht hd hkey hvalue
    exact ⟨outcome, tree', hrun, ht.mono hgrows.pages hgrows.values rfl rfl, levels', hnew⟩
  · obtain ⟨habsent, hpresent⟩ := prepareDelete_denotes ht hd key
    refine ⟨⟨habsent, fun hrun => ?_⟩, fun hsome => ?_⟩
    · by_contra hne
      obtain ⟨outcome, tree', hrun', _⟩ := hpresent (Option.isSome_iff_ne_none.mpr hne)
      rw [hrun] at hrun'
      exact absurd hrun' (by simp)
    · obtain ⟨outcome, tree', hrun, hgrows, hnew⟩ := hpresent hsome
      exact ⟨outcome, tree', hrun, ht.mono hgrows.pages hgrows.values rfl rfl, hnew⟩

/-- A tree of two levels under a batch that deletes, writes and overwrites. -/
theorem pageTree_refines_map_chain_one :
    Denotes false (chain 1) 2 [([1], ⟨[], 0⟩)] ∧ 2 ≤ maxTreeDepth ∧
      ∃ outcome tree', (chain 1).prepareBatch
          [([1], .delete), ([2], .put [7] 5), ([2], .put [8] 6)] = .ok (outcome, tree') ∧
        Denotes false (tree'.publish 2 1) 2 [([1], ⟨[], 0⟩)] ∧
        ∃ levels', Denotes false (tree'.publish outcome.root outcome.len) levels'
          [([2], ⟨[8], 6⟩)] := by
  refine ⟨chain_denotes 1, by decide, ?_⟩
  refine (pageTree_refines_map (chain_denotes 1) (by decide)).1
    [([1], .delete), ([2], .put [7] 5), ([2], .put [8] 6)] ?_
  intro m hm
  simp only [mem_cons, not_mem_nil, or_false] at hm
  rcases hm with rfl | rfl | rfl
  · trivial
  · exact ⟨⟨by decide, by decide⟩, by decide, by decide⟩
  · exact ⟨⟨by decide, by decide⟩, by decide, by decide⟩

/-- Without the depth bound it fails: the column of 65 levels is well-formed, and no batch on
    it succeeds. -/
theorem chain_too_deep :
    Denotes false (chain 64) 65 [([1], ⟨[], 0⟩)] ∧
      (chain 64).prepareBatch [([1], .put [7] 5)] = .error (excessiveDepth 1) :=
  ⟨chain_denotes 64, by decide +kernel⟩

end Vyrn
