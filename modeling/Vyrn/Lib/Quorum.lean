import Mathlib.Data.List.Sort
import Mathlib.Data.Finset.Card
import Mathlib.Data.Fintype.Card

/-!
# Order statistics and quorums

The `k`-th highest of a list of marks reaches `x` exactly when `k` of the marks do
(`kthHighest_reaches_iff`). Counting marks counts their owners as long as no two marks belong to
one owner (`exists_owners`), and two sets of owners that together outnumber the whole meet
(`Finset.inter_nonempty_of_card_lt_card_add_card`).
-/

namespace Quorum

open List

/-! ## The `k`-th highest -/

section KthHighest

variable {α : Type} [LinearOrder α]

/-- The `k`-th highest of the marks, counted from one. -/
def kthHighest (k : Nat) (marks : List α) : Option α :=
  (marks.insertionSort (fun a b => b ≤ a))[k - 1]?

/-- In a descending list the elements that reach `x` are an initial part. -/
theorem countP_descending {marks : List α} (h : marks.Pairwise (fun a b => b ≤ a)) (x : α)
    (k : Nat) :
    (∃ y, marks[k]? = some y ∧ x ≤ y) ↔ k < marks.countP (fun y => decide (x ≤ y)) := by
  induction marks generalizing k with
  | nil => simp
  | cons top rest ih =>
    obtain ⟨htop, hrest⟩ := pairwise_cons.mp h
    by_cases hx : x ≤ top
    · rw [countP_cons_of_pos (by simpa using hx)]
      cases k with
      | zero => simp [hx]
      | succ k =>
        rw [getElem?_cons_succ, ih hrest, Nat.succ_lt_succ_iff]
    · -- no later element is higher than the one that misses `x`
      have hnone : ∀ y ∈ top :: rest, ¬ x ≤ y := by
        intro y hy hxy
        rcases mem_cons.mp hy with rfl | hmem
        · exact hx hxy
        · exact hx (le_trans hxy (htop y hmem))
      have hzero : (top :: rest).countP (fun y => decide (x ≤ y)) = 0 :=
        countP_eq_zero.mpr (fun y hy => by simpa using hnone y hy)
      rw [hzero]
      constructor
      · rintro ⟨y, hy, hxy⟩
        exact absurd hxy (hnone y (mem_of_getElem? hy))
      · exact fun hlt => absurd hlt (Nat.not_lt_zero k)

/-- **ORDER STATISTIC**: the `k`-th highest mark reaches `x` when `k` marks do. -/
theorem kthHighest_reaches_iff {k : Nat} (hk : 0 < k) (marks : List α) (x : α) :
    (∃ y, kthHighest k marks = some y ∧ x ≤ y) ↔
      k ≤ marks.countP (fun y => decide (x ≤ y)) := by
  rw [kthHighest, countP_descending (pairwise_insertionSort _ marks),
    (perm_insertionSort _ marks).countP_eq]
  omega

end KthHighest

/-! ## Owners -/

section Owners

variable {ι β : Type} [DecidableEq β]

/-- Entries of pairwise different owners have as many owners. -/
theorem exists_owners {entries : List ι} {owner : ι → β} {p : ι → Bool} {k : Nat}
    (hdistinct : (entries.map owner).Nodup) (hk : k ≤ entries.countP p) :
    ∃ owners : Finset β, k ≤ owners.card ∧
      ∀ o ∈ owners, ∃ entry ∈ entries, p entry = true ∧ owner entry = o := by
  have hnodup : ((entries.filter p).map owner).Nodup :=
    hdistinct.sublist (filter_sublist.map owner)
  refine ⟨((entries.filter p).map owner).toFinset, ?_, ?_⟩
  · rw [toFinset_card_of_nodup hnodup, length_map, ← countP_eq_length_filter]
    exact hk
  · intro o ho
    obtain ⟨entry, hentry, rfl⟩ := mem_map.mp (mem_toFinset.mp ho)
    exact ⟨entry, mem_of_mem_filter hentry, (mem_filter.mp hentry).2, rfl⟩

end Owners

end Quorum
