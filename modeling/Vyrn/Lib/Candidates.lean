import Mathlib.Data.List.Sort
import Vyrn.Lib.BinarySearch

/-!
# Scans over candidates

A scan whose reads may hide rows cannot stop at its limit: it collects candidates first and then
reads each. The candidates are the first live keys, up to a bound, with all keys of a second list.
When the second list has every key that is shown without being live, and the bound leaves room for
every live key that is hidden, the scan shows what a scan of all keys shows (**`take_shown`**).
-/

namespace Candidates

open List

variable {K V : Type} {keys : List K} {read : K → Option V}

/-- What reads show of a list of keys, in order. -/
def shown (read : K → Option V) (keys : List K) : List (K × V) :=
  keys.filterMap (fun key => (read key).map (fun value => (key, value)))

theorem shown_append (read : K → Option V) (a b : List K) :
    shown read (a ++ b) = shown read a ++ shown read b := filterMap_append

theorem mem_shown {e : K × V} : e ∈ shown read keys ↔ e.1 ∈ keys ∧ read e.1 = some e.2 := by
  rw [shown, mem_filterMap]
  constructor
  · rintro ⟨key, hkey, h⟩
    obtain ⟨value, hread, rfl⟩ := Option.map_eq_some_iff.mp h
    exact ⟨hkey, hread⟩
  · rintro ⟨hkey, hread⟩
    exact ⟨e.1, hkey, by rw [hread]; rfl⟩

variable [LinearOrder K]

theorem shown_sorted (read : K → Option V) (h : keys.Pairwise (· < ·)) :
    (shown read keys).Pairwise (fun a b => a.1 < b.1) := by
  refine h.filterMap _ (fun a b hab x hx y hy => ?_)
  obtain ⟨_, _, rfl⟩ := Option.map_eq_some_iff.mp hx
  obtain ⟨_, _, rfl⟩ := Option.map_eq_some_iff.mp hy
  exact hab

/-- An ascending list is its part below a key, and the rest. -/
theorem split_below (h : keys.Pairwise (· < ·)) (bound : K) :
    keys = keys.filter (fun key => key < bound) ++ keys.filter (fun key => ¬ key < bound) := by
  obtain ⟨hfront, hback⟩ := BinarySearch.takeWhile_eq_filter (p := fun key => key < bound)
    (h.imp (fun hab hb => decide_eq_true (hab.trans (of_decide_eq_true hb))))
  simp only [decide_not]
  rw [← hfront, ← hback, takeWhile_append_dropWhile]

/-- **CANDIDATES**: the first `limit + room` live keys with all kept ones are enough to show the
    first `limit` of all, when at most `room` live keys are hidden. -/
theorem take_shown {limit room : Nat} {live kept candidates all : List K}
    (hlive : live.Pairwise (· < ·)) (hcandidates : candidates.Pairwise (· < ·))
    (hall : all.Pairwise (· < ·))
    (hmem : ∀ key, key ∈ candidates ↔ key ∈ live.take (limit + room) ∨ key ∈ kept)
    (hmem' : ∀ key, key ∈ all ↔ key ∈ live ∨ key ∈ kept)
    (hidden : (live.filter (fun key => (read key).isNone)).length ≤ room) :
    (shown read candidates).take limit = (shown read all).take limit := by
  cases hcut : live.drop (limit + room) with
  | nil =>
    -- nothing was cut off
    have hfull : live.take (limit + room) = live :=
      take_of_length_le (drop_eq_nil_iff.mp hcut)
    rw [hfull] at hmem
    rw [List.Subset.antisymm_of_pairwise hcandidates hall
      (fun key hkey => (hmem' key).mpr ((hmem key).mp hkey))
      (fun key hkey => (hmem key).mpr ((hmem' key).mp hkey))]
  | cons bound rest =>
    have hsplit : live = live.take (limit + room) ++ bound :: rest := by
      rw [← hcut, take_append_drop]
    have hsorted := hlive
    rw [hsplit] at hsorted
    obtain ⟨_, hback, hbelow⟩ := pairwise_append.mp hsorted
    obtain ⟨hbound, _⟩ := pairwise_cons.mp hback
    -- below the first key that was cut off both lists are the same
    have hsame : candidates.filter (fun key => key < bound)
        = all.filter (fun key => key < bound) := by
      suffices h : ∀ key, key ∈ candidates.filter (fun key => key < bound) ↔
          key ∈ all.filter (fun key => key < bound) from
        List.Subset.antisymm_of_pairwise (hcandidates.filter _) (hall.filter _)
          (fun key => (h key).mp) (fun key => (h key).mpr)
      intro key
      rw [mem_filter, mem_filter, hmem, hmem', decide_eq_true_iff]
      refine and_congr_left (fun hlt => or_congr_left ⟨mem_of_mem_take, fun hkey => ?_⟩)
      rw [hsplit] at hkey
      rcases mem_append.mp hkey with hkey | hkey
      · exact hkey
      · rcases mem_cons.mp hkey with rfl | hkey
        · exact absurd hlt (lt_irrefl _)
        · exact absurd hlt (not_lt.mpr (hbound key hkey).le)
    -- and it shows enough
    have hfront : (live.take (limit + room)).Sublist (all.filter (fun key => key < bound)) := by
      have hpart : (live.take (limit + room)).Pairwise (· < ·) :=
        hlive.sublist (take_sublist _ _)
      refine sublist_of_subperm_of_pairwise ?_ (hpart.imp le_of_lt) ((hall.filter _).imp le_of_lt)
      refine subperm_of_subset (hpart.imp ne_of_lt) (fun key hkey => mem_filter.mpr ⟨?_, ?_⟩)
      · exact (hmem' key).mpr (.inl (mem_of_mem_take hkey))
      · exact decide_eq_true (hbelow key hkey bound mem_cons_self)
    have hlong : limit ≤ (shown read (all.filter (fun key => key < bound))).length := by
      have hcount : (live.take (limit + room)).length = limit + room := by
        refine length_take_of_le (le_of_not_ge (fun hle => ?_))
        exact cons_ne_nil _ _ (hcut.symm.trans (drop_eq_nil_iff.mpr hle))
      have hparts := length_eq_length_filter_add (l := live.take (limit + room))
        (fun key => (read key).isSome)
      have hnone : ((live.take (limit + room)).filter (fun key => !(read key).isSome)).length
          ≤ room := by
        refine le_trans (((take_sublist _ _).filter _).length_le) (le_trans ?_ hidden)
        simp only [Option.not_isSome, le_refl]
      have hshown := (hfront.filter (fun key => (read key).isSome)).length_le
      rw [shown, length_filterMap_eq_countP, countP_eq_length_filter]
      simp only [Option.isSome_map]
      omega
    rw [split_below hcandidates bound, split_below hall bound, shown_append, shown_append, hsame,
      take_append_of_le_length hlong, take_append_of_le_length hlong]

end Candidates
