import Mathlib.Order.Lattice

/-!
# Binary search with a fallible probe

The index search of a sorted page: `probe i` says whether position `i` still lies before
the target, and may fail (a probe reads its key). `search` halves `[low, high)` until it is
empty. When the probes succeed and answer "before" exactly on the positions below `k`, the
search returns `k` (`search_eq`).
-/

namespace BinarySearch

open List

variable {ε : Type*} {probe : Nat → Except ε Bool}

/-- Halves `[low, high)`; `fuel` bounds the turns and any `fuel ≥ high - low` is enough. -/
def search (probe : Nat → Except ε Bool) : Nat → Nat → Nat → Except ε Nat
  | 0, low, _ => .ok low
  | fuel + 1, low, high =>
    if low < high then
      match probe (low + (high - low) / 2) with
      | .error error => .error error
      | .ok true => search probe fuel (low + (high - low) / 2 + 1) high
      | .ok false => search probe fuel low (low + (high - low) / 2)
    else .ok low

/-- **SEARCH**: the search finds the place where the answers turn. -/
theorem search_eq {k n : Nat} (hprobe : ∀ i, i < n → probe i = .ok (decide (i < k)))
    {fuel low high : Nat} (hlow : low ≤ k) (hhigh : k ≤ high) (hn : high ≤ n)
    (hfuel : high - low ≤ fuel) : search probe fuel low high = .ok k := by
  induction fuel generalizing low high with
  | zero => rw [search, show low = k by omega]
  | succ fuel ih =>
    rw [search]
    split_ifs with hlt
    · rw [hprobe _ (by omega)]
      by_cases hmid : low + (high - low) / 2 < k
      · rw [decide_eq_true hmid]
        exact ih (by omega) hhigh hn (by omega)
      · rw [decide_eq_false hmid]
        exact ih hlow (by omega) (by omega) (by omega)
    · rw [show low = k by omega]

/-! ## Searching a list -/

section List

variable {α : Type*} {p : α → Bool} {l : List α} {i j k : Nat}

/-- The front part is what `p` keeps, and the rest what it drops. -/
theorem takeWhile_eq_filter :
    ∀ {l : List α}, l.Pairwise (fun a b => p b = true → p a = true) →
      l.takeWhile p = l.filter p ∧ l.dropWhile p = l.filter (fun x => !p x) := by
  intro l
  induction l with
  | nil => exact fun _ => ⟨rfl, rfl⟩
  | cons a l ih =>
    intro h
    obtain ⟨ha, hl⟩ := pairwise_cons.mp h
    by_cases hp : p a = true
    · simp [hp, ih hl]
    · have hnone : ∀ b ∈ l, p b = false := fun b hb =>
        Bool.eq_false_iff.mpr (fun hpb => hp (ha b hb hpb))
      rw [takeWhile_cons_of_neg hp, dropWhile_cons_of_neg hp, eq_comm, filter_eq_nil_iff, eq_comm,
        filter_eq_self]
      simpa [hp] using hnone

theorem not_of_mem_dropWhile (h : l.Pairwise (fun a b => p b = true → p a = true)) :
    ∀ x ∈ l.dropWhile p, ¬ p x = true := by
  rw [(takeWhile_eq_filter h).2]
  simp

/-- When `p` holds of a front part of the list only, its answers turn at the end of that
    part. -/
theorem getElem_iff_lt_takeWhile (h : l.Pairwise (fun a b => p b = true → p a = true)) {i : Nat}
    (hi : i < l.length) : p l[i] = decide (i < (l.takeWhile p).length) := by
  by_cases hlt : i < (l.takeWhile p).length
  · rw [decide_eq_true hlt, ← ( takeWhile_prefix p).getElem hlt]
    exact all_eq_true.mp all_takeWhile _ (getElem_mem hlt)
  · have hget : (l.dropWhile p)[i - (l.takeWhile p).length]? = some l[i] := by
      rw [← getElem?_append_right (not_lt.mp hlt), takeWhile_append_dropWhile,
        getElem?_eq_getElem hi]
    rw [decide_eq_false hlt]
    exact Bool.eq_false_iff.mpr (not_of_mem_dropWhile h _ (mem_of_getElem? hget))

/-- **LIST SEARCH**: searching a list whose front part satisfies `p` finds its length. -/
theorem search_list (hl : l.Pairwise (fun a b => p b = true → p a = true))
    (hprobe : ∀ i (hi : i < l.length), probe i = .ok (p l[i])) :
    search probe l.length 0 l.length = .ok (l.takeWhile p).length := by
  refine search_eq (n := l.length) (fun i hi => ?_) (Nat.zero_le _)
    (takeWhile_sublist p).length_le (Nat.le_refl _) (Nat.sub_le _ _)
  rw [hprobe i hi, getElem_iff_lt_takeWhile hl hi]

/-- A list in the order of its keys, cut at a bound. -/
theorem cut_below {K : Type*} [LinearOrder K] [DecidableLT K] (key : α → K)
    (h : l.Pairwise (fun a b => key a ≤ key b)) (bound : K) :
    ∃ a b, l.takeWhile (fun x => key x < bound) = a ∧ l.dropWhile (fun x => key x < bound) = b ∧
      l.drop a.length = b ∧ l = a ++ b ∧ (∀ x ∈ a, key x < bound) ∧ ∀ x ∈ b, bound ≤ key x := by
  have hsplit : l.takeWhile (fun x => key x < bound) ++ l.dropWhile (fun x => key x < bound) = l :=
    takeWhile_append_dropWhile
  obtain ⟨htake, hdrop⟩ := takeWhile_eq_filter (p := fun x => key x < bound)
    (h.imp (fun hab hb => decide_eq_true (hab.trans_lt (of_decide_eq_true hb))))
  refine ⟨_, _, rfl, rfl, (congrArg (drop _) hsplit.symm).trans drop_left, hsplit.symm, ?_, ?_⟩
  · simp [htake]
  · simp [hdrop]

/-- What stands where the search stops. -/
theorem getElem?_length_takeWhile (l : List α) :
    l[(l.takeWhile p).length]? = (l.dropWhile p).head? := by
  have hget : (l.takeWhile p ++ l.dropWhile p)[(l.takeWhile p).length]?
      = (l.dropWhile p).head? := by
    rw [getElem?_append_right le_rfl, Nat.sub_self, head?_eq_getElem?]
  rwa [takeWhile_append_dropWhile] at hget

/-! ## Segments -/

/-- The positions `[i, j)` of a list. -/
def segment (l : List α) (i j : Nat) : List α :=
  (l.drop i).take (j - i)

theorem segment_append (hij : i ≤ j) (hjk : j ≤ k) :
    segment l i j ++ segment l j k = segment l i k := by
  rw [segment, segment, segment, show k - i = (j - i) + (k - j) by omega, take_add,
    drop_drop, show i + (j - i) = j by omega]

theorem exists_of_mem_segment {x : α} (h : x ∈ segment l i j) :
    ∃ k, ∃ hk : k < l.length, i ≤ k ∧ k < j ∧ l[k] = x := by
  obtain ⟨k, hk, rfl⟩ := getElem_of_mem h
  rw [segment, length_take, length_drop] at hk
  refine ⟨i + k, by omega, by omega, by omega, ?_⟩
  simp only [segment, getElem_take, getElem_drop]

/-- **SEGMENTS**: a filter that keeps exactly two index ranges keeps two segments. -/
theorem filter_eq_segments {q : α → Bool} {m : Nat} (hij : i ≤ j) (hjk : j ≤ k) (hkm : k ≤ m)
    (hm : m ≤ l.length)
    (hq : ∀ n (hn : n < l.length), q l[n] = true ↔ (i ≤ n ∧ n < j) ∨ (k ≤ n ∧ n < m)) :
    l.filter q = segment l i j ++ segment l k m := by
  have hkeep : ∀ {a b : Nat}, (∀ n, a ≤ n → n < b → (i ≤ n ∧ n < j) ∨ (k ≤ n ∧ n < m)) →
      (segment l a b).filter q = segment l a b := by
    intro a b h
    refine filter_eq_self.mpr (fun x hx => ?_)
    obtain ⟨n, hn, ha, hb, rfl⟩ := exists_of_mem_segment hx
    exact (hq n hn).mpr (h n ha hb)
  have hdrop : ∀ {a b : Nat}, (∀ n, a ≤ n → n < b → ¬ ((i ≤ n ∧ n < j) ∨ (k ≤ n ∧ n < m))) →
      (segment l a b).filter q = [] := by
    intro a b h
    refine filter_eq_nil_iff.mpr (fun x hx => ?_)
    obtain ⟨n, hn, ha, hb, rfl⟩ := exists_of_mem_segment hx
    exact fun hp => h n ha hb ((hq n hn).mp hp)
  have hsplit : l = segment l 0 i ++ segment l i j ++ segment l j k ++ segment l k m ++
      segment l m l.length := by
    rw [segment_append (by omega) (by omega), segment_append (by omega) (by omega),
      segment_append (by omega) (by omega), segment_append (by omega) (by omega),
      segment, drop_zero, Nat.sub_zero, take_length]
  refine (congrArg (filter q) hsplit).trans ?_
  rw [filter_append, filter_append, filter_append, filter_append,
    hdrop (fun n _ _ => by omega), hkeep (fun n _ _ => by omega),
    hdrop (fun n _ _ => by omega), hkeep (fun n _ _ => by omega),
    hdrop (fun n _ _ => by omega), nil_append, append_nil, append_nil]

end List

end BinarySearch
