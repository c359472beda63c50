import Mathlib.Algebra.BigOperators.Group.List.Basic
import Mathlib.Tactic.Ring

/-!
# Greedy packing of a list into pages

Items are laid down in order; a page is closed when the next item does not fit. `first x` is what a
page holds once `x` opens it and `size x` what `x` adds to an open one, so one definition serves
pages whose first item is free. Nothing is lost or reordered (`flatten_pack`), every page is within
the capacity (`cost_le_of_mem_pack`), the number of pages is bounded by the total size
(`pages_mul_le`) and below that of the items when any two fit together (`two_mul_length_pack`).
-/

namespace Packing

open List

variable {α : Type*}

/-- Packs `xs` behind the open page `page`, which has `used` taken. -/
def packFrom (first size : α → Nat) (cap : Nat) : List α → Nat → List α → List (List α)
  | page, _, [] => [page]
  | page, used, x :: xs =>
    if cap < used + size x then page :: packFrom first size cap [x] (first x) xs
    else packFrom first size cap (page ++ [x]) (used + size x) xs

/-- Packs a list into pages, greedily; an empty list still makes one (empty) page. -/
def pack (first size : α → Nat) (cap : Nat) : List α → List (List α)
  | [] => [[]]
  | x :: xs => packFrom first size cap [x] (first x) xs

/-- What a page takes. -/
def cost (first size : α → Nat) : List α → Nat
  | [] => 0
  | x :: xs => first x + (xs.map size).sum

variable {first size : α → Nat} {cap : Nat} {β : Type*} {l : List α}

theorem cost_concat (x y : α) (xs : List α) :
    cost first size (x :: xs ++ [y]) = cost first size (x :: xs) + size y := by
  simp only [cons_append, cost, map_append, map_cons, map_nil, sum_append, sum_cons, sum_nil]
  omega

/-! ## Nothing is lost -/

theorem flatten_packFrom (xs page : List α) (used : Nat) :
    (packFrom first size cap page used xs).flatten = page ++ xs := by
  fun_induction packFrom with
  | case1 => simp
  | case2 _ _ _ _ _ ih => rw [flatten_cons, ih]; rfl
  | case3 _ _ _ _ _ ih => rw [ih, append_assoc]; rfl

theorem flatten_pack (l : List α) : (pack first size cap l).flatten = l := by
  cases l with
  | nil => rfl
  | cons x xs => exact flatten_packFrom xs [x] (first x)

/-- Packing sees its items through their sizes alone. -/
theorem packFrom_map (f : β → α) (xs page : List β) (used : Nat) :
    packFrom first size cap (page.map f) used (xs.map f)
      = (packFrom (first ∘ f) (size ∘ f) cap page used xs).map (map f) := by
  fun_induction packFrom (first ∘ f) (size ∘ f) cap page used xs with
  | case1 => rfl
  | case2 page _ _ _ h ih => exact (if_pos h).trans (congrArg (page.map f :: ·) ih)
  | case3 _ _ _ _ h ih =>
    rw [map_append] at ih
    exact (if_neg h).trans ih

/-! ## Every page is nonempty and within the capacity -/

theorem ne_nil_of_mem_packFrom (xs page : List α) (used : Nat) (hp : page ≠ []) :
    ∀ p ∈ packFrom first size cap page used xs, p ≠ [] := by
  fun_induction packFrom with
  | case1 => exact forall_mem_singleton.mpr hp
  | case2 _ _ _ _ _ ih => exact forall_mem_cons.mpr ⟨hp, ih (cons_ne_nil _ _)⟩
  | case3 _ _ _ _ _ ih => exact ih (by simp)

theorem ne_nil_of_mem_pack (hl : l ≠ []) : ∀ p ∈ pack first size cap l, p ≠ [] := by
  cases l with
  | nil => exact absurd rfl hl
  | cons x xs => exact ne_nil_of_mem_packFrom xs [x] (first x) (by simp)

theorem cost_le_of_mem_packFrom (xs : List α) (y : α) (ys : List α)
    (hc : cost first size (y :: ys) ≤ cap) (hfirst : ∀ x ∈ xs, first x ≤ cap) :
    ∀ p ∈ packFrom first size cap (y :: ys) (cost first size (y :: ys)) xs,
      cost first size p ≤ cap := by
  induction xs generalizing y ys with
  | nil => exact forall_mem_singleton.mpr hc
  | cons x xs ih =>
    rw [forall_mem_cons] at hfirst
    rw [packFrom]
    split_ifs with h
    · exact forall_mem_cons.mpr ⟨hc, ih x [] hfirst.1 hfirst.2⟩
    · rw [← cost_concat] at h ⊢
      exact ih y (ys ++ [x]) (not_lt.mp h) hfirst.2

/-- **CAPACITY**: a page never takes more than the capacity when each item alone fits. -/
theorem cost_le_of_mem_pack (h : ∀ x ∈ l, first x ≤ cap) :
    ∀ p ∈ pack first size cap l, cost first size p ≤ cap := by
  cases l with
  | nil => intro p hp; rw [mem_singleton.mp hp]; exact Nat.zero_le _
  | cons x xs =>
    rw [forall_mem_cons] at h
    exact cost_le_of_mem_packFrom xs x [] h.1 h.2

/-! ## How many pages -/

theorem length_packFrom_pos (xs page : List α) (used : Nat) :
    0 < (packFrom first size cap page used xs).length := by
  fun_induction packFrom with
  | case1 => exact one_pos
  | case2 => exact Nat.succ_pos _
  | case3 _ _ _ _ _ ih => exact ih

theorem length_pack_pos (l : List α) : 0 < (pack first size cap l).length := by
  cases l with
  | nil => exact one_pos
  | cons x xs => exact length_packFrom_pos xs [x] (first x)

theorem packFrom_of_fits (xs page : List α) (used : Nat) (h : used + (xs.map size).sum ≤ cap) :
    packFrom first size cap page used xs = [page ++ xs] := by
  induction xs generalizing page used with
  | nil => rw [packFrom, append_nil]
  | cons x xs ih =>
    rw [map_cons, sum_cons] at h
    rw [packFrom, if_neg (by omega), ih _ _ (by omega), append_assoc]
    rfl

theorem pack_of_fits (hl : l ≠ []) (h : cost first size l ≤ cap) :
    pack first size cap l = [l] := by
  cases l with
  | nil => exact absurd rfl hl
  | cons x xs => exact packFrom_of_fits xs [x] _ h

/-- **ONE PAGE**: a list makes one page exactly when all of it fits. -/
theorem length_pack_eq_one (hl : l ≠ []) (hfirst : ∀ x ∈ l, first x ≤ cap) :
    (pack first size cap l).length = 1 ↔ cost first size l ≤ cap := by
  refine ⟨fun h => ?_, fun h => by rw [pack_of_fits hl h, length_singleton]⟩
  obtain ⟨page, hpage⟩ := length_eq_one_iff.mp h
  have hflat := @flatten_pack α first size cap l
  rw [hpage, flatten_singleton] at hflat
  exact cost_le_of_mem_pack hfirst l (hpage ▸ hflat ▸ mem_singleton_self _)

section Pages

variable {opening : α → Nat} {base room : Nat}

theorem pagesFrom_mul_le (hfirst : ∀ x, first x = base + opening x)
    (hcap : cap + 1 = base + room) (xs page : List α) (taken : Nat) :
    ((packFrom first size cap page (base + taken) xs).length - 1) * room
      ≤ taken + (xs.map (fun x => size x + opening x)).sum := by
  induction xs generalizing page taken with
  | nil => simp [packFrom]
  | cons x xs ih =>
    rw [packFrom]
    rw [map_cons, sum_cons]
    split_ifs with h
    · -- the page closes: it and the item it turned away take the room of one page
      have hroom : room ≤ taken + size x := by omega
      have hrest := ih [x] (opening x)
      have hpos := @length_packFrom_pos α first size cap xs [x] (base + opening x)
      rw [hfirst x, length_cons, Nat.add_sub_cancel]
      set pages := (packFrom first size cap [x] (base + opening x) xs).length
      calc pages * room = (pages - 1 + 1) * room := by rw [Nat.sub_add_cancel hpos]
        _ = (pages - 1) * room + room := Nat.succ_mul _ _
        _ ≤ (opening x + (xs.map (fun x => size x + opening x)).sum)
              + (taken + size x) := Nat.add_le_add hrest hroom
        _ = taken + (size x + opening x + (xs.map (fun x => size x + opening x)).sum) := by
            omega
    · have hrest := ih (page ++ [x]) (taken + size x)
      rw [← add_assoc] at hrest
      exact hrest.trans (by omega)

/-- **PAGE COUNT**: every page but the last turns an item away, so `room` bytes go into it
    and that item. An item counts twice when it also takes room on the page it opens. -/
theorem pages_mul_le (hfirst : ∀ x, first x = base + opening x)
    (hcap : cap + 1 = base + room) (l : List α) :
    ((pack first size cap l).length - 1) * room
      ≤ (l.map (fun x => size x + opening x)).sum := by
  cases l with
  | nil => simp [pack]
  | cons x xs =>
    have h := @pagesFrom_mul_le α first size cap opening base room hfirst hcap xs [x] (opening x)
    show ((packFrom first size cap [x] (first x) xs).length - 1) * room ≤ _
    rw [hfirst x, map_cons, sum_cons]
    exact h.trans (by omega)

end Pages

theorem two_mul_length_packFrom (htwo : ∀ x y, first x + size y ≤ cap) :
    ∀ xs : List α,
      (∀ x, 2 * (packFrom first size cap [x] (first x) xs).length ≤ xs.length + 2) ∧
      (∀ page used, 2 * (packFrom first size cap page used xs).length ≤ xs.length + 3) := by
  intro xs
  induction xs with
  | nil => exact ⟨fun x => by simp [packFrom], fun page used => by simp [packFrom]⟩
  | cons y ys ih =>
    obtain ⟨ihOne, ihAny⟩ := ih
    refine ⟨fun x => ?_, fun page used => ?_⟩
    · rw [packFrom]
      rw [if_neg (not_lt.mpr (htwo x y))]
      exact ihAny _ _
    · rw [packFrom]
      split_ifs with h
      · have := ihOne y
        rw [length_cons, length_cons]
        omega
      · have := ihAny (page ++ [y]) (used + size y)
        rw [length_cons]
        omega

/-- **SHRINKS**: when any two items share a page, packing at least halves the list. -/
theorem two_mul_length_pack (htwo : ∀ x y, first x + size y ≤ cap) (hl : l ≠ []) :
    2 * (pack first size cap l).length ≤ l.length + 1 := by
  cases l with
  | nil => exact absurd rfl hl
  | cons x xs => exact (two_mul_length_packFrom htwo xs).1 x

end Packing
