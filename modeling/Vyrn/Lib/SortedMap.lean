import Mathlib.Algebra.GroupWithZero.Nat
import Mathlib.Data.List.Induction
import Mathlib.Data.List.Sort
import Mathlib.Data.List.TakeWhile
import Mathlib.Order.Defs.LinearOrder
import Vyrn.Lib.BinarySearch

/-!
# Sorted association lists — an ordered map as a list

A finite map over a linear order as the list of its bindings in strictly ascending key order, which
is canonical (`ext_lookup`). Updates are pairs `(k, some v)` (write) and `(k, none)` (delete).

Main results: `lookup_updateAll`, `updateAll_append`, `updateAll_insertionSort`.
-/

namespace SortedMap

open List

variable {K V W : Type*}

/-! ## Lookup in an association list -/

/-- Two maps with the same keys and related values. -/
def Related (R : V → W → Prop) (m : List (K × V)) (n : List (K × W)) : Prop :=
  Forall₂ (fun a b => a.1 = b.1 ∧ R a.2 b.2) m n

variable {m a b : List (K × V)} {n : List (K × W)} {j k : K} {v : V} {us : List (K × Option V)}
  {u : K × Option V} {R : V → W → Prop} {e : K × V}

section

variable {α β γ : Type*} {R : α → β → Prop} {xs : List α} {ys : List β} (h : Forall₂ R xs ys)
include h

theorem exists_of_mem_forall₂ : ∀ x ∈ xs, ∃ y ∈ ys, R x y := by
  induction h with
  | nil => exact forall_mem_nil _
  | cons hxy _ ih =>
    refine forall_mem_cons.mpr ⟨⟨_, mem_cons_self, hxy⟩, fun x hx => ?_⟩
    obtain ⟨y, hy, hxy'⟩ := ih x hx
    exact ⟨y, mem_cons_of_mem _ hy, hxy'⟩

theorem map_eq_map_of_forall₂ {f : α → γ} {g : β → γ} (heq : ∀ x y, R x y → f x = g y) :
    xs.map f = ys.map g := by
  rw [← forall₂_eq_eq_eq, forall₂_map_left_iff, forall₂_map_right_iff]
  exact h.imp heq

end

section

variable (h : Related R m n)
include h

theorem Related.keys : m.map Prod.fst = n.map Prod.fst :=
  map_eq_map_of_forall₂ h (fun _ _ => And.left)

theorem Related.lookup [BEq K] (k : K) : Option.Rel R (lookup k m) (lookup k n) := by
  induction h with
  | nil => exact Option.Rel.none
  | @cons a b m n hab _ ih =>
    obtain ⟨ka, va⟩ := a
    obtain ⟨kb, vb⟩ := b
    obtain ⟨hk, hv⟩ := hab
    subst hk
    rw [List.lookup_cons, List.lookup_cons]
    cases k == ka with
    | true => exact Option.Rel.some hv
    | false => exact ih

theorem Related.lookup_isSome [BEq K] (k : K) :
    (List.lookup k m).isSome = (List.lookup k n).isSome := by
  have hrel := h.lookup k
  generalize List.lookup k m = v at hrel
  generalize List.lookup k n = w at hrel
  cases hrel with
  | none => rfl
  | some => rfl

/-- The bindings of related maps whose key is in `p` are related. -/
theorem Related.filter (p : K → Bool) :
    Related R (m.filter (fun e => p e.1)) (n.filter (fun e => p e.1)) := by
  induction h with
  | nil => exact Forall₂.nil
  | cons hab _ ih =>
    rw [filter_cons, filter_cons, hab.1]
    split_ifs
    · exact Forall₂.cons hab ih
    · exact ih

end

section Lookup

variable [BEq K] [LawfulBEq K]

theorem lookup_entry [DecidableEq K] (j : K) (e : K × V) (m : List (K × V)) :
    lookup j (e :: m) = if j = e.1 then some e.2 else lookup j m := by
  rw [show e = (e.1, e.2) from rfl, lookup_cons]
  split_ifs with h
  · rw [h, beq_self_eq_true]
  · rw [beq_false_of_ne h]

/-- A key outside the list reads nothing. -/
theorem lookup_eq_none (h : ∀ e ∈ m, e.1 ≠ k) :
    lookup k m = none := by
  rw [lookup_eq_none_iff]
  intro p hp
  exact bne_iff_ne.mpr (h p hp).symm

theorem lookup_mapValues (f : V → W) (k : K) (m : List (K × V)) :
    lookup k (m.map (fun e => (e.1, f e.2))) = (lookup k m).map f := by
  classical
  induction m with
  | nil => rfl
  | cons e m ih =>
    rw [map_cons, lookup_entry, lookup_entry, ih]
    split_ifs
    · rfl
    · rfl

theorem lookup_isSome :
    (lookup k m).isSome ↔ ∃ e ∈ m, e.1 = k := by
  rw [lookup_isSome_iff]
  exact exists_congr (fun e => and_congr_right (fun _ => beq_iff_eq.trans eq_comm))

theorem mem_of_lookup (h : lookup k m = some v) : (k, v) ∈ m := by
  obtain ⟨_, _, rfl, _⟩ := lookup_eq_some_iff.mp h
  exact mem_append_right _ mem_cons_self

/-- A key bound to one value only reads it. -/
theorem lookup_of_unique (h : (k, v) ∈ m)
    (hunique : ∀ w, (k, w) ∈ m → w = v) : lookup k m = some v := by
  obtain ⟨w, hw⟩ := Option.isSome_iff_exists.mp (lookup_isSome.mpr ⟨(k, v), h, rfl⟩)
  rw [hw, hunique w (mem_of_lookup hw)]

end Lookup

/-! ## Sorted lists -/

variable [LinearOrder K] {vs : List (K × Option V)}

/-- Keys strictly ascend along the list. -/
def Sorted (m : List (K × V)) : Prop :=
  m.Pairwise (fun a b => a.1 < b.1)

@[simp] theorem sorted_nil : Sorted ([] : List (K × V)) :=
  Pairwise.nil

theorem sorted_cons : Sorted (e :: m) ↔ (∀ e' ∈ m, e.1 < e'.1) ∧ Sorted m :=
  pairwise_cons

theorem sorted_append :
    Sorted (a ++ b) ↔ Sorted a ∧ Sorted b ∧ ∀ x ∈ a, ∀ y ∈ b, x.1 < y.1 :=
  pairwise_append

theorem Sorted.filter (h : Sorted m) (p : K × V → Bool) :
    Sorted (m.filter p) :=
  Pairwise.filter p h

/-- In a sorted list a binding is exactly what its key reads. -/
theorem lookup_eq_some [BEq K] [LawfulBEq K] (h : Sorted m) :
    lookup k m = some v ↔ (k, v) ∈ m := by
  refine ⟨mem_of_lookup, fun hm => lookup_of_unique hm (fun w hw => ?_)⟩
  have hkeys : (m.map Prod.fst).Nodup := pairwise_map.mpr (h.imp (fun hlt => hlt.ne))
  exact congrArg Prod.snd (inj_on_of_nodup_map hkeys hw hm rfl)

/-- **EXTENSIONALITY**: a sorted list is determined by its lookups. -/
theorem ext_lookup [BEq K] [LawfulBEq K] {a b : List (K × V)} (ha : Sorted a) (hb : Sorted b)
    (h : ∀ k, lookup k a = lookup k b) : a = b := by
  have hmem : ∀ e : K × V, e ∈ a ↔ e ∈ b := by
    intro e
    rw [← lookup_eq_some ha, ← lookup_eq_some hb, h]
  have hnd : ∀ {m : List (K × V)}, Sorted m → m.Nodup := by
    intro m hm
    exact hm.imp (fun hlt heq => absurd (heq ▸ hlt) (lt_irrefl _))
  have hperm : a.Perm b := (perm_ext_iff_of_nodup (hnd ha) (hnd hb)).mpr hmem
  exact hperm.eq_of_pairwise (fun x y _ _ hxy hyx => absurd hxy (not_lt_of_gt hyx)) ha hb

/-- The two halves of a map cut at `k` answer for their own side. -/
theorem lookup_append_left [BEq K] [LawfulBEq K] (h : ∀ e ∈ b, j < e.1) :
    lookup j (a ++ b) = lookup j a := by
  rw [lookup_append, lookup_eq_none (fun e he => (h e he).ne'), Option.or_none]

theorem lookup_append_right [BEq K] [LawfulBEq K] (h : ∀ e ∈ a, e.1 < j) :
    lookup j (a ++ b) = lookup j b := by
  rw [lookup_append, lookup_eq_none (fun e he => (h e he).ne), Option.none_or]

/-- In a sorted list the bindings below a key come first. -/
theorem Sorted.front_lt [DecidableLT K] (h : Sorted m) (k : K) :
    m.Pairwise (fun a b => decide (b.1 < k) = true → decide (a.1 < k) = true) :=
  h.imp (fun hab hb => decide_eq_true (hab.trans (of_decide_eq_true hb)))

/-- A sorted list, cut behind the bindings below `k`. -/
theorem Sorted.cut [DecidableLT K] (h : Sorted m) (k : K) :
    ∃ a b, m.takeWhile (fun e => e.1 < k) = a ∧ m.dropWhile (fun e => e.1 < k) = b ∧ m = a ++ b ∧
      (∀ e ∈ a, e.1 < k) ∧ (∀ e ∈ b, k ≤ e.1) ∧ Sorted b := by
  obtain ⟨a, b, ha, hb, -, hsplit, hlow, hhigh⟩ :=
    BinarySearch.cut_below Prod.fst (h.imp le_of_lt) k
  exact ⟨a, b, ha, hb, hsplit, hlow, hhigh, Pairwise.sublist (hb ▸ dropWhile_sublist _) h⟩

/-- A lookup is decided by the first binding at or past its key. -/
theorem lookup_eq_head [BEq K] [LawfulBEq K] [DecidableLT K] [DecidableEq K] (h : Sorted m) (k : K) :
    lookup k m = match (m.dropWhile (fun e => e.1 < k)).head? with
      | some e => if e.1 = k then some e.2 else none
      | none => none := by
  obtain ⟨front, back, -, hback, hsplit, hlt, hle, hsorted⟩ := h.cut k
  rw [hback, hsplit, lookup_append_right hlt]
  cases back with
  | nil => rfl
  | cons e rest =>
    dsimp only [head?_cons]
    rw [lookup_entry]
    by_cases hk : e.1 = k
    · rw [if_pos hk, if_pos hk.symm]
    · rw [if_neg hk, if_neg (Ne.symm hk)]
      have hlt : k < e.1 := lt_of_le_of_ne (hle e mem_cons_self) (Ne.symm hk)
      exact lookup_eq_none (fun e' he' => (hlt.trans ((sorted_cons.mp hsorted).1 e' he')).ne')

/-! ## Updates -/

/-- Binds `k` to `v`, at its place in the order. -/
def put (k : K) (v : V) : List (K × V) → List (K × V)
  | [] => [(k, v)]
  | e :: m =>
    if k < e.1 then (k, v) :: e :: m
    else if k = e.1 then (k, v) :: m
    else e :: put k v m

/-- Unbinds `k`. -/
def erase (k : K) (m : List (K × V)) : List (K × V) :=
  m.filter (fun e => e.1 ≠ k)

/-- One update: a write when it carries a value, a delete otherwise. -/
def update (m : List (K × V)) (u : K × Option V) : List (K × V) :=
  match u.2 with
  | some v => put u.1 v m
  | none => erase u.1 m

/-- A list of updates, left to right. -/
def updateAll (m : List (K × V)) (us : List (K × Option V)) : List (K × V) :=
  us.foldl update m

@[simp] theorem updateAll_nil (m : List (K × V)) : updateAll m [] = m := rfl

@[simp] theorem updateAll_cons (m : List (K × V)) (u : K × Option V)
    (us : List (K × Option V)) : updateAll m (u :: us) = updateAll (update m u) us := rfl

theorem updateAll_concat (m : List (K × V)) (us vs : List (K × Option V)) :
    updateAll m (us ++ vs) = updateAll (updateAll m us) vs :=
  foldl_append

/-- A write adds no key but its own. -/
theorem mem_put (he : e ∈ put k v m) : e = (k, v) ∨ e ∈ m := by
  induction m generalizing e with
  | nil => exact .inl (mem_singleton.mp he)
  | cons x m ih =>
    rw [put] at he
    split_ifs at he with h1 h2
    · exact mem_cons.mp he
    · rcases mem_cons.mp he with heq | hmem
      · exact .inl heq
      · exact .inr (mem_cons_of_mem _ hmem)
    · rcases mem_cons.mp he with heq | hmem
      · exact .inr (heq ▸ mem_cons_self)
      · rcases ih hmem with heq | hm
        · exact .inl heq
        · exact .inr (mem_cons_of_mem _ hm)

theorem forall_mem_put {P : K × V → Prop} (hnew : P (k, v)) (h : ∀ e ∈ m, P e) :
    ∀ e ∈ put k v m, P e := by
  intro e he
  rcases mem_put he with rfl | hm
  · exact hnew
  · exact h e hm

theorem put_ne_nil (k : K) (v : V) (m : List (K × V)) : put k v m ≠ [] := by
  cases m with
  | nil => simp [put]
  | cons x m =>
    rw [put]
    split_ifs <;> simp

/-- A write adds at most its own binding to any measure of a map. -/
theorem sum_put_le (f : K × V → Nat) (k : K) (v : V) (m : List (K × V)) :
    ((put k v m).map f).sum ≤ (m.map f).sum + f (k, v) := by
  induction m with
  | nil => simp [put]
  | cons x m ih =>
    rw [put]
    split_ifs <;> simp only [map_cons, sum_cons] <;> omega

theorem Sorted.put (h : Sorted m) (k : K) (v : V) :
    Sorted (put k v m) := by
  induction m with
  | nil => exact pairwise_singleton _ _
  | cons x m ih =>
    obtain ⟨hlt, hs⟩ := sorted_cons.mp h
    rw [SortedMap.put]
    split_ifs with h1 h2
    · exact sorted_cons.mpr ⟨forall_mem_cons.mpr ⟨h1, fun e he => h1.trans (hlt e he)⟩, h⟩
    · exact sorted_cons.mpr ⟨fun e he => h2 ▸ hlt e he, hs⟩
    · exact sorted_cons.mpr ⟨forall_mem_put (lt_of_le_of_ne (not_lt.mp h1) (Ne.symm h2)) hlt, ih hs⟩

theorem Sorted.update (h : Sorted m) (u : K × Option V) :
    Sorted (update m u) := by
  rw [SortedMap.update]
  cases u.2 with
  | some v => exact h.put u.1 v
  | none => exact h.filter _

theorem Sorted.updateAll (h : Sorted m) (us : List (K × Option V)) :
    Sorted (updateAll m us) :=
  foldlRecOn us _ h (fun _ hm u _ => hm.update u)

/-- Updates add no key but their own. -/
theorem mem_update (h : e ∈ update m u) : u = (e.1, some e.2) ∨ e ∈ m := by
  obtain ⟨k, v⟩ := u
  cases v with
  | some =>
    rcases mem_put h with rfl | hm
    · exact .inl rfl
    · exact .inr hm
  | none => exact .inr (mem_filter.mp h).1

/-- A binding of an updated map was written by an update or was there before. -/
theorem mem_updateAll {e : K × V} :
    e ∈ updateAll m us → (e.1, some e.2) ∈ us ∨ e ∈ m := by
  refine foldlRecOn us _ (motive := fun m' => e ∈ m' → _) .inr (fun m' ih u hu h => ?_)
  rcases mem_update h with rfl | hm
  · exact .inl hu
  · exact ih hm

/-! ## Lookup after updates -/

theorem lookup_put [BEq K] [LawfulBEq K] (j k : K) (v : V) (m : List (K × V)) :
    lookup j (put k v m) = if j = k then some v else lookup j m := by
  induction m with
  | nil => exact lookup_entry j (k, v) []
  | cons x m ih =>
    rw [put]
    by_cases hlt : k < x.1
    · rw [if_pos hlt]
      exact lookup_entry j (k, v) _
    · rw [if_neg hlt, lookup_entry j x]
      by_cases hk : k = x.1
      · rw [if_pos hk, lookup_entry, ← hk]
        split_ifs
        · rfl
        · rfl
      · rw [if_neg hk, lookup_entry, ih]
        split_ifs with hx hj
        · exact absurd (hj.symm.trans hx) hk
        · rfl
        · rfl
        · rfl

theorem lookup_filter [BEq K] [LawfulBEq K] (p : K → Bool) (j : K) (m : List (K × V)) :
    lookup j (m.filter (fun e => p e.1)) = if p j then lookup j m else none := by
  split_ifs with hj
  · induction m with
    | nil => rfl
    | cons x m ih =>
      by_cases hx : j = x.1
      · rw [filter_cons_of_pos (by rw [← hx]; exact hj), lookup_entry, lookup_entry, if_pos hx,
          if_pos hx]
      · rw [lookup_entry, if_neg hx, ← ih, filter_cons]
        split_ifs
        · rw [lookup_entry, if_neg hx]
        · rfl
  · refine lookup_eq_none (fun e he heq => hj ?_)
    rw [← heq]
    exact (mem_filter.mp he).2

theorem lookup_erase [BEq K] [LawfulBEq K] (j k : K) (m : List (K × V)) :
    lookup j (erase k m) = if j = k then none else lookup j m := by
  rw [erase, lookup_filter (fun key => key ≠ k)]
  by_cases hj : j = k
  · simp [hj]
  · simp [hj]

theorem lookup_update [BEq K] [LawfulBEq K] (j : K) (m : List (K × V)) (u : K × Option V) :
    lookup j (update m u) = if j = u.1 then u.2 else lookup j m := by
  rw [update]
  cases hu : u.2 with
  | some v => exact lookup_put j u.1 v m
  | none => exact lookup_erase j u.1 m

theorem erase_eq_self (h : ∀ e ∈ m, e.1 ≠ k) : erase k m = m :=
  filter_eq_self.mpr (fun e he => decide_eq_true (h e he))

theorem erase_of_lookup_none [BEq K] [LawfulBEq K] (hk : lookup k m = none) : erase k m = m := by
  refine erase_eq_self (fun e he heq => ?_)
  have hsome := lookup_isSome.mpr ⟨e, he, heq⟩
  rw [hk] at hsome
  cases hsome

/-- An update is seen by a part of the keys when its key is one of them. -/
theorem filter_update (h : Sorted m) (p : K → Bool) (u : K × Option V) :
    (update m u).filter (fun e => p e.1)
      = if p u.1 then update (m.filter (fun e => p e.1)) u else m.filter (fun e => p e.1) := by
  refine ext_lookup ((h.update u).filter _) ?_ (fun j => ?_)
  · split_ifs
    · exact Sorted.update (h.filter _) u
    · exact h.filter _
  · rw [lookup_filter, lookup_update]
    by_cases hj : j = u.1
    · rw [if_pos hj, hj]
      split_ifs with hp
      · rw [lookup_update, if_pos rfl]
      · rw [lookup_filter, if_neg hp]
    · rw [if_neg hj]
      split_ifs with hp hq
      · rw [lookup_update, if_neg hj, lookup_filter, if_pos hp]
      · rw [lookup_filter, if_pos hp]
      · rw [lookup_update, if_neg hj, lookup_filter, if_neg hp]
      · rw [lookup_filter, if_neg hp]

/-- An update of a map is an update of its values' image. -/
theorem map_update (f : V → W) (m : List (K × V)) (u : K × Option V) :
    (update m u).map (fun e => (e.1, f e.2))
      = update (m.map (fun e => (e.1, f e.2))) (u.1, u.2.map f) := by
  obtain ⟨k, v⟩ := u
  cases v with
  | some v =>
    show (put k v m).map (fun e => (e.1, f e.2)) = put k (f v) _
    induction m with
    | nil => rfl
    | cons x m ih =>
      rw [put, map_cons, put]
      split_ifs
      · rfl
      · rfl
      · rw [map_cons, ih]
  | none =>
    show (erase k m).map (fun e => (e.1, f e.2)) = erase k _
    rw [erase, erase, filter_map]
    rfl

/-- Writing one key and deleting another commute. -/
theorem erase_put_comm (h : Sorted m) (hjk : j ≠ k) (v : V) :
    erase j (put k v m) = put k v (erase j m) := by
  refine ext_lookup ((h.put k v).filter _) (Sorted.put (h.filter _) k v) (fun i => ?_)
  rw [lookup_erase, lookup_put, lookup_put, lookup_erase]
  split_ifs with hj hk
  · exact absurd (hj.symm.trans hk) hjk
  · rfl
  · rfl
  · rfl

/-- The last update of `j` in a list of updates, if there is one. -/
def lastUpdate (us : List (K × Option V)) (j : K) : Option (Option V) :=
  (us.filter (fun u => u.1 = j)).getLast?.map Prod.snd

/-- **LAST UPDATE WINS**: after a list of updates a key reads its last one, and what it
    read before when there is none. -/
theorem lookup_updateAll [BEq K] [LawfulBEq K] (j : K) (m : List (K × V))
    (us : List (K × Option V)) :
    lookup j (updateAll m us) = (lastUpdate us j).getD (lookup j m) := by
  induction us using List.reverseRec with
  | nil => rfl
  | append_singleton _ u ih =>
    rw [updateAll_concat, updateAll_cons, updateAll_nil, lookup_update]
    rw [lastUpdate] at ih ⊢
    rw [filter_append, getLast?_append]
    by_cases hj : u.1 = j
    · rw [if_pos hj.symm, filter_cons_of_pos (by simpa using hj)]
      rfl
    · rw [if_neg (Ne.symm hj), filter_cons_of_neg (by simpa using hj), ih]
      rfl

/-- Updates made twice are made once. -/
theorem updateAll_twice [BEq K] [LawfulBEq K] (h : Sorted m)
    (us : List (K × Option V)) : updateAll (updateAll m us) us = updateAll m us := by
  refine ext_lookup ((h.updateAll us).updateAll us) (h.updateAll us) (fun j => ?_)
  rw [lookup_updateAll, lookup_updateAll]
  cases lastUpdate us j with
  | none => rfl
  | some => rfl

/-- When the updates are themselves a sorted map, the last update of a key is its binding. -/
theorem lastUpdate_map_of_sorted [BEq K] [LawfulBEq K] {us : List (K × W)} (h : Sorted us)
    (f : W → Option V) (j : K) :
    lastUpdate (us.map (fun e => (e.1, f e.2))) j = (lookup j us).map f := by
  rw [lastUpdate]
  induction us with
  | nil => rfl
  | cons e us ih =>
    obtain ⟨k, w⟩ := e
    obtain ⟨hlt, hs⟩ := sorted_cons.mp h
    by_cases hj : k = j
    · subst hj
      have hnone : (us.map (fun e => (e.1, f e.2))).filter (fun u => u.1 = k) = [] := by
        refine filter_eq_nil_iff.mpr (fun u hu => ?_)
        obtain ⟨e, he, rfl⟩ := mem_map.mp hu
        simpa using (hlt e he).ne'
      rw [map_cons, filter_cons_of_pos (by simp), hnone, lookup_entry, if_pos rfl]
      rfl
    · rw [map_cons, filter_cons_of_neg (by simpa using hj), ih hs, lookup_entry,
        if_neg (Ne.symm hj)]

/-! ## Sets of keys -/

/-- The distinct keys of a list, in order. -/
def keySet (keys : List K) : List K :=
  (updateAll [] (keys.map (fun k => (k, some ())))).map Prod.fst

theorem keySet_pairwise (keys : List K) : (keySet keys).Pairwise (· < ·) :=
  pairwise_map.mpr (Sorted.updateAll sorted_nil _)

theorem mem_keySet {keys : List K} : k ∈ keySet keys ↔ k ∈ keys := by
  rw [keySet, mem_map, ← lookup_isSome]
  induction keys using List.reverseRec with
  | nil => simp
  | append_singleton _ _ ih =>
    rw [map_append, map_singleton, updateAll_concat, updateAll_cons, updateAll_nil, lookup_update,
      mem_append, mem_singleton]
    split_ifs with hk
    · exact iff_of_true rfl (.inr hk)
    · rw [ih, or_iff_left hk]

/-! ## Cutting a map and its updates at a key -/

theorem put_append_left (v : V) (h : ∀ e ∈ b, k < e.1) :
    put k v (a ++ b) = put k v a ++ b := by
  induction a with
  | nil =>
    cases b with
    | nil => rfl
    | cons x b =>
      show put k v (x :: b) = (k, v) :: x :: b
      rw [put]
      rw [if_pos (h x mem_cons_self)]
  | cons x a ih =>
    rw [cons_append, put, put, ih]
    split_ifs <;> rfl

theorem put_append_right (v : V) (h : ∀ e ∈ a, e.1 < k) :
    put k v (a ++ b) = a ++ put k v b := by
  induction a with
  | nil => rfl
  | cons x a ih =>
    rw [forall_mem_cons] at h
    have hx : x.1 < k := h.1
    rw [cons_append]
    show (if k < x.1 then _ else if k = x.1 then _ else x :: put k v (a ++ b)) = _
    rw [if_neg hx.not_gt, if_neg hx.ne', ih h.2]
    rfl

theorem update_append_left (h : ∀ e ∈ b, u.1 < e.1) :
    update (a ++ b) u = update a u ++ b := by
  simp only [update]
  cases u.2 with
  | some v => exact put_append_left v h
  | none =>
    show erase u.1 (a ++ b) = erase u.1 a ++ b
    rw [show erase u.1 (a ++ b) = erase u.1 a ++ erase u.1 b from filter_append a b,
      erase_eq_self (fun e he => (h e he).ne')]

theorem update_append_right (h : ∀ e ∈ a, e.1 < u.1) :
    update (a ++ b) u = a ++ update b u := by
  simp only [update]
  cases u.2 with
  | some v => exact put_append_right v h
  | none =>
    show erase u.1 (a ++ b) = a ++ erase u.1 b
    rw [show erase u.1 (a ++ b) = erase u.1 a ++ erase u.1 b from filter_append a b,
      erase_eq_self (fun e he => (h e he).ne)]

/-- An update right behind another of the same key hides it. -/
theorem updateAll_overwrite (h : Sorted m) (k : K) (v w : Option V)
    (us : List (K × Option V)) :
    updateAll m ((k, v) :: (k, w) :: us) = updateAll m ((k, w) :: us) := by
  rw [updateAll_cons, updateAll_cons, updateAll_cons]
  refine congrArg (fun m => updateAll m us) (ext_lookup ((h.update _).update _) (h.update _) ?_)
  intro j
  rw [lookup_update, lookup_update, lookup_update]
  by_cases hj : j = k
  · rw [if_pos hj, if_pos hj]
  · rw [if_neg hj, if_neg hj, if_neg hj]

/-- An update below or at the whole of a map acts on its head. -/
theorem update_front [DecidableEq K] (h : Sorted m)
    (hle : ∀ e ∈ m, k ≤ e.1) (v : Option V) :
    update m (k, v) = (v.map (fun v => (k, v))).toList ++
      (if m.head?.any (fun e => e.1 = k) then m.tail else m) := by
  cases m with
  | nil => cases v <;> rfl
  | cons e m =>
    obtain ⟨hlt, _⟩ := sorted_cons.mp h
    have hkeep : ∀ e' ∈ m, e'.1 ≠ k := fun e' he' =>
      ((hle e mem_cons_self).trans_lt (hlt e' he')).ne'
    by_cases hk : e.1 = k
    · have herase : erase k (e :: m) = m := by
        rw [erase, filter_cons_of_neg (by simpa using hk)]
        exact erase_eq_self hkeep
      cases v with
      | none => simpa [update, hk] using herase
      | some => simp [update, put, hk]
    · have hlt' : k < e.1 := lt_of_le_of_ne (hle e mem_cons_self) (Ne.symm hk)
      have herase : erase k (e :: m) = e :: m := erase_eq_self (fun e' he' => by
        rcases mem_cons.mp he' with rfl | hm
        · exact hk
        · exact hkeep e' hm)
      cases v with
      | none => simpa [update, hk] using herase
      | some => simp [update, put, hk, hlt']

/-- How many bindings an update adds. -/
theorem length_update [BEq K] [LawfulBEq K] (h : Sorted m)
    (u : K × Option V) :
    ((update m u).length : Int) = m.length + (if u.2.isSome then 1 else 0)
      - (if (lookup u.1 m).isSome then 1 else 0) := by
  obtain ⟨k, v⟩ := u
  obtain ⟨before, after, -, hback, hsplit, hbefore, hafter, hsorted⟩ := h.cut k
  rw [lookup_eq_head h, hback, hsplit, update_append_right hbefore, update_front hsorted hafter]
  cases after with
  | nil => cases v <;> simp
  | cons e rest => by_cases hk : e.1 = k <;> cases v <;> simp [hk] <;> omega

theorem updateAll_append_left
    (h : ∀ u ∈ us, ∀ e ∈ b, u.1 < e.1) :
    ∀ a : List (K × V), updateAll (a ++ b) us = updateAll a us ++ b := by
  induction us with
  | nil => intro a; rfl
  | cons u us ih =>
    intro a
    rw [updateAll_cons, update_append_left (h u mem_cons_self),
      ih (fun u' hu' => h u' (mem_cons_of_mem _ hu'))]
    rfl

theorem updateAll_append_right
    (h : ∀ u ∈ us, ∀ e ∈ a, e.1 < u.1) :
    ∀ b : List (K × V), updateAll (a ++ b) us = a ++ updateAll b us := by
  induction us with
  | nil => intro b; rfl
  | cons u us ih =>
    intro b
    rw [updateAll_cons, update_append_right (h u mem_cons_self),
      ih (fun u' hu' => h u' (mem_cons_of_mem _ hu'))]
    rfl

/-- **CUT**: a map and its updates, both cut at `k`, update half by half. -/
theorem updateAll_append (k : K) (ha : ∀ e ∈ a, e.1 < k) (hb : ∀ e ∈ b, k ≤ e.1)
    (hus : ∀ u ∈ us, u.1 < k) (hvs : ∀ u ∈ vs, k ≤ u.1) :
    updateAll (a ++ b) (us ++ vs) = updateAll a us ++ updateAll b vs := by
  rw [updateAll_concat, updateAll_append_left (fun u hu e he => (hus u hu).trans_le (hb e he))]
  refine updateAll_append_right (fun u hu e he => ?_) b
  rcases mem_updateAll he with hu' | hm
  · exact (hus _ hu').trans_le (hvs u hu)
  · exact (ha e hm).trans_le (hvs u hu)

/-- Binding the bindings of a sorted map one after the other gives it back. -/
theorem foldl_put {rest : List (K × V)} (h : Sorted (m ++ rest)) :
    rest.foldl (fun m e => put e.1 e.2 m) m = m ++ rest := by
  induction rest generalizing m with
  | nil => exact (append_nil m).symm
  | cons e rest ih =>
    have hput : put e.1 e.2 m = m ++ [e] := by
      have hlt := (sorted_append.mp h).2.2
      have hright := put_append_right e.2 (b := []) (fun x hx => hlt x hx e mem_cons_self)
      rwa [append_nil] at hright
    rw [foldl_cons, hput, ih (by rwa [append_assoc]), append_assoc]
    rfl

/-! ## Sorting the updates -/

/-- The order a batch of updates is sorted by. -/
def keyLe (u v : K × W) : Prop := u.1 ≤ v.1

instance : DecidableRel (keyLe : K × W → K × W → Prop) :=
  fun u v => inferInstanceAs (Decidable (u.1 ≤ v.1))

instance : Std.Total (keyLe : K × W → K × W → Prop) := ⟨fun u v => le_total u.1 v.1⟩

instance : IsTrans (K × W) keyLe := ⟨fun _ _ _ h1 h2 => le_trans h1 h2⟩

/-- A stable sort keeps the updates of one key in arrival order. -/
theorem filter_insertionSort (us : List (K × W)) (j : K) :
    (us.insertionSort keyLe).filter (fun u => u.1 = j) = us.filter (fun u => u.1 = j) := by
  have hpair : (us.filter (fun u => u.1 = j)).Pairwise keyLe := by
    refine pairwise_filter.mpr (pairwise_of_forall (fun x y hx hy => ?_))
    show x.1 ≤ y.1
    rw [of_decide_eq_true hx, of_decide_eq_true hy]
  have hsub : (us.filter (fun u => u.1 = j)).Sublist (us.insertionSort keyLe) :=
    sublist_insertionSort hpair filter_sublist
  have hsub' : (us.filter (fun u => u.1 = j)).Sublist
      ((us.insertionSort keyLe).filter (fun u => u.1 = j)) := by
    have h := hsub.filter (fun u => decide (u.1 = j))
    rwa [filter_filter, show (fun u : K × W => decide (u.1 = j) && decide (u.1 = j))
      = (fun u => decide (u.1 = j)) from funext (fun u => Bool.and_self _)] at h
  exact (hsub'.eq_of_length (((perm_insertionSort keyLe us).filter _).length_eq).symm).symm

/-- **SORTED BATCH**: applying the updates in key order is applying them in arrival
    order. -/
theorem updateAll_insertionSort (h : Sorted m)
    (us : List (K × Option V)) : updateAll m (us.insertionSort keyLe) = updateAll m us :=
  ext_lookup (h.updateAll _) (h.updateAll us) (fun j => by
    rw [lookup_updateAll, lookup_updateAll, lastUpdate, lastUpdate, filter_insertionSort])

/-! ## Related maps -/

section Related

variable {R : V → W → Prop}

/-- Two updates of the same key that both delete it or write related values. -/
def RelatedUpdate (R : V → W → Prop) (u : K × Option V) (w : K × Option W) : Prop :=
  u.1 = w.1 ∧ Option.Rel R u.2 w.2

theorem Related.put (h : Related R m n) (k : K)
    {w : W} (hv : R v w) : Related R (SortedMap.put k v m) (SortedMap.put k w n) := by
  induction h with
  | nil => exact Forall₂.cons ⟨rfl, hv⟩ Forall₂.nil
  | @cons a b m n hab hm ih =>
    rw [SortedMap.put, SortedMap.put, hab.1]
    split_ifs with h1 h2
    · exact Forall₂.cons ⟨rfl, hv⟩ (Forall₂.cons hab hm)
    · exact Forall₂.cons ⟨rfl, hv⟩ hm
    · exact Forall₂.cons hab ih

theorem Related.erase (h : Related R m n) (k : K) :
    Related R (SortedMap.erase k m) (SortedMap.erase k n) :=
  h.filter (fun key => key ≠ k)

theorem Related.update (h : Related R m n)
    {w : K × Option W} (hu : RelatedUpdate R u w) :
    Related R (SortedMap.update m u) (SortedMap.update n w) := by
  obtain ⟨k, v⟩ := u
  obtain ⟨k', v'⟩ := w
  obtain ⟨rfl, hrel⟩ := hu
  cases hrel with
  | some hv => exact h.put k hv
  | none => exact h.erase k

/-- **RELATED UPDATES**: related updates keep maps related. -/
theorem Related.updateAll {ws : List (K × Option W)}
    (hus : Forall₂ (RelatedUpdate R) us ws) (h : Related R m n) :
    Related R (SortedMap.updateAll m us) (SortedMap.updateAll n ws) := by
  induction hus generalizing m n with
  | nil => exact h
  | cons hu _ ih => exact ih (h.update hu)

theorem Related.sorted (h : Related R m n)
    (hs : Sorted m) : Sorted n := by
  have hpair : (m.map Prod.fst).Pairwise (· < ·) := pairwise_map.mpr hs
  rw [h.keys] at hpair
  exact pairwise_map.mp hpair

end Related

end SortedMap
