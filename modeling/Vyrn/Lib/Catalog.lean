import Vyrn.Lib.SortedMap

/-!
# Catalogs: a map kept in the entries of another

A catalog writes each of its names as an entry of an ordered map, under a key that is read back to
the name. Loading decodes the entries one by one and puts them together. Where decoding is exact
(`Exact`), the loaded map is described name by name (**`load_iff`**), and writing one more entry is
one more name (**`load_put`**).
-/

namespace Catalog

open SortedMap List

variable {K N V W E A B : Type} [LinearOrder N] {entries : List (N × W)} {f : A → Except E B}
  {xs : List A} {n : N} {w : W}

/-- Decodes the entries and puts them together by name. -/
def load (decode : K × V → Except E (N × W)) (entries : List (K × V)) : Except E (List (N × W)) :=
  do
    let named ← entries.mapM decode
    return named.foldl (fun m e => put e.1 e.2 m) []

/-- A list is decoded when each of its members is. -/
theorem mapM_eq_ok {ys : List B} : xs.mapM f = .ok ys ↔ Forall₂ (fun x y => f x = .ok y) xs ys := by
  induction xs generalizing ys with
  | nil =>
    rw [mapM_nil, forall₂_nil_left_iff]
    constructor
    · rintro ⟨⟩
      rfl
    · rintro rfl
      rfl
  | cons x xs ih =>
    rw [mapM_cons, forall₂_cons_left_iff]
    simp only [← ih]
    cases f x with
    | error => simp [bind, Except.bind]
    | ok =>
      cases xs.mapM f with
      | error => simp [bind, Except.bind]
      | ok => simp [bind, Except.bind, pure, Except.pure, eq_comm]

theorem mapM_mem {ys : List B} (h : xs.mapM f = .ok ys) :
    (∀ x ∈ xs, ∃ y ∈ ys, f x = .ok y) ∧ ∀ y ∈ ys, ∃ x ∈ xs, f x = .ok y := by
  have hall := mapM_eq_ok.mp h
  exact ⟨exists_of_mem_forall₂ hall, exists_of_mem_forall₂ (R := fun y x => f x = .ok y) hall.flip⟩

theorem mapM_total (h : ∀ x ∈ xs, ∃ y, f x = .ok y) : ∃ ys, xs.mapM f = .ok ys := by
  induction xs with
  | nil => exact ⟨[], rfl⟩
  | cons x xs ih =>
    rw [forall_mem_cons] at h
    obtain ⟨y, hy⟩ := h.1
    obtain ⟨ys, hys⟩ := ih h.2
    exact ⟨y :: ys, mapM_eq_ok.mpr (.cons hy (mapM_eq_ok.mp hys))⟩

/-! ## Putting entries together -/

theorem lookup_foldl_put_of_not [BEq N] [LawfulBEq N] {m : List (N × W)}
    (hne : ∀ e ∈ entries, e.1 ≠ n) :
    lookup n (entries.foldl (fun m e => put e.1 e.2 m) m) = lookup n m := by
  refine foldlRecOn entries _ (motive := fun m' => lookup n m' = lookup n m) rfl
    (fun m' ih e he => ?_)
  rw [lookup_put, if_neg (hne e he).symm, ih]

theorem lookup_foldl_put [BEq N] [LawfulBEq N] (hunique : ∀ e ∈ entries, e.1 = n → e.2 = w) :
    ∀ {m : List (N × W)}, (n, w) ∈ entries ∨ lookup n m = some w →
      lookup n (entries.foldl (fun m e => put e.1 e.2 m) m) = some w := by
  induction entries with
  | nil => exact fun h => h.resolve_left not_mem_nil
  | cons e entries ih =>
    intro m h
    rw [forall_mem_cons] at hunique
    refine ih hunique.2 ?_
    by_cases he : e.1 = n
    · rw [lookup_put, if_pos he.symm, hunique.1 he]
      exact .inr rfl
    · rw [lookup_put, if_neg (fun heq => he heq.symm)]
      rcases h with h | h
      · rcases mem_cons.mp h with rfl | h
        · exact absurd rfl he
        · exact .inl h
      · exact .inr h

/-! ## Exact decoding -/

/-- Among the entries under some keys, one decodes exactly when it is what writing the name with the
    value gives. -/
structure Exact (under : K → Prop) (decode : K × V → Except E (N × W)) (encode : N → K)
    (valid : N → Prop) (value : V → Option W) : Prop where
  decode_iff : ∀ {e : K × V} {n : N} {w : W}, under e.1 →
    (decode e = .ok (n, w) ↔ e.1 = encode n ∧ valid n ∧ value e.2 = some w)
  encode_under : ∀ {n : N}, valid n → under (encode n)
  encode_inj : ∀ {n n' : N}, valid n → valid n' → encode n = encode n' → n = n'

section Load

variable {under : K → Prop} {decode : K × V → Except E (N × W)} {encode : N → K}
  {valid : N → Prop} {value : V → Option W} {entries : List (K × V)} {loaded : List (N × W)}

theorem load_ok (h : load decode entries = .ok loaded) :
    ∃ named, entries.mapM decode = .ok named ∧
      loaded = named.foldl (fun m e => put e.1 e.2 m) [] := by
  rw [load] at h
  cases hmap : entries.mapM decode with
  | error =>
    rw [hmap] at h
    cases h
  | ok named =>
    rw [hmap] at h
    exact ⟨named, rfl, (Except.ok.inj h).symm⟩

theorem load_sorted (h : load decode entries = .ok loaded) : Sorted loaded := by
  obtain ⟨_, _, rfl⟩ := load_ok h
  exact foldlRecOn _ _ sorted_nil (fun _ hm e _ => hm.put e.1 e.2)

variable [BEq N] [LawfulBEq N] [LinearOrder K] [BEq K] [LawfulBEq K]

section

variable (hexact : Exact under decode encode valid value) (hs : Sorted entries)
  (hunder : ∀ e ∈ entries, under e.1)
include hexact hs hunder

/-- **LOOKUP**: a loaded name is the entry under its key, and every loaded name is valid. -/
theorem load_lookup (h : load decode entries = .ok loaded) :
    (∀ n, valid n → lookup n loaded = (lookup (encode n) entries).bind value) ∧
      ∀ n, (lookup n loaded).isSome = true → valid n := by
  obtain ⟨named, hmap, rfl⟩ := load_ok h
  obtain ⟨hfrom, hto⟩ := mapM_mem hmap
  have hsource : ∀ x ∈ named, ∃ e ∈ entries, e.1 = encode x.1 ∧ valid x.1 ∧ value e.2 = some x.2 := by
    rintro ⟨n, w⟩ hx
    obtain ⟨e, he, hdecode⟩ := hto _ hx
    exact ⟨e, he, (hexact.decode_iff (hunder e he)).mp hdecode⟩
  constructor
  · intro n hn
    cases hlook : lookup (encode n) entries with
    | none =>
      rw [Option.bind_none, lookup_foldl_put_of_not]
      · rfl
      · rintro x hx rfl
        obtain ⟨e, he, hkey, _⟩ := hsource x hx
        rw [← hkey, (lookup_eq_some hs).mpr he] at hlook
        cases hlook
    | some =>
      have hmem := (lookup_eq_some hs).mp hlook
      obtain ⟨⟨n', w⟩, hin, hdecode⟩ := hfrom _ hmem
      obtain ⟨hkey, hn', hvalue⟩ := (hexact.decode_iff (hunder _ hmem)).mp hdecode
      obtain rfl := hexact.encode_inj hn hn' hkey
      rw [Option.bind_some, hvalue]
      refine lookup_foldl_put ?_ (.inl hin)
      rintro x hx rfl
      obtain ⟨e, he, hkey', _, hvalue'⟩ := hsource x hx
      have hsame := (lookup_eq_some hs).mpr he
      rw [hkey', hlook] at hsame
      rw [← Option.some.inj hsame] at hvalue'
      exact Option.some.inj (hvalue'.symm.trans hvalue)
  · intro n hsome
    by_contra hn
    rw [lookup_foldl_put_of_not] at hsome
    · cases hsome
    · rintro x hx rfl
      obtain ⟨_, _, _, hvalid, _⟩ := hsource x hx
      exact hn hvalid

/-- **CATALOG**: what loading gives, said name by name. -/
theorem load_iff :
    load decode entries = .ok loaded ↔
      (∀ e ∈ entries, ∃ n w, e.1 = encode n ∧ valid n ∧ value e.2 = some w) ∧ Sorted loaded ∧
        (∀ n, valid n → lookup n loaded = (lookup (encode n) entries).bind value) ∧
        ∀ n, (lookup n loaded).isSome = true → valid n := by
  constructor
  · intro h
    obtain ⟨named, hmap, _⟩ := load_ok h
    refine ⟨fun e he => ?_, load_sorted h, load_lookup hexact hs hunder h⟩
    obtain ⟨⟨n, w⟩, _, hdecode⟩ := (mapM_mem hmap).1 e he
    exact ⟨n, w, (hexact.decode_iff (hunder e he)).mp hdecode⟩
  · rintro ⟨hwritten, hsorted, hlook, hvalid⟩
    have hdecoded : ∀ e ∈ entries, ∃ x, decode e = .ok x := by
      intro e he
      obtain ⟨n, w, hwrite⟩ := hwritten e he
      exact ⟨(n, w), (hexact.decode_iff (hunder e he)).mpr hwrite⟩
    obtain ⟨named, hmap⟩ := mapM_total hdecoded
    obtain ⟨other, h⟩ : ∃ other, load decode entries = .ok other :=
      ⟨_, by rw [load, hmap]; rfl⟩
    obtain ⟨hlook', hvalid'⟩ := load_lookup hexact hs hunder h
    rw [h]
    refine congrArg Except.ok (ext_lookup (load_sorted h) hsorted (fun n => ?_))
    by_cases hn : valid n
    · rw [hlook n hn, hlook' n hn]
    · -- a name that is not valid is in neither map
      have hno : ∀ {m : List (N × W)}, ((lookup n m).isSome = true → valid n) →
          lookup n m = none := fun hm =>
        Option.not_isSome_iff_eq_none.mp (fun hsome => hn (hm hsome))
      rw [hno (hvalid n), hno (hvalid' n)]

/-- **WRITE**: one more entry is one more name. -/
theorem load_put (h : load decode entries = .ok loaded) (hn : valid n) {v : V}
    (hv : value v = some w) : load decode (put (encode n) v entries) = .ok (put n w loaded) := by
  obtain ⟨hwritten, hsorted, hlook, hvalid⟩ := (load_iff hexact hs hunder).mp h
  have hall : ∀ e ∈ put (encode n) v entries,
      ∃ n w, e.1 = encode n ∧ valid n ∧ value e.2 = some w :=
    forall_mem_put ⟨n, w, rfl, hn, hv⟩ hwritten
  have hunder' : ∀ e ∈ put (encode n) v entries, under e.1 := by
    intro e he
    obtain ⟨n', _, hkey, hn', _⟩ := hall e he
    exact hkey ▸ hexact.encode_under hn'
  refine (load_iff hexact (hs.put _ _) hunder').mpr
    ⟨hall, hsorted.put n w, fun j hj => ?_, fun j hsome => ?_⟩
  · rw [lookup_put, lookup_put]
    by_cases heq : j = n
    · rw [if_pos heq, heq, if_pos rfl]
      exact hv.symm
    · rw [if_neg heq, if_neg (fun hkey => heq (hexact.encode_inj hj hn hkey)), hlook j hj]
  · rw [lookup_put] at hsome
    split_ifs at hsome with heq
    · exact heq ▸ hn
    · exact hvalid j hsome

end

end Load

end Catalog
