import Mathlib.Data.List.Induction

/-!
# Version histories

A history is the list of a thing's versions, oldest first, each with its revision and a value
or `none` for a deletion. Pushing a version at the newest revision replaces it, trimming drops
versions that no read at or above a floor can see. A history need not be complete: `Covers` says
what it has to know when the current value and the revision that wrote it are known from elsewhere,
and writes (`Covers.write`, `Covers.overwrite`, `Covers.keep`) and collections (`Covers.trim`,
`Covers.clear`) keep it.
-/

namespace History

open List

variable {V W : Type} {revision floor : Nat} {version : Nat × Option V} (f : V → W)
  (history : List (Nat × Option V))

/-- The value the newest version at or below `revision` holds. -/
def valueAt (history : List (Nat × Option V)) (revision : Nat) : Option V :=
  (history.reverse.find? (fun version => version.1 ≤ revision)).bind Prod.snd

/-- Adds a version, over the newest one when that has the same revision. -/
def push (revision : Nat) (history : List (Nat × Option V)) (value : Option V) :
    List (Nat × Option V) :=
  if history.getLast?.any (fun version => version.1 == revision) then
    history.dropLast ++ [(revision, value)]
  else history ++ [(revision, value)]

/-- The last position whose version is at or below `floor`, or the first one. -/
def keepFrom (floor : Nat) (history : List (Nat × Option V)) : Nat :=
  ((history.reverse.findIdx? (fun version => version.1 ≤ floor)).map
    (fun position => history.length - 1 - position)).getD 0

theorem valueAt_concat (version : Nat × Option V) (revision : Nat) :
    valueAt (history ++ [version]) revision
      = if version.1 ≤ revision then version.2 else valueAt history revision := by
  rw [valueAt, reverse_append, reverse_singleton, singleton_append, find?_cons]
  by_cases h : version.1 ≤ revision
  · simp [h]
  · simp [h, valueAt]

/-- A version above the revision is not seen. -/
theorem valueAt_concat_of_lt (h : revision < version.1) :
    valueAt (history ++ [version]) revision = valueAt history revision := by
  rw [valueAt_concat, if_neg (Nat.not_le.mpr h)]

theorem valueAt_of_last {history : List (Nat × Option V)} (hlast : history.getLast? = some version)
    (h : version.1 ≤ revision) : valueAt history revision = version.2 := by
  obtain ⟨front, rfl⟩ := getLast?_eq_some_iff.mp hlast
  rw [valueAt_concat, if_pos h]

theorem push_of_lt {history : List (Nat × Option V)}
    (h : ∀ version ∈ history.getLast?, version.1 < revision) (value : Option V) :
    push revision history value = history ++ [(revision, value)] := by
  rw [push, if_neg]
  cases hlast : history.getLast? with
  | none => simp
  | some version => simpa using Nat.ne_of_lt (h version hlast)

/-- A push keeps versions of before and ends with its own. -/
theorem push_eq (revision : Nat) (history : List (Nat × Option V)) (value : Option V) :
    ∃ kept, kept ⊆ history ∧ push revision history value = kept ++ [(revision, value)] := by
  rw [push]
  split_ifs
  · exact ⟨_, dropLast_subset _, rfl⟩
  · exact ⟨_, List.Subset.refl _, rfl⟩

theorem foldl_push_same (values : List (Option V)) :
    ∀ value, values.foldl (push revision) (history ++ [(revision, value)])
      = history ++ [(revision, (value :: values).getLast (cons_ne_nil _ _))] := by
  induction values with
  | nil => intro value; rfl
  | cons next values ih =>
    intro value
    rw [foldl_cons, push, if_pos (by simp), dropLast_concat, ih next, getLast_cons (cons_ne_nil _ _)]

theorem foldl_push_eq {values : List (Option V)} (h : values ≠ [])
    (history : List (Nat × Option V)) :
    ∃ kept, kept ⊆ history ∧
      ∃ value, values.foldl (push revision) history = kept ++ [(revision, value)] := by
  obtain ⟨value, values, rfl⟩ := exists_cons_of_ne_nil h
  obtain ⟨kept, hkept, heq⟩ := push_eq revision history value
  exact ⟨kept, hkept, _, by rw [foldl_cons, heq, foldl_push_same]⟩

/-! ## Values seen through a function -/

/-- The same history with its values mapped. -/
def mapValues {W : Type} (f : V → W) (history : List (Nat × Option V)) :
    List (Nat × Option W) :=
  history.map (fun version => (version.1, version.2.map f))

theorem mapValues_append (a b : List (Nat × Option V)) :
    mapValues f (a ++ b) = mapValues f a ++ mapValues f b := map_append

theorem getLast?_mapValues :
    (mapValues f history).getLast?
      = history.getLast?.map (fun version => (version.1, version.2.map f)) := getLast?_map

theorem valueAt_mapValues (revision : Nat) :
    valueAt (mapValues f history) revision = (valueAt history revision).map f := by
  induction history using reverseRecOn with
  | nil => rfl
  | append_singleton _ version ih =>
    have hone : mapValues f [version] = [(version.1, version.2.map f)] := rfl
    rw [mapValues_append, hone, valueAt_concat, valueAt_concat, ih]
    split_ifs
    · rfl
    · rfl

theorem push_mapValues (revision : Nat) (value : Option V) :
    mapValues f (push revision history value) = push revision (mapValues f history) (value.map f) := by
  have hone : mapValues f [(revision, value)] = [(revision, value.map f)] := rfl
  have hany : (mapValues f history).getLast?.any (fun version => version.1 == revision)
      = history.getLast?.any (fun version => version.1 == revision) := by
    rw [getLast?_mapValues]
    cases history.getLast? with
    | none => rfl
    | some => rfl
  rw [push, push, hany]
  split_ifs
  · rw [mapValues_append, hone, mapValues, map_dropLast]
    rfl
  · rw [mapValues_append, hone]

/-! ## Trimming -/

theorem keepFrom_concat (floor : Nat) (history : List (Nat × Option V))
    (version : Nat × Option V) :
    keepFrom floor (history ++ [version])
      = if version.1 ≤ floor then history.length else keepFrom floor history := by
  rw [keepFrom, reverse_append, reverse_singleton, singleton_append, findIdx?_cons]
  by_cases h : version.1 ≤ floor
  · simp [h]
  · simp only [h, decide_false, Bool.false_eq_true, if_false, length_append,
      length_singleton, Option.map_map, keepFrom]
    congr 2
    funext position
    simp only [Function.comp_apply]
    omega

theorem keepFrom_lt (floor : Nat) {history : List (Nat × Option V)} (h : history ≠ []) :
    keepFrom floor history < history.length := by
  induction history using reverseRecOn with
  | nil => exact absurd rfl h
  | append_singleton front _ ih =>
    rw [keepFrom_concat, length_append, length_singleton]
    split_ifs
    · exact Nat.lt_succ_self _
    · cases front with
      | nil => exact Nat.lt_succ_of_le (Nat.zero_le _)
      | cons v rest => exact Nat.lt_succ_of_lt (ih (cons_ne_nil _ _))

theorem keepFrom_mapValues (floor : Nat) (history : List (Nat × Option V)) :
    keepFrom floor (mapValues f history) = keepFrom floor history := by
  induction history using reverseRecOn with
  | nil => rfl
  | append_singleton _ version ih =>
    have hone : mapValues f [version] = [(version.1, version.2.map f)] := rfl
    rw [mapValues_append, hone, keepFrom_concat, keepFrom_concat, ih]
    simp [mapValues]

/-- **TRIM**: no read at or above the floor sees what trimming drops. -/
theorem valueAt_trim (hle : floor ≤ revision) (history : List (Nat × Option V)) :
    valueAt (history.drop (keepFrom floor history)) revision = valueAt history revision := by
  induction history using reverseRecOn with
  | nil => rfl
  | append_singleton front version ih =>
    rw [keepFrom_concat]
    split_ifs with hver
    · have hone := valueAt_concat [] version revision
      rw [nil_append] at hone
      rw [drop_left, hone, valueAt_concat, if_pos (Nat.le_trans hver hle),
        if_pos (Nat.le_trans hver hle)]
    · cases hfront : front with
      | nil => rfl
      | cons v rest =>
        have hlt := @keepFrom_lt V floor front (by rw [hfront]; simp)
        rw [← hfront, drop_append_of_le_length (Nat.le_of_lt hlt), valueAt_concat, valueAt_concat,
          ih]

/-- Trimming keeps the newest version. -/
theorem getLast?_trim (floor : Nat) (history : List (Nat × Option V)) :
    (history.drop (keepFrom floor history)).getLast? = history.getLast? := by
  by_cases h : history = []
  · rw [h]
    rfl
  · rw [getLast?_drop, if_neg (Nat.not_le.mpr (keepFrom_lt floor h))]

/-! ## Histories with a watermark -/

/-- The thing has the value `current` since the revision `written`; before that, down to
    `covered`, its history knows the values of `reference`. -/
structure Covers (reference : Nat → Option V) (history : List (Nat × Option V)) (covered : Nat)
    (current : Option V) (written : Option Nat) : Prop where
  recent : ∀ {revision : Nat}, (∀ latest ∈ written, latest ≤ revision) →
    reference revision = current
  bounded : ∀ version ∈ history.getLast?, ∃ latest ∈ written, version.1 ≤ latest
  past : ∀ {revision latest : Nat}, covered ≤ revision → latest ∈ written → revision < latest →
    valueAt history revision = reference revision
  newest : ∀ version ∈ history.getLast?, version.1 ∈ written → version.2 = current
  stale : ∀ latest ∈ written, (∀ version ∈ history.getLast?, version.1 < latest) →
    latest ≤ covered

/-- A history after the state before a write was offered to it: it is kept when a reader is old
    enough to see it and the history does not reach it yet. -/
def keepBefore (oldest : Nat) (history : List (Nat × Option V)) :
    Option (Nat × V) → List (Nat × Option V)
  | none => history
  | some before =>
    if before.1 ≤ oldest ∧ history.getLast?.all (fun latest => latest.1 < before.1) then
      history ++ [(before.1, some before.2)]
    else history

section Covers

variable {reference reference' : Nat → Option V} {history : List (Nat × Option V)}
  {covered : Nat} {current : Option V} {written : Option Nat} {revision : Nat}

section

variable (h : Covers reference history covered current written) {value : Option V} {oldest : Nat}
include h

section

variable (hold : covered ≤ oldest) {before : Option (Nat × V)}
  (hcur : before.map Prod.snd = current) (hwritten : ∀ b ∈ before, written = some b.1)
  (hgone : current = none → ∀ version ∈ history.getLast?, version.2 = none)
include hold hcur hwritten hgone

/-- With the state before a write the history answers for every revision so far. A deletion is
    not offered, so there the newest version must say so itself. -/
theorem Covers.kept (hcov : covered ≤ revision) :
    valueAt (keepBefore oldest history before) revision = reference revision := by
  cases before with
  | none =>
    rw [keepBefore]
    have hnone : current = none := hcur.symm
    -- nothing to keep: the history, if there is one, ends in a deletion
    by_cases hpast : ∃ latest ∈ written, revision < latest
    · obtain ⟨latest, hmem, hlt⟩ := hpast
      exact h.past hcov hmem hlt
    · have hle : ∀ latest ∈ written, latest ≤ revision := fun latest hmem =>
        Nat.not_lt.mp (fun hlt => hpast ⟨latest, hmem, hlt⟩)
      rw [h.recent hle, hnone]
      cases hlast : history.getLast? with
      | none =>
        rw [getLast?_eq_none_iff.mp hlast]
        rfl
      | some version =>
        obtain ⟨latest, hmem, hver⟩ := h.bounded version hlast
        rw [valueAt_of_last hlast (Nat.le_trans hver (hle latest hmem))]
        exact hgone hnone version hlast
  | some b =>
    have hw : written = some b.1 := hwritten b rfl
    have hb : current = some b.2 := hcur.symm
    rw [keepBefore]
    rcases Nat.lt_or_ge revision b.1 with hlt | hge
    · have hpast := h.past hcov hw hlt
      split_ifs with hkeep
      · rw [valueAt_concat_of_lt history hlt, hpast]
      · exact hpast
    · have hle : ∀ latest ∈ written, latest ≤ revision := by
        intro latest hmem
        rw [hw, Option.mem_some] at hmem
        exact hmem ▸ hge
      rw [h.recent hle, hb]
      split_ifs with hkeep
      · rw [valueAt_concat, if_pos hge]
      · -- it was not kept, so the history ends in it
        cases hlast : history.getLast? with
        | none =>
          have hcovered : b.1 ≤ covered :=
            h.stale b.1 hw (fun version hmem => by rw [hlast] at hmem; exact nomatch hmem)
          exact absurd ⟨Nat.le_trans hcovered hold, by rw [hlast]; rfl⟩ hkeep
        | some version =>
          have hreach : version.1 = b.1 := by
            obtain ⟨latest, hmem, hver⟩ := h.bounded version hlast
            rw [hw, Option.mem_some] at hmem
            refine Nat.le_antisymm (hmem ▸ hver) (Nat.not_lt.mp (fun hlt => hkeep ?_))
            refine ⟨Nat.le_trans (h.stale b.1 hw ?_) hold, by rw [hlast]; simpa using hlt⟩
            intro other hother
            rw [hlast, Option.mem_some] at hother
            exact hother ▸ hlt
          rw [valueAt_of_last hlast (hreach ▸ hge),
            h.newest version hlast (by rw [hreach]; exact hw), hb]

/-- **WRITE**: a write that keeps the state before it and the value it leaves. -/
theorem Covers.write {revision : Nat}
    (hafter : ∀ r, reference' r = if revision ≤ r then value else reference r) :
    Covers reference' (keepBefore oldest history before ++ [(revision, value)]) covered value
      (some revision) := by
  have hlast : (keepBefore oldest history before ++ [(revision, value)]).getLast?
      = some (revision, value) := getLast?_concat
  refine ⟨fun hle => ?_, fun version hv => ?_, fun {r latest} hcov hmem hlt => ?_,
    fun version hv _ => ?_, fun latest hmem hall => ?_⟩
  · rw [hafter, if_pos (hle revision rfl)]
  · rw [hlast, Option.mem_some] at hv
    exact ⟨revision, rfl, hv ▸ Nat.le_refl _⟩
  · rw [Option.mem_some] at hmem
    have hlt' : r < revision := hmem ▸ hlt
    rw [valueAt_concat_of_lt _ hlt', h.kept hold hcur hwritten hgone hcov, hafter,
      if_neg (Nat.not_le.mpr hlt')]
  · rw [hlast, Option.mem_some] at hv
    exact hv ▸ rfl
  · rw [Option.mem_some] at hmem
    exact absurd (hmem ▸ hall _ hlast) (Nat.lt_irrefl _)

end

/-- A write of other things. -/
theorem Covers.keep (hnew : ∀ latest ∈ written, latest < revision)
    (hafter : ∀ r, reference' r = if revision ≤ r then current else reference r) :
    Covers reference' history covered current written := by
  refine ⟨fun {r} hle => ?_, h.bounded, fun {r latest} hcov hmem hlt => ?_, h.newest, h.stale⟩
  · rw [hafter]
    split_ifs
    · rfl
    · exact h.recent hle
  · have hbelow : ¬ revision ≤ r := Nat.not_le.mpr (Nat.lt_trans hlt (hnew latest hmem))
    rw [h.past hcov hmem hlt, hafter, if_neg hbelow]

/-- A watermark may always be raised. -/
theorem Covers.raise {covered' : Nat} (hle : covered ≤ covered') :
    Covers reference history covered' current written :=
  ⟨h.recent, h.bounded, fun hcov => h.past (Nat.le_trans hle hcov), h.newest,
    fun latest hmem hall => Nat.le_trans (h.stale latest hmem hall) hle⟩

/-- **OVERWRITE**: a write that keeps nothing, with the watermark raised to it. -/
theorem Covers.overwrite (hnew : ∀ latest ∈ written, latest < revision)
    (hafter : ∀ r, reference' r = if revision ≤ r then value else reference r) :
    Covers reference' history revision value (some revision) := by
  have hbelow : ∀ version ∈ history.getLast?, version.1 < revision := by
    intro version hv
    obtain ⟨latest, hmem, hle⟩ := h.bounded version hv
    exact Nat.lt_of_le_of_lt hle (hnew latest hmem)
  refine ⟨fun hle => ?_, fun version hv => ⟨revision, rfl, Nat.le_of_lt (hbelow version hv)⟩,
    fun {r latest} hcov hmem hlt => ?_, fun version hv hmem => ?_, fun latest hmem _ => ?_⟩
  · rw [hafter, if_pos (hle revision rfl)]
  · rw [Option.mem_some] at hmem
    exact absurd (hmem ▸ hlt) (Nat.not_lt.mpr hcov)
  · rw [Option.mem_some] at hmem
    exact absurd (hmem ▸ hbelow version hv) (Nat.lt_irrefl _)
  · rw [Option.mem_some] at hmem
    exact Nat.le_of_eq hmem.symm

/-- **COLLECT**: trimming raises the watermark to the floor. -/
theorem Covers.trim (hle : covered ≤ floor) :
    Covers reference (history.drop (keepFrom floor history)) floor current written := by
  have hraised := h.raise hle
  refine ⟨hraised.recent, ?_, fun hcov hmem hlt => ?_, ?_, ?_⟩
  · rw [getLast?_trim]
    exact hraised.bounded
  · rw [valueAt_trim hcov]
    exact hraised.past hcov hmem hlt
  · rw [getLast?_trim]
    exact hraised.newest
  · rw [getLast?_trim]
    exact hraised.stale

/-- Nothing has to be known when the watermark is past the last write. -/
theorem Covers.clear {latest : Nat} (hle : ∀ l ∈ written, l ≤ latest) :
    Covers reference [] latest current written :=
  ⟨h.recent, nofun,
    fun hcov hmem hlt => absurd (Nat.lt_of_le_of_lt hcov hlt) (Nat.not_lt.mpr (hle _ hmem)),
    nofun, fun l hmem _ => hle l hmem⟩

end

end Covers

end History
