/-!
# Runs of a transition system

A run takes one step after another, and each step meets a condition on the state before it.
`Run.invariant` packages the induction: what holds at the start and is kept by every step that
meets the condition holds at the end of every run. `Settling` changes can be made twice, also a list
of them one after the other.
-/

namespace Transition

open List

variable {S A : Type} {step : S → A → S → Prop} {fits : S → A → Prop} {actions : List A}
  {dead p : S → Prop} {s t : S}

/-- `Run step fits s actions t`: from `s` the actions lead to `t`. -/
inductive Run (step : S → A → S → Prop) (fits : S → A → Prop) (s : S) : List A → S → Prop where
  | start : Run step fits s [] s
  | next {actions : List A} {t u : S} {action : A} :
      Run step fits s actions t → fits t action → step t action u →
      Run step fits s (actions ++ [action]) u

/-- **INVARIANT**: what every step keeps holds after every run. -/
theorem Run.invariant {I : S → Prop}
    (hstep : ∀ {t u : S} {action : A}, I t → fits t action → step t action u → I u)
    (hrun : Run step fits s actions t) (hstart : I s) : I t := by
  induction hrun with
  | start => exact hstart
  | next _ hfits htake ih => exact hstep ih hfits htake

/-- What every action of a run has can be put into its condition. -/
theorem Run.and_of_mem {p : A → Prop} (hrun : Run step fits s actions t)
    (h : ∀ action ∈ actions, p action) :
    Run step (fun s action => fits s action ∧ p action) s actions t := by
  induction hrun with
  | start => exact .start
  | next _ hfits htake ih =>
    exact (ih (fun action ha => h action (mem_append_left _ ha))).next
      ⟨hfits, h _ (mem_append_right _ mem_cons_self)⟩ htake

/-! ## Changes that settle -/

/-- A change that forgets the state, or leaves it, or brings it to a dead state, of which it leaves
    every one. -/
def Settling (dead : S → Prop) (f : S → S) : Prop :=
  (∃ c, ∀ s, f s = c) ∨ ((∀ s, dead s → f s = s) ∧ ∀ s, f s = s ∨ dead (f s))

theorem Settling.comp {f g : S → S} (hf : Settling dead f) (hg : Settling dead g) :
    Settling dead (fun s => g (f s)) := by
  rcases hg with ⟨c, hg⟩ | ⟨hfix, hg⟩
  · exact .inl ⟨c, fun s => hg (f s)⟩
  · rcases hf with ⟨c, hf⟩ | ⟨hfix', hf⟩
    · exact .inl ⟨g c, fun s => congrArg g (hf s)⟩
    · refine .inr ⟨fun s hs => ?_, fun s => ?_⟩
      · show g (f s) = s
        rw [hfix' s hs, hfix s hs]
      · show g (f s) = s ∨ dead (g (f s))
        rcases hf s with hsame | hdead
        · rw [hsame]
          exact hg s
        · rw [hfix _ hdead]
          exact .inr hdead

/-- **TWICE**: such a change has its whole effect the first time. -/
theorem Settling.idem {f : S → S} (h : Settling dead f) (s : S) : f (f s) = f s := by
  rcases h with ⟨c, hf⟩ | ⟨hfix, hf⟩
  · rw [hf, hf]
  · rcases hf s with hsame | hdead
    · rw [hsame, hsame]
    · exact hfix _ hdead

theorem settling_foldl {change : S → A → S}
    (h : ∀ action ∈ actions, Settling dead (fun s => change s action)) :
    Settling dead (fun s => actions.foldl change s) := by
  induction actions with
  | nil => exact .inr ⟨fun _ _ => rfl, fun _ => .inl rfl⟩
  | cons action rest ih =>
    rw [forall_mem_cons] at h
    exact h.1.comp (ih h.2)

/-! ## Executable systems -/

/-- The actions one after the other, as long as each meets the condition and none is refused. -/
def follow (fits : S → A → Prop) [∀ s action, Decidable (fits s action)]
    (act : S → A → Option S) : S → List A → Option S
  | s, [] => some s
  | s, action :: rest =>
    if fits s action then (act s action).bind (fun t => follow fits act t rest) else none

variable [∀ s action, Decidable (fits s action)] (act : S → A → Option S)
  (hact : ∀ {s t : S} {action : A}, act s action = some t → step s action t)

include hact

/-- What can be followed is a run. -/
theorem Run.follow {u : S} {before : List A} (hrun : Run step fits s before t)
    (hfollow : follow fits act t actions = some u) : Run step fits s (before ++ actions) u := by
  induction actions generalizing before t with
  | nil =>
    cases hfollow
    rw [append_nil]
    exact hrun
  | cons action rest ih =>
    rw [Transition.follow] at hfollow
    split at hfollow
    · next hfits =>
        obtain ⟨v, hstep, hrest⟩ := Option.bind_eq_some_iff.mp hfollow
        rw [← singleton_append, ← append_assoc]
        exact ih (hrun.next hfits (hact hstep)) hrest
    · cases hfollow

/-- A run that can be followed to a state with a property. -/
theorem exists_run [DecidablePred p]
    (h : (follow fits act s actions).map (fun t => decide (p t)) = some true) :
    ∃ t, Run step fits s actions t ∧ p t := by
  obtain ⟨t, hfollow, hp⟩ := Option.map_eq_some_iff.mp h
  exact ⟨t, Run.start.follow act hact hfollow, of_decide_eq_true hp⟩

/-- A run that can be followed to a state with a property, and what the property gives there. -/
theorem exists_run_of {q : S → Prop} [DecidablePred p]
    (h : (follow fits act s actions).map (fun t => decide (p t)) = some true)
    (hq : ∀ t, Run step fits s actions t → p t → q t) : ∃ t, Run step fits s actions t ∧ q t := by
  obtain ⟨t, hrun, hp⟩ := exists_run act hact h
  exact ⟨t, hrun, hq t hrun hp⟩

/-- The same of a run and one behind it. -/
theorem exists_runs_of {later : List A} {p q : S → S → Prop} [∀ t u, Decidable (p t u)]
    (h : (follow fits act s actions).bind (fun t =>
      (follow fits act t later).map (fun u => decide (p t u))) = some true)
    (hq : ∀ t u, Run step fits s actions t → Run step fits t later u → p t u → q t u) :
    ∃ t u, Run step fits s actions t ∧ Run step fits t later u ∧ q t u := by
  obtain ⟨t, hfollow, hrest⟩ := Option.bind_eq_some_iff.mp h
  obtain ⟨u, hlater, hp⟩ := exists_run act hact hrest
  have hrun := Run.start.follow act hact hfollow
  exact ⟨t, u, hrun, hlater, hq t u hrun hlater hp⟩

end Transition
