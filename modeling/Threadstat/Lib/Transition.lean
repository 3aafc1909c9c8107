import Mathlib.Data.List.Induction

/-!
# Runs of a partial step function

A transition system is a step function that refuses the actions a state does not allow.  A run is
a list of actions that are all taken; facts about runs follow by looking at their last action.
-/

namespace Transition

variable {σ α : Type*} (step : σ → α → Option σ)

/-- The state after some actions, if each of them is allowed in its turn. -/
def run (s : σ) (actions : List α) : Option σ := actions.foldlM step s

/-- Every action of the run is one that `ok` accepts in the state before it. -/
def Meets (ok : σ → α → Prop) (s : σ) (actions : List α) : Prop :=
  ∀ before a after u, actions = before ++ a :: after → run step s before = some u → ok u a

@[simp] theorem run_nil (s : σ) : run step s [] = some s := rfl

@[simp] theorem run_cons (s : σ) (a : α) (actions : List α) :
    run step s (a :: actions) = (step s a).bind fun u => run step u actions := rfl

theorem run_append (s : σ) (actions later : List α) :
    run step s (actions ++ later) = (run step s actions).bind fun u => run step u later := by
  simp [run, List.foldlM_append]

theorem run_snoc (s : σ) (actions : List α) (a : α) :
    run step s (actions ++ [a]) = (run step s actions).bind fun u => step u a := by
  simp [run, List.foldlM_append]

theorem run_snoc_eq_some {s s' : σ} {actions : List α} {a : α} :
    run step s (actions ++ [a]) = some s' ↔
      ∃ u, run step s actions = some u ∧ step u a = some s' := by
  rw [run_snoc, Option.bind_eq_some_iff]

variable {step}

/-- What holds at the start and survives every step holds at the end of every run.  The property
may mention the actions taken so far. -/
theorem run_induction {P : List α → σ → Prop} {s : σ} (h0 : P [] s)
    (hstep : ∀ actions u a u', run step s actions = some u → P actions u → step u a = some u' →
      P (actions ++ [a]) u')
    {actions : List α} {s' : σ} (h : run step s actions = some s') : P actions s' := by
  induction actions using List.reverseRecOn generalizing s' with
  | nil =>
      obtain rfl : s = s' := Option.some.inj h
      exact h0
  | append_singleton actions a ih =>
      obtain ⟨u, hu, ha⟩ := (run_snoc_eq_some step).1 h
      exact hstep actions u a s' hu (ih hu) ha

section Meets

variable {ok : σ → α → Prop} {s : σ} {actions : List α} {a : α}

theorem meets_nil : Meets step ok s [] := by
  intro before a after u h
  simp at h

theorem meets_snoc :
    Meets step ok s (actions ++ [a]) ↔
      Meets step ok s actions ∧ ∀ u, run step s actions = some u → ok u a := by
  constructor
  · intro h
    refine ⟨fun before b after u heq => h before b (after ++ [a]) u (by simp [heq]), fun u => ?_⟩
    exact h actions a [] u rfl
  · rintro ⟨h, hlast⟩ before b after u heq hu
    cases after using List.reverseRecOn with
    | nil =>
        obtain ⟨rfl, hab⟩ := List.append_inj' heq rfl
        obtain rfl : a = b := List.singleton_inj.1 hab
        exact hlast u hu
    | append_singleton after c =>
        rw [← List.cons_append, ← List.append_assoc] at heq
        exact h before b after u (List.append_inj' heq rfl).1 hu

theorem meets_cons :
    Meets step ok s (a :: actions) ↔
      ok s a ∧ ∀ u ∈ step s a, Meets step ok u actions := by
  constructor
  · intro h
    refine ⟨h [] a actions s rfl rfl, fun u hu before b after v heq hv => ?_⟩
    refine h (a :: before) b after v (by simp [heq]) ?_
    rw [run_cons, Option.mem_def.1 hu]
    exact hv
  · rintro ⟨hfirst, hrest⟩ before b after u heq hu
    cases before with
    | nil =>
        obtain ⟨rfl, -⟩ := List.cons.inj heq
        obtain rfl : s = u := Option.some.inj hu
        exact hfirst
    | cons c before =>
        obtain ⟨rfl, rfl⟩ := List.cons.inj heq
        obtain ⟨v, hv, hu⟩ := Option.bind_eq_some_iff.1 hu
        exact hrest v hv before b after u rfl hu

instance decidableMeets [∀ s a, Decidable (ok s a)] :
    ∀ (s : σ) (actions : List α), Decidable (Meets step ok s actions)
  | _, [] => .isTrue meets_nil
  | s, a :: actions =>
    have : ∀ u, Decidable (Meets step ok u actions) := fun u => decidableMeets u actions
    decidable_of_iff (ok s a ∧ ∀ u ∈ step s a, Meets step ok u actions) meets_cons.symm

/-- The induction rule for runs whose steps all meet a condition. -/
theorem meets_induction {P : List α → σ → Prop} (h0 : P [] s)
    (hstep : ∀ actions u a u', P actions u → ok u a → step u a = some u' → P (actions ++ [a]) u')
    {s' : σ} (hmeets : Meets step ok s actions) (h : run step s actions = some s') :
    P actions s' := by
  have hrun : Meets step ok s actions → P actions s' := by
    apply run_induction (P := fun actions u => Meets step ok s actions → P actions u) _ _ h
    · exact fun _ => h0
    · intro actions u a u' hu ih ha hmeets
      obtain ⟨hmeets, hlast⟩ := meets_snoc.1 hmeets
      exact hstep actions u a u' (ih hmeets) (hlast u hu) ha
  exact hrun hmeets

end Meets

section Simulation

variable {τ : Type*} {step' : τ → α → Option τ} {R : σ → τ → Prop} {ok : σ → α → Prop}
  {ok' : τ → α → Prop} {s s' : σ} {t : τ} {actions : List α}

/-- If every step that `ok` accepts has one of the same action beside it that `ok'` accepts, so has
every run of such steps. -/
theorem meets_simulation
    (hstep : ∀ s t a s', R s t → ok s a → step s a = some s' →
      ok' t a ∧ ∃ t', step' t a = some t' ∧ R s' t')
    (h0 : R s t) (hmeets : Meets step ok s actions) (hrun : run step s actions = some s') :
    Meets step' ok' t actions ∧ ∃ t', run step' t actions = some t' ∧ R s' t' := by
  refine meets_induction (P := fun actions s' => Meets step' ok' t actions ∧
    ∃ t', run step' t actions = some t' ∧ R s' t') ⟨meets_nil, t, rfl, h0⟩ ?_ hmeets hrun
  rintro actions u a u' ⟨hmeets', v, hv, hR⟩ hok ha
  obtain ⟨hok', v', hv', hR'⟩ := hstep u v a u' hR hok ha
  refine ⟨meets_snoc.2 ⟨hmeets', fun w hw => ?_⟩, v', ?_, hR'⟩
  · obtain rfl : v = w := Option.some.inj (hv.symm.trans hw)
    exact hok'
  · exact (run_snoc_eq_some step').2 ⟨v, hv, hv'⟩

end Simulation

end Transition
