import Mathlib.Tactic

set_option relaxedAutoImplicit false
set_option autoImplicit false

/-!
# Runs of labelled transition systems

A transition system is a partial step function `step : σ → ε → Option σ`: in state `s` the event
`e` either leads to a state or cannot happen. A run is a finite sequence of events each of which
can happen where it is reached.

## Main definitions

* `Run.run` — the state reached by a list of events.
* `Run.Guarded` — every event of a list meets a condition in the state it is taken in.
* `Run.Simulates` — every step of one system is matched by a run of another.

## Main results

* `Run.run_invariant`, `Run.run_invariant_of_guarded` — the induction rules for invariants.
* `Run.guarded_iff_of_invariant` — conditions that agree in all states with an invariant.
* `Run.guarded_of_prefixes` — a guard that the states reached tell.
* `Run.run_simulates` — a simulation of steps is a simulation of runs.
* `Run.run_lockstep` — a simulation of each step by one step, under a guard, is one of runs.
* `Run.run_project` — a part of the state that some events leave alone runs by the others.
-/

namespace Run

variable {σ ε τ δ : Type*}

/-- The state reached from `s` by the events `es`, if each of them can happen where it is
reached. -/
def run (step : σ → ε → Option σ) : σ → List ε → Option σ
  | s, [] => some s
  | s, e :: es => (step s e).bind fun t => run step t es

/-- Every event of `es` meets the condition `G` in the state it is taken in. -/
def Guarded (step : σ → ε → Option σ) (G : σ → ε → Prop) : σ → List ε → Prop
  | _, [] => True
  | s, e :: es => G s e ∧ ∀ t ∈ step s e, Guarded step G t es

instance Guarded.decidable (step : σ → ε → Option σ) (G : σ → ε → Prop)
    [∀ s e, Decidable (G s e)] : ∀ s es, Decidable (Guarded step G s es)
  | _, [] => inferInstanceAs (Decidable True)
  | s, e :: es =>
    have : ∀ t, Decidable (Guarded step G t es) := fun t => Guarded.decidable step G t es
    inferInstanceAs (Decidable (G s e ∧ ∀ t ∈ step s e, Guarded step G t es))

section Rules

variable {step : σ → ε → Option σ}

@[simp] lemma run_nil (s : σ) : run step s [] = some s := rfl

lemma run_cons_eq_some {s u : σ} {e : ε} {es : List ε} :
    run step s (e :: es) = some u ↔ ∃ t, step s e = some t ∧ run step t es = some u := by
  simp [run, Option.bind_eq_some_iff]

/-- A run of `es ++ fs` is a run of `es` followed by a run of `fs`. -/
lemma run_append_eq_some {s u : σ} {es fs : List ε} :
    run step s (es ++ fs) = some u ↔ ∃ t, run step s es = some t ∧ run step t fs = some u := by
  induction es generalizing s with
  | nil => simp
  | cons e es ih =>
    simp only [List.cons_append, run_cons_eq_some, ih]
    constructor
    · rintro ⟨t, ht, v, hv, hu⟩
      exact ⟨v, ⟨t, ht, hv⟩, hu⟩
    · rintro ⟨v, ⟨t, ht, hv⟩, hu⟩
      exact ⟨t, ht, v, hv, hu⟩

/-- Two conditions met along a run are met together. -/
lemma Guarded.and {G G' : σ → ε → Prop} {s : σ} {es : List ε} (hG : Guarded step G s es)
    (hG' : Guarded step G' s es) : Guarded step (fun s e => G s e ∧ G' s e) s es := by
  induction es generalizing s with
  | nil => trivial
  | cons e es ih => exact ⟨⟨hG.1, hG'.1⟩, fun t ht => ih (hG.2 t ht) (hG'.2 t ht)⟩

/-- **The guarded invariant rule.** A property that every step whose event meets the guard
preserves holds at the end of every run whose events all meet the guard. -/
theorem run_invariant_of_guarded {G : σ → ε → Prop} {I : σ → Prop}
    (hstep : ∀ s e t, I s → G s e → step s e = some t → I t) {s t : σ} {es : List ε}
    (hs : I s) (hG : Guarded step G s es) (hrun : run step s es = some t) : I t := by
  induction es generalizing s with
  | nil =>
    obtain rfl : s = t := by simpa using hrun
    exact hs
  | cons e es ih =>
    obtain ⟨u, hu, hut⟩ := run_cons_eq_some.mp hrun
    exact ih (hstep s e u hs hG.1 hu) (hG.2 u hu) hut

/-- **The invariant rule.** A property that every step preserves holds along every run. -/
theorem run_invariant {I : σ → Prop} (hstep : ∀ s e t, I s → step s e = some t → I t)
    {s t : σ} {es : List ε} (hs : I s) (hrun : run step s es = some t) : I t := by
  induction es generalizing s with
  | nil =>
    obtain rfl : s = t := by simpa using hrun
    exact hs
  | cons e es ih =>
    obtain ⟨u, hu, hut⟩ := run_cons_eq_some.mp hrun
    exact ih (hstep s e u hs hu) hut

/-- Two conditions that agree in all states with an invariant are met along the same runs. -/
theorem guarded_iff_of_invariant {G G' : σ → ε → Prop} {I : σ → Prop}
    (hstep : ∀ s e t, I s → step s e = some t → I t) (hG : ∀ s e, I s → (G s e ↔ G' s e))
    {s : σ} (hs : I s) (es : List ε) : Guarded step G s es ↔ Guarded step G' s es := by
  induction es generalizing s with
  | nil => rfl
  | cons e es ih =>
    simp only [Guarded, hG s e hs]
    refine and_congr_right fun _ => forall₂_congr fun t ht => ih (hstep s e t hs ht)

/-- A condition met along a run is met along its prefixes. -/
lemma Guarded.of_append {G : σ → ε → Prop} {s : σ} {es fs : List ε}
    (hG : Guarded step G s (es ++ fs)) : Guarded step G s es := by
  induction es generalizing s with
  | nil => trivial
  | cons e es ih => exact ⟨hG.1, fun t ht => ih (hG.2 t ht)⟩

/-- A condition met along a run is met along what is left of it. -/
lemma Guarded.of_append_right {G : σ → ε → Prop} {s t : σ} {es fs : List ε}
    (hG : Guarded step G s (es ++ fs)) (hrun : run step s es = some t) : Guarded step G t fs := by
  induction es generalizing s with
  | nil =>
    obtain rfl : s = t := by simpa using hrun
    exact hG
  | cons e es ih =>
    obtain ⟨u, hu, hut⟩ := run_cons_eq_some.mp hrun
    exact ih (hG.2 u hu) hut

/-- **Guards read off the states reached.** If a step into a state with the property `P` meets the
guard, a run all of whose prefixes reach such states is guarded. -/
theorem guarded_of_prefixes {G : σ → ε → Prop} {I P : σ → Prop}
    (hstep : ∀ s e t, I s → step s e = some t → I t)
    (hG : ∀ s e t, I s → step s e = some t → P t → G s e) {s u : σ} {es : List ε} (hs : I s)
    (hrun : run step s es = some u)
    (hP : ∀ past t, past <+: es → run step s past = some t → P t) : Guarded step G s es := by
  induction es generalizing s with
  | nil => trivial
  | cons e es ih =>
    obtain ⟨t, ht, htu⟩ := run_cons_eq_some.mp hrun
    refine ⟨hG s e t hs ht ?_, fun t' ht' => ?_⟩
    · exact hP [e] t ((List.prefix_cons_inj e).mpr (List.nil_prefix)) (by simp [run, ht])
    · obtain rfl : t = t' := Option.some.inj (ht.symm.trans ht')
      apply ih (hstep s e t hs ht) htu
      intro past v hpast hv
      exact hP (e :: past) v ((List.prefix_cons_inj e).mpr hpast)
        (run_cons_eq_some.mpr ⟨t, ht, hv⟩)

end Rules

section Simulation

variable (step : σ → ε → Option σ) (spec : τ → δ → Option τ) (R : σ → τ → Prop)

/-- `R` relates the states of the system `step` to those of the system `spec` so that every step
of the first is matched by some run of the second. -/
def Simulates : Prop :=
  ∀ s e s' a, R s a → step s e = some s' → ∃ ds a', run spec a ds = some a' ∧ R s' a'

variable {step spec R}

/-- A simulation matches every run of `step` by a run of `spec`. -/
theorem run_simulates (hsim : Simulates step spec R) {s s' : σ} {a : τ} {es : List ε}
    (hR : R s a) (hrun : run step s es = some s') :
    ∃ ds a', run spec a ds = some a' ∧ R s' a' := by
  induction es generalizing s a with
  | nil =>
    obtain rfl : s = s' := by simpa using hrun
    exact ⟨[], a, rfl, hR⟩
  | cons e es ih =>
    obtain ⟨u, hu, hus⟩ := run_cons_eq_some.mp hrun
    obtain ⟨ds, b, hb, hRb⟩ := hsim s e u a hR hu
    obtain ⟨ds', a', ha', hRa'⟩ := ih hRb hus
    exact ⟨ds ++ ds', a', run_append_eq_some.mpr ⟨b, hb, ha'⟩, hRa'⟩

/-- **Step for step.** If every step that meets the guard is matched by one step of `spec` on an
event that `M` allows, a guarded run is matched by a run of the same length. -/
theorem run_lockstep {G : σ → ε → Prop} {M : ε → δ → Prop}
    (hsim : ∀ s e s' a, R s a → G s e → step s e = some s' →
      ∃ d a', M e d ∧ spec a d = some a' ∧ R s' a')
    {s s' : σ} {a : τ} {es : List ε} (hR : R s a) (hG : Guarded step G s es)
    (hrun : run step s es = some s') :
    ∃ ds a', List.Forall₂ M es ds ∧ run spec a ds = some a' ∧ R s' a' := by
  induction es generalizing s a with
  | nil =>
    obtain rfl : s = s' := by simpa using hrun
    exact ⟨[], a, .nil, rfl, hR⟩
  | cons e es ih =>
    obtain ⟨u, hu, hus⟩ := run_cons_eq_some.mp hrun
    obtain ⟨d, b, hM, hb, hRb⟩ := hsim s e u a hR hG.1 hu
    obtain ⟨ds, a', hMs, ha', hRa'⟩ := ih hRb (hG.2 u hu) hus
    exact ⟨d :: ds, a', .cons hM hMs, run_cons_eq_some.mpr ⟨b, hb, ha'⟩, hRa'⟩

end Simulation

section Projection

variable {step : σ → ε → Option σ} {part : τ → ε → Option τ} {proj : σ → τ} {P : ε → Prop}
  [DecidablePred P]

/-- **A part of the state.** If the events with `P` move the part as `part` says and the others
leave it alone, the part runs by the events with `P`. -/
theorem run_project (hown : ∀ s e t, P e → step s e = some t → part (proj s) e = some (proj t))
    (hother : ∀ s e t, ¬ P e → step s e = some t → proj t = proj s) {s t : σ} {es : List ε}
    (hrun : run step s es = some t) :
    run part (proj s) (es.filter fun e => P e) = some (proj t) := by
  induction es generalizing s with
  | nil =>
    obtain rfl : s = t := by simpa using hrun
    rfl
  | cons e es ih =>
    obtain ⟨u, hu, hut⟩ := run_cons_eq_some.mp hrun
    by_cases he : P e
    · rw [List.filter_cons_of_pos (by simpa using he)]
      exact run_cons_eq_some.mpr ⟨proj u, hown s e u he hu, ih hut⟩
    · rw [List.filter_cons_of_neg (by simpa using he), ← hother s e u he hu]
      exact ih hut

end Projection

end Run
