import Mathlib.Tactic

set_option relaxedAutoImplicit false
set_option autoImplicit false

/-!
# Loops

The body of a loop maps a state to the next one, or leaves the loop with a result. The loop is
computed for a bounded number of turns; a measure that every turn decreases says how many are
enough.

## Main definitions

* `Loop.loop` — a loop run for at most a given number of turns.
* `Loop.trace` — the states in which a loop starts its turns.
* `Loop.Leaves` — a loop leaves with a result.

## Main results

* `Loop.leaves_of_loop`, `Loop.loop_isSome` — the two agree, and a measure bounds the turns.
* `Loop.loop_rel` — two loops whose bodies move related states in step leave together.
-/

namespace Loop

variable {σ τ ρ π : Type*}

/-- Run `body` from a state for at most `fuel` turns: `none` if it is still running then. -/
def loop (body : σ → σ ⊕ ρ) : ℕ → σ → Option ρ
  | 0, _ => none
  | fuel + 1, s =>
    match body s with
    | .inl t => loop body fuel t
    | .inr r => some r

/-- The states in which the loop starts its turns, for at most `fuel` turns. -/
def trace (body : σ → σ ⊕ ρ) : ℕ → σ → List σ
  | 0, _ => []
  | fuel + 1, s =>
    s :: match body s with
      | .inl t => trace body fuel t
      | .inr _ => []

/-- The loop with body `body`, started in a state, leaves with a result. -/
inductive Leaves (body : σ → σ ⊕ ρ) : σ → ρ → Prop
  | leave {s : σ} {r : ρ} (h : body s = .inr r) : Leaves body s r
  | turn {s t : σ} {r : ρ} (h : body s = .inl t) (ht : Leaves body t r) : Leaves body s r

variable {body : σ → σ ⊕ ρ}

/-- A turn of a loop that goes on. -/
lemma loop_turn {fuel : ℕ} {s t : σ} (h : body s = .inl t) :
    loop body (fuel + 1) s = loop body fuel t ∧
      trace body (fuel + 1) s = s :: trace body fuel t := by
  rw [loop, trace, h]
  exact ⟨rfl, rfl⟩

/-- The last turn of a loop. -/
lemma loop_leave {fuel : ℕ} {s : σ} {r : ρ} (h : body s = .inr r) :
    loop body (fuel + 1) s = some r ∧ trace body (fuel + 1) s = [s] := by
  rw [loop, trace, h]
  exact ⟨rfl, rfl⟩

/-- What the loop computes is what it leaves with. -/
theorem leaves_of_loop {fuel : ℕ} {s : σ} {r : ρ} (h : loop body fuel s = some r) :
    Leaves body s r := by
  induction fuel generalizing s with
  | zero => exact absurd h (by simp [loop])
  | succ fuel ih =>
    unfold loop at h
    cases hbody : body s with
    | inl t =>
      rw [hbody] at h
      exact .turn hbody (ih h)
    | inr r' =>
      rw [hbody] at h
      obtain rfl : r' = r := Option.some.inj h
      exact .leave hbody

/-- A loop leaves with one result only. -/
theorem Leaves.unique {s : σ} {r r' : ρ} (h : Leaves body s r) (h' : Leaves body s r') :
    r = r' := by
  induction h with
  | leave hbody =>
    cases h' with
    | leave hbody' => exact Sum.inr.inj (hbody.symm.trans hbody')
    | turn hbody' _ => rw [hbody] at hbody'; exact absurd hbody' (by simp)
  | turn hbody _ ih =>
    cases h' with
    | leave hbody' => rw [hbody] at hbody'; exact absurd hbody' (by simp)
    | turn hbody' ht' =>
      obtain rfl := Sum.inl.inj (hbody.symm.trans hbody')
      exact ih ht'

/-- Behind a turn the loop leaves with the same result. -/
lemma Leaves.of_turn {s t : σ} {r : ρ} (h : Leaves body s r) (hbody : body s = .inl t) :
    Leaves body t r := by
  cases h with
  | leave hleave => rw [hbody] at hleave; exact absurd hleave (by simp)
  | turn hturn ht =>
    obtain rfl := Sum.inl.inj (hbody.symm.trans hturn)
    exact ht

/-- **Termination by a measure.** When every turn decreases `measure`, the loop leaves within as
many turns as the measure has at the start. -/
theorem loop_isSome {measure : σ → ℕ} (hturn : ∀ s t, body s = .inl t → measure t < measure s)
    {fuel : ℕ} {s : σ} (hfuel : measure s < fuel) : ∃ r, loop body fuel s = some r := by
  induction fuel generalizing s with
  | zero => omega
  | succ fuel ih =>
    unfold loop
    cases hbody : body s with
    | inl t =>
      have hlt := hturn s t hbody
      exact ih (by omega)
    | inr r => exact ⟨r, rfl⟩

/-- **Loops in step.** When two bodies take related states to related states or to related
results, the loops from related states run equally long and leave with related results. -/
theorem loop_rel {body' : τ → τ ⊕ π} {R : σ → τ → Prop} {Q : ρ → π → Prop}
    (hbody : ∀ s t, R s t → Sum.LiftRel R Q (body s) (body' t)) (fuel : ℕ) {s : σ} {t : τ}
    (hR : R s t) : Option.Rel Q (loop body fuel s) (loop body' fuel t) := by
  induction fuel generalizing s t with
  | zero => exact .none
  | succ fuel ih =>
    have h := hbody s t hR
    rw [loop, loop]
    generalize body s = x at h ⊢
    generalize body' t = y at h ⊢
    cases h with
    | inl hR' => exact ih hR'
    | inr hQ => exact .some hQ

end Loop
