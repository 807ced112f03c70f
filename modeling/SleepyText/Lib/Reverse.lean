import Mathlib.Logic.Equiv.Basic
import Mathlib.Tactic

set_option relaxedAutoImplicit false
set_option autoImplicit false

/-!
# Reversal in place

A part of a store is reversed by swapping its two ends, then the places next to them, and so on up
to its middle.

## Main definitions

* `Reverse.swaps` — a store after some of the swaps.
* `Reverse.mirrored` — a store in which the outer places of a part are mirrored.

## Main results

* `Reverse.swaps_eq_mirrored` — the swaps mirror the outer places.
* `Reverse.map_swaps` — all of them reverse the part.
-/

namespace Reverse

variable {α : Type*} {f : ℕ → α} {a n k x : ℕ}

/-- The store after the first `k` swaps in the `n` places from `a` on. -/
def swaps (f : ℕ → α) (a n k : ℕ) : ℕ → α :=
  (List.range k).foldl (fun f j => f ∘ Equiv.swap (a + j) (a + (n - j - 1))) f

/-- The store in which the `k` first and the `k` last of the `n` places from `a` on are mirrored. -/
def mirrored (f : ℕ → α) (a n k : ℕ) : ℕ → α := fun x =>
  if a ≤ x ∧ x < a + n ∧ (x < a + k ∨ a + n ≤ x + k) then f (a + (a + n - 1 - x)) else f x

lemma swaps_succ (f : ℕ → α) (a n k : ℕ) :
    swaps f a n (k + 1) = swaps f a n k ∘ Equiv.swap (a + k) (a + (n - k - 1)) := by
  unfold swaps
  rw [List.range_succ, List.foldl_append]
  rfl

/-- A place that is not mirrored. -/
lemma mirrored_of_inner (h : x < a ∨ a + n ≤ x ∨ a + k ≤ x ∧ x + k < a + n) :
    mirrored f a n k x = f x :=
  if_neg (by omega)

/-- A place that is mirrored. -/
lemma mirrored_of_outer (h : a ≤ x) (h' : x < a + n) (houter : x < a + k ∨ a + n ≤ x + k) :
    mirrored f a n k x = f (a + (a + n - 1 - x)) :=
  if_pos ⟨h, h', houter⟩

/-- **The swaps mirror the outer places**, as long as they do not pass the middle. -/
theorem swaps_eq_mirrored (hk : k ≤ n / 2) : swaps f a n k = mirrored f a n k := by
  induction k with
  | zero =>
    funext x
    exact (mirrored_of_inner (by omega)).symm
  | succ k ih =>
    rw [swaps_succ, ih (by omega)]
    funext x
    rw [Function.comp_apply, Equiv.swap_apply_def]
    split_ifs with hfront hback
    · subst hfront
      rw [mirrored_of_inner (by omega), mirrored_of_outer (by omega) (by omega) (by omega)]
      exact congrArg f (by omega)
    · subst hback
      rw [mirrored_of_inner (by omega), mirrored_of_outer (by omega) (by omega) (by omega)]
      exact congrArg f (by omega)
    · by_cases houter : a ≤ x ∧ x < a + n ∧ (x < a + k ∨ a + n ≤ x + k)
      · obtain ⟨hle, hlt, houter⟩ := houter
        rw [mirrored_of_outer hle hlt houter, mirrored_of_outer hle hlt (by omega)]
      · rw [mirrored_of_inner (by omega), mirrored_of_inner (by omega)]

/-- **Reversal in place**: half as many swaps as there are places reverse the part. -/
theorem map_swaps (f : ℕ → α) (a n : ℕ) :
    (List.range' a n).map (swaps f a n (n / 2)) = ((List.range' a n).map f).reverse := by
  rw [swaps_eq_mirrored (Nat.le_refl _)]
  apply List.ext_getElem
  · simp
  · intro i hi _
    rw [List.length_map, List.length_range'] at hi
    simp only [List.getElem_map, List.getElem_range', List.getElem_reverse, List.length_map,
      List.length_range', Nat.one_mul]
    by_cases hmiddle : a + n - 1 - (a + i) = i
    · rw [mirrored_of_inner (by omega)]
      exact congrArg f (by omega)
    · rw [mirrored_of_outer (by omega) (by omega) (by omega)]
      exact congrArg f (by omega)

/-- The swaps keep what is outside. -/
lemma swaps_of_outside (hx : x < a ∨ a + n ≤ x) (hk : k ≤ n / 2) : swaps f a n k x = f x := by
  rw [swaps_eq_mirrored hk, mirrored_of_inner (by omega)]

end Reverse
