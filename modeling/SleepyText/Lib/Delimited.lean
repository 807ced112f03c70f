import Mathlib.Data.List.Basic
import Mathlib.InformationTheory.Coding.UniquelyDecodable

set_option relaxedAutoImplicit false
set_option autoImplicit false

/-!
# Self-delimiting codes

A code is self-delimiting if a codeword ends where it does whatever follows it. Sequences of such
codewords can be read back from the front.

## Main definitions

* `Delimited` — a self-delimiting code.

## Main results

* `Delimited.uniquelyDecodable` — its codewords are uniquely decodable.
* `Delimited.flatMap_injective` — sequences with the same code are the same.
-/

open InformationTheory (UniquelyDecodable)

variable {α β : Type*} {code : α → List β}

/-- Codewords are not empty, and the first one of a sequence is known from the sequence. -/
structure Delimited (code : α → List β) : Prop where
  ne_nil : ∀ a, code a ≠ []
  first : ∀ a b rest rest', code a ++ rest = code b ++ rest' → a = b

namespace Delimited

/-- Different items have different codewords. -/
lemma injective (h : Delimited code) : Function.Injective code := by
  intro a b hab
  apply h.first a b [] []
  rw [hab]

/-- **The codewords are uniquely decodable.** -/
theorem uniquelyDecodable (h : Delimited code) : UniquelyDecodable (Set.range code) := by
  intro l l' hl hl' hflatten
  induction l generalizing l' with
  | nil =>
    cases l' with
    | nil => rfl
    | cons word l' =>
      obtain ⟨b, rfl⟩ := hl' word List.mem_cons_self
      rw [List.flatten_cons, List.flatten_nil, eq_comm, List.append_eq_nil_iff] at hflatten
      exact absurd hflatten.1 (h.ne_nil b)
  | cons word l ih =>
    obtain ⟨a, rfl⟩ := hl word List.mem_cons_self
    cases l' with
    | nil =>
      rw [List.flatten_cons, List.flatten_nil, List.append_eq_nil_iff] at hflatten
      exact absurd hflatten.1 (h.ne_nil a)
    | cons word' l' =>
      obtain ⟨b, rfl⟩ := hl' word' List.mem_cons_self
      rw [List.flatten_cons, List.flatten_cons] at hflatten
      obtain rfl := h.first a b _ _ hflatten
      rw [ih l' (fun w hw => hl w (List.mem_cons_of_mem _ hw))
        (fun w hw => hl' w (List.mem_cons_of_mem _ hw)) (List.append_cancel_left hflatten)]

/-- **Sequences can be read back.** -/
theorem flatMap_injective (h : Delimited code) :
    Function.Injective fun l : List α => l.flatMap code := by
  intro l l' heq
  apply List.map_injective_iff.mpr h.injective
  have hrange (l : List α) : ∀ word ∈ l.map code, word ∈ Set.range code := by
    intro word hword
    obtain ⟨a, -, rfl⟩ := List.mem_map.mp hword
    exact ⟨a, rfl⟩
  apply h.uniquelyDecodable _ _ (hrange l) (hrange l')
  rw [← List.flatMap_def, ← List.flatMap_def]
  exact heq

end Delimited
