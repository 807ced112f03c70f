import Mathlib.Data.List.Basic
import Mathlib.Tactic

set_option relaxedAutoImplicit false
set_option autoImplicit false

/-!
# Interleavings

A sequence whose items come from several sources, each with its source. The items of a source stand
in it in their order.

## Main definitions

* `Interleaving.part` — the items of a source.
* `Interleaving.items` — the items without their sources.

## Main results

* `Interleaving.mem_part` — the items of a part.
* `Interleaving.length_items` — the lengths of the parts add up to the length of the whole.
-/

namespace Interleaving

variable {ι α : Type*} [DecidableEq ι]

/-- The items of the source `i`, in order. -/
def part (l : List (ι × α)) (i : ι) : List α := (l.filter fun p => p.1 = i).map Prod.snd

omit [DecidableEq ι] in
/-- The items without their sources. -/
abbrev items (l : List (ι × α)) : List α := l.map Prod.snd

/-- Items with the same source. -/
abbrev tag (i : ι) (items : List α) : List (ι × α) := items.map fun a => (i, a)

omit [DecidableEq ι] in
/-- The items without their source. -/
@[simp] lemma items_tag (i : ι) (items : List α) : (tag i items).map Prod.snd = items := by
  simp [Function.comp_def]

/-- Nothing has no parts. -/
@[simp] lemma part_nil (i : ι) : part ([] : List (ι × α)) i = [] := rfl

/-- The parts of two pieces. -/
@[simp] lemma part_append (l l' : List (ι × α)) (i : ι) :
    part (l ++ l') i = part l i ++ part l' i := by
  simp [part]

/-- Items of one source are all of its part. -/
@[simp] lemma part_tag_self (i : ι) (items : List α) : part (tag i items) i = items := by
  have hall : (tag i items).filter (fun p => p.1 = i) = tag i items :=
    List.filter_eq_self.mpr fun p hp => by
      obtain ⟨a, -, rfl⟩ := List.mem_map.mp hp
      simp
  rw [part, hall, items_tag]

/-- Other sources have no part in them. -/
lemma part_tag_of_ne {i j : ι} (h : j ≠ i) (items : List α) : part (tag j items) i = [] := by
  simp [part, h]

/-- The items with the source `i`. -/
lemma mem_part {l : List (ι × α)} {i : ι} {a : α} : a ∈ part l i ↔ (i, a) ∈ l := by
  simp [part]

/-- A source without items. -/
lemma part_eq_nil {l : List (ι × α)} {i : ι} (h : ∀ p ∈ l, p.1 ≠ i) : part l i = [] := by
  rw [part, List.filter_eq_nil_iff.mpr fun p hp => by simpa using h p hp, List.map_nil]

/-- Counting an element. -/
lemma sum_map_ite (sources : List ι) (j : ι) :
    (sources.map fun i => if i = j then 1 else 0).sum = sources.count j := by
  induction sources with
  | nil => rfl
  | cons i sources ih =>
    rw [List.map_cons, List.sum_cons, ih, List.count_cons, Nat.add_comm]
    simp

/-- **Nothing is counted twice**: the parts of the sources make up the whole. -/
lemma length_items {l : List (ι × α)} {sources : List ι} (hnodup : sources.Nodup)
    (h : ∀ p ∈ l, p.1 ∈ sources) :
    (items l).length = (sources.map fun i => (part l i).length).sum := by
  induction l with
  | nil => simp
  | cons p l ih =>
    have hrest := ih fun q hq => h q (List.mem_cons_of_mem _ hq)
    have hone (i : ι) : (part (p :: l) i).length =
        (if i = p.1 then 1 else 0) + (part l i).length := by
      by_cases hi : i = p.1
      · simp [part, hi, Nat.add_comm]
      · simp [part, hi, Ne.symm hi]
    have hcount : (sources.map fun i => if i = p.1 then 1 else 0).sum = 1 := by
      rw [sum_map_ite, List.count_eq_one_of_mem hnodup (h p List.mem_cons_self)]
    have hsplit : (sources.map fun i => (part (p :: l) i).length) =
        sources.map fun i => (if i = p.1 then 1 else 0) + (part l i).length :=
      List.map_congr_left fun i _ => hone i
    rw [hsplit, List.sum_map_add, hcount, ← hrest]
    simp [Nat.add_comm]

end Interleaving
