import Mathlib.Tactic
import Mathlib.Data.List.Range

set_option relaxedAutoImplicit false
set_option autoImplicit false

/-!
# Sequences sent with repetitions

The items of a sequence are sent in blocks of consecutive items, and some blocks are sent again. As
long as no block starts behind an item that was never sent, the sequence arrives in order and
without gaps when repetitions are passed over.

## Main definitions

* `Repeats.Covers` — what is left of a list of positions without repetitions is `0, 1, …, n - 1`.

## Main results

* `Repeats.Covers.append` — another block of consecutive positions is added.
* `Repeats.Covers.mem_iff` — the positions that were sent.
-/

namespace Repeats

/-- Without the repetitions, the positions are `0, 1, …, n - 1`. -/
def Covers (positions : List ℕ) (n : ℕ) : Prop := positions.eraseDups = List.range n

variable {positions : List ℕ} {n : ℕ}

lemma Covers.nil : Covers [] 0 := rfl

/-- The positions that were sent. -/
lemma Covers.mem_iff (h : Covers positions n) {i : ℕ} : i ∈ positions ↔ i < n := by
  rw [← List.mem_eraseDups, h, List.mem_range]

/-- A list without repetitions keeps all of its elements. -/
lemma eraseDups_of_nodup {l : List ℕ} (h : l.Nodup) : l.eraseDups = l := by
  induction l with
  | nil => rfl
  | cons a l ih =>
    obtain ⟨ha, hl⟩ := List.nodup_cons.mp h
    have hfilter : l.filter (fun b => !b == a) = l := by
      apply List.filter_eq_self.mpr
      intro b hb
      have hne : b ≠ a := fun h => ha (h ▸ hb)
      simpa using hne
    rw [List.eraseDups_cons, hfilter, ih hl]

/-- The positions of a block that are new. -/
lemma removeAll_range' (h : Covers positions n) {a : ℕ} (ha : a ≤ n) (k : ℕ) :
    (List.range' a k).removeAll positions = List.range' n (a + k - n) := by
  have hremove : (List.range' a k).removeAll positions =
      (List.range' a k).filter fun i => decide (n ≤ i) := by
    rw [List.removeAll]
    apply List.filter_congr
    intro i _
    by_cases hi : i ∈ positions
    · have hlt := h.mem_iff.mp hi
      simp [hi, hlt]
    · have hle : n ≤ i := Nat.le_of_not_lt fun hlt => hi (h.mem_iff.mpr hlt)
      simp [hi, hle]
  rw [hremove]
  by_cases hk : a + k ≤ n
  · rw [show a + k - n = 0 by omega, List.range'_zero, List.filter_eq_nil_iff]
    intro i hi
    rw [List.mem_range'_1] at hi
    simp only [decide_eq_true_eq]
    omega
  · -- the block is what was sent, and what is new
    have hsplit : List.range' a k = List.range' a (n - a) ++ List.range' n (a + k - n) := by
      have happend := @List.range'_append_1 a (n - a) (a + k - n)
      rw [Nat.add_sub_cancel' ha, show n - a + (a + k - n) = k by omega] at happend
      exact happend.symm
    have hold : (List.range' a (n - a)).filter (fun i => decide (n ≤ i)) = [] := by
      rw [List.filter_eq_nil_iff]
      intro i hi
      rw [List.mem_range'_1] at hi
      simp only [decide_eq_true_eq]
      omega
    have hnew : (List.range' n (a + k - n)).filter (fun i => decide (n ≤ i)) =
        List.range' n (a + k - n) := by
      rw [List.filter_eq_self]
      intro i hi
      rw [List.mem_range'_1] at hi
      simpa using hi.1
    rw [hsplit, List.filter_append, hold, hnew, List.nil_append]

/-- **Another block** that does not start behind a position that was never sent. -/
theorem Covers.append (h : Covers positions n) {a : ℕ} (ha : a ≤ n) (k : ℕ) :
    Covers (positions ++ List.range' a k) (max n (a + k)) := by
  rw [Covers, List.eraseDups_append, removeAll_range' h ha, eraseDups_of_nodup List.nodup_range',
    h, List.range_eq_range', List.range_eq_range']
  have happend := @List.range'_append_1 0 n (a + k - n)
  rw [Nat.zero_add] at happend
  rw [happend]
  congr 1
  omega

end Repeats
