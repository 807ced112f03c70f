import Mathlib.Tactic

set_option relaxedAutoImplicit false
set_option autoImplicit false

/-!
# Splices of lists

Replacing the `n` elements that stand at position `pos` of a list by other elements, undoing
such a replacement, and trimming two lists to the region in which they differ.

## Main definitions

* `Splice.splice` — one replacement.
* `Splice.StandsAt` — a list occurs at a position of another.
* `Splice.commonPrefix`, `Splice.commonSuffix` — the longest common prefix and suffix.

## Main results

* `Splice.splice_undo` — replacing back undoes a replacement of what stood there.
* `Splice.splice_middle` — the replacement of the middle of a list between two fixed ends.
* `Splice.commonPrefix_split`, `Splice.commonSuffix_split` — two lists are their common prefix
  (suffix) and rests that start (end) differently.
* `Splice.length_add_length_le` — trimming the prefix first and then the suffix trims the most.
-/

namespace Splice

variable {α : Type*}

/-- Replace the `n` elements at position `pos` of `xs` by `new`. -/
def splice (pos n : ℕ) (new xs : List α) : List α :=
  xs.take pos ++ new ++ xs.drop (pos + n)

/-- `old` stands in `xs` at position `pos`. -/
def StandsAt (pos : ℕ) (old xs : List α) : Prop :=
  pos ≤ xs.length ∧ (xs.drop pos).take old.length = old

/-- A list that stands at a position is the middle of a split there. -/
lemma StandsAt.split {pos : ℕ} {old xs : List α} (h : StandsAt pos old xs) :
    ∃ a b, xs = a ++ old ++ b ∧ a.length = pos := by
  refine ⟨xs.take pos, (xs.drop pos).drop old.length, ?_, by simpa using h.1⟩
  conv_lhs => rw [← List.take_append_drop pos xs, ← List.take_append_drop old.length (xs.drop pos)]
  rw [h.2, List.append_assoc]

/-- The middle of a split stands at its position. -/
lemma standsAt_middle (a old b : List α) : StandsAt a.length old (a ++ old ++ b) := by
  refine ⟨by simp only [List.length_append]; omega, ?_⟩
  rw [List.append_assoc, List.drop_left, List.take_left]

/-- Replacing the middle of a list between two fixed ends. -/
lemma splice_middle (a old new b : List α) :
    splice a.length old.length new (a ++ old ++ b) = a ++ new ++ b := by
  have htake : (a ++ old ++ b).take a.length = a := by
    rw [List.append_assoc, List.take_left]
  have hdrop : (a ++ old ++ b).drop (a.length + old.length) = b := by
    rw [← List.length_append, List.drop_left]
  rw [splice, htake, hdrop]

/-- **Undoing a splice**: replacing the new elements by the old ones gives the list back. -/
theorem splice_undo {pos : ℕ} {old xs : List α} (new : List α) (h : StandsAt pos old xs) :
    splice pos new.length old (splice pos old.length new xs) = xs := by
  obtain ⟨a, b, rfl, rfl⟩ := h.split
  rw [splice_middle, splice_middle]

section Common

variable [DecidableEq α]

/-- The longest common prefix of two lists. -/
def commonPrefix : List α → List α → List α
  | x :: xs, y :: ys => if x = y then x :: commonPrefix xs ys else []
  | _, _ => []

/-- The longest common suffix of two lists. -/
def commonSuffix (xs ys : List α) : List α :=
  (commonPrefix xs.reverse ys.reverse).reverse

@[simp] lemma commonPrefix_nil_left (ys : List α) : commonPrefix [] ys = [] := rfl

@[simp] lemma commonPrefix_nil_right (xs : List α) : commonPrefix xs [] = [] := by
  cases xs <;> rfl

lemma commonPrefix_comm (xs ys : List α) : commonPrefix xs ys = commonPrefix ys xs := by
  induction xs generalizing ys with
  | nil => simp
  | cons x xs ih =>
    cases ys with
    | nil => simp
    | cons y ys =>
      by_cases h : x = y
      · subst h
        simp [commonPrefix, ih]
      · simp [commonPrefix, h, Ne.symm h]

@[simp] lemma commonPrefix_self (xs : List α) : commonPrefix xs xs = xs := by
  induction xs with
  | nil => rfl
  | cons x xs ih => simp [commonPrefix, ih]

/-- **Splitting two lists at their common prefix**: what is left of them does not start with the
same element. -/
theorem commonPrefix_split (xs ys : List α) :
    ∃ us vs, xs = commonPrefix xs ys ++ us ∧ ys = commonPrefix xs ys ++ vs ∧
      ∀ u ∈ us.head?, ∀ v ∈ vs.head?, u ≠ v := by
  induction xs generalizing ys with
  | nil => exact ⟨[], ys, by simp, by simp, by simp⟩
  | cons x xs ih =>
    cases ys with
    | nil => exact ⟨x :: xs, [], by simp, by simp, by simp⟩
    | cons y ys =>
      by_cases h : x = y
      · subst h
        obtain ⟨us, vs, hus, hvs, hne⟩ := ih ys
        refine ⟨us, vs, ?_, ?_, hne⟩
        · simpa [commonPrefix] using hus
        · simpa [commonPrefix] using hvs
      · exact ⟨x :: xs, y :: ys, by simp [commonPrefix, h], by simp [commonPrefix, h],
          by simpa using h⟩

/-- **Splitting two lists at their common suffix**: what is left of them does not end with the
same element. -/
theorem commonSuffix_split (xs ys : List α) :
    ∃ us vs, xs = us ++ commonSuffix xs ys ∧ ys = vs ++ commonSuffix xs ys ∧
      ∀ u ∈ us.getLast?, ∀ v ∈ vs.getLast?, u ≠ v := by
  obtain ⟨us, vs, hus, hvs, hne⟩ := commonPrefix_split xs.reverse ys.reverse
  refine ⟨us.reverse, vs.reverse, ?_, ?_, ?_⟩
  · rw [commonSuffix, ← List.reverse_append, ← hus, List.reverse_reverse]
  · rw [commonSuffix, ← List.reverse_append, ← hvs, List.reverse_reverse]
  · simpa only [List.getLast?_reverse] using hne

lemma commonPrefix_append_left (a xs ys : List α) :
    commonPrefix (a ++ xs) (a ++ ys) = a ++ commonPrefix xs ys := by
  induction a with
  | nil => rfl
  | cons x a ih => simp [commonPrefix, ih]

lemma commonSuffix_append_right (xs ys b : List α) :
    commonSuffix (xs ++ b) (ys ++ b) = commonSuffix xs ys ++ b := by
  simp [commonSuffix, commonPrefix_append_left]

/-- A suffix of both lists is no longer than the longest one. -/
lemma length_le_commonSuffix {s xs ys : List α} (hxs : s <:+ xs) (hys : s <:+ ys) :
    s.length ≤ (commonSuffix xs ys).length := by
  obtain ⟨us, rfl⟩ := hxs
  obtain ⟨vs, rfl⟩ := hys
  rw [commonSuffix_append_right, List.length_append]
  omega

/-- **Trimming greedily trims the most**: a prefix and a suffix that two lists share, side by side
in both, are together no longer than the longest common prefix and the longest common suffix of
what is behind it.

**Proof sketch.** The longest common prefix reaches past `a`, by some `p`. The rests `us` and `vs`
behind it and the list `b` are then suffixes of lists that end in `b`, so the shortest of the
three is a common suffix of `us` and `vs`; what `p` took from `b` makes up for the rest. -/
theorem length_add_length_le (a l n b : List α) {us vs : List α}
    (hus : a ++ l ++ b = commonPrefix (a ++ l ++ b) (a ++ n ++ b) ++ us)
    (hvs : a ++ n ++ b = commonPrefix (a ++ l ++ b) (a ++ n ++ b) ++ vs) :
    a.length + b.length ≤
      (commonPrefix (a ++ l ++ b) (a ++ n ++ b)).length + (commonSuffix us vs).length := by
  set p := commonPrefix (l ++ b) (n ++ b)
  have hcommon : commonPrefix (a ++ l ++ b) (a ++ n ++ b) = a ++ p := by
    rw [List.append_assoc, List.append_assoc, commonPrefix_append_left]
  have hlus : l ++ b = p ++ us := by
    rw [hcommon, List.append_assoc, List.append_assoc] at hus
    exact List.append_cancel_left hus
  have hnvs : n ++ b = p ++ vs := by
    rw [hcommon, List.append_assoc, List.append_assoc] at hvs
    exact List.append_cancel_left hvs
  have hlenus : l.length + b.length = p.length + us.length := by
    simpa only [List.length_append] using congrArg List.length hlus
  have hlenvs : n.length + b.length = p.length + vs.length := by
    simpa only [List.length_append] using congrArg List.length hnvs
  -- the end of `b` that is no longer than `us` and `vs`
  set k := min b.length (min us.length vs.length)
  set s := b.drop (b.length - k)
  have hs : s.length = k := by
    rw [List.length_drop]
    omega
  have hsb : s <:+ b := List.drop_suffix _ b
  have hsus : s <:+ us :=
    List.suffix_of_suffix_length_le (hsb.trans (List.suffix_append l b)) ⟨p, hlus.symm⟩ (by omega)
  have hsvs : s <:+ vs :=
    List.suffix_of_suffix_length_le (hsb.trans (List.suffix_append n b)) ⟨p, hnvs.symm⟩ (by omega)
  have hsuffix : s.length ≤ (commonSuffix us vs).length := length_le_commonSuffix hsus hsvs
  rw [hcommon, List.length_append]
  omega

end Common

end Splice
