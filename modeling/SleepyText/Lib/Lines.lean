import Mathlib.Tactic

set_option relaxedAutoImplicit false
set_option autoImplicit false

/-!
# Blocks of lines

A block is a sequence of lines, each with a line break of two symbols behind it, and an empty line
at the end. The end of a block is found by looking for two breaks in a row, if no line is empty or
contains the first symbol of a break.

## Main definitions

* `Lines.block` — the text of a block of lines.
* `Lines.FirstEnd` — two breaks in a row end a text for the first time.

## Main results

* `Lines.firstEnd_block` — the first two breaks in a row are the end of the block.
-/

namespace Lines

variable {α : Type*} {cr lf : α}

/-- The text of a block: the lines with their breaks, and an empty line. -/
def block (cr lf : α) (lines : List (List α)) : List α :=
  lines.flatMap (· ++ [cr, lf]) ++ [cr, lf]

/-- `text` starts with `front`, which ends with two breaks in a row, the first ones in `text`. -/
def FirstEnd (cr lf : α) (front text : List α) : Prop :=
  front <+: text ∧ [cr, lf, cr, lf] <:+ front ∧
    ∀ pre post, text = pre ++ [cr, lf, cr, lf] ++ post → front.length ≤ pre.length + 4

lemma block_cons (l : List α) (lines : List (List α)) :
    block cr lf (l :: lines) = l ++ cr :: lf :: block cr lf lines := by
  simp [block]

/-- What follows a line of a block does not start with the first symbol of a break, unless the
block ends there. -/
lemma eq_nil_of_block_cons {lines : List (List α)} (hlines : ∀ l ∈ lines, l ≠ [] ∧ cr ∉ l)
    {rest text : List α} (h : block cr lf lines ++ rest = cr :: text) : lines = [] := by
  cases lines with
  | nil => rfl
  | cons l lines =>
    obtain ⟨hne, hcr⟩ := hlines l List.mem_cons_self
    obtain ⟨c, cs, rfl⟩ := List.exists_cons_of_ne_nil hne
    rw [block_cons, List.cons_append, List.cons_append, List.cons.injEq] at h
    exact absurd (h.1 ▸ List.mem_cons_self) hcr

/-- Two breaks in a row inside a text that starts with a block do not end before the block does.

**Proof sketch.** Induction on the lines. Two breaks in a row that start behind the first line and
its break are in the block of the others. Otherwise they start in the line, which has no such
symbol in it, or with its break, and then the next line starts with the symbol, or there is none;
or they start in the middle of the break. -/
theorem length_block_le (hne : cr ≠ lf) {lines : List (List α)}
    (hlines : ∀ l ∈ lines, l ≠ [] ∧ cr ∉ l) {rest pre post : List α}
    (h : block cr lf lines ++ rest = pre ++ [cr, lf, cr, lf] ++ post) :
    (block cr lf lines).length ≤ pre.length + 4 := by
  induction lines generalizing pre with
  | nil => simp [block]
  | cons l lines ih =>
    have hl := hlines l List.mem_cons_self
    have htail : ∀ l ∈ lines, l ≠ [] ∧ cr ∉ l := fun l hl => hlines l (List.mem_cons_of_mem _ hl)
    rw [block_cons, List.append_assoc, List.append_assoc, List.append_eq_append_iff] at h
    rw [block_cons, List.length_append, List.length_cons, List.length_cons]
    -- with the break of the line, the block ends with it
    have hbreak (h : block cr lf lines ++ rest = cr :: lf :: post) :
        (block cr lf lines).length ≤ 2 := by
      rw [eq_nil_of_block_cons htail h]
      simp [block]
    rcases h with ⟨back, rfl, h⟩ | ⟨back, rfl, h⟩
    · rw [List.length_append]
      match back, h with
      | [], h =>
        simp only [List.cons_append, List.nil_append, List.cons.injEq, true_and] at h
        have := hbreak h
        omega
      | [c], h =>
        simp only [List.cons_append, List.nil_append, List.cons.injEq] at h
        exact absurd h.2.1.symm hne
      | c :: d :: back, h =>
        simp only [List.cons_append, List.cons.injEq] at h
        have hback : block cr lf lines ++ rest = back ++ [cr, lf, cr, lf] ++ post := by
          simpa using h.2.2
        have hle := ih htail hback
        simp only [List.length_cons]
        omega
    · cases back with
      | nil =>
        simp only [List.cons_append, List.nil_append, List.cons.injEq, true_and] at h
        have := hbreak h.symm
        simp only [List.append_nil]
        omega
      | cons c back =>
        simp only [List.cons_append, List.cons.injEq] at h
        exact absurd (List.mem_append_right _ (h.1 ▸ List.mem_cons_self)) hl.2

/-- **The end of a block** is the first place with two breaks in a row. -/
theorem firstEnd_block (hne : cr ≠ lf) {lines : List (List α)} (hsome : lines ≠ [])
    (hlines : ∀ l ∈ lines, l ≠ [] ∧ cr ∉ l) (rest : List α) :
    FirstEnd cr lf (block cr lf lines) (block cr lf lines ++ rest) := by
  refine ⟨List.prefix_append _ _, ?_, fun pre post h => length_block_le hne hlines h⟩
  obtain ⟨front, l, rfl⟩ := (List.eq_nil_or_concat' lines).resolve_left hsome
  exact ⟨front.flatMap (· ++ [cr, lf]) ++ l, by simp [block]⟩

end Lines
