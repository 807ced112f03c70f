import Mathlib.Tactic

set_option relaxedAutoImplicit false
set_option autoImplicit false

/-!
# Searching without going back

A search for a pattern that compares each element of the text once: after a mismatch it starts
afresh behind the element that did not match, and so overlooks some occurrences. It finds those
that it reaches with nothing matched.

## Main definitions

* `Search.search` — the position of the last element of the match that the search finds.
* `Search.state` — how much of the pattern is matched behind a text.
* `Search.find`, `Search.before`, `Search.after` — the text around the match.
* `Search.FailedAttempts` — texts that the search passes over with nothing matched at the end.
* `Search.FirstAt` — the first occurrence in a text.

## Main results

* `Search.find_eq_some_iff`, `Search.find_eq_some_iff_append` — an occurrence is the one found
  exactly when the text in front of it consists of failed attempts.
* `Search.find_append` — a match that is reached with nothing matched is found.
* `Search.infix_of_state`, `Search.find_split` — what the search finds is an occurrence.
* `Search.find_flatMap_split` — what it finds in texts with separators is in one of the texts.
-/

namespace Search

variable {α : Type*} [DecidableEq α]

/-- Search for `what`, of which `j` elements are matched: the index of the last element of the
match, where the text starts at the index `i`. -/
def search (what : List α) : ℕ → ℕ → List α → Option ℕ
  | _, _, [] => none
  | i, j, c :: cs =>
    if what[j]? = some c then
      if j + 1 = what.length then some i else search what (i + 1) (j + 1) cs
    else search what (i + 1) 0 cs

/-- The number of elements of `what` that are matched behind a text, when `j` are in front of it;
`none` if there is a match in it. -/
def state (what : List α) : ℕ → List α → Option ℕ
  | j, [] => some j
  | j, c :: cs =>
    if what[j]? = some c then
      if j + 1 = what.length then none else state what (j + 1) cs
    else state what 0 cs

/-- The text in front of the match and the text behind it. -/
def find (what cs : List α) : Option (List α × List α) :=
  (search what 0 0 cs).map fun i => (cs.take (i + 1 - what.length), cs.drop (i + 1))

/-- The text in front of the match, or all of it. -/
def before (what cs : List α) : List α := ((find what cs).map Prod.fst).getD cs

/-- The text behind the match, if there is one. -/
def after (what cs : List α) : List α := ((find what cs).map Prod.snd).getD []

variable {what : List α}

/-- A match ends in the text. -/
lemma lt_of_search {i j k : ℕ} {cs : List α} (h : search what i j cs = some k) :
    k < i + cs.length := by
  induction cs generalizing i j with
  | nil => simp [search] at h
  | cons c cs ih =>
    rw [List.length_cons]
    unfold search at h
    split_ifs at h
    · obtain rfl := Option.some.inj h
      omega
    · have hlt := ih h
      omega
    · have hlt := ih h
      omega

lemma le_of_search {i j k : ℕ} {cs : List α} (h : search what i j cs = some k) : i ≤ k := by
  induction cs generalizing i j with
  | nil => simp [search] at h
  | cons c cs ih =>
    unfold search at h
    split_ifs at h
    · obtain rfl := Option.some.inj h
      exact le_rfl
    · exact (Nat.le_succ i).trans (ih h)
    · exact (Nat.le_succ i).trans (ih h)

lemma search_eq_none_iff {i j : ℕ} {cs : List α} :
    search what i j cs = none ↔ (state what j cs).isSome := by
  induction cs generalizing i j with
  | nil => simp [search, state]
  | cons c cs ih =>
    unfold search state
    split_ifs
    · simp
    · exact ih
    · exact ih

/-- The text in front is passed over. -/
lemma search_append {i j k : ℕ} {a b : List α} (h : state what j a = some k) :
    search what i j (a ++ b) = search what (i + a.length) k b := by
  induction a generalizing i j with
  | nil =>
    obtain rfl : j = k := Option.some.inj h
    rfl
  | cons c a ih =>
    unfold state at h
    rw [List.cons_append, search, List.length_cons, Nat.add_comm a.length 1, ← Nat.add_assoc]
    split_ifs at h ⊢
    · exact ih h
    · exact ih h

lemma state_append (j : ℕ) (a b : List α) :
    state what j (a ++ b) = (state what j a).bind fun k => state what k b := by
  induction a generalizing j with
  | nil => rfl
  | cons c a ih =>
    rw [List.cons_append, state, state]
    split_ifs
    · rfl
    · exact ih (j + 1)
    · exact ih 0

/-- A text in front of another has no match if both together have none. -/
lemma state_isSome_of_append {j : ℕ} {a b : List α} (h : (state what j (a ++ b)).isSome) :
    (state what j a).isSome := by
  rw [state_append] at h
  cases hstate : state what j a with
  | none => rw [hstate] at h; exact absurd h (by simp)
  | some k => rfl

/-- The rest of the pattern is matched. -/
lemma search_drop {i j : ℕ} (hj : j < what.length) (post : List α) :
    search what i j (what.drop j ++ post) = some (i + (what.length - j) - 1) := by
  obtain ⟨n, hn⟩ : ∃ n, what.length - j = n + 1 := ⟨what.length - j - 1, by omega⟩
  induction n generalizing i j with
  | zero =>
    rw [List.drop_eq_getElem_cons hj, List.cons_append, search,
      if_pos (List.getElem?_eq_getElem hj), if_pos (by omega), hn]
    simp
  | succ n ih =>
    rw [List.drop_eq_getElem_cons hj, List.cons_append, search,
      if_pos (List.getElem?_eq_getElem hj), if_neg (by omega), ih (by omega) (by omega)]
    congr 1
    omega

/-- **A match reached with nothing matched** is found. -/
theorem find_append {pre : List α} (post : List α) (hwhat : what ≠ [])
    (hpre : state what 0 pre = some 0) : find what (pre ++ (what ++ post)) = some (pre, post) := by
  have hpos := List.length_pos_iff.mpr hwhat
  have hsearch : search what 0 0 (pre ++ (what ++ post)) =
      some (pre.length + what.length - 1) := by
    have hdrop := search_drop (i := 0 + pre.length) hpos post
    rw [List.drop_zero] at hdrop
    rw [search_append hpre, hdrop, Nat.sub_zero, Nat.zero_add]
  have hfront : pre.length + what.length - 1 + 1 - what.length = pre.length := by omega
  have hback : pre.length + what.length - 1 + 1 = pre.length + what.length := by omega
  rw [find, hsearch, Option.map_some, hfront, hback, List.take_left, ← List.drop_drop,
    List.drop_left, List.drop_left]

lemma find_eq_none_iff {cs : List α} : find what cs = none ↔ (state what 0 cs).isSome := by
  rw [find, Option.map_eq_none_iff, search_eq_none_iff]

omit [DecidableEq α] in
lemma take_succ_of_getElem? {j : ℕ} {c : α} (h : what[j]? = some c) :
    what.take (j + 1) = what.take j ++ [c] := by
  rw [List.take_add_one, h]
  rfl

/-- **What is found occurs** in the text. -/
theorem infix_of_state {j : ℕ} (hj : j < what.length) {cs : List α}
    (h : state what j cs = none) : what <:+: what.take j ++ cs := by
  induction cs generalizing j with
  | nil => simp [state] at h
  | cons c cs ih =>
    unfold state at h
    split_ifs at h with hmatch hfull
    · have htake := take_succ_of_getElem? hmatch
      rw [List.take_of_length_le (by omega)] at htake
      refine ⟨[], cs, ?_⟩
      rw [List.nil_append, List.append_cons, ← htake]
    · have hoccurs := ih (j := j + 1) (by omega) h
      rwa [take_succ_of_getElem? hmatch, List.append_assoc] at hoccurs
    · have hoccurs := ih (j := 0) (by omega) h
      rw [List.take_zero, List.nil_append] at hoccurs
      exact hoccurs.trans ⟨what.take j ++ [c], [], by simp⟩

/-- A text in which the pattern does not occur has no match. -/
lemma state_isSome_of_absent {cs : List α} (hwhat : what ≠ []) (h : ¬ what <:+: cs) :
    (state what 0 cs).isSome := by
  cases hstate : state what 0 cs with
  | some k => rfl
  | none => exact absurd (infix_of_state (List.length_pos_iff.mpr hwhat) hstate) h

/-- Nothing is matched behind an element that is not in the pattern. -/
lemma state_cons_of_not_mem {j : ℕ} {c : α} (hc : c ∉ what) (cs : List α) :
    state what j (c :: cs) = state what 0 cs := by
  rw [state, if_neg fun h => hc (List.mem_of_getElem? h)]

/-- Nothing is matched behind elements that the pattern does not start with. -/
lemma state_of_ne_head {cs : List α} (h : ∀ c ∈ cs, what.head? ≠ some c) :
    state what 0 cs = some 0 := by
  induction cs with
  | nil => rfl
  | cons c cs ih =>
    rw [state, ← List.head?_eq_getElem?, if_neg (h c List.mem_cons_self)]
    exact ih fun d hd => h d (List.mem_cons_of_mem c hd)

/-- Nothing is matched behind elements that are not in the pattern. -/
lemma state_of_not_mem {cs : List α} (h : ∀ c ∈ cs, c ∉ what) : state what 0 cs = some 0 :=
  state_of_ne_head fun c hc heq => h c hc (List.mem_of_mem_head? heq)

/-- A line without the pattern, with an end that is not in the pattern. -/
lemma state_concat_of_not_mem {cs : List α} {c : α} (hwhat : what ≠ []) (h : ¬ what <:+: cs)
    (hc : c ∉ what) : state what 0 (cs ++ [c]) = some 0 := by
  obtain ⟨k, hk⟩ := Option.isSome_iff_exists.mp (state_isSome_of_absent hwhat h)
  rw [state_append, hk, Option.bind_some, state_cons_of_not_mem hc]
  rfl

/-- Texts behind each of which nothing is matched. -/
lemma state_flatMap {β : Type*} {xs : List β} {f : β → List α}
    (h : ∀ x ∈ xs, state what 0 (f x) = some 0) : state what 0 (xs.flatMap f) = some 0 := by
  induction xs with
  | nil => rfl
  | cons x xs ih =>
    rw [List.flatMap_cons, state_append, h x List.mem_cons_self, Option.bind_some,
      ih fun y hy => h y (List.mem_cons_of_mem x hy)]

/-- The text in front of a match that is reached with nothing matched. -/
lemma before_append {pre : List α} (post : List α) (hwhat : what ≠ [])
    (hpre : state what 0 pre = some 0) : before what (pre ++ (what ++ post)) = pre := by
  rw [before, find_append post hwhat hpre]
  rfl

/-- The text in front of texts that all start with the pattern. -/
lemma before_flatMap {β : Type*} {pre : List α} (hwhat : what ≠ [])
    (hpre : state what 0 pre = some 0) (xs : List β) (f : β → List α) :
    before what (pre ++ xs.flatMap fun x => what ++ f x) = pre := by
  cases xs with
  | nil =>
    rw [List.flatMap_nil, List.append_nil, before,
      find_eq_none_iff.mpr (Option.isSome_of_eq_some hpre)]
    rfl
  | cons x xs =>
    rw [List.flatMap_cons, List.append_assoc]
    exact before_append _ hwhat hpre

/-! ## A match in front of more text -/

lemma search_append_of_some {i j k : ℕ} {cs : List α} (h : search what i j cs = some k)
    (ds : List α) : search what i j (cs ++ ds) = some k := by
  induction cs generalizing i j with
  | nil => simp [search] at h
  | cons c cs ih =>
    unfold search at h
    rw [List.cons_append, search]
    split_ifs at h ⊢
    · exact h
    · exact ih h
    · exact ih h

/-- What is found in a text is found when more text follows. -/
lemma find_append_of_some {cs a b : List α} (h : find what cs = some (a, b)) (ds : List α) :
    find what (cs ++ ds) = some (a, b ++ ds) := by
  obtain ⟨k, hk, hab⟩ := Option.map_eq_some_iff.mp h
  obtain ⟨rfl, rfl⟩ := Prod.mk.inj hab
  have hlt := lt_of_search hk
  rw [find, search_append_of_some hk, Option.map_some, List.take_append_of_le_length (by omega),
    List.drop_append_of_le_length (by omega)]

/-- The search behind a text that leaves nothing matched. -/
lemma after_append {pre : List α} (hpre : state what 0 pre = some 0) (cs : List α) :
    after what (pre ++ cs) = after what cs := by
  have hshift : ∀ (i j k : ℕ) (cs : List α),
      search what (i + k) j cs = (search what i j cs).map (· + k) := by
    intro i j k cs
    induction cs generalizing i j with
    | nil => rfl
    | cons c cs ih =>
      rw [search, search, show i + k + 1 = i + 1 + k by omega]
      split_ifs
      · rfl
      · exact ih (i + 1) (j + 1)
      · exact ih (i + 1) 0
  rw [after, after, find, find, search_append hpre, hshift]
  cases search what 0 0 cs with
  | none => rfl
  | some k =>
    simp only [Option.map_some, Option.getD_some]
    rw [show k + pre.length + 1 = pre.length + (k + 1) by omega, ← List.drop_drop, List.drop_left]

/-- The match that the search ends with, behind what was matched before. -/
private lemma search_split {i j k : ℕ} (hj : j < what.length) {cs : List α}
    (h : search what i j cs = some k) :
    ∃ a, what.take j ++ cs = a ++ (what ++ cs.drop (k + 1 - i)) := by
  induction cs generalizing i j with
  | nil => simp [search] at h
  | cons c cs ih =>
    unfold search at h
    split_ifs at h with hmatch hfull
    · obtain rfl := Option.some.inj h
      have htake := take_succ_of_getElem? hmatch
      rw [List.take_of_length_le (by omega)] at htake
      refine ⟨[], ?_⟩
      rw [List.append_cons, ← htake, Nat.add_sub_cancel_left, List.drop_succ_cons, List.drop_zero,
        List.nil_append]
    · obtain ⟨a, ha⟩ := ih (by omega) h
      have hk := le_of_search h
      refine ⟨a, ?_⟩
      rw [List.append_cons, ← take_succ_of_getElem? hmatch, ha,
        show k + 1 - i = k + 1 - (i + 1) + 1 by omega, List.drop_succ_cons]
    · obtain ⟨a, ha⟩ := ih (j := 0) (by omega) h
      have hk := le_of_search h
      rw [List.take_zero, List.nil_append] at ha
      refine ⟨what.take j ++ c :: a, ?_⟩
      rw [show k + 1 - i = k + 1 - (i + 1) + 1 by omega, List.drop_succ_cons, List.append_assoc,
        List.cons_append, ← ha]

/-- **A match splits the text.** -/
theorem find_split {cs a b : List α} (hwhat : what ≠ []) (h : find what cs = some (a, b)) :
    ∃ a', cs = a' ++ (what ++ b) := by
  obtain ⟨k, hk, hab⟩ := Option.map_eq_some_iff.mp h
  obtain ⟨a', ha'⟩ := search_split (List.length_pos_iff.mpr hwhat) hk
  rw [List.take_zero, List.nil_append, Nat.sub_zero] at ha'
  exact ⟨a', ha'.trans (by rw [(Prod.mk.inj hab).2])⟩

/-! ## The occurrences that are found -/

/-- Texts that consist of failed attempts: each is some elements that the pattern starts with, and
one that it does not go on with. -/
inductive FailedAttempts (what : List α) : List α → Prop
  | nil : FailedAttempts what []
  | attempt {m : ℕ} {c : α} {rest : List α} (hm : m < what.length) (hc : what[m]? ≠ some c)
      (h : FailedAttempts what rest) : FailedAttempts what (what.take m ++ c :: rest)

lemma state_lt {j k : ℕ} (hj : j < what.length) {cs : List α} (h : state what j cs = some k) :
    k < what.length := by
  induction cs generalizing j with
  | nil =>
    obtain rfl := Option.some.inj h
    exact hj
  | cons c cs ih =>
    unfold state at h
    split_ifs at h
    · exact ih (by omega) h
    · exact ih (by omega) h

/-- The start of the pattern is matched. -/
lemma state_take {m : ℕ} (hm : m < what.length) : state what 0 (what.take m) = some m := by
  induction m with
  | zero => rfl
  | succ m ih =>
    have hget := List.getElem?_eq_getElem (l := what) (i := m) (by omega)
    rw [take_succ_of_getElem? hget, state_append, ih (by omega), Option.bind_some, state,
      if_pos hget, if_neg (by omega)]
    rfl

/-- **Failed attempts** are what the search passes over with nothing matched at the end. -/
theorem failedAttempts_iff {a : List α} (hwhat : what ≠ []) :
    FailedAttempts what a ↔ state what 0 a = some 0 := by
  constructor
  · intro h
    induction h with
    | nil => rfl
    | attempt hm hc _ ih =>
      rw [state_append, state_take hm, Option.bind_some, state, if_neg hc]
      exact ih
  · intro h
    have hfront : ∀ j < what.length, state what j a = some 0 →
        FailedAttempts what (what.take j ++ a) := by
      clear h
      intro j hj h
      induction a generalizing j with
      | nil =>
        obtain rfl := Option.some.inj h
        exact .nil
      | cons c a ih =>
        unfold state at h
        split_ifs at h with hmatch hfull
        · rw [List.append_cons, ← take_succ_of_getElem? hmatch]
          exact ih (j + 1) (by omega) h
        · exact .attempt hj hmatch (ih 0 (by omega) h)
    exact hfront 0 (List.length_pos_iff.mpr hwhat) h

/-- A match takes the rest of the pattern, or more than all of it. -/
lemma length_of_search {i j k : ℕ} (hj : j < what.length) {cs : List α}
    (h : search what i j cs = some k) :
    k + 1 = i + (what.length - j) ∨ i + what.length < k + 1 := by
  induction cs generalizing i j with
  | nil => simp [search] at h
  | cons c cs ih =>
    unfold search at h
    split_ifs at h with hmatch hfull
    · obtain rfl := Option.some.inj h
      exact .inl (by omega)
    · rcases ih (by omega) h with hend | hlong
      · exact .inl (by omega)
      · exact .inr (by omega)
    · rcases ih (by omega) h with hend | hlong
      · exact .inr (by omega)
      · exact .inr (by omega)

/-- The position of what is found. -/
lemma length_of_find {cs a b : List α} (hwhat : what ≠ []) (h : find what cs = some (a, b)) :
    search what 0 0 cs = some (a.length + what.length - 1) := by
  obtain ⟨k, hk, hab⟩ := Option.map_eq_some_iff.mp h
  have hpos := List.length_pos_iff.mpr hwhat
  have hlt := lt_of_search hk
  have hlen : a.length = k + 1 - what.length := by
    rw [← (Prod.mk.inj hab).1, List.length_take]
    omega
  rw [hk, hlen]
  rcases length_of_search hpos hk with hend | hlong
  · exact congrArg some (by omega)
  · exact congrArg some (by omega)

/-- What is found splits the text, with the text in front of it. -/
lemma eq_append_of_find {cs a b : List α} (hwhat : what ≠ []) (h : find what cs = some (a, b)) :
    cs = a ++ (what ++ b) := by
  obtain ⟨a', ha'⟩ := find_split hwhat h
  obtain ⟨k, hk, hab⟩ := Option.map_eq_some_iff.mp h
  obtain ⟨rfl, hb⟩ := Prod.mk.inj hab
  have hlt := lt_of_search hk
  have hlen : a'.length = k + 1 - what.length := by
    have hcs := congrArg List.length ha'
    have hblen := congrArg List.length hb
    rw [List.length_append, List.length_append] at hcs
    rw [List.length_drop] at hblen
    omega
  have htake : cs.take (k + 1 - what.length) = a' := by
    rw [ha', List.take_left' hlen]
  rw [htake]
  exact ha'

/-- The pattern occurs in the text behind `a`, and nowhere in front of that. -/
def FirstAt (what cs a : List α) : Prop :=
  (∃ b, cs = a ++ (what ++ b)) ∧ ∀ a' b', cs = a' ++ (what ++ b') → a.length ≤ a'.length

omit [DecidableEq α] in
/-- The only place at which the pattern stands is the only one at which it occurs. -/
lemma eq_of_only_at {cs front rest : List α} (hcs : cs = front ++ (what ++ rest))
    (honly : ∀ k ≤ cs.length, (cs.drop k).take what.length = what → k = front.length)
    {a b : List α} (hab : cs = a ++ (what ++ b)) : a = front := by
  have hlen : a.length = front.length := by
    apply honly a.length
    · rw [hab, List.length_append]
      omega
    · rw [hab, List.drop_left, List.take_left]
  exact (List.append_inj (hab.symm.trans hcs) hlen).1

omit [DecidableEq α] in
lemma firstAt_of_only_at {cs front rest : List α} (hcs : cs = front ++ (what ++ rest))
    (honly : ∀ k ≤ cs.length, (cs.drop k).take what.length = what → k = front.length) :
    FirstAt what cs front := by
  refine ⟨⟨rest, hcs⟩, fun a b hab => ?_⟩
  rw [eq_of_only_at hcs honly hab]

omit [DecidableEq α] in
/-- A pattern that occurs has a first occurrence. -/
lemma exists_firstAt {cs : List α} (h : what <:+: cs) : ∃ a, FirstAt what cs a := by
  classical
  have hex : ∃ n, ∃ a b, cs = a ++ (what ++ b) ∧ a.length = n := by
    obtain ⟨a, b, hab⟩ := h
    exact ⟨a.length, a, b, by rw [← hab, List.append_assoc], rfl⟩
  obtain ⟨a, b, hab, hn⟩ := Nat.find_spec hex
  refine ⟨a, ⟨b, hab⟩, fun a' b' hab' => ?_⟩
  rw [hn]
  exact Nat.find_min' hex ⟨a', b', hab', rfl⟩

/-- **An occurrence is the one found** exactly when the text in front of it consists of failed
attempts.

**Proof sketch.** If the search has `j` elements matched in front of the occurrence, then it ends
`what.length - j` elements behind or more than `what.length` elements behind
(`length_of_search`), so that `j` is zero if it ends with the occurrence. -/
theorem find_eq_some_iff (a b : List α) (hwhat : what ≠ []) :
    find what (a ++ (what ++ b)) = some (a, b) ↔ FailedAttempts what a := by
  rw [failedAttempts_iff hwhat]
  refine ⟨fun h => ?_, find_append b hwhat⟩
  have hpos := List.length_pos_iff.mpr hwhat
  have hsearch := length_of_find hwhat h
  cases hstate : state what 0 a with
  | none =>
    -- a match within `a` would be found
    cases ha : search what 0 0 a with
    | none => rw [search_eq_none_iff, hstate] at ha; exact absurd ha (by simp)
    | some k =>
      have hlt := lt_of_search ha
      rw [search_append_of_some ha, Option.some.injEq] at hsearch
      omega
  | some j =>
    have hj := state_lt hpos hstate
    rw [search_append hstate] at hsearch
    rcases length_of_search hj hsearch with hend | hlong
    · exact congrArg some (by omega)
    · omega

/-- **What the search finds**: an occurrence behind failed attempts. -/
theorem find_eq_some_iff_append {cs a b : List α} (hwhat : what ≠ []) :
    find what cs = some (a, b) ↔ cs = a ++ (what ++ b) ∧ FailedAttempts what a := by
  constructor
  · intro h
    obtain rfl := eq_append_of_find hwhat h
    exact ⟨rfl, (find_eq_some_iff a b hwhat).mp h⟩
  · rintro ⟨rfl, hfailed⟩
    exact (find_eq_some_iff a b hwhat).mpr hfailed

omit [DecidableEq α] in
/-- The attempts to find one element fail on the other elements. -/
lemma failedAttempts_singleton {x : α} {a : List α} : FailedAttempts [x] a ↔ x ∉ a := by
  constructor
  · intro h
    induction h with
    | nil => exact List.not_mem_nil
    | @attempt n c rest hn hc _ ih =>
      obtain rfl : n = 0 := Nat.lt_one_iff.mp hn
      rw [List.take_zero, List.nil_append, List.mem_cons]
      rintro (rfl | hmem)
      · exact hc rfl
      · exact ih hmem
  · intro h
    induction a with
    | nil => exact .nil
    | cons c rest ih =>
      rw [List.mem_cons, not_or] at h
      exact @FailedAttempts.attempt _ [x] 0 c rest Nat.one_pos
        (fun hx => h.1 (Option.some.inj hx)) (ih h.2)

/-! ## Texts with separators -/

omit [DecidableEq α] in
/-- The end of a text whose separator is not in the pattern is not in a match. -/
private lemma suffix_of_split {sep x a b : List α} (hsep : ∀ c ∈ sep, c ∉ what)
    (hwhat : what ≠ []) (h : x ++ sep = a ++ (what ++ b)) : ∃ q, q <:+ x ∧ b = q ++ sep := by
  induction sep using List.reverseRecOn generalizing b with
  | nil =>
    rw [List.append_nil] at h
    exact ⟨b, ⟨a ++ what, by rw [h, List.append_assoc]⟩, by rw [List.append_nil]⟩
  | append_singleton sep c ih =>
    rcases List.eq_nil_or_concat' b with rfl | ⟨b', d, rfl⟩
    · -- the last element would be in the pattern
      obtain ⟨what', e, rfl⟩ := (List.eq_nil_or_concat' what).resolve_left hwhat
      rw [List.append_nil, ← List.append_assoc, ← List.append_assoc] at h
      have hce : c = e := by simpa using (List.append_inj' h rfl).2
      exact absurd (by rw [hce]; simp) (hsep c (by simp))
    · rw [← List.append_assoc, ← List.append_assoc, ← List.append_assoc] at h
      obtain ⟨hinit, hlast⟩ := List.append_inj' h rfl
      obtain ⟨q, hq, rfl⟩ := ih (fun e he => hsep e (by simp [he]))
        (by rw [hinit, List.append_assoc])
      exact ⟨q, hq, by rw [hlast, List.append_assoc]⟩

variable {sep : List α} (hsep : ∀ c ∈ sep, c ∉ what) (hne : sep ≠ [])
include hsep hne

/-- Nothing is matched behind texts with separators in which there is no match. -/
lemma state_flatMap_of_none {xs : List (List α)} (h : find what (xs.flatMap (· ++ sep)) = none) :
    state what 0 (xs.flatMap (· ++ sep)) = some 0 := by
  obtain ⟨k, hk⟩ := Option.isSome_iff_exists.mp (find_eq_none_iff.mp h)
  rcases List.eq_nil_or_concat' xs with rfl | ⟨ys, y, rfl⟩
  · rfl
  · obtain ⟨sep', c, rfl⟩ := (List.eq_nil_or_concat' sep).resolve_left hne
    rw [List.flatMap_append, List.flatMap_singleton, ← List.append_assoc, ← List.append_assoc,
      state_append] at hk ⊢
    obtain ⟨j, hj, -⟩ := Option.bind_eq_some_iff.mp hk
    rw [hj, Option.bind_some, state_cons_of_not_mem (hsep c (by simp))]
    rfl

/-- **A match in texts with separators** lies in one of the texts: what is behind it is an end of
this text, its separator, and the texts that follow. -/
theorem find_flatMap_split (hwhat : what ≠ []) {xs : List (List α)} {a b : List α}
    (h : find what (xs.flatMap (· ++ sep)) = some (a, b)) :
    ∃ x q ys, q <:+ x ∧ x :: ys <:+ xs ∧ b = q ++ sep ++ ys.flatMap (· ++ sep) := by
  induction xs generalizing a b with
  | nil => simp [find, search] at h
  | cons x xs ih =>
    rw [List.flatMap_cons] at h
    cases hx : find what (x ++ sep) with
    | some found =>
      obtain ⟨a', b'⟩ := found
      rw [find_append_of_some hx, Option.some.injEq] at h
      obtain ⟨p, hp⟩ := find_split hwhat hx
      obtain ⟨q, hq, hb'⟩ := suffix_of_split hsep hwhat hp
      exact ⟨x, q, xs, hq, List.suffix_refl _, by rw [← (Prod.mk.inj h).2, hb']⟩
    | none =>
      have hstate := @state_flatMap_of_none _ _ _ _ hsep hne [x] (by simpa using hx)
      rw [List.flatMap_singleton] at hstate
      have hafter := after_append hstate (xs.flatMap (· ++ sep))
      cases hxs : find what (xs.flatMap (· ++ sep)) with
      | none =>
        have hnone := state_flatMap_of_none hsep hne hxs
        have hfind : (find what (x ++ sep ++ xs.flatMap (· ++ sep))).isNone := by
          rw [Option.isNone_iff_eq_none, find_eq_none_iff, state_append, hstate, Option.bind_some,
            hnone]
          rfl
        rw [h] at hfind
        exact absurd hfind (by simp)
      | some found =>
        obtain ⟨a', b'⟩ := found
        rw [after, after, h, hxs] at hafter
        obtain rfl : b = b' := hafter
        obtain ⟨y, q, ys, hq, hys, hb⟩ := ih hxs
        exact ⟨y, q, ys, hq, hys.trans (List.suffix_cons x xs), hb⟩

end Search
