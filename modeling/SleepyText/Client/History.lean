import SleepyText.Lib.Splice

set_option relaxedAutoImplicit false
set_option autoImplicit false

/-!
# Texts, changes and histories of the editor

The strings of the browser are lists of UTF-16 code units. A history (`history.js`) is a list of
changes with a position in it and the text at that position; `forward` and `back` move it by one
change and `go` to a given position.

## Main definitions

* `JsString`, `substr`, `slice` — strings and the slicing operations used on strings and arrays.
* `Change`, `Change.applyTo`, `Change.revert` — a change and its two replacements.
* `History`, `History.forward`, `History.back`, `History.go` — `history.prototype`.
* `replay` — the text that a list of steps makes out of the empty text.
* `Change.Chain` — every step replaces a text that stands where it says.

## Main results

* `Change.revert_applyTo` — `back` undoes `forward`.
* `History.go_spec` — `go` ends, at the clamped position, with the text of that position.
-/

namespace SleepyText.Client

/-- Strings of the browser: UTF-16 code units. -/
abbrev JsString := List UInt16

/-- `s.substr(start, length)` for a start that is not negative. -/
def substr (s : JsString) (start length : ℕ) : JsString :=
  (s.drop start).take length

/-- `xs.slice(start, stop)` of strings and arrays: a negative bound counts from the end. -/
def slice {α : Type*} (xs : List α) (start stop : ℤ) : List α :=
  let bound (k : ℤ) : ℤ := if k < 0 then max (xs.length + k) 0 else min k xs.length
  (xs.take (bound stop).toNat).drop (bound start).toNat

/-- With bounds in the list `slice` is the part between them. -/
lemma slice_eq_drop_take {α : Type*} (xs : List α) {i j : ℕ} (hi : i ≤ xs.length)
    (hj : j ≤ xs.length) : slice xs i j = (xs.take j).drop i := by
  simp only [slice, Int.natCast_nonneg, not_lt.mpr, if_false]
  rw [show (min (j : ℤ) xs.length).toNat = j by omega,
    show (min (i : ℤ) xs.length).toNat = i by omega]

/-- `xs.slice(0, stop)` takes the first `stop` elements, if `stop` is not negative. -/
lemma slice_zero_of_nonneg {α : Type*} (xs : List α) {stop : ℤ} (h : 0 ≤ stop) :
    slice xs 0 stop = xs.take stop.toNat := by
  have hmin : (min stop (xs.length : ℤ)).toNat = min stop.toNat xs.length := by omega
  simp only [slice, lt_irrefl, if_false, not_lt.mpr h]
  rw [hmin, show (min (0 : ℤ) (xs.length : ℤ)).toNat = 0 by omega, List.drop_zero,
    ← List.take_take, List.take_length]

/-- A change of the text: at `pos` the text `last` is replaced by `now`. -/
structure Change where
  pos : ℕ
  last : JsString
  now : JsString
  deriving DecidableEq, Repr

namespace Change

/-- The text after the change, as `forward` computes it. -/
def applyTo (change : Change) (render : JsString) : JsString :=
  substr render 0 change.pos ++ change.now ++
    substr render (change.pos + change.last.length) render.length

/-- The text before the change, as `back` computes it. -/
def revert (change : Change) (render : JsString) : JsString :=
  substr render 0 change.pos ++ change.last ++
    substr render (change.pos + change.now.length) render.length

/-- Cutting `render` the way `forward` and `back` do is a splice. -/
private lemma substr_splice (render new : JsString) (pos n : ℕ) :
    substr render 0 pos ++ new ++ substr render (pos + n) render.length =
      Splice.splice pos n new render := by
  have htail : (render.drop (pos + n)).take render.length = render.drop (pos + n) :=
    List.take_of_length_le (by simp)
  simp only [substr, List.drop_zero, htail, Splice.splice]

lemma applyTo_eq_splice (change : Change) (render : JsString) :
    change.applyTo render = Splice.splice change.pos change.last.length change.now render :=
  substr_splice render change.now change.pos change.last.length

lemma revert_eq_splice (change : Change) (render : JsString) :
    change.revert render = Splice.splice change.pos change.now.length change.last render :=
  substr_splice render change.last change.pos change.now.length

/-- `back` undoes `forward` on a text in which `last` stands at `pos`. -/
theorem revert_applyTo (change : Change) {render : JsString}
    (h : Splice.StandsAt change.pos change.last render) :
    change.revert (change.applyTo render) = render := by
  rw [revert_eq_splice, applyTo_eq_splice, Splice.splice_undo change.now h]

/-- Every step replaces a text that stands where the step says, from the text `t` on. -/
def Chain : JsString → List Change → Prop
  | _, [] => True
  | t, c :: cs => Splice.StandsAt c.pos c.last t ∧ Chain (c.applyTo t) cs

end Change

/-- The text that the steps make out of `t`. -/
def replayFrom (t : JsString) (steps : List Change) : JsString :=
  steps.foldl (fun t c => c.applyTo t) t

/-- The text that the steps make out of the empty text. -/
def replay (steps : List Change) : JsString :=
  replayFrom [] steps

@[simp] lemma replay_nil : replay [] = [] := rfl

/-- Replaying one more step. -/
@[simp] lemma replay_concat (steps : List Change) (c : Change) :
    replay (steps ++ [c]) = c.applyTo (replay steps) := by
  simp [replay, replayFrom]

/-- A chain of two parts is a chain and a chain from the text the first one makes. -/
lemma Change.chain_append {t : JsString} {xs ys : List Change} :
    Change.Chain t (xs ++ ys) ↔ Change.Chain t xs ∧ Change.Chain (replayFrom t xs) ys := by
  induction xs generalizing t with
  | nil => simp [Change.Chain, replayFrom]
  | cons c xs ih => simp [Change.Chain, ih, replayFrom, and_assoc]

/-- The step at position `k` of a chain replaces a text that stands in the text of position
`k`. -/
lemma Change.Chain.standsAt {steps : List Change} (h : Change.Chain [] steps) {k : ℕ} {c : Change}
    (hc : steps[k]? = some c) : Splice.StandsAt c.pos c.last (replay (steps.take k)) := by
  have hsplit : steps = steps.take k ++ c :: steps.drop (k + 1) := by
    obtain ⟨hk, rfl⟩ := List.getElem?_eq_some_iff.mp hc
    rw [List.getElem_cons_drop, List.take_append_drop]
  rw [hsplit, Change.chain_append] at h
  exact h.2.1

/-- A prefix of a chain is a chain. -/
lemma Change.Chain.take {steps : List Change} (h : Change.Chain [] steps) (k : ℕ) :
    Change.Chain [] (steps.take k) := by
  rw [← List.take_append_drop k steps, Change.chain_append] at h
  exact h.1

/-- A chain stays a chain when a step is added that replaces what stands in its text. -/
lemma Change.Chain.concat {steps : List Change} (h : Change.Chain [] steps) {c : Change}
    (hc : Splice.StandsAt c.pos c.last (replay steps)) : Change.Chain [] (steps ++ [c]) :=
  Change.chain_append.mpr ⟨h, hc, trivial⟩

/-- `history`: steps, a position among them and the text shown. -/
structure History where
  steps : List Change
  position : ℕ
  render : JsString
  deriving DecidableEq, Repr

namespace History

/-- `new history(steps)`. -/
def new (steps : List Change) : History := ⟨steps, 0, []⟩

/-- `history.forward`; `none` stands for the `TypeError` of reading a missing step. -/
def forward (h : History) : Option History :=
  if (h.position : ℤ) > h.steps.length - 1 then some h
  else (h.steps[h.position]?).map fun change =>
    { h with position := h.position + 1, render := change.applyTo h.render }

/-- `history.back`. -/
def back (h : History) : Option History :=
  if h.position ≤ 0 then some h
  else (h.steps[h.position - 1]?).map fun change =>
    { h with position := h.position - 1, render := change.revert h.render }

/-- The `while` loop of `history.go`, for at most `fuel` turns. -/
def goLoop (go : ℕ) : ℕ → History → Option History
  | 0, h => if h.position = go then some h else none
  | fuel + 1, h =>
    if h.position = go then some h
    else if h.position > go then h.back.bind (goLoop go fuel)
    else h.forward.bind (goLoop go fuel)

/-- `history.go`; `none` also stands for a loop that does not end. -/
def go (h : History) (go : ℤ) : Option History :=
  if (h.position : ℤ) = go then some h
  else
    let go := if go ≤ 0 then 0 else go
    let go := if go > h.steps.length then (h.steps.length : ℤ) else go
    goLoop go.toNat (h.position + h.steps.length) h

/-- The text shown is the text of the position. -/
structure InStep (h : History) : Prop where
  position_le : h.position ≤ h.steps.length
  render_eq : h.render = replay (h.steps.take h.position)

/-- The history moved to the position `k`. -/
def at_ (h : History) (k : ℕ) : History :=
  { h with position := k, render := replay (h.steps.take k) }

lemma InStep.eq_at {h : History} (hs : h.InStep) : h = h.at_ h.position := by
  cases h
  simpa [at_] using hs.render_eq

lemma inStep_at (h : History) {k : ℕ} (hk : k ≤ h.steps.length) : (h.at_ k).InStep :=
  ⟨hk, rfl⟩

/-- The texts of two neighbouring positions differ by the step between them. -/
lemma replay_take_succ {steps : List Change} {k : ℕ} {c : Change} (hc : steps[k]? = some c) :
    replay (steps.take (k + 1)) = c.applyTo (replay (steps.take k)) := by
  rw [List.take_add_one, hc, Option.toList_some, replay_concat]

lemma forward_at (h : History) {k : ℕ} (hk : k < h.steps.length) :
    (h.at_ k).forward = some (h.at_ (k + 1)) := by
  have hc : h.steps[k]? = some h.steps[k] := List.getElem?_eq_getElem hk
  have hguard : ¬ ((k : ℤ) > h.steps.length - 1) := by omega
  simp only [forward, at_, hguard, if_false, hc, Option.map_some, replay_take_succ hc]

lemma back_at (h : History) (hchain : Change.Chain [] h.steps) {k : ℕ} (hk : k < h.steps.length) :
    (h.at_ (k + 1)).back = some (h.at_ k) := by
  have hc : h.steps[k]? = some h.steps[k] := List.getElem?_eq_getElem hk
  have hguard : ¬ (k + 1 ≤ 0) := by omega
  simp only [back, at_, hguard, if_false, Nat.add_sub_cancel, hc, Option.map_some,
    replay_take_succ hc, Change.revert_applyTo _ (hchain.standsAt hc)]

/-- The loop of `go` reaches its target when it is given a turn for each step on the way.

**Proof sketch.** Induction on the number of turns: a turn moves the position by one towards the
target, by `forward_at` or `back_at`. -/
lemma goLoop_at (h : History) (hchain : Change.Chain [] h.steps) {target : ℕ}
    (htarget : target ≤ h.steps.length) (fuel k : ℕ) (hk : k ≤ h.steps.length)
    (hfuel : k - target + (target - k) ≤ fuel) :
    goLoop target fuel (h.at_ k) = some (h.at_ target) := by
  induction fuel generalizing k with
  | zero =>
    obtain rfl : k = target := by omega
    simp [goLoop, at_]
  | succ fuel ih =>
    rcases lt_trichotomy k target with hlt | rfl | hgt
    · have hne : ¬ (h.at_ k).position = target := hlt.ne
      have hngt : ¬ (h.at_ k).position > target := by simpa [at_] using hlt.le
      rw [goLoop, if_neg hne, if_neg hngt, forward_at h (by omega), Option.bind_some]
      exact ih (k + 1) (by omega) (by omega)
    · simp [goLoop, at_]
    · obtain ⟨m, rfl⟩ : ∃ m, k = m + 1 := ⟨k - 1, by omega⟩
      have hne : ¬ (h.at_ (m + 1)).position = target := hgt.ne'
      have hback : (h.at_ (m + 1)).position > target := hgt
      rw [goLoop, if_neg hne, if_pos hback, back_at h hchain (by omega), Option.bind_some]
      exact ih m (by omega) (by omega)

/-- **`history.go`** ends and shows the text of the position it was asked for, clamped to the
steps there are. -/
theorem go_spec {h : History} (hs : h.InStep) (hchain : Change.Chain [] h.steps) (k : ℤ) :
    h.go k = some (h.at_ (min k.toNat h.steps.length)) := by
  have hle := hs.position_le
  by_cases heq : (h.position : ℤ) = k
  · rw [go, if_pos heq]
    have hpos : min k.toNat h.steps.length = h.position := by omega
    rw [hpos, ← hs.eq_at]
  · rw [go, if_neg heq]
    have htarget : (if (if k ≤ 0 then 0 else k) > (h.steps.length : ℤ) then (h.steps.length : ℤ)
        else (if k ≤ 0 then 0 else k)).toNat = min k.toNat h.steps.length := by
      split_ifs <;> omega
    dsimp only
    rw [htarget]
    have hloop := goLoop_at h hchain (Nat.min_le_right k.toNat h.steps.length)
      (h.position + h.steps.length) h.position hle (by omega)
    rwa [← hs.eq_at] at hloop

end History

end SleepyText.Client
