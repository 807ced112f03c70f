import SleepyText.Lib.Run
import SleepyText.Client.Editor

set_option relaxedAutoImplicit false
set_option autoImplicit false

/-!
# Moving through a history

What the slider relies on: a recorded change is exact in both directions, and the text shown
after any sequence of moves is the text of the position they end at.

## Main definitions

* `clampedTo` — the position that a sequence of calls of `go` ends at.

## Main results

* `diff_exact` — `forward` and `back` with a recorded change lead from one text to the other.
* `History.run_go` — any sequence of calls of `go` ends at the last position asked for.
* `slides_show` — the text area shows the text of the position after any moves of the slider.
-/

namespace SleepyText.Client

/-! ## One recorded change -/

/-- A list that stands at a position is the `substr` of that position. -/
private lemma substr_eq_of_standsAt {pos : ℕ} {s t : JsString} (h : Splice.StandsAt pos s t) :
    substr t pos s.length = s :=
  h.2

/-- The common prefix and the common suffix that `oninput` takes fit into both texts side by
side, since the second loop stops at the first character of the prefix. -/
lemma suffixLoop_le (last text : JsString) (fuel j : ℕ) :
    suffixLoop last text j fuel ≤ j + fuel := by
  induction fuel generalizing j with
  | zero => exact le_rfl
  | succ fuel ih =>
    unfold suffixLoop
    split
    · omega
    · exact (ih (j + 1)).trans (by omega)

/-- The first loop stays below its bound. -/
lemma prefixLoop_le (last text : JsString) (fuel i : ℕ) :
    prefixLoop last text i fuel ≤ i + fuel := by
  induction fuel generalizing i with
  | zero => exact le_rfl
  | succ fuel ih =>
    unfold prefixLoop
    split
    · omega
    · exact (ih (i + 1)).trans (by omega)

/-- What a change puts in stands at its position afterwards. -/
lemma Change.standsAt_applyTo (c : Change) {render : JsString}
    (h : Splice.StandsAt c.pos c.last render) :
    Splice.StandsAt c.pos c.now (c.applyTo render) := by
  obtain ⟨a, b, rfl, hpos⟩ := h.split
  rw [Change.applyTo_eq_splice, ← hpos, Splice.splice_middle]
  exact Splice.standsAt_middle a c.now b

/-- **A recorded change is exact in both directions.** With the change that `oninput` records as
the next step, `forward` leads from the old text to the new one; with it as the step behind,
`back` leads from the new text to the old one. The change holds the text it replaces and the
text it puts in, and the common prefix and suffix do not overlap.

**Proof sketch.** `diff_applyTo` gives both the place of `last` in the old text and the result of
`forward`; `back` undoes `forward` (`Change.revert_applyTo`). -/
theorem diff_exact (last text : JsString) (before after : List Change) :
    (⟨before ++ diff last text :: after, before.length, last⟩ : History).forward =
        some ⟨before ++ diff last text :: after, before.length + 1, text⟩ ∧
      (⟨before ++ diff last text :: after, before.length + 1, text⟩ : History).back =
        some ⟨before ++ diff last text :: after, before.length, last⟩ ∧
      substr last (diff last text).pos (diff last text).last.length = (diff last text).last ∧
      substr text (diff last text).pos (diff last text).now.length = (diff last text).now ∧
      prefixLoop last text 0 (min last.length text.length) +
          suffixLoop last text 0 (min last.length text.length -
            prefixLoop last text 0 (min last.length text.length)) ≤
        min last.length text.length := by
  obtain ⟨hstands, happly⟩ := diff_applyTo last text
  set change := diff last text with hchange
  have hstep : (before ++ change :: after)[before.length]? = some change := by simp
  refine ⟨?_, ?_, substr_eq_of_standsAt hstands, ?_, ?_⟩
  · have hguard : ¬ ((before.length : ℤ) > (before ++ change :: after).length - 1) := by
      simp only [List.length_append, List.length_cons]
      omega
    simp only [History.forward, if_neg hguard, hstep, Option.map_some, happly]
  · have hguard : ¬ (before.length + 1 ≤ 0) := by omega
    have hback : change.revert text = last := by
      rw [← happly]
      exact change.revert_applyTo hstands
    simp only [History.back, if_neg hguard, Nat.add_sub_cancel, hstep, Option.map_some, hback]
  · have hnow := change.standsAt_applyTo hstands
    rw [happly] at hnow
    exact substr_eq_of_standsAt hnow
  · have hprefix := prefixLoop_le last text (min last.length text.length) 0
    have hsuffix := suffixLoop_le last text (min last.length text.length -
      prefixLoop last text 0 (min last.length text.length)) 0
    omega

/-! ## Sequences of moves -/

/-- The position after the moves `ks` from `position` in a history of `n` steps: the last one
asked for, clamped to the steps there are. -/
def clampedTo (position n : ℕ) (ks : List ℤ) : ℕ :=
  match ks.getLast? with
  | some k => min k.toNat n
  | none => position

lemma clampedTo_cons (position n : ℕ) (k : ℤ) (ks : List ℤ) :
    clampedTo position n (k :: ks) = clampedTo (min k.toNat n) n ks := by
  cases ks with
  | nil => rfl
  | cons k' ks => rw [clampedTo, clampedTo, List.getLast?_cons_cons, List.getLast?_eq_some_getLast
      (List.cons_ne_nil k' ks)]

namespace History

/-- **Sequences of calls of `go`.** From a position of a chain of splices every call ends, and
after all of them the history is at the last position asked for, clamped, and shows the text of
that position.

**Proof sketch.** Induction on the calls with `go_spec`: a call leaves the steps as they are and
shows the text of its position, so the next call starts like the first one. -/
theorem run_go {h : History} (hs : h.InStep) (hchain : Change.Chain [] h.steps) (ks : List ℤ) :
    Run.run go h ks = some (h.at_ (clampedTo h.position h.steps.length ks)) := by
  induction ks generalizing h with
  | nil => rw [Run.run_nil, clampedTo, List.getLast?_nil, ← hs.eq_at]
  | cons k ks ih =>
    have hle : min k.toNat h.steps.length ≤ h.steps.length := Nat.min_le_right _ _
    rw [Run.run, go_spec hs hchain k, Option.bind_some, ih (h.inStep_at hle) hchain,
      clampedTo_cons]
    rfl

/-- Moving the slider beyond both ends of a history of two steps. -/
theorem run_go_two_steps :
    Run.run go ⟨[⟨0, [], [97]⟩, ⟨1, [], [98]⟩], 2, [97, 98]⟩ [-3, 1, 7, 1] =
      some ⟨[⟨0, [], [97]⟩, ⟨1, [], [98]⟩], 1, [97]⟩ :=
  run_go (h := ⟨[⟨0, [], [97]⟩, ⟨1, [], [98]⟩], 2, [97, 98]⟩) ⟨by decide, by decide⟩
    ⟨⟨by decide, rfl⟩, ⟨by decide, rfl⟩, trivial⟩ [-3, 1, 7, 1]

end History

/-- The editor moved to the position `k` of its history. -/
def EditorView.showing (e : EditorView) (k : ℕ) : EditorView :=
  { e with
    history := e.history.at_ k
    last := replay (e.history.steps.take k)
    value := replay (e.history.steps.take k) }

/-- One move of the slider. -/
lemma step_slide {c : State} {e : EditorView} (he : c.view = .editor e)
    (hs : e.history.InStep) (hchain : Change.Chain [] e.history.steps) (k : ℤ) :
    step c (.slide k) =
      some { c with view := .editor (e.showing (min k.toNat e.history.steps.length)) } := by
  simp only [step, he, slide, History.go_spec hs hchain, Option.map_some]
  rfl

/-- **The slider.** After any moves of the slider the text area and `last` hold the text of the
last position moved to, and nothing else of the client has changed. -/
theorem slides_show {c : State} {e : EditorView} (he : c.view = .editor e)
    (hs : e.history.InStep) (hchain : Change.Chain [] e.history.steps) {ks : List ℤ}
    (hks : ks ≠ []) :
    Run.run step c (ks.map Event.slide) = some { c with
      view := .editor (e.showing (clampedTo e.history.position e.history.steps.length ks)) } := by
  induction ks generalizing c e with
  | nil => exact absurd rfl hks
  | cons k ks ih =>
    rw [List.map_cons, Run.run, step_slide he hs hchain, Option.bind_some]
    cases ks with
    | nil => rfl
    | cons k' ks =>
      have hle : min k.toNat e.history.steps.length ≤ e.history.steps.length :=
        Nat.min_le_right _ _
      rw [ih (e := e.showing (min k.toNat e.history.steps.length)) rfl
        (e.history.inStep_at hle) hchain (List.cons_ne_nil k' ks),
        clampedTo_cons e.history.position]
      rfl

end SleepyText.Client
