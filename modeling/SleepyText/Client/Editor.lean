import SleepyText.Client.Branch

set_option relaxedAutoImplicit false
set_option autoImplicit false

/-!
# The editor view

The handlers of the editor (`editorview.js`) and the ways into and out of it, as steps on the
state of the client: the branch objects, the changes waiting to be uploaded and the view.

## Main definitions

* `prefixLoop`, `suffixLoop`, `diff` — the change that `oninput` records.
* `State`, `View`, `EditorView` — the state of the client.
* `entereditorview`, `branchout`, `oninput`, `slide` — the handlers.
* `Event`, `step` — the events of the client and the transition system they make.
* `Stepped`, `HeapStep` — what an event does, and what it does to the branch objects.

## Main results

* `diff_split` — `diff` cuts the common prefix off both texts, and the common suffix off what is
  left.
* `diff_applyTo` — the recorded change turns the old text into the new one.
* `oninput_minimal` — no other replacement that does so is shorter.
* `stepped_of_step`, `heapStep_of_step` — every event does one of these things.
-/

namespace SleepyText.Client

/-! ## The change between two texts -/

/-- `for(; i < min; i++) if(last[i] != text[i]) break;` for at most `fuel` turns. -/
def prefixLoop (last text : JsString) (i : ℕ) : ℕ → ℕ
  | 0 => i
  | fuel + 1 => if last[i]? ≠ text[i]? then i else prefixLoop last text (i + 1) fuel

/-- `for(; min - j > i; j++) if(last[last.length-j-1] != text[text.length-j-1]) break;` for at
most `fuel` turns. -/
def suffixLoop (last text : JsString) (j : ℕ) : ℕ → ℕ
  | 0 => j
  | fuel + 1 =>
    if last[last.length - j - 1]? ≠ text[text.length - j - 1]? then j
    else suffixLoop last text (j + 1) fuel

/-- The change that `oninput` records for the text `text` after the text `last`. -/
def diff (last text : JsString) : Change :=
  let min := min last.length text.length
  let i := prefixLoop last text 0 min
  let j := suffixLoop last text 0 (min - i)
  ⟨i, slice last i (last.length - j), slice text i (text.length - j)⟩

open Splice

/-- The prefix loop stops at the end of the common prefix of what is behind its start. -/
lemma prefixLoop_eq (a a' xs ys zs zs' : JsString) (h : a.length = a'.length) :
    prefixLoop (a ++ xs ++ zs) (a' ++ ys ++ zs') a.length (min xs.length ys.length) =
      a.length + (commonPrefix xs ys).length := by
  induction xs generalizing a a' ys with
  | nil => simp [prefixLoop]
  | cons x xs ih =>
    cases ys with
    | nil => simp [prefixLoop]
    | cons y ys =>
      have hx : (a ++ x :: xs ++ zs)[a.length]? = some x := by simp
      have hy : (a' ++ y :: ys ++ zs')[a.length]? = some y := by simp [h]
      rw [List.length_cons, List.length_cons, Nat.succ_min_succ, prefixLoop, hx, hy]
      by_cases hxy : x = y
      · subst hxy
        have hih := ih (a ++ [x]) (a' ++ [x]) ys (by simp [h])
        simp only [List.append_assoc, List.cons_append, List.nil_append, List.length_append,
          List.length_singleton] at hih
        simp only [ne_eq, not_true_eq_false, if_false, List.append_assoc, List.cons_append, hih,
          commonPrefix, if_true, List.length_cons]
        omega
      · simp [commonPrefix, hxy]

/-- The suffix loop is the prefix loop on the reversed texts. -/
lemma suffixLoop_eq_reverse (last text : JsString) (fuel j : ℕ) (hl : j + fuel ≤ last.length)
    (ht : j + fuel ≤ text.length) :
    suffixLoop last text j fuel = prefixLoop last.reverse text.reverse j fuel := by
  induction fuel generalizing j with
  | zero => rfl
  | succ fuel ih =>
    have hlast : last.reverse[j]? = last[last.length - j - 1]? := by
      rw [List.getElem?_reverse (by omega), Nat.sub_right_comm]
    have htext : text.reverse[j]? = text[text.length - j - 1]? := by
      rw [List.getElem?_reverse (by omega), Nat.sub_right_comm]
    rw [suffixLoop, prefixLoop, hlast, htext, ih (j + 1) (by omega) (by omega)]

/-- The suffix loop stops at the start of the common suffix of what the prefix left. -/
lemma suffixLoop_eq (a us vs : JsString) :
    suffixLoop (a ++ us) (a ++ vs) 0 (min us.length vs.length) = (commonSuffix us vs).length := by
  rw [suffixLoop_eq_reverse _ _ _ _ (by simp) (by simp)]
  have h := prefixLoop_eq [] [] us.reverse vs.reverse a.reverse a.reverse rfl
  simpa [commonSuffix] using h

/-- **The recorded change** leaves out the common prefix of both texts and the common suffix of
what is behind it.

**Proof sketch.** The two loops compute the lengths of the common prefix and suffix
(`prefixLoop_eq`, `suffixLoop_eq`), and the slices cut both texts there. -/
theorem diff_split (last text : JsString) :
    ∃ us vs ls ts, last = commonPrefix last text ++ us ∧ text = commonPrefix last text ++ vs ∧
      us = ls ++ commonSuffix us vs ∧ vs = ts ++ commonSuffix us vs ∧
      diff last text = ⟨(commonPrefix last text).length, ls, ts⟩ := by
  obtain ⟨us, vs, hus, hvs, -⟩ := commonPrefix_split last text
  obtain ⟨ls, ts, hls, hts, -⟩ := commonSuffix_split us vs
  refine ⟨us, vs, ls, ts, hus, hvs, hls, hts, ?_⟩
  set a := commonPrefix last text with ha
  set c := commonSuffix us vs with hc
  have hi : prefixLoop last text 0 (min last.length text.length) = a.length := by
    have h := prefixLoop_eq [] [] last text [] [] rfl
    simpa using h
  have hmin : min last.length text.length - a.length = min us.length vs.length := by
    rw [hus, hvs]
    simp only [List.length_append]
    omega
  have hj : suffixLoop last text 0 (min last.length text.length - a.length) = c.length := by
    rw [hmin, hus, hvs]
    exact suffixLoop_eq a us vs
  have hcut (xs ys : JsString) (h : xs = a ++ (ys ++ c)) :
      slice xs a.length (xs.length - c.length) = ys := by
    have hlen : xs.length = a.length + (ys.length + c.length) := by
      rw [h, List.length_append, List.length_append]
    rw [show (xs.length : ℤ) - c.length = ((a.length + ys.length : ℕ) : ℤ) by omega,
      slice_eq_drop_take xs (by omega) (by omega), h, ← List.append_assoc, ← List.length_append,
      List.take_left, List.drop_left]
  simp only [diff, hi, hj, Change.mk.injEq, true_and]
  exact ⟨hcut last ls (by rw [← hls, ← hus]), hcut text ts (by rw [← hts, ← hvs])⟩

/-- The recorded change replaces what stands in the old text, and the replacement gives the new
text. -/
theorem diff_applyTo (last text : JsString) :
    StandsAt (diff last text).pos (diff last text).last last ∧
      (diff last text).applyTo last = text := by
  obtain ⟨us, vs, ls, ts, hus, hvs, hls, hts, hdiff⟩ := diff_split last text
  set a := commonPrefix last text
  set c := commonSuffix us vs
  have hlast : last = a ++ ls ++ c := by rw [hus, hls, List.append_assoc]
  have htext : text = a ++ ts ++ c := by rw [hvs, hts, List.append_assoc]
  rw [Change.applyTo_eq_splice, hdiff]
  dsimp only
  refine ⟨?_, ?_⟩
  · rw [hlast]
    exact standsAt_middle a ls c
  · conv_lhs => rw [hlast]
    rw [splice_middle, ← htext]

/-- No replacement that turns the old text into the new one is shorter than the recorded change.
Both leave out what their ends share, and the recorded change leaves out the most. -/
lemma diff_length_le {last text a l n b : JsString} (hlast : last = a ++ l ++ b)
    (htext : text = a ++ n ++ b) :
    (diff last text).last.length + (diff last text).now.length ≤ l.length + n.length := by
  obtain ⟨us, vs, ls, ts, hus, hvs, hls, hts, hdiff⟩ := diff_split last text
  have htrim : a.length + b.length ≤
      (commonPrefix last text).length + (commonSuffix us vs).length := by
    subst hlast htext
    exact length_add_length_le a l n b hus hvs
  have hlens : ls.length + ts.length + 2 * (commonPrefix last text).length +
      2 * (commonSuffix us vs).length = last.length + text.length := by
    have h₁ := congrArg List.length hus
    have h₂ := congrArg List.length hvs
    have h₃ := congrArg List.length hls
    have h₄ := congrArg List.length hts
    simp only [List.length_append] at h₁ h₂ h₃ h₄
    omega
  rw [hlast, htext] at hlens
  simp only [List.length_append] at hlens
  rw [← hlast, ← htext] at hlens
  rw [hdiff]
  dsimp only
  omega

/-! ## The state of the client -/

/-- The editor view: the branch object shown, its history, and `last` and `value` of the text
area. -/
structure EditorView where
  branch : ℕ
  history : History
  last : JsString
  value : JsString
  deriving DecidableEq, Repr

/-- The views of the client. -/
inductive View where
  | loading
  | account
  | locked
  | graph (doc : ℤ)
  | editor (e : EditorView)
  deriving DecidableEq, Repr

/-- The editor, if it is the view shown. -/
def View.editor? : View → Option EditorView
  | .editor e => some e
  | _ => none

/-- The state of the client: the branch objects, the changes to be uploaded and the view. -/
structure State where
  heap : Heap
  queue : List Change
  intransfer : List Change
  view : View

/-- `entereditorview(activebranch)`, where `none` stands for the call without an argument. -/
def entereditorview (c : State) (activebranch : Option ℕ) : Option State :=
  let heap := if activebranch.isNone then c.heap.newbranch ⟨1, 0, 0, 1⟩ else c.heap
  let ref := activebranch.getD c.heap.objects.length
  do
    let branch ← heap.objects[ref]?
    let history ← heap.gethistory branch
    some { c with
      heap := heap
      view := .editor {
        branch := ref
        history := { history with position := history.steps.length, render := branch.render }
        last := branch.render
        value := branch.render } }

/-- `branchout()`, where `random` is the id it draws. -/
def branchout (c : State) (e : EditorView) (random : ℤ) : Option (State × EditorView) := do
  let branch ← c.heap.objects[e.branch]?
  let ref := c.heap.objects.length
  let heap := c.heap.newbranch ⟨random, branch.id, e.history.position, branch.document⟩
  let fork ← heap.objects[ref]?
  let history ← heap.gethistory fork
  some ({ c with heap := heap },
    { e with branch := ref, history := { history with position := history.steps.length } })

/-- `branch.data.push(change)` and `branch.render = text`. -/
def Branch.typed (b : Branch) (change : Change) (text : JsString) : Branch :=
  { b with data := b.data ++ [change], render := text }

/-- The branch objects after `change` was typed into the object `ref`, giving `text`. -/
def Heap.type (h : Heap) (ref : ℕ) (change : Change) (text : JsString) : Heap :=
  { h with objects := h.objects.modify ref fun b => b.typed change text }

/-- The part of `view.editor.oninput` that follows the fork: record the change that turns
`view.editor.last` into `text`. -/
def record (c : State) (e : EditorView) (text : JsString) : State :=
  let change := diff e.last text
  let steps := e.history.steps ++ [change]
  { c with
    queue := c.queue ++ [change]
    heap := c.heap.type e.branch change text
    view := .editor { e with
      history := ⟨steps, steps.length, text⟩
      last := text
      value := text } }

/-- `view.editor.oninput`, where `random` is the id drawn if it forks. -/
def oninput (c : State) (e : EditorView) (text : JsString) (random : ℤ) : Option State :=
  if e.history.position ≠ e.history.steps.length then
    (branchout c e random).map fun (c, e) => record c e text
  else some (record c e text)

/-- The callback of the slider, moved to the position `go`. -/
def slide (c : State) (e : EditorView) (go : ℤ) : Option State :=
  (e.history.go go).map fun history =>
    { c with view := .editor { e with
        history := history
        last := history.render
        value := history.render } }

/-- What can happen to the client: the events of the editor, and the ways between the views. -/
inductive Event where
  | oninput (text : JsString) (random : ℤ)
  | slide (go : ℤ)
  | branchbtn (random : ℤ)
  | graph
  | userbtn
  | opendocument (doc : ℤ)
  | vertex (ref : ℕ)
  | login
  deriving DecidableEq, Repr

/-- One event of the client: `none` if it cannot happen in the view shown, or throws. -/
def step (c : State) : Event → Option State
  | .oninput text random =>
    match c.view with
    | .editor e => oninput c e text random
    | _ => none
  | .slide go =>
    match c.view with
    | .editor e => slide c e go
    | _ => none
  | .branchbtn random =>
    match c.view with
    | .editor e => (branchout c e random).map fun (c, e) => { c with view := .editor e }
    | _ => none
  | .graph =>
    match c.view with
    | .editor e => (c.heap.objects[e.branch]?).map fun b => { c with view := .graph b.document }
    | _ => none
  | .userbtn =>
    match c.view with
    | .editor _ => some { c with view := .account }
    | _ => none
  | .opendocument doc =>
    match c.view with
    | .account => some { c with view := .graph doc }
    | _ => none
  | .vertex ref =>
    match c.view with
    | .graph doc => if ref ∈ c.heap.docs doc then entereditorview c (some ref) else none
    | _ => none
  | .login =>
    match c.view with
    | .account => entereditorview c none
    | _ => none

/-! ## What an event does to the branch objects -/

/-- The events that only change the view. -/
def Event.quiet : Event → Bool
  | .oninput _ _ | .branchbtn _ | .login => false
  | .slide _ | .graph | .userbtn | .opendocument _ | .vertex _ => true

/-- What is given to `new branch` in `branchout`, over the branch `b`. -/
def forkArgs (e : EditorView) (b : Branch) (random : ℤ) : BranchArgs ℤ :=
  ⟨random, b.id, e.history.position, b.document⟩

/-- What an event does to the branch objects. -/
inductive HeapStep (c : State) : Event → Heap → Prop
  | stay {event : Event} : event.quiet = true → HeapStep c event c.heap
  | enter : HeapStep c .login (c.heap.newbranch ⟨1, 0, 0, 1⟩)
  | fork {e : EditorView} {b : Branch} {random : ℤ} : c.view = .editor e →
      c.heap.objects[e.branch]? = some b →
      HeapStep c (.branchbtn random) (c.heap.newbranch (forkArgs e b random))
  | type {e : EditorView} {text : JsString} {random : ℤ} : c.view = .editor e →
      e.history.position = e.history.steps.length →
      HeapStep c (.oninput text random) (c.heap.type e.branch (diff e.last text) text)
  | forkType {e f : EditorView} {d : State} {b : Branch} {text : JsString} {random : ℤ} :
      c.view = .editor e → e.history.position ≠ e.history.steps.length →
      c.heap.objects[e.branch]? = some b → branchout c e random = some (d, f) →
      HeapStep c (.oninput text random) (d.heap.type f.branch (diff f.last text) text)

/-- What `branchout` makes: a branch over the one shown, which the editor shows then. -/
lemma branchout_eq_some {c d : State} {e f : EditorView} {random : ℤ}
    (h : branchout c e random = some (d, f)) :
    ∃ b, c.heap.objects[e.branch]? = some b ∧
      d = { c with heap := c.heap.newbranch (forkArgs e b random) } ∧
      f.branch = c.heap.objects.length ∧ f.last = e.last := by
  simp only [branchout, Option.bind_eq_bind, Option.bind_eq_some_iff, Option.some.injEq,
    Prod.mk.injEq] at h
  obtain ⟨b, hb, fork, -, history, -, rfl, rfl⟩ := h
  exact ⟨b, hb, rfl, rfl, rfl⟩

/-- What `entereditorview` does: it makes a branch when it is given none, and shows the editor. -/
lemma entereditorview_eq_some {c c' : State} {activebranch : Option ℕ}
    (h : entereditorview c activebranch = some c') :
    ∃ e, c' = { c with
      heap := if activebranch.isNone then c.heap.newbranch ⟨1, 0, 0, 1⟩ else c.heap
      view := .editor e } := by
  simp only [entereditorview, Option.bind_eq_bind, Option.bind_eq_some_iff,
    Option.some.injEq] at h
  obtain ⟨b, -, history, -, rfl⟩ := h
  exact ⟨_, rfl⟩

/-- What `oninput` does: it records the change, in a fork if the slider is not at the end. -/
lemma oninput_eq_some {c c' : State} {e : EditorView} {text : JsString} {random : ℤ}
    (h : oninput c e text random = some c') :
    e.history.position = e.history.steps.length ∧ c' = record c e text ∨
      e.history.position ≠ e.history.steps.length ∧
        ∃ d f, branchout c e random = some (d, f) ∧ c' = record d f text := by
  by_cases hend : e.history.position = e.history.steps.length
  · rw [oninput, if_neg (by simpa using hend), Option.some.injEq] at h
    exact .inl ⟨hend, h.symm⟩
  · rw [oninput, if_pos hend, Option.map_eq_some_iff] at h
    obtain ⟨⟨d, f⟩, hfork, rfl⟩ := h
    exact .inr ⟨hend, d, f, hfork, rfl⟩

/-- `oninput` puts the change from the text before it to the new one into the queue. -/
lemma oninput_queue {c c' : State} {e : EditorView} {text : JsString} {random : ℤ}
    (h : oninput c e text random = some c') : c'.queue = c.queue ++ [diff e.last text] := by
  obtain ⟨-, rfl⟩ | ⟨-, d, f, hfork, rfl⟩ := oninput_eq_some h
  · rfl
  · obtain ⟨b, -, rfl, -, hlast⟩ := branchout_eq_some hfork
    rw [record, hlast]

/-- **The change that `oninput` records is minimal**: it turns the old text into the new one, and
whatever else does so by replacing some `l` between `a` and `b` by some `n` removes and inserts at
least as much together. -/
theorem oninput_minimal {c c' : State} {e : EditorView} {text : JsString} {random : ℤ}
    (h : oninput c e text random = some c') :
    ∃ change, c'.queue = c.queue ++ [change] ∧ change.applyTo e.last = text ∧
      ∀ a l n b, e.last = a ++ l ++ b → text = a ++ n ++ b →
        change.last.length + change.now.length ≤ l.length + n.length :=
  ⟨diff e.last text, oninput_queue h, (diff_applyTo e.last text).2,
    fun _ _ _ _ hlast htext => diff_length_le hlast htext⟩

/-- Between `aab` and `ab` no replacement is shorter than the one recorded. -/
theorem oninput_minimal_aab :
    ∃ c', oninput ⟨Heap.empty, [], [], .account⟩ ⟨0, ⟨[], 0, []⟩, [97, 97, 98], [97, 97, 98]⟩
        [97, 98] 7 = some c' ∧
      ∃ change, c'.queue = [] ++ [change] ∧ change.applyTo [97, 97, 98] = [97, 98] ∧
        ∀ a l n b : JsString, [97, 97, 98] = a ++ l ++ b → [97, 98] = a ++ n ++ b →
          change.last.length + change.now.length ≤ l.length + n.length :=
  ⟨_, rfl, @oninput_minimal ⟨Heap.empty, [], [], .account⟩ _
    ⟨0, ⟨[], 0, []⟩, [97, 97, 98], [97, 97, 98]⟩ [97, 98] 7 rfl⟩

/-- What an event does, in a view that it can happen in. -/
inductive Stepped (c : State) : Event → State → Prop
  | typed {e : EditorView} {c' : State} {text : JsString} {random : ℤ} :
      c.view = .editor e → oninput c e text random = some c' →
      Stepped c (.oninput text random) c'
  | slid {e : EditorView} {c' : State} {go : ℤ} :
      c.view = .editor e → slide c e go = some c' → Stepped c (.slide go) c'
  | forked {e f : EditorView} {d : State} {random : ℤ} :
      c.view = .editor e → branchout c e random = some (d, f) →
      Stepped c (.branchbtn random) { d with view := .editor f }
  | left {event : Event} {view : View} :
      event.quiet = true → view.editor? = none → Stepped c event { c with view := view }
  | entered {ref : ℕ} {c' : State} :
      entereditorview c (some ref) = some c' → Stepped c (.vertex ref) c'
  | started {c' : State} : entereditorview c none = some c' → Stepped c .login c'

/-- **Every event** does one of these things. -/
theorem stepped_of_step {c c' : State} {event : Event} (h : step c event = some c') :
    Stepped c event c' := by
  cases event with
  | oninput text random =>
    cases hview : c.view <;> simp only [step, hview, reduceCtorEq] at h
    exact .typed hview h
  | slide go =>
    cases hview : c.view <;> simp only [step, hview, reduceCtorEq] at h
    exact .slid hview h
  | branchbtn random =>
    cases hview : c.view <;> simp only [step, hview, reduceCtorEq] at h
    obtain ⟨⟨d, f⟩, hfork, rfl⟩ := Option.map_eq_some_iff.mp h
    exact .forked hview hfork
  | graph =>
    cases hview : c.view <;> simp only [step, hview, reduceCtorEq] at h
    obtain ⟨b, -, rfl⟩ := Option.map_eq_some_iff.mp h
    exact .left rfl rfl
  | userbtn =>
    cases hview : c.view <;> simp only [step, hview, reduceCtorEq, Option.some.injEq] at h
    subst h
    exact .left rfl rfl
  | opendocument doc =>
    cases hview : c.view <;> simp only [step, hview, reduceCtorEq, Option.some.injEq] at h
    subst h
    exact .left rfl rfl
  | vertex ref =>
    cases hview : c.view <;> simp only [step, hview, reduceCtorEq] at h
    split at h
    · exact .entered h
    · exact absurd h (by simp)
  | login =>
    cases hview : c.view <;> simp only [step, hview, reduceCtorEq] at h
    exact .started h

/-- **Every event** keeps the branch objects, adds one to them or types into one of them. -/
theorem heapStep_of_step {c c' : State} {event : Event} (h : step c event = some c') :
    HeapStep c event c'.heap := by
  cases stepped_of_step h with
  | typed hview htyped =>
    obtain ⟨hend, rfl⟩ | ⟨hend, d, f, hfork, rfl⟩ := oninput_eq_some htyped
    · exact .type hview hend
    · obtain ⟨b, hb, -⟩ := branchout_eq_some hfork
      exact .forkType hview hend hb hfork
  | slid _ hslide =>
    obtain ⟨history, -, rfl⟩ := Option.map_eq_some_iff.mp hslide
    exact .stay rfl
  | forked hview hfork =>
    obtain ⟨b, hb, rfl, -⟩ := branchout_eq_some hfork
    exact .fork hview hb
  | left hquiet => exact .stay hquiet
  | entered henter =>
    obtain ⟨e, rfl⟩ := entereditorview_eq_some henter
    exact .stay rfl
  | started henter =>
    obtain ⟨e, rfl⟩ := entereditorview_eq_some henter
    exact .enter

/-- The client after `fetchupdates` has made a branch object for each row. -/
def load (rows : List (BranchArgs ℤ)) : State where
  heap := rows.foldl Heap.newbranch Heap.empty
  queue := []
  intransfer := []
  view := .account

section Kept

variable {P : Heap → Prop}

/-- What new branches keep holds of the rows loaded. -/
lemma load_kept (hnew : ∀ h o, P h → P (h.newbranch o)) (hempty : P Heap.empty)
    (rows : List (BranchArgs ℤ)) : P (load rows).heap := by
  have hfoldl (h : Heap) (hP : P h) : P (rows.foldl Heap.newbranch h) := by
    induction rows generalizing h with
    | nil => exact hP
    | cons r rows ih => exact ih _ (hnew h r hP)
  exact hfoldl Heap.empty hempty

/-- What new branches and typing keep, every event keeps. -/
lemma step_kept (hnew : ∀ h o, P h → P (h.newbranch o))
    (htype : ∀ (h : Heap) ref change text, P h → P (h.type ref change text)) {c c' : State}
    {event : Event} (h : step c event = some c') (hP : P c.heap) : P c'.heap := by
  have hheap := heapStep_of_step h
  generalize c'.heap = h' at hheap
  cases hheap with
  | stay => exact hP
  | enter => exact hnew _ _ hP
  | fork => exact hnew _ _ hP
  | type => exact htype _ _ _ _ hP
  | forkType _ _ _ hfork =>
    obtain ⟨b, -, rfl, -⟩ := branchout_eq_some hfork
    exact htype _ _ _ _ (hnew _ _ hP)

end Kept

end SleepyText.Client
