import SleepyText.Client.Frame

set_option relaxedAutoImplicit false
set_option autoImplicit false

/-!
# Editor sessions

Four copies of a text are kept by the client: `history.render`, `editor.last`, the `render` of
each branch object and the steps of its history, replayed. This module follows them along every
run of the client, from any branch rows loaded from the server.

## Main definitions

* `SessionOk` — the copies agree in a state.
* `ForkBehind` — a fork of the branch shown inherits the history in front of the position.
* `SettledForks` — no fork of the branch shown sees its next change.
* `CleanStep` — the condition on an event under which it keeps the copies together.

## Main results

* `session_ok` — in every run of clean steps with fresh forks the copies agree in every state.
* `session_button_diverges` — a run in which they do not.
-/

namespace SleepyText.Client

open Heap

/-! ## What a session keeps -/

/-- The copies of the text agree: the editor shows the history of its branch and, in
`history.render` and in `last`, the text of its position; and each branch shows the text of its
history. -/
structure SessionOk (c : State) : Prop where
  editor : ∀ e, c.view = .editor e → ∃ b history, c.heap.objects[e.branch]? = some b ∧
    c.heap.gethistory b = some history ∧ e.history.steps = history.steps ∧
    e.history.render = replay (e.history.steps.take e.history.position) ∧
    e.last = replay (e.history.steps.take e.history.position)
  branches : ∀ id b, c.heap.lookup id = some b →
    ∃ history, c.heap.gethistory b = some history ∧ b.render = replay history.steps

/-- The branch shown is the one registered under its id, which is not `0`, and the position lies
behind what it inherited. -/
def ForkBehind (c : State) (e : EditorView) : Prop :=
  ∀ b ∈ c.heap.objects[e.branch]?, ∀ past ∈ c.heap.getprecedinghistory b,
    b.id ≠ 0 ∧ c.heap.branches b.id = some e.branch ∧ past.length ≤ e.history.position

instance (c : State) (e : EditorView) : Decidable (ForkBehind c e) :=
  inferInstanceAs (Decidable (∀ b ∈ c.heap.objects[e.branch]?, _))

/-- No branch forked off the one shown sees the next change of it. A branch object that has lost
its id to another one has no forks. -/
def SettledForks (c : State) (e : EditorView) : Prop :=
  ∀ p ∈ c.heap.objects[e.branch]?, c.heap.branches p.id = some e.branch →
    ∀ past ∈ c.heap.getprecedinghistory p, ∀ b ∈ c.heap.objects, b.parent = p.id →
      SettledFork past.length p.data.length b.pos

instance (c : State) (e : EditorView) : Decidable (SettledForks c e) :=
  inferInstanceAs (Decidable (∀ p ∈ c.heap.objects[e.branch]?, _ → ∀ past ∈ _, _))

/-- Typing in the past forks behind what the branch inherited, and typing at the end of a history
is only done while the forks of the branch are settled. The branch button is pressed over an empty
text, behind what the branch inherited. The editor is entered without a branch, under the id `1`,
only while nothing is inherited from a branch `1`. -/
def CleanStep (c : State) : Event → Prop
  | .oninput _ _ => ∀ e ∈ c.view.editor?,
      if e.history.position ≠ e.history.steps.length then ForkBehind c e else SettledForks c e
  | .branchbtn _ => ∀ e ∈ c.view.editor?, ForkBehind c e ∧ e.last = []
  | .login => ∀ b ∈ c.heap.objects, b.parent = 1 →
      ∀ past ∈ c.heap.getprecedinghistory b, past = []
  | _ => True

instance (c : State) : ∀ event, Decidable (CleanStep c event)
  | .oninput _ _ => inferInstanceAs (Decidable (∀ e ∈ c.view.editor?,
      if e.history.position ≠ e.history.steps.length then ForkBehind c e else SettledForks c e))
  | .branchbtn _ => inferInstanceAs (Decidable (∀ e ∈ c.view.editor?, ForkBehind c e ∧ _))
  | .login => inferInstanceAs (Decidable (∀ b ∈ c.heap.objects, b.parent = 1 → _))
  | .slide _ | .graph | .userbtn | .opendocument _ | .vertex _ => inferInstanceAs (Decidable True)

/-! ## The invariant -/

/-- The branch object `ref` shows the text of its history, which is a chain of splices. -/
def TextOk (h : Heap) (ref : ℕ) (b : Branch) : Prop :=
  ∃ steps, h.steps ref = some steps ∧ Change.Chain [] steps ∧ b.render = replay steps

/-- The editor shows the history of its branch, at some position of it. -/
structure EditorOk (h : Heap) (e : EditorView) : Prop where
  steps : h.steps e.branch = some e.history.steps
  inStep : e.history.InStep
  last : e.last = e.history.render

/-- The invariant of a session. -/
structure SessionInv (c : State) : Prop where
  registered : c.heap.Registered
  text : ∀ ref b, c.heap.objects[ref]? = some b → TextOk c.heap ref b
  editor : ∀ e, c.view = .editor e → EditorOk c.heap e

lemma SessionInv.sessionOk {c : State} (hinv : SessionInv c) : SessionOk c := by
  refine ⟨fun e he => ?_, fun id b hb => ?_⟩
  · obtain ⟨hsteps, hin, hlast⟩ := hinv.editor e he
    obtain ⟨b, past, hb, hpast, heq⟩ := steps_eq_some_iff.mp hsteps
    refine ⟨b, History.new (past ++ b.data), hb, ?_, heq, hin.render_eq, ?_⟩
    · rw [gethistory, hpast, Option.map_some]
    · rw [hlast, hin.render_eq]
  · obtain ⟨ref, -, hobj⟩ := Option.bind_eq_some_iff.mp hb
    obtain ⟨steps, hsteps, -, hrender⟩ := hinv.text ref b hobj
    obtain ⟨b', past, hb', hpast, rfl⟩ := steps_eq_some_iff.mp hsteps
    obtain rfl : b = b' := Option.some.inj (hobj.symm.trans hb')
    exact ⟨History.new (past ++ b.data), by rw [gethistory, hpast, Option.map_some], hrender⟩

/-- The history of the branch shown is a chain. -/
lemma SessionInv.chain {c : State} (hinv : SessionInv c) {e : EditorView}
    (he : EditorOk c.heap e) : Change.Chain [] e.history.steps := by
  obtain ⟨b, -, hb, -, -⟩ := steps_eq_some_iff.mp he.steps
  obtain ⟨steps, hsteps, hchain, -⟩ := hinv.text e.branch b hb
  obtain rfl : e.history.steps = steps := Option.some.inj (he.steps.symm.trans hsteps)
  exact hchain

/-- A branch keeps its text when its history is kept. -/
lemma TextOk.of_steps {h h' : Heap} {ref : ℕ} {b : Branch} (htext : TextOk h ref b)
    (hkeeps : ∀ steps, h.steps ref = some steps → h'.steps ref = some steps) :
    TextOk h' ref b := by
  obtain ⟨steps, hsteps, hchain, hrender⟩ := htext
  exact ⟨steps, hkeeps steps hsteps, hchain, hrender⟩

/-- A branch that was just made without a parent shows the empty text. -/
lemma textOk_fresh {h : Heap} {o : BranchArgs ℤ} (hroot : o.parent = 0) :
    TextOk (h.newbranch o) h.objects.length (fresh o) := by
  refine ⟨[], steps_eq_some_iff.mpr ⟨fresh o, [], by simp, ?_, by simp⟩, trivial, rfl⟩
  exact getprecedinghistory_of_root hroot

/-! ## One lemma for each handler -/

/-- Entering the editor on a branch object shows the end of its history. -/
lemma editorOk_enter {h : Heap} {ref : ℕ} {b : Branch} {history : History}
    (hb : h.objects[ref]? = some b) (htext : TextOk h ref b)
    (hhist : h.gethistory b = some history) :
    EditorOk h ⟨ref, { history with position := history.steps.length, render := b.render },
      b.render, b.render⟩ := by
  obtain ⟨steps, hsteps, -, hrender⟩ := htext
  have hshown : h.steps ref = some history.steps := by
    rw [Heap.steps, hb, Option.bind_eq_bind, Option.bind_some, hhist]
    rfl
  obtain rfl : history.steps = steps := Option.some.inj (hshown.symm.trans hsteps)
  refine ⟨hshown, ⟨le_rfl, ?_⟩, rfl⟩
  simp only [List.take_length]
  exact hrender

/-- Entering the editor on a branch that exists. -/
lemma SessionInv.entereditorview_some {c c' : State} (hinv : SessionInv c) {ref : ℕ}
    (h : entereditorview c (some ref) = some c') : SessionInv c' := by
  simp only [entereditorview, Option.isNone_some, Bool.false_eq_true, if_false, Option.getD_some,
    Option.bind_eq_bind, Option.bind_eq_some_iff, Option.some.injEq] at h
  obtain ⟨b, hb, history, hhist, rfl⟩ := h
  refine ⟨hinv.registered, hinv.text, ?_⟩
  rintro _ ⟨⟩
  exact editorOk_enter hb (hinv.text ref b hb) hhist

/-- Entering the editor on a new branch without a parent. -/
lemma SessionInv.entereditorview_none {c c' : State} (hinv : SessionInv c)
    (hclean : CleanStep c .login) (h : entereditorview c none = some c') : SessionInv c' := by
  simp only [entereditorview, Option.isNone_none, if_true, Option.getD_none, Option.bind_eq_bind,
    Option.bind_eq_some_iff, Option.some.injEq] at h
  obtain ⟨b, hb, history, hhist, rfl⟩ := h
  obtain rfl : fresh ⟨1, 0, 0, 1⟩ = b := by simpa using hb
  have htext : TextOk (c.heap.newbranch ⟨1, 0, 0, 1⟩) c.heap.objects.length (fresh ⟨1, 0, 0, 1⟩) :=
    textOk_fresh rfl
  refine ⟨hinv.registered.newbranch _, ?_, ?_⟩
  · intro ref b hb
    rcases getElem?_newbranch hb with hb | ⟨rfl, rfl⟩
    · exact (hinv.text ref b hb).of_steps fun steps hsteps => steps_enter hclean hsteps
    · exact htext
  · rintro _ ⟨⟩
    exact editorOk_enter hb htext hhist

/-- **Forking.** A fork behind what the branch inherited makes a branch whose history is the part
of the history shown up to the position. -/
lemma EditorOk.branchout {c d : State} {e f : EditorView} {random : ℤ}
    (hok : EditorOk c.heap e) (hfresh : c.heap.branches random = none) (hbehind : ForkBehind c e)
    (h : branchout c e random = some (d, f)) :
    ∃ o : BranchArgs ℤ, c.heap.branches o.id = none ∧ d = { c with heap := c.heap.newbranch o } ∧
      f = ⟨c.heap.objects.length, ⟨e.history.steps.take e.history.position, e.history.position, []⟩,
        e.last, e.value⟩ ∧
      d.heap.steps c.heap.objects.length = some (e.history.steps.take e.history.position) := by
  obtain ⟨b, past, hb, hpast, hsteps⟩ := steps_eq_some_iff.mp hok.steps
  obtain ⟨hne, hnamed, hle⟩ := hbehind b hb past hpast
  simp only [Client.branchout, hb, Option.bind_eq_bind, Option.bind_some,
    Option.bind_eq_some_iff, Option.some.injEq, Prod.mk.injEq] at h
  obtain ⟨fork, hfork, history, hhist, rfl, rfl⟩ := h
  set o : BranchArgs ℤ := ⟨random, b.id, e.history.position, b.document⟩ with ho
  obtain rfl : fresh o = fork := by simpa using hfork
  -- the parent is found as before, and inherits what it inherited
  have hparent : (c.heap.newbranch o).lookup o.parent = some b := by
    refine lookup_newbranch_of_lookup hfresh ?_
    rw [ho, lookup, hnamed, Option.bind_some, hb]
  have hpast' : (c.heap.newbranch o).getprecedinghistory b = some past := by
    obtain ⟨b', past', hb', hpast', hsteps'⟩ :=
      steps_eq_some_iff.mp (steps_newbranch (o := o) hfresh hok.steps)
    obtain rfl : b = b' := Option.some.inj ((getElem?_newbranch_old hb).symm.trans hb')
    rw [List.append_cancel_right (hsteps.symm.trans hsteps')]
    exact hpast'
  have hinherits : (c.heap.newbranch o).getprecedinghistory (fresh o) =
      some (e.history.steps.take e.history.position) := by
    rw [getprecedinghistory_of_parent hne hparent (.of_getprecedinghistory hpast'), hpast',
      Option.map_some, append_slice_eq_take (Int.ofNat_le.mpr hle), hsteps]
    rfl
  refine ⟨o, hfresh, rfl, ?_, steps_eq_some_iff.mpr ⟨fresh o, _, hfork, hinherits, by simp⟩⟩
  have hlen : (e.history.steps.take e.history.position).length = e.history.position :=
    List.length_take_of_le hok.inStep.position_le
  rw [gethistory, hinherits, Option.map_some, Option.some.injEq, List.append_nil] at hhist
  simp [← hhist, History.new, hlen]

/-- **Recording a change.** When `last` is the text of the branch shown, recording the new text
restores all copies, whatever the branch object showed before.

**Proof sketch.** The change recorded replaces what stands in `last` and gives the new text
(`diff_applyTo`), so the history of the branch stays a chain and replays to the new text. -/
lemma sessionInv_record {c : State} {e : EditorView} (hreg : c.heap.Registered)
    (hsteps : c.heap.steps e.branch = some e.history.steps)
    (hchain : Change.Chain [] e.history.steps) (hlast : e.last = replay e.history.steps)
    (text : JsString)
    (hothers : ∀ ref b, c.heap.objects[ref]? = some b → ref ≠ e.branch →
      TextOk (c.heap.type e.branch (diff e.last text) text) ref b) :
    SessionInv (record c e text) := by
  obtain ⟨hstands, happly⟩ := diff_applyTo e.last text
  set change := diff e.last text with hchange
  have htyped := steps_type_self hsteps change text
  have hchain' : Change.Chain [] (e.history.steps ++ [change]) :=
    hchain.concat (hlast ▸ hstands)
  have hrender : text = replay (e.history.steps ++ [change]) := by
    rw [replay_concat, ← hlast, happly]
  refine ⟨hreg.type _ _ _, ?_, ?_⟩
  · intro ref b' hb'
    obtain ⟨b, hb, -, rfl | ⟨rfl, rfl⟩⟩ := getElem?_of_type hb'
    · by_cases href : ref = e.branch
      · subst href
        have hobj := (getElem?_type_self hb change text).symm.trans hb'
        exact ⟨_, htyped, hchain', by rw [← Option.some.inj hobj]; exact hrender⟩
      · exact hothers ref b' hb href
    · exact ⟨_, htyped, hchain', hrender⟩
  · rintro _ ⟨⟩
    refine ⟨htyped, ⟨le_rfl, ?_⟩, rfl⟩
    simp only [List.take_length]
    exact hrender

/-- Typing into the editor. -/
lemma SessionInv.oninput {c c' : State} {e : EditorView} {text : JsString} {random : ℤ}
    (hinv : SessionInv c) (he : c.view = .editor e)
    (hfresh : FreshFork c (.oninput text random)) (hclean : CleanStep c (.oninput text random))
    (h : oninput c e text random = some c') : SessionInv c' := by
  have hok := hinv.editor e he
  have hchain := hinv.chain hok
  have hmem : e ∈ c.view.editor? := by rw [he]; rfl
  have hcond := hclean e hmem
  obtain ⟨hend, rfl⟩ | ⟨hend, d, f, hfork, rfl⟩ := oninput_eq_some h
  · -- typing at the end of the history
    rw [if_neg (by simpa using hend)] at hcond
    refine sessionInv_record hinv.registered hok.steps hchain ?_ text ?_
    · rw [hok.last, hok.inStep.render_eq, hend, List.take_length]
    · intro ref b hb hne
      exact (hinv.text ref b hb).of_steps fun steps hsteps =>
        steps_type_of_settled hinv.registered hcond _ _ hne hsteps
  · -- typing in the past forks first
    rw [if_pos hend] at hcond
    have hnone : c.heap.branches random = none :=
      (hfresh random (by simp [newid, he, hend])).2
    obtain ⟨o, ho, rfl, rfl, hsteps⟩ := hok.branchout hnone hcond hfork
    refine sessionInv_record (hinv.registered.newbranch o) hsteps (hchain.take _) ?_ text ?_
    · rw [hok.last, hok.inStep.render_eq]
    · intro ref b hb hne
      rcases getElem?_newbranch hb with hb | ⟨rfl, -⟩
      · exact (hinv.text ref b hb).of_steps fun steps hsteps =>
          steps_newbranch_type ho _ _ hsteps
      · exact absurd rfl hne

/-- Pressing the branch button over an empty text. -/
lemma SessionInv.branchbtn {c d : State} {e f : EditorView} {random : ℤ}
    (hinv : SessionInv c) (he : c.view = .editor e) (hfresh : FreshFork c (.branchbtn random))
    (hclean : CleanStep c (.branchbtn random)) (h : Client.branchout c e random = some (d, f)) :
    SessionInv { d with view := .editor f } := by
  have hok := hinv.editor e he
  obtain ⟨hbehind, hempty⟩ := hclean e (by rw [he]; rfl)
  obtain ⟨o, ho, rfl, rfl, hsteps⟩ := hok.branchout (hfresh random rfl).2 hbehind h
  have hreplay : replay (e.history.steps.take e.history.position) = [] := by
    rw [← hok.inStep.render_eq, ← hok.last, hempty]
  have hlen : (e.history.steps.take e.history.position).length = e.history.position :=
    List.length_take_of_le hok.inStep.position_le
  refine ⟨hinv.registered.newbranch o, ?_, ?_⟩
  · intro ref b hb
    rcases getElem?_newbranch hb with hb | ⟨rfl, rfl⟩
    · exact (hinv.text ref b hb).of_steps fun steps hsteps => steps_newbranch ho hsteps
    · exact ⟨_, hsteps, (hinv.chain hok).take _, hreplay.symm⟩
  · rintro _ ⟨⟩
    refine ⟨hsteps, ⟨hlen.ge, ?_⟩, hempty⟩
    simp only [List.take_take, min_self]
    exact hreplay.symm

/-- Moving the slider. -/
lemma SessionInv.slide {c c' : State} {e : EditorView} {go : ℤ} (hinv : SessionInv c)
    (he : c.view = .editor e) (h : slide c e go = some c') : SessionInv c' := by
  have hok := hinv.editor e he
  rw [Client.slide, History.go_spec hok.inStep (hinv.chain hok), Option.map_some,
    Option.some.injEq] at h
  subst h
  refine ⟨hinv.registered, hinv.text, ?_⟩
  rintro _ ⟨⟩
  exact ⟨hok.steps, History.inStep_at _ (Nat.min_le_right _ _), rfl⟩

/-- **One event.** With a fresh id for its fork every clean event keeps the invariant. -/
theorem sessionInv_step (c : State) (event : Event) (c' : State) (hinv : SessionInv c)
    (hguard : FreshFork c event ∧ CleanStep c event) (h : step c event = some c') :
    SessionInv c' := by
  obtain ⟨hfresh, hclean⟩ := hguard
  cases stepped_of_step h with
  | typed hview htyped => exact hinv.oninput hview hfresh hclean htyped
  | slid hview hslide => exact hinv.slide hview hslide
  | forked hview hfork => exact hinv.branchbtn hview hfresh hclean hfork
  | @left _ view _ hleft =>
    refine ⟨hinv.registered, hinv.text, fun e he => ?_⟩
    obtain rfl : view = .editor e := he
    exact absurd hleft (by simp [View.editor?])
  | entered henter => exact hinv.entereditorview_some henter
  | started henter => exact hinv.entereditorview_none hclean henter

/-! ## Loading rows -/

/-- As long as nothing is typed, nothing is inherited. -/
lemma getprecedinghistory_of_blank {h : Heap} (hblank : ∀ b ∈ h.objects, b.data = []) {b : Branch}
    (hb : h.Rooted b) : h.getprecedinghistory b = some [] := by
  obtain ⟨n, hn⟩ := hb
  induction hn with
  | root hroot => exact getprecedinghistory_of_root hroot
  | link hne hp hends ih =>
    rw [getprecedinghistory_of_parent hne hp ⟨_, hends⟩, ih,
      hblank _ (mem_objects_of_lookup hp)]
    simp [slice]

/-- The client starts in the invariant. -/
lemma sessionInv_load {rows : List (BranchArgs ℤ)} (hforest : (load rows).heap.Forest) :
    SessionInv (load rows) := by
  have hobjects : (load rows).heap.objects = rows.map fresh := by
    simp [load, objects_foldl_newbranch, Heap.empty]
  have hmade (b : Branch) (hb : b ∈ (load rows).heap.objects) : ∃ r, fresh r = b := by
    rw [hobjects, List.mem_map] at hb
    obtain ⟨r, -, hr⟩ := hb
    exact ⟨r, hr⟩
  have hblank : ∀ b ∈ (load rows).heap.objects, b.data = [] := by
    intro b hb
    obtain ⟨r, rfl⟩ := hmade b hb
    rfl
  refine ⟨registered_load rows, fun ref b hb => ?_, by rintro e ⟨⟩⟩
  have hmem := List.mem_of_getElem? hb
  have hpast := getprecedinghistory_of_blank hblank (hforest b hmem)
  obtain ⟨r, rfl⟩ := hmade b hmem
  exact ⟨[], steps_eq_some_iff.mpr ⟨_, [], hb, hpast, rfl⟩, trivial, rfl⟩

/-! ## Runs -/

/-- **The copies of the text agree** in every state of every run of clean steps, with fresh ids
for the forks, from rows whose chains of parents all end. -/
theorem session_ok {rows : List (BranchArgs ℤ)} (hforest : (load rows).heap.Forest)
    {events : List Event} {c : State} (hfresh : Run.Guarded step FreshFork (load rows) events)
    (hclean : Run.Guarded step CleanStep (load rows) events)
    (hrun : Run.run step (load rows) events = some c) : SessionOk c :=
  (Run.run_invariant_of_guarded sessionInv_step (sessionInv_load hforest) (hfresh.and hclean)
    hrun).sessionOk

/-- A branch `1` and a branch `2` stored as forked off it at position `5`. -/
def storedFork : List (BranchArgs ℤ) := [⟨1, 0, 0, 1⟩, ⟨2, 1, 5, 1⟩]

lemma storedFork_forest : (load storedFork).heap.Forest := by
  have hroot : (load storedFork).heap.Rooted (fresh ⟨1, 0, 0, 1⟩) := .of_parent_eq_zero rfl
  intro b hb
  simp only [load, storedFork, List.foldl, objects_newbranch, Heap.empty, List.nil_append,
    List.cons_append, List.mem_cons, List.not_mem_nil, or_false] at hb
  rcases hb with rfl | rfl
  · exact hroot
  · exact .of_parent (by decide) rfl hroot

/-- Typing into the stored fork, going back with the slider and typing there. -/
theorem session_ok_slider_fork :
    ∃ c, Run.run step (load storedFork) [.opendocument 1, .vertex 1, .oninput [97] 0, .slide 0,
      .oninput [98] 7] = some c ∧ SessionOk c :=
  have hsome : (Run.run step (load storedFork) [.opendocument 1, .vertex 1, .oninput [97] 0,
    .slide 0, .oninput [98] 7]).isSome := by decide
  ⟨_, (Option.some_get hsome).symm,
    session_ok storedFork_forest (by decide) (by decide) (Option.some_get hsome).symm⟩

/-- After typing, the branch button leaves the new branch and its history without their text. -/
theorem session_button_diverges :
    ∃ c, Run.Guarded step FreshFork (load []) [.login, .oninput [97] 0, .branchbtn 5] ∧
      Run.run step (load []) [.login, .oninput [97] 0, .branchbtn 5] = some c ∧
      ¬ SessionOk c := by
  have hsome : (Run.run step (load []) [.login, .oninput [97] 0, .branchbtn 5]).isSome := by
    decide
  refine ⟨_, by decide, (Option.some_get hsome).symm, fun hok => ?_⟩
  obtain ⟨-, -, -, -, -, hrender, -⟩ := hok.editor
    ⟨1, ⟨[⟨0, [], [97]⟩], 1, []⟩, [97], [97]⟩ rfl
  exact absurd hrender (by decide)

end SleepyText.Client
