import SleepyText.Client.Handlers

set_option relaxedAutoImplicit false
set_option autoImplicit false

/-!
# Prompt responses

The session of `Editor` and the page of `Network` know neither nodes nor requests: the editor is
entered from the account view, vertices are clicked in the graph view. The window behaves like them
as long as each response comes while the view that has asked for it is shown, and no upload is
refused while a graph is shown. Otherwise a graph is left without being stopped: its vertices can
be clicked in other views, and its interval goes on.

## Main definitions

* `Window.Prompt` — a response finds the view that has asked for it.
* `Window.Listed` — the rows of the listing that a window has got.
* `Window.Focused` — the graph has its interval and its handlers while it is shown only.

## Main results

* `Window.focused_step` — one event, and the events of the page that it is.
* `window_refines_page` — the window refines the page, and no interval is left behind.
-/

namespace SleepyText.Client

namespace Window

variable {w w' : Window}

/-- A response finds the view that has asked for it, no upload is refused with 403 while a graph is
shown, and the view is not unlocked. -/
def Prompt (w : Window) : WindowEvent → Prop
  | .respond i _ _ => ∀ callback ∈ w.requests[i]?,
      match callback with
      | .branches => True
      | .newbranch => w.leave = .user
      | .user | .login => ∃ dom, w.leave = .login dom
      | .lock => False
  | .complete _ status => status = 403 → ∀ doc, w.client.view ≠ .graph doc
  | _ => True

/-- The page of the window comes about by events of the page. -/
def Follows (p p' : Page) : Prop := ∃ events, Run.run pageStep p events = some p'

/-- An event that does nothing to the page. -/
lemma Follows.refl (p : Page) : Follows p p := ⟨[], rfl⟩

/-- An event that is one event of the page. -/
lemma Follows.single {p p' : Page} {event : PageEvent} (h : pageStep p event = some p') :
    Follows p p' :=
  ⟨[event], Run.run_cons_eq_some.mpr ⟨p', h, rfl⟩⟩

/-- The graph shown is the graph of its document, its interval and its handlers are there while it
is shown only, and no other interval is running. -/
structure Focused (w : Window) : Prop where
  stale : w.stale = 0
  mouse : w.mouse = .graph → ∃ doc, w.client.view = .graph doc
  task : ∀ g ∈ w.graph, g.task = true → ∃ doc, w.client.view = .graph doc
  ending : ∀ g ∈ w.graph, g.ending ≠ none → w.mouse ≠ .graph
  graph : ∀ doc, w.client.view = .graph doc → ∃ g lastbranch, w.graph = some g ∧ g.task = true ∧
    w.client.heap.entergraphview lastbranch doc = some g.graph
  listed : Callback.branches ∉ w.requests

/-- Nothing of a graph is left. -/
structure Idle (w : Window) : Prop where
  stale : w.stale = 0
  mouse : w.mouse ≠ .graph
  task : ∀ g ∈ w.graph, g.task ≠ true
  listed : Callback.branches ∉ w.requests

/-- Outside of the graph view nothing of a graph is left. -/
lemma Focused.idle (h : w.Focused) (hview : ∀ doc, w.client.view ≠ .graph doc) : w.Idle where
  stale := h.stale
  mouse := by
    intro hmouse
    obtain ⟨doc, hdoc⟩ := h.mouse hmouse
    exact hview doc hdoc
  task := by
    intro g hg htask
    obtain ⟨doc, hdoc⟩ := h.task g hg htask
    exact hview doc hdoc
  listed := h.listed

/-- Windows that show no graph. -/
lemma Idle.focused (h : w.Idle) (hview : ∀ doc, w.client.view ≠ .graph doc) : w.Focused where
  stale := h.stale
  mouse := fun hmouse => absurd hmouse h.mouse
  task := fun g hg htask => absurd htask (h.task g hg)
  ending := fun _ _ _ => h.mouse
  graph := fun doc hdoc => absurd hdoc (hview doc)
  listed := h.listed

/-- A loaded window shows no graph. -/
lemma Loaded.focused {rows : List (BranchArgs ℤ)} (h : w.Loaded rows) : w.Focused := by
  refine Idle.focused ⟨h.stale, ?_, ?_, ?_⟩ ?_
  · rw [h.mouse]
    simp
  · rw [h.graph]
    rintro g ⟨⟩
  · rw [h.requests]
    exact List.not_mem_nil
  · rw [client, h.page]
    rintro doc ⟨⟩

/-- What the account views put on the page is there in them only. -/
lemma Shown.account_of_mem (h : w.Shown) {node : Node} (hnode : node ∈ w.body)
    (helement : node.element = .logout ∨ ∃ doc, node.element = .entry doc) :
    w.client.view = .account := by
  have hmem : node.element ∈ w.body.map Node.element := List.mem_map_of_mem hnode
  have helements := h.elements
  rw [Window.elements] at helements
  generalize w.body.map Node.element = elements at hmem helements
  cases hleave : w.leave <;> cases hview : w.client.view <;>
    simp only [hleave, hview, Leave.elements, Option.some.injEq, reduceCtorEq] at helements ⊢
  all_goals
    subst helements
    rcases helement with helement | ⟨doc, helement⟩ <;> simp [helement] at hmem

/-- `view.leave` of the account views belongs to the account views. -/
lemma Shown.account_of_leave (h : w.Shown)
    (hleave : w.leave = .user ∨ ∃ dom, w.leave = .login dom) : w.client.view = .account := by
  have helements := h.elements
  rw [Window.elements] at helements
  rcases hleave with hleave | ⟨dom, hleave⟩ <;> cases hview : w.client.view <;>
    simp [hleave, hview, Leave.elements] at helements ⊢

/-! ## Ways between the views -/

/-- To the account views. -/
lemma Idle.enteraccountview (h : w.Idle) (hleavable : w.Leavable)
    (hw : w.leaveView.map enteraccountview = some w') : w'.Focused ∧
      w'.page = { w.page with client := { w.client with view := .account } } := by
  rw [hleavable.leaveView_eq.1, Option.map_some, Option.some.injEq] at hw
  subst hw
  rw [Window.enteraccountview]
  split_ifs
  · exact ⟨Idle.focused ⟨h.stale, h.mouse, h.task, h.listed⟩ (by rintro doc ⟨⟩), rfl⟩
  · exact ⟨Idle.focused ⟨h.stale, h.mouse, h.task, h.listed⟩ (by rintro doc ⟨⟩), rfl⟩

/-- To the editor. -/
lemma Idle.entereditorview (h : w.Idle) (hleavable : w.Leavable) {activebranch : Option ℕ}
    (hw : (w.leaveView.bind fun v => v.entereditorview activebranch) = some w') :
    w'.Focused ∧ ∃ c, Client.entereditorview w.client activebranch = some c ∧
      w'.page = { w.page with client := c } := by
  rw [hleavable.leaveView_eq.1, Option.bind_some] at hw
  obtain ⟨c, hc, rfl⟩ := Option.map_eq_some_iff.mp hw
  obtain ⟨e, rfl⟩ := entereditorview_eq_some hc
  exact ⟨Idle.focused ⟨h.stale, h.mouse, h.task, h.listed⟩ (by rintro doc ⟨⟩), _, hc, rfl⟩

/-- To a graph. -/
lemma Idle.entergraphview (h : w.Idle) (hleavable : w.Leavable) {lastbranch : Option Branch}
    {doc : ℤ} (hw : (w.leaveView.bind fun v => v.entergraphview lastbranch doc) = some w') :
    w'.Focused ∧
      w'.page = { w.page with client := { w.client with view := .graph doc } } := by
  rw [hleavable.leaveView_eq.1, Option.bind_some] at hw
  obtain ⟨g, hg, rfl⟩ := Option.map_eq_some_iff.mp hw
  refine ⟨⟨?_, fun _ => ⟨doc, rfl⟩, fun _ _ _ => ⟨doc, rfl⟩, ?_, ?_, h.listed⟩, rfl⟩
  · have hstopped : ¬ (w.graph.map fun g => g.task) = some true := by
      intro hrunning
      obtain ⟨g, hgraph, htask⟩ := Option.map_eq_some_iff.mp hrunning
      exact h.task g hgraph htask
    change w.stale + (if (w.graph.map fun g => g.task) = some true then 1 else 0) = 0
    rw [if_neg hstopped, h.stale]
  · rintro g ⟨⟩ hending
    exact absurd rfl hending
  · rintro doc' ⟨⟩
    exact ⟨_, lastbranch, rfl, rfl, hg⟩

/-- Requests other than for the listing. -/
lemma Focused.request (h : w.Focused) {callback : Callback} (hcallback : callback ≠ .branches) :
    (w.request callback).Focused := by
  refine ⟨h.stale, h.mouse, h.task, h.ending, h.graph, ?_⟩
  rw [Window.request, List.mem_append, List.mem_singleton, not_or]
  exact ⟨h.listed, hcallback.symm⟩

/-- Other vertices of the graph object are marked; when the end is marked, its handlers are gone. -/
lemma Focused.mark (h : w.Focused) {mark : GraphObject → GraphObject} {mouse : Mouse}
    (hmark : ∀ g, (mark g).task = g.task ∧ (mark g).graph = g.graph)
    (hmouse : mouse = .graph → w.mouse = .graph)
    (hending : ∀ g ∈ w.graph, (mark g).ending ≠ none → mouse ≠ .graph) :
    Focused { w with graph := w.graph.map mark, mouse := mouse } := by
  refine ⟨h.stale, fun hgraph => h.mouse (hmouse hgraph), ?_, ?_, ?_, h.listed⟩
  · intro g hg htask
    obtain ⟨g₀, hg₀, rfl⟩ := Option.map_eq_some_iff.mp hg
    exact h.task g₀ hg₀ ((hmark g₀).1.symm.trans htask)
  · intro g hg hended
    obtain ⟨g₀, hg₀, rfl⟩ := Option.map_eq_some_iff.mp hg
    exact hending g₀ hg₀ hended
  · intro doc hdoc
    obtain ⟨g, lastbranch, hg, htask, hdrawn⟩ := h.graph doc hdoc
    refine ⟨mark g, lastbranch, ?_, (hmark g).1.trans htask, ?_⟩
    · dsimp only
      rw [hg, Option.map_some]
    · rw [(hmark g).2]
      exact hdrawn

/-! ## Events -/

section Events

variable {setcookie : JsString → JsString → JsString}

/-- A click on an element. -/
lemma Focused.click (h : w.Focused) (hshown : w.Shown) {node : Node} (hnode : node ∈ w.body)
    (hw : w.handle setcookie (.click node) = some w') : w'.Focused ∧ Follows w.page w'.page := by
  cases helement : node.element <;> simp only [handle, helement, Option.some.injEq] at hw
  case login => exact hw ▸ ⟨h.request (by simp), .refl _⟩
  case register => exact hw ▸ ⟨h.request (by simp), .refl _⟩
  case createbtn => exact hw ▸ ⟨h.request (by simp), .refl _⟩
  case logout =>
    have hview := hshown.account_of_mem hnode (.inl helement)
    have hidle := h.idle (by simp [hview])
    have hcookie (cookie : JsString) :
        Idle { w with cookie := cookie } ∧ Leavable { w with cookie := cookie } :=
      ⟨⟨hidle.stale, hidle.mouse, hidle.task, hidle.listed⟩, hshown.leavable.present,
        hshown.nodes, hshown.locked.mp⟩
    obtain ⟨hfocused, hpage⟩ := (hcookie _).1.enteraccountview (hcookie _).2 hw
    refine ⟨hfocused, ?_⟩
    rw [hpage]
    dsimp only [client] at hview ⊢
    rw [← hview]
    exact .refl _
  case entry doc =>
    have hview := hshown.account_of_mem hnode (.inr ⟨doc, helement⟩)
    obtain ⟨hfocused, hpage⟩ :=
      (h.idle (by simp [hview])).entergraphview hshown.leavable hw
    refine ⟨hfocused, @Follows.single _ _ (.edit (.opendocument doc)) ?_⟩
    simp [pageStep, step, hview, recorded, hpage]
  all_goals exact hw ▸ ⟨h, .refl _⟩

/-- The events of the editor that the window hands to the page. -/
lemma Focused.edit (h : w.Focused) {event : Event} (hevent : event.editing = true) {page : Page}
    (hpage : pageStep w.page (.edit event) = some page) :
    Focused { w with page := page } ∧ Follows w.page page := by
  obtain ⟨e, e', he, he'⟩ := view_of_pageStep hevent hpage
  have hidle := h.idle (by simp [he])
  refine ⟨Idle.focused ⟨hidle.stale, hidle.mouse, hidle.task, hidle.listed⟩ ?_, .single hpage⟩
  intro doc hdoc
  exact absurd (he'.symm.trans hdoc) (by simp)

/-- A button of the editor. -/
lemma Focused.button (h : w.Focused) (hshown : w.Shown) {button : Button}
    (henabled : w.Holds .buttonbox) (hw : w.handle setcookie (.button button) = some w') :
    w'.Focused ∧ Follows w.page w'.page := by
  obtain ⟨e, hview⟩ := hshown.editor_of_holds (by simp) henabled
  have hidle := h.idle (by simp [hview])
  cases button with
  | graph =>
    simp only [handle, hview] at hw
    obtain ⟨lastbranch, hlast, hw⟩ := Option.bind_eq_some_iff.mp hw
    obtain ⟨hfocused, hpage⟩ := hidle.entergraphview hshown.leavable hw
    refine ⟨hfocused, @Follows.single _ _ (.edit .graph) ?_⟩
    simp [pageStep, step, hview, recorded, hpage, hlast]
  | branch random =>
    obtain ⟨page, hpage, rfl⟩ := Option.map_eq_some_iff.mp hw
    exact @Focused.edit w h (.branchbtn random) rfl page hpage
  | user =>
    obtain ⟨hfocused, hpage⟩ := hidle.enteraccountview hshown.leavable hw
    refine ⟨hfocused, @Follows.single _ _ (.edit .userbtn) ?_⟩
    simp [pageStep, step, hview, recorded, hpage]

/-- The slider is in the editor. -/
lemma Focused.slide (h : w.Focused) {go : ℤ} (hw : w.slide go = some w') :
    w'.Focused ∧ Follows w.page w'.page := by
  obtain ⟨page, hpage, rfl⟩ := Option.map_eq_some_iff.mp hw
  exact @Focused.edit w h (.slide go) rfl page hpage

/-- Letting go of the mouse does nothing to the page. -/
lemma Focused.mouseup (h : w.Focused) (hw : w.handle setcookie .mouseup = some w') :
    w'.Focused ∧ w'.page = w.page := by
  have hlock : (if w.onmouseup then w.request .lock else w).Focused ∧
      (if w.onmouseup then w.request .lock else w).page = w.page := by
    split_ifs
    · exact ⟨h.request (by simp), rfl⟩
    · exact ⟨h, rfl⟩
  rw [handle] at hw
  generalize (if w.onmouseup then w.request .lock else w) = v at hlock hw
  obtain ⟨hv, hpage⟩ := hlock
  cases hmouse : v.mouse <;> simp only [hmouse, Option.some.injEq] at hw
  · exact hw ▸ ⟨hv, hpage⟩
  · rcases hactive : v.graph.bind fun g => g.active with - | id <;>
      simp only [hactive, Option.some.injEq] at hw
    · exact hw ▸ ⟨hv, hpage⟩
    · -- the handlers are gone with the click
      subst hw
      exact ⟨hv.mark (fun _ => ⟨rfl, rfl⟩) (by rintro ⟨⟩) fun _ _ _ => by simp, hpage⟩
  · subst hw
    refine ⟨⟨hv.stale, by rintro ⟨⟩, hv.task, fun _ _ _ => by simp, hv.graph, hv.listed⟩, hpage⟩

/-- **The end of an animation** enters the editor on a branch of the document shown. -/
lemma Focused.interval (h : w.Focused) (hshown : w.Shown) {late : Bool}
    (henabled : w.Enabled (.interval late)) (hw : w.handle setcookie (.interval late) = some w') :
    w'.Focused ∧ Follows w.page w'.page := by
  obtain ⟨g, hgraph, htask⟩ : ∃ g, w.graph = some g ∧ g.task = true := by
    rcases henabled with hstale | ⟨g, hg, htask⟩
    · rw [h.stale] at hstale
      cases hstale
    · exact ⟨g, hg, htask⟩
  obtain ⟨doc, hview⟩ := h.task g hgraph htask
  obtain ⟨g', lastbranch, hgraph', -, hdrawn⟩ := h.graph doc hview
  obtain rfl := Option.some.inj (hgraph.symm.trans hgraph')
  rw [handle, hgraph, Option.bind_eq_bind, Option.bind_some] at hw
  cases hending : g.ending with
  | none =>
    simp only [hending, Option.some.injEq] at hw
    exact hw ▸ ⟨h, .refl _⟩
  | some id =>
    have hmouse := h.ending g hgraph (by simp [hending])
    cases late with
    | false =>
      simp only [hending, Bool.false_eq_true, if_false, Option.some.injEq] at hw
      exact hw ▸ ⟨h, .refl _⟩
    | true =>
      simp only [hending, if_true] at hw
      obtain ⟨v, hv, hw⟩ := Option.bind_eq_some_iff.mp hw
      obtain ⟨ref, href, -, hbranch⟩ := Heap.branch_of_vertices hdrawn hv
      have hquit (g : GraphObject) (hg : g.task ≠ true) :
          Idle { w with graph := some g } ∧ Leavable { w with graph := some g } := by
        refine ⟨⟨h.stale, hmouse, ?_, h.listed⟩, hshown.leavable.present, hshown.nodes,
          hshown.locked.mp⟩
        rintro _ ⟨⟩
        exact hg
      obtain ⟨hfocused, c, hc, hpage⟩ :=
        (hquit _ (by simp)).1.entereditorview (hquit _ (by simp)).2 hw
      refine ⟨hfocused, @Follows.single _ _ (.edit (.vertex ref)) ?_⟩
      rw [hbranch] at hc
      simp only [client] at hview hc href
      simp [pageStep, step, hview, href, recorded, hpage, hc]

/-- The response to a request, while its view is shown. -/
lemma Focused.respond (h : w.Focused) (hshown : w.Shown) {i status : ℕ}
    {rows : List (BranchArgs ℤ)} (hprompt : w.Prompt (.respond i status rows))
    (hw : w.handle setcookie (.respond i status rows) = some w') :
    w'.Focused ∧ Follows w.page w'.page := by
  obtain ⟨callback, hcallback, hw⟩ := Option.bind_eq_some_iff.mp hw
  have hsub : w.requests.eraseIdx i ⊆ w.requests := (List.eraseIdx_sublist _ _).subset
  have hmem := List.mem_of_getElem? hcallback
  have hasked := hprompt callback hcallback
  have hanswered (hview : w.client.view = .account) (alerts : List String) :
      Idle { w with requests := w.requests.eraseIdx i, alerts := alerts } ∧
        Leavable { w with requests := w.requests.eraseIdx i, alerts := alerts } := by
    have hidle := h.idle (by simp [hview])
    exact ⟨⟨hidle.stale, hidle.mouse, hidle.task, fun hin => hidle.listed (hsub hin)⟩,
      hshown.leavable.present, hshown.nodes, hshown.locked.mp⟩
  -- logging in and registering both enter the editor from the login view
  have hlogin (hasked : ∃ dom, w.leave = .login dom) {alerts : List String}
      (hw : ((leaveView { w with requests := w.requests.eraseIdx i, alerts := alerts }).bind
        fun v => v.entereditorview none) = some w') : w'.Focused ∧ Follows w.page w'.page := by
    have hview := hshown.account_of_leave (.inr hasked)
    obtain ⟨hidle, hleavable⟩ := hanswered hview alerts
    obtain ⟨hfocused, c, hc, hpage⟩ := hidle.entereditorview hleavable hw
    refine ⟨hfocused, @Follows.single _ _ (.edit .login) ?_⟩
    simp only [client] at hview hc
    simp [pageStep, step, hview, recorded, hpage, hc]
  cases callback with
  | branches => exact absurd hmem h.listed
  | newbranch =>
    have hview := hshown.account_of_leave (.inl hasked)
    obtain ⟨hidle, hleavable⟩ := hanswered hview
      (if status ≠ 200 then w.alerts ++ [Callback.newbranch.failure] else w.alerts)
    obtain ⟨hfocused, hpage⟩ := hidle.enteraccountview hleavable hw
    refine ⟨hfocused, ?_⟩
    rw [hpage]
    dsimp only [client] at hview ⊢
    rw [← hview]
    exact .refl _
  | user => exact hlogin hasked hw
  | login => exact hlogin hasked hw
  | lock => exact hasked.elim

/-- The end of an upload. -/
lemma Focused.complete (h : w.Focused) (hshown : w.Shown) {i status : ℕ}
    (hprompt : w.Prompt (.complete i status))
    (hw : w.handle setcookie (.complete i status) = some w') :
    w'.Focused ∧ Follows w.page w'.page := by
  obtain ⟨u, hu, hw⟩ := Option.bind_eq_some_iff.mp hw
  have hupload : Focused { w with page := w.page.withUpload u } :=
    ⟨h.stale, h.mouse, h.task, h.ending, h.graph, h.listed⟩
  have hfollows : ∀ p', p' = (if status = 403 then
      { w.page.withUpload u with client := { (w.page.withUpload u).client with view := .locked } }
      else w.page.withUpload u) → Follows w.page p' := by
    rintro p' rfl
    refine @Follows.single _ _ (.complete i status) ?_
    rw [pageStep, hu, Option.map_some]
    split_ifs <;> rfl
  dsimp only at hw
  split_ifs at hw with hok hlocked
  · obtain rfl := Option.some.inj hw
    exact ⟨hupload, hfollows _ (by simp [hok])⟩
  · have hidle := hupload.idle (hprompt hlocked)
    have hleavable : Leavable { w with page := w.page.withUpload u } :=
      ⟨hshown.leavable.present, hshown.nodes, hshown.locked.mp⟩
    rw [hleavable.leaveView_eq.1, Option.map_some, Option.some.injEq] at hw
    subst hw
    exact ⟨Idle.focused ⟨hidle.stale, hidle.mouse, hidle.task, hidle.listed⟩ (by rintro doc ⟨⟩),
      hfollows _ (by rw [if_pos hlocked]; rfl)⟩
  · obtain rfl := Option.some.inj hw
    exact ⟨⟨h.stale, h.mouse, h.task, h.ending, h.graph, h.listed⟩,
      hfollows _ (by rw [if_neg hlocked])⟩

/-- **One event** of a window whose responses are prompt is a run of the page. -/
theorem focused_step (h : w.Focused) (hshown : w.Shown) {event : WindowEvent}
    (hprompt : w.Prompt event) (hstep : windowStep setcookie w event = some w') :
    w'.Focused ∧ Follows w.page w'.page := by
  rw [windowStep] at hstep
  split_ifs at hstep with henabled
  cases event with
  | click node => exact h.click hshown henabled hstep
  | button button => exact h.button hshown henabled hstep
  | input text random =>
    obtain ⟨page, hpage, rfl⟩ := Option.map_eq_some_iff.mp hstep
    exact @Focused.edit w h (.oninput text random) rfl page hpage
  | grab go =>
    have hgrabbed : Focused { w with mouse := .slider } := by
      obtain ⟨e, hview⟩ := hshown.editor_of_holds (by simp) henabled
      have hidle := h.idle (by simp [hview])
      refine Idle.focused ⟨hidle.stale, by simp, hidle.task, hidle.listed⟩ fun doc hdoc => ?_
      exact absurd (hview.symm.trans hdoc) (by simp)
    exact hgrabbed.slide hstep
  | mousemove vertex go =>
    rw [handle] at hstep
    cases hmouse : w.mouse <;> simp only [hmouse, Option.some.injEq] at hstep
    · exact hstep ▸ ⟨h, .refl _⟩
    · subst hstep
      have hending := h.ending
      rw [hmouse] at hending
      exact ⟨h.mark (fun _ => ⟨rfl, rfl⟩) (fun _ => hmouse) hending, .refl _⟩
    · exact h.slide hstep
  | mouseup =>
    obtain ⟨hfocused, hpage⟩ := h.mouseup hstep
    exact ⟨hfocused, hpage ▸ .refl _⟩
  | interval late => exact h.interval hshown henabled hstep
  | respond i status rows => exact h.respond hshown hprompt hstep
  | tick =>
    rw [handle] at hstep
    obtain ⟨page, hpage, rfl⟩ := Option.map_eq_some_iff.mp hstep
    refine ⟨?_, .single hpage⟩
    rw [pageStep] at hpage
    obtain ⟨u, -, rfl⟩ := Option.map_eq_some_iff.mp hpage
    exact ⟨h.stale, h.mouse, h.task, h.ending, h.graph, h.listed⟩
  | complete i status => exact h.complete hshown hprompt hstep
  | cookie cookie =>
    obtain rfl := Option.some.inj hstep
    exact ⟨⟨h.stale, h.mouse, h.task, h.ending, h.graph, h.listed⟩, .refl _⟩

/-- The response to the request for the listing, among the events of a run, has the rows. -/
def Listed (setcookie : JsString → JsString → JsString) (w : Window) (events : List WindowEvent)
    (rows : List (BranchArgs ℤ)) : Prop :=
  ∃ before i status after v, events = before ++ .respond i status rows :: after ∧
    Run.run (windowStep setcookie) w before = some v ∧ v.requests[i]? = some .branches

/-- **The listing** divides a run: before it the window waits, and behind it the window has the rows
of the response. -/
lemma Loading.run (h : w.Loading) (hshown : w.Shown) {events : List WindowEvent}
    (hrun : Run.run (windowStep setcookie) w events = some w') :
    w'.Loading ∨ ∃ rows past after u, w.Listed setcookie events rows ∧ events = past ++ after ∧
      Run.run (windowStep setcookie) w past = some u ∧ u.Shown ∧ u.Loaded rows ∧
      Run.run (windowStep setcookie) u after = some w' := by
  induction events generalizing w with
  | nil =>
    obtain rfl := Option.some.inj hrun
    exact .inl h
  | cons event events ih =>
    obtain ⟨u, hu, hrest⟩ := Run.run_cons_eq_some.mp hrun
    have hshown' := shown_step w event u hshown hu
    have hstep := hu
    rw [windowStep] at hstep
    split_ifs at hstep with henabled
    obtain ⟨v, hv, hinv⟩ := @Loading.handle w setcookie h hshown event henabled
    obtain rfl := Option.some.inj (hstep.symm.trans hv)
    rcases hinv with hloading | ⟨i, status, rows, rfl, hcallback, hloaded⟩
    · obtain hdone | ⟨rows, past, after, t, hlisted, rfl, hpast, ht⟩ := ih hloading hshown' hrest
      · exact .inl hdone
      · obtain ⟨before, i, status, behind, s, hevents, hbefore, hcallback⟩ := hlisted
        refine .inr ⟨rows, event :: past, after, t, ?_, rfl,
          Run.run_cons_eq_some.mpr ⟨u, hu, hpast⟩, ht⟩
        exact ⟨event :: before, i, status, behind, s, by rw [hevents, List.cons_append],
          Run.run_cons_eq_some.mpr ⟨u, hu, hbefore⟩, hcallback⟩
    · exact .inr ⟨rows, [_], events, u, ⟨[], i, status, events, w, rfl, rfl, hcallback⟩, rfl,
        Run.run_cons_eq_some.mpr ⟨u, hu, rfl⟩, hshown', hloaded, hrest⟩

/-- **Behind the listing**, the page comes about by events of the page. -/
lemma Focused.run (h : w.Focused) (hshown : w.Shown) {events : List WindowEvent}
    (hprompt : Run.Guarded (windowStep setcookie) Prompt w events)
    (hrun : Run.run (windowStep setcookie) w events = some w') :
    w'.Focused ∧ Follows w.page w'.page := by
  refine (Run.run_invariant_of_guarded (I := fun v : Window =>
    v.Shown ∧ v.Focused ∧ Follows w.page v.page) ?_ ⟨hshown, h, .refl _⟩ hprompt hrun).2
  rintro v event v' ⟨hshown, hfocused, es, hes⟩ hprompt hstep
  obtain ⟨hfocused', es', hes'⟩ := focused_step hfocused hshown hprompt hstep
  exact ⟨shown_step v event v' hshown hstep, hfocused', es ++ es',
    Run.run_append_eq_some.mpr ⟨_, hes, hes'⟩⟩

end Events

end Window

/-- **The window refines the page.** As long as responses are prompt, a window that has got its
listing shows a page that comes about from the rows of that response by events of the page. An
interval is running, and the handlers of a graph are set, while a graph is shown only, and there is
never more than one interval; with one graph shown there is one.

**Proof sketch.** Before the listing the window waits (`Window.Loading.run`). Behind it each handler
is an event of the page, or none (`Window.focused_step`): in the view that has asked for a response
its callback is a login or keeps the account view, and a vertex that can be clicked stands for a
branch of the document shown (`Heap.branch_of_vertices`). -/
theorem window_refines_page {setcookie : JsString → JsString → JsString} {cookie : JsString}
    {events : List WindowEvent} {w : Window}
    (hrun : Run.run (windowStep setcookie) (Window.onload cookie) events = some w)
    (hprompt : Run.Guarded (windowStep setcookie) Window.Prompt (Window.onload cookie) events) :
    w.client.view = .loading ∨
      (∃ rows pageEvents, (Window.onload cookie).Listed setcookie events rows ∧
        Run.run pageStep ⟨load rows, [], [], []⟩ pageEvents = some w.page) ∧
      w.stale = 0 ∧
      ((∃ g ∈ w.graph, g.task = true) ↔ ∃ doc, w.client.view = .graph doc) ∧
      (w.mouse = .graph → ∃ doc, w.client.view = .graph doc) := by
  obtain hloading | ⟨rows, past, after, u, hlisted, rfl, hpast, hshown, hloaded, hafter⟩ :=
    (Window.loading_onload cookie).run (Window.shown_onload cookie) hrun
  · left
    rw [Window.client, hloading.page]
  · obtain ⟨hfocused, es, hes⟩ :=
      hloaded.focused.run hshown (hprompt.of_append_right hpast) hafter
    rw [hloaded.page] at hes
    refine .inr ⟨⟨rows, es, hlisted, hes⟩, hfocused.stale, ⟨?_, ?_⟩, hfocused.mouse⟩
    · rintro ⟨g, hg, htask⟩
      exact hfocused.task g hg htask
    · rintro ⟨doc, hdoc⟩
      obtain ⟨g, -, hg, htask, -⟩ := hfocused.graph doc hdoc
      exact ⟨g, hg, htask⟩

/-- A vertex is clicked, a letter typed, and the graph shown again while the upload fails. -/
theorem window_refines_page_session :
    let events : List WindowEvent := [.respond 0 200 [⟨2, 0, 0, 7⟩], .click ⟨3, .entry 7⟩,
      .mousemove (some 2) 0, .mouseup, .interval true, .input [97] 0, .tick, .button .graph,
      .complete 0 500]
    ∃ w, Run.run (windowStep fun _ _ => []) (Window.onload []) events = some w ∧
      (w.client.view = .loading ∨
        (∃ rows pageEvents, (Window.onload []).Listed (fun _ _ => []) events rows ∧
          Run.run pageStep ⟨load rows, [], [], []⟩ pageEvents = some w.page) ∧
        w.stale = 0 ∧
        ((∃ g ∈ w.graph, g.task = true) ↔ ∃ doc, w.client.view = .graph doc) ∧
        (w.mouse = .graph → ∃ doc, w.client.view = .graph doc)) := by
  intro events
  have hsome : (Run.run (windowStep fun _ _ => []) (Window.onload []) events).isSome := by
    decide +kernel
  have hlisting : (Window.onload []).Prompt (.respond 0 200 [⟨2, 0, 0, 7⟩]) := by
    rintro _ ⟨⟩
    trivial
  have hprompt :
      Run.Guarded (windowStep fun _ _ => []) Window.Prompt (Window.onload []) events :=
    ⟨hlisting, fun _ _ => ⟨trivial, fun _ _ => ⟨trivial, fun _ _ => ⟨trivial, fun _ _ =>
      ⟨trivial, fun _ _ => ⟨trivial, fun _ _ => ⟨trivial, fun _ _ => ⟨trivial, fun _ _ =>
      ⟨fun h => absurd h (by decide), fun _ _ => trivial⟩⟩⟩⟩⟩⟩⟩⟩⟩
  exact ⟨_, (Option.some_get hsome).symm,
    window_refines_page (Option.some_get hsome).symm hprompt⟩

end SleepyText.Client
