import SleepyText.Client.Window

set_option relaxedAutoImplicit false
set_option autoImplicit false

/-!
# What stands on the page

A view puts its nodes into `body` when it is entered, and `view.leave` has to take them out again.
Requests are answered and intervals tick in any view, also in one that did not start them, and each
of their handlers leaves the view that it finds.

## Main definitions

* `Window.elements` — what the view shown puts on the page.
* `Window.left` — the window after `view.leave()`.
* `Window.Shown` — the page shows the view, and nothing else.

## Main results

* `Window.Shown.leaveView_eq` — `view.leave()` returns, and leaves an empty page.
* `Window.shown_step` — every event keeps the page in step with the view.
* `page_shows_view` — so it is in every run.
-/

namespace SleepyText.Client

/-- What a view puts on the page, where `view` and `view.leave` belong together. -/
def Leave.elements (documents : List ℤ) : Leave → View → Option (List Element)
  | .loading _, .loading => some [.loading]
  | .login _, .account => some [.username, .password, .login, .register]
  | .user, .account => some (.createbtn :: .logout :: documents.map .entry)
  | .editor, .editor _ => some [.slider, .editor, .buttonbox]
  | .graph _, .graph _ => some [.canvas]
  | .locked, .locked => some [.locked]
  | _, _ => none

/-- What the view shown puts on the page. -/
def Window.elements (w : Window) : Option (List Element) :=
  w.leave.elements w.client.heap.documents w.client.view

/-- The nodes that `leave` removes one by one. -/
def Leave.nodes : Leave → Option (List Node)
  | .loading node | .graph node => some [node]
  | .login dom => some dom
  | .missing | .user | .editor | .locked => none

/-- The events of the editor that the window hands to the page: typing, the slider and the branch
button. -/
def Event.editing : Event → Bool
  | .oninput _ _ | .slide _ | .branchbtn _ => true
  | .graph | .userbtn | .opendocument _ | .vertex _ | .login => false

namespace Window

variable {w w' : Window}

/-- The page shows the view and nothing else, and `document.onmouseup` is set in the locked view
only. -/
structure Shown (w : Window) : Prop where
  elements : w.elements = some (w.body.map Node.element)
  nodes : ∀ dom ∈ w.leave.nodes, w.body = dom
  fresh : ∀ node ∈ w.body, node.number < w.nodes
  distinct : (w.body.map Node.number).Nodup
  locked : w.onmouseup = true ↔ w.leave = .locked

/-! ## Leaving a view -/

/-- The window after `view.leave()`. -/
def left (w : Window) : Window :=
  { w with
    body := []
    leave := if w.leave = .editor then .missing else w.leave
    onmouseup := if w.leave = .locked then false else w.onmouseup }

/-- Removing the nodes of the page one by one empties it. -/
lemma foldlM_removeChild (dom : List Node) (hbody : w.body = dom) :
    dom.foldlM removeChild w = some { w with body := [] } := by
  induction dom generalizing w with
  | nil =>
    rw [List.foldlM_nil, ← hbody]
    rfl
  | cons node dom ih =>
    have hfirst : w.removeChild node = some { w with body := dom } := by
      simp [removeChild, hbody]
    rw [List.foldlM_cons, hfirst, Option.bind_eq_bind, Option.bind_some, ih rfl]

/-- The view can be left: its nodes are those on the page. -/
structure Leavable (w : Window) : Prop where
  present : w.leave ≠ .missing
  nodes : ∀ dom ∈ w.leave.nodes, w.body = dom
  locked : w.onmouseup = true → w.leave = .locked

/-- A view that is shown can be left. -/
lemma Shown.leavable (h : w.Shown) : w.Leavable where
  present := by
    intro hmissing
    have helements := h.elements
    rw [Window.elements, hmissing] at helements
    cases helements
  nodes := h.nodes
  locked := h.locked.mp

/-- An empty page, before a view is entered. -/
structure Empty (w : Window) : Prop where
  body : w.body = []
  onmouseup : w.onmouseup = false

/-- **`view.leave()` returns** where the page shows the view, and leaves it empty. -/
lemma Leavable.leaveView_eq (h : w.Leavable) : w.leaveView = some w.left ∧ w.left.Empty := by
  refine ⟨?_, rfl, ?_⟩
  · have hnodes := h.nodes
    cases hleave : w.leave with
    | missing => exact absurd hleave h.present
    | loading node =>
      have hbody : w.body = [node] := hnodes _ (by rw [hleave]; rfl)
      simp [leaveView, left, removeChild, hleave, hbody]
    | login dom =>
      have hbody : w.body = dom := hnodes _ (by rw [hleave]; rfl)
      simp [leaveView, left, hleave, foldlM_removeChild dom hbody]
    | user => simp [leaveView, left, clear, hleave]
    | editor => simp [leaveView, left, clear, hleave]
    | graph canvas =>
      have hbody : w.body = [canvas] := hnodes _ (by rw [hleave]; rfl)
      simp [leaveView, left, removeChild, hleave, hbody]
    | locked => simp [leaveView, left, clear, hleave]
  · by_cases hlocked : w.leave = .locked
    · simp [left, hlocked]
    · have hset : ¬ w.onmouseup = true := fun hset => hlocked (h.locked hset)
      simpa [left, hlocked] using hset

/-- Entering a view on the page that another one has left. -/
lemma Leavable.map_leaveView (h : w.Leavable) {enter : Window → Window}
    (henter : ∀ v : Window, v.Empty → (enter v).Shown) (hw : w.leaveView.map enter = some w') :
    w'.Shown := by
  obtain ⟨hleave, hempty⟩ := h.leaveView_eq
  rw [hleave, Option.map_some, Option.some.injEq] at hw
  exact hw ▸ henter _ hempty

/-- Entering a view that may fail. -/
lemma Leavable.bind_leaveView (h : w.Leavable) {enter : Window → Option Window}
    (henter : ∀ v v' : Window, v.Empty → enter v = some v' → v'.Shown)
    (hw : w.leaveView.bind enter = some w') : w'.Shown := by
  obtain ⟨hleave, hempty⟩ := h.leaveView_eq
  rw [hleave, Option.bind_some] at hw
  exact henter _ _ hempty hw

/-! ## Entering a view -/

/-- The new nodes are these elements. -/
lemma map_element_create (w : Window) (elements : List Element) :
    (w.create elements).map Node.element = elements := by
  apply List.ext_getElem
  · simp [create]
  · intro i hi hi'
    simp [create]

/-- One node for each element. -/
lemma length_create (w : Window) (elements : List Element) :
    (w.create elements).length = elements.length := by
  simp [create]

/-- New nodes are numbered one after the other. -/
lemma map_number_create (w : Window) (elements : List Element) :
    (w.create elements).map Node.number = List.range' w.nodes elements.length := by
  apply List.ext_getElem
  · simp [create]
  · intro i hi hi'
    simp [create]

/-- **Entering a view** on an empty page. -/
lemma shown_enter {view : View} {leave : Leave} {elements : List Element} (hbody : w.body = [])
    (honmouseup : w.onmouseup = false) (hleave : leave ≠ .locked)
    (hnodes : ∀ dom ∈ leave.nodes, w.create elements = dom)
    (helements : (w.enter view leave (w.create elements)).elements = some elements) :
    (w.enter view leave (w.create elements)).Shown := by
  have hpage : (w.enter view leave (w.create elements)).body = w.create elements := by
    simp [enter, hbody]
  refine ⟨?_, ?_, ?_, ?_, ?_⟩
  · rw [helements, hpage, map_element_create]
  · intro dom hdom
    rw [hpage]
    exact hnodes dom hdom
  · intro node hnode
    have hnumber : node.number ∈ (w.create elements).map Node.number :=
      List.mem_map_of_mem (hpage ▸ hnode)
    rw [map_number_create, List.mem_range'_1] at hnumber
    have hcount : (w.enter view leave (w.create elements)).nodes = w.nodes + elements.length := by
      simp [enter, length_create]
    omega
  · rw [hpage, map_number_create]
    exact List.nodup_range'
  · simp [enter, withClient, honmouseup, hleave]

/-- The login view is shown on an empty page. -/
lemma Empty.enterloginview (h : w.Empty) : w.enterloginview.Shown :=
  shown_enter h.body h.onmouseup (by simp) (by rintro dom ⟨⟩; rfl) rfl

/-- The user view is shown on an empty page. -/
lemma Empty.enteruserview (h : w.Empty) : w.enteruserview.Shown :=
  shown_enter h.body h.onmouseup (by simp) (by rintro dom ⟨⟩) rfl

/-- One of the two is shown. -/
lemma Empty.enteraccountview (h : w.Empty) : w.enteraccountview.Shown := by
  rw [Window.enteraccountview]
  split_ifs
  · exact h.enteruserview
  · exact h.enterloginview

/-- The locked view replaces what is on the page. -/
lemma shown_enterlockedview : w.enterlockedview.Shown where
  elements := by
    simp [Window.enterlockedview, enter, clear, Window.elements, Leave.elements, withClient, create]
  nodes := by rintro dom ⟨⟩
  fresh := by simp [Window.enterlockedview, enter, clear, withClient, create]
  distinct := by simp [Window.enterlockedview, enter, clear, withClient, create]
  locked := by simp [Window.enterlockedview, enter]

/-- The editor is shown on an empty page. -/
lemma Empty.entereditorview (h : w.Empty) {activebranch : Option ℕ}
    (henter : w.entereditorview activebranch = some w') : w'.Shown := by
  obtain ⟨c, hc, rfl⟩ := Option.map_eq_some_iff.mp henter
  obtain ⟨e, rfl⟩ := entereditorview_eq_some hc
  exact shown_enter h.body h.onmouseup (by simp) (by rintro dom ⟨⟩) rfl

/-- The graph is shown on an empty page, with its handlers. -/
lemma Empty.entergraphview (h : w.Empty) {lastbranch : Option Branch} {doc : ℤ}
    (henter : w.entergraphview lastbranch doc = some w') : w'.Shown := by
  obtain ⟨g, -, rfl⟩ := Option.map_eq_some_iff.mp henter
  have hshown : (w.enter (.graph doc) (.graph ⟨w.nodes, .canvas⟩) (w.create [.canvas])).Shown :=
    shown_enter h.body h.onmouseup (by simp) (by rintro dom ⟨⟩; rfl) rfl
  exact ⟨hshown.elements, hshown.nodes, hshown.fresh, hshown.distinct, hshown.locked⟩

/-! ## Events -/

/-- What does not touch the view keeps the page in step with it. -/
lemma Shown.congr (h : w.Shown) (helements : w'.elements = w.elements) (hleave : w'.leave = w.leave)
    (hbody : w'.body = w.body) (hnodes : w'.nodes = w.nodes)
    (honmouseup : w'.onmouseup = w.onmouseup) : w'.Shown where
  elements := by rw [helements, hbody, h.elements]
  nodes := by
    rw [hleave, hbody]
    exact h.nodes
  fresh := by
    rw [hbody, hnodes]
    exact h.fresh
  distinct := by
    rw [hbody]
    exact h.distinct
  locked := by
    rw [honmouseup, hleave]
    exact h.locked

/-- These events stay in the editor. -/
lemma view_of_pageStep {p p' : Page} {event : Event} (hevent : event.editing = true)
    (h : pageStep p (.edit event) = some p') :
    ∃ e e', p.client.view = .editor e ∧ p'.client.view = .editor e' := by
  obtain ⟨c, hc, rfl⟩ := Option.map_eq_some_iff.mp h
  cases event with
  | oninput text random =>
    cases hview : p.client.view <;> simp only [step, hview, reduceCtorEq] at hc
    obtain ⟨-, rfl⟩ | ⟨-, d, f, -, rfl⟩ := oninput_eq_some hc
    · exact ⟨_, _, rfl, rfl⟩
    · exact ⟨_, _, rfl, rfl⟩
  | slide go =>
    cases hview : p.client.view <;> simp only [step, hview, reduceCtorEq] at hc
    obtain ⟨history, -, rfl⟩ := Option.map_eq_some_iff.mp hc
    exact ⟨_, _, rfl, rfl⟩
  | branchbtn random =>
    cases hview : p.client.view <;> simp only [step, hview, reduceCtorEq] at hc
    obtain ⟨⟨d, f⟩, -, rfl⟩ := Option.map_eq_some_iff.mp hc
    exact ⟨_, _, rfl, rfl⟩
  | graph => cases hevent
  | userbtn => cases hevent
  | opendocument doc => cases hevent
  | vertex ref => cases hevent
  | login => cases hevent

/-- All editors put the same on the page. -/
lemma elements_editor (leave : Leave) (documents documents' : List ℤ) (e e' : EditorView) :
    leave.elements documents (.editor e) = leave.elements documents' (.editor e') := by
  cases leave <;> rfl

/-- An event of the editor keeps the page in step. -/
lemma Shown.edit (h : w.Shown) {event : Event} (hevent : event.editing = true) {page : Page}
    (hpage : pageStep w.page (.edit event) = some page) : Shown { w with page := page } := by
  obtain ⟨e, e', he, he'⟩ := view_of_pageStep hevent hpage
  refine h.congr ?_ rfl rfl rfl rfl
  rw [Window.elements, Window.elements]
  dsimp only [client]
  rw [he, he', elements_editor]

/-- **The callbacks of requests** leave whatever view they find. -/
lemma Leavable.success (h : w.Leavable) {callback : Callback} {rows : List (BranchArgs ℤ)}
    (hw : w.success callback rows = some w') : w'.Shown := by
  cases callback with
  | branches =>
    have hloaded : Leavable (w.withClient
        { w.client with heap := rows.foldl Heap.newbranch w.client.heap }) :=
      ⟨h.present, h.nodes, h.locked⟩
    exact hloaded.map_leaveView (fun v hv => hv.enteruserview) hw
  | newbranch => exact h.map_leaveView (fun v hv => hv.enteraccountview) hw
  | user => exact h.bind_leaveView (fun v v' hv hv' => hv.entereditorview hv') hw
  | login => exact h.bind_leaveView (fun v v' hv hv' => hv.entereditorview hv') hw
  | lock => exact h.bind_leaveView (fun v v' hv hv' => hv.entereditorview hv') hw

/-- **A click** on a node. -/
lemma Shown.click (h : w.Shown) {setcookie : JsString → JsString → JsString} {node : Node}
    (hw : w.handle setcookie (.click node) = some w') : w'.Shown := by
  have hkeep (requests : List Callback) : Shown { w with requests := requests } :=
    h.congr rfl rfl rfl rfl rfl
  cases helement : node.element <;> simp only [handle, helement, Option.some.injEq] at hw
  case login => exact hw ▸ hkeep _
  case register => exact hw ▸ hkeep _
  case createbtn => exact hw ▸ hkeep _
  case logout =>
    have hcookie (cookie : JsString) : Leavable { w with cookie := cookie } :=
      ⟨h.leavable.present, h.nodes, h.locked.mp⟩
    exact (hcookie _).map_leaveView (fun v hv => hv.enteraccountview) hw
  case entry doc => exact h.leavable.bind_leaveView (fun v v' hv hv' => hv.entergraphview hv') hw
  all_goals exact hw ▸ h

/-- **A button of the editor.** -/
lemma Shown.button (h : w.Shown) {setcookie : JsString → JsString → JsString} {button : Button}
    (hw : w.handle setcookie (.button button) = some w') : w'.Shown := by
  cases button with
  | graph =>
    cases hview : w.client.view <;> simp only [handle, hview, reduceCtorEq] at hw
    obtain ⟨lastbranch, -, hw⟩ := Option.bind_eq_some_iff.mp hw
    exact h.leavable.bind_leaveView (fun v v' hv hv' => hv.entergraphview hv') hw
  | branch random =>
    obtain ⟨page, hpage, rfl⟩ := Option.map_eq_some_iff.mp hw
    exact h.edit rfl hpage
  | user => exact h.leavable.map_leaveView (fun v hv => hv.enteraccountview) hw

/-- **The mouse.** -/
lemma Shown.mouse (h : w.Shown) {setcookie : JsString → JsString → JsString} {event : WindowEvent}
    (hevent : (∃ go, event = .grab go) ∨ (∃ vertex go, event = .mousemove vertex go) ∨
      event = .mouseup) (hw : w.handle setcookie event = some w') : w'.Shown := by
  rcases hevent with ⟨go, rfl⟩ | ⟨vertex, go, rfl⟩ | rfl
  · obtain ⟨page, hpage, rfl⟩ := Option.map_eq_some_iff.mp hw
    have hgrabbed : Shown { w with mouse := .slider } := h.congr rfl rfl rfl rfl rfl
    exact hgrabbed.edit rfl hpage
  · rw [handle] at hw
    cases hmouse : w.mouse <;> simp only [hmouse, Option.some.injEq] at hw
    · exact hw ▸ h
    · exact hw ▸ h.congr rfl rfl rfl rfl rfl
    · obtain ⟨page, hpage, rfl⟩ := Option.map_eq_some_iff.mp hw
      exact h.edit rfl hpage
  · have hlock : Shown (if w.onmouseup then w.request .lock else w) := by
      split_ifs
      · exact h.congr rfl rfl rfl rfl rfl
      · exact h
    rw [handle] at hw
    generalize (if w.onmouseup then w.request .lock else w) = v at hlock hw
    cases hmouse : v.mouse <;> simp only [hmouse, Option.some.injEq] at hw
    · exact hw ▸ hlock
    · cases hactive : v.graph.bind fun g => g.active <;>
        simp only [hactive, Option.some.injEq] at hw
      · exact hw ▸ hlock
      · exact hw ▸ hlock.congr rfl rfl rfl rfl rfl
    · exact hw ▸ hlock.congr rfl rfl rfl rfl rfl

/-- **A tick of an interval.** The callback of a graph leaves whatever view it finds. -/
lemma Shown.interval (h : w.Shown) {setcookie : JsString → JsString → JsString} {late : Bool}
    (hw : w.handle setcookie (.interval late) = some w') : w'.Shown := by
  rw [handle] at hw
  obtain ⟨g, hg, hw⟩ := Option.bind_eq_some_iff.mp hw
  cases hending : g.ending with
  | none =>
    simp only [hending, Option.some.injEq] at hw
    exact hw ▸ h
  | some id =>
    simp only [hending] at hw
    split_ifs at hw with hlate
    · obtain ⟨v, -, hw⟩ := Option.bind_eq_some_iff.mp hw
      have hquit (g : GraphObject) : Leavable { w with graph := some g } :=
        ⟨h.leavable.present, h.nodes, h.locked.mp⟩
      exact (hquit _).bind_leaveView (fun v v' hv hv' => hv.entereditorview hv') hw
    · obtain rfl := Option.some.inj hw
      exact h

/-- The upload loop keeps the view, apart from locking it. -/
lemma elements_withUpload {w : Window} (u : Upload) :
    elements { w with page := w.page.withUpload u } = w.elements := rfl

/-- **The end of an upload.** -/
lemma Shown.complete (h : w.Shown) {setcookie : JsString → JsString → JsString} {i status : ℕ}
    (hw : w.handle setcookie (.complete i status) = some w') : w'.Shown := by
  obtain ⟨u, -, hw⟩ := Option.bind_eq_some_iff.mp hw
  have hupload : Shown { w with page := w.page.withUpload u } :=
    h.congr (elements_withUpload u) rfl rfl rfl rfl
  dsimp only at hw
  split_ifs at hw
  · exact Option.some.inj hw ▸ hupload
  · exact hupload.leavable.map_leaveView (fun v _ => shown_enterlockedview) hw
  · exact Option.some.inj hw ▸ hupload.congr rfl rfl rfl rfl rfl

/-- **Every event** keeps the page in step with the view. -/
theorem shown_step {setcookie : JsString → JsString → JsString} (w : Window) (event : WindowEvent)
    (w' : Window) (h : w.Shown) (hstep : windowStep setcookie w event = some w') : w'.Shown := by
  rw [windowStep] at hstep
  split_ifs at hstep
  cases event with
  | click node => exact h.click hstep
  | button button => exact h.button hstep
  | input text random =>
    obtain ⟨page, hpage, rfl⟩ := Option.map_eq_some_iff.mp hstep
    exact h.edit rfl hpage
  | grab go => exact h.mouse (.inl ⟨go, rfl⟩) hstep
  | mousemove vertex go => exact h.mouse (.inr (.inl ⟨vertex, go, rfl⟩)) hstep
  | mouseup => exact h.mouse (.inr (.inr rfl)) hstep
  | interval late => exact h.interval hstep
  | respond i status rows =>
    obtain ⟨callback, -, hw⟩ := Option.bind_eq_some_iff.mp hstep
    have hanswered : Leavable { w with
        requests := w.requests.eraseIdx i
        alerts := if status ≠ 200 then w.alerts ++ [callback.failure] else w.alerts } :=
      ⟨h.leavable.present, h.nodes, h.locked.mp⟩
    exact hanswered.success hw
  | tick =>
    rw [handle] at hstep
    obtain ⟨page, hpage, rfl⟩ := Option.map_eq_some_iff.mp hstep
    rw [pageStep] at hpage
    obtain ⟨u, -, rfl⟩ := Option.map_eq_some_iff.mp hpage
    exact h.congr (elements_withUpload u) rfl rfl rfl rfl
  | complete i status => exact h.complete hstep
  | cookie cookie =>
    obtain rfl := Option.some.inj hstep
    exact h.congr rfl rfl rfl rfl rfl

/-- The loading view is shown first. -/
lemma shown_onload (cookie : JsString) : (onload cookie).Shown where
  elements := rfl
  nodes := by
    rintro dom ⟨⟩
    rfl
  fresh := by simp [onload, enterloadingview, enter, withClient]
  distinct := by simp [onload, enterloadingview, enter, withClient]
  locked := by simp [onload, enterloadingview, enter, withClient]

/-- `view` and `view.leave` are locked together. -/
lemma Shown.locked_iff (h : w.Shown) : w.leave = .locked ↔ w.client.view = .locked := by
  have helements := h.elements
  rw [Window.elements] at helements
  cases hleave : w.leave <;> cases hview : w.client.view <;>
    simp [Leave.elements, hleave, hview] at helements ⊢

end Window

/-- **The page shows the view.** In every run of the window, in whatever order clicks, movements of
the mouse, responses and ticks come, the page consists of what the view shown puts there, each node
once; a release of the mouse asks for the lock in the locked view only; and `view.leave()` returns,
and leaves the page empty.

**Proof sketch.** An event that does not leave the view keeps the nodes and what the view shows
(`Window.Shown.congr`). All others call `view.leave()` of the view they find, which removes exactly
its nodes (`Window.Leavable.leaveView_eq`), and enter a view on the empty page
(`Window.shown_enter`). -/
theorem page_shows_view {setcookie : JsString → JsString → JsString} {cookie : JsString}
    {events : List WindowEvent} {w : Window}
    (hrun : Run.run (windowStep setcookie) (Window.onload cookie) events = some w) :
    w.elements = some (w.body.map Node.element) ∧ (w.body.map Node.number).Nodup ∧
      (w.onmouseup = true ↔ w.client.view = .locked) ∧
      ∃ w', w.leaveView = some w' ∧ w'.body = [] ∧ w'.onmouseup = false ∧ w'.page = w.page := by
  have h := Run.run_invariant Window.shown_step (Window.shown_onload cookie) hrun
  obtain ⟨hleave, hempty⟩ := h.leavable.leaveView_eq
  exact ⟨h.elements, h.distinct, h.locked.trans h.locked_iff, w.left, hleave, rfl,
    hempty.onmouseup, rfl⟩

/-- Two new documents are asked for, and the second response comes while a graph is shown. -/
theorem page_shows_view_late_response :
    let events : List WindowEvent := [.respond 0 200 [⟨2, 0, 0, 7⟩], .click ⟨1, .createbtn⟩,
      .click ⟨1, .createbtn⟩, .respond 0 200 [], .click ⟨6, .entry 7⟩, .respond 0 200 []]
    -- `session=1`
    let cookie : JsString := [115, 101, 115, 115, 105, 111, 110, 61, 49]
    ∃ w, Run.run (windowStep fun _ _ => []) (Window.onload cookie) events = some w ∧
      w.elements = some (w.body.map Node.element) ∧ (w.body.map Node.number).Nodup ∧
      (w.onmouseup = true ↔ w.client.view = .locked) ∧
      ∃ w', w.leaveView = some w' ∧ w'.body = [] ∧ w'.onmouseup = false ∧ w'.page = w.page := by
  intro events cookie
  have hsome : (Run.run (windowStep fun _ _ => []) (Window.onload cookie) events).isSome := by
    decide +kernel
  exact ⟨_, (Option.some_get hsome).symm, page_shows_view (Option.some_get hsome).symm⟩

end SleepyText.Client
