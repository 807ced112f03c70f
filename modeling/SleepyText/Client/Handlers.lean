import SleepyText.Client.Drawing
import SleepyText.Client.Screen

set_option relaxedAutoImplicit false
set_option autoImplicit false

/-!
# Which handlers throw

A handler throws when it reads a field of `undefined`, as `gethistory` does on a branch without its
parent, `createEdge` on a vertex that is not there and the slider on a view without a history, or
when a recursion does not end. Responses, ticks and the mouse reach handlers in views that did not
set them.

## Main definitions

* `Heap.Usable` — every history and every graph can be made.
* `Window.Sturdy` — the branch objects can be used, and what the handlers refer to is there.
* `Window.Sound` — the listing is parent-closed, and forks draw ids that are fresh and not `0`.

## Main results

* `Window.Sturdy.handle` — every handler but one returns, and keeps the invariant.
* `handler_throws_iff` — in every run, a handler throws exactly when the slider is dragged out of
  the editor.
-/

namespace SleepyText.Client

/-! ## The slider -/

/-- The loop of `go` ends from every position among the steps. -/
lemma History.goLoop_eq_some {target : ℕ} (fuel : ℕ) (h : History)
    (hpos : h.position ≤ h.steps.length) (htarget : target ≤ h.steps.length)
    (hfuel : h.position - target + (target - h.position) ≤ fuel) :
    ∃ h', History.goLoop target fuel h = some h' ∧ h'.steps = h.steps ∧ h'.position = target := by
  induction fuel generalizing h with
  | zero =>
    have heq : h.position = target := by omega
    exact ⟨h, by simp [goLoop, heq], rfl, heq⟩
  | succ fuel ih =>
    rcases lt_trichotomy h.position target with hlt | heq | hgt
    · have hstep : h.steps[h.position]? = some h.steps[h.position] :=
        List.getElem?_eq_getElem (by omega)
      have hguard : ¬ ((h.position : ℤ) > h.steps.length - 1) := by omega
      rw [goLoop, if_neg hlt.ne, if_neg (by omega), forward, if_neg hguard, hstep, Option.map_some,
        Option.bind_some]
      have hnext : h.position + 1 ≤ h.steps.length := by omega
      have hturns : h.position + 1 - target + (target - (h.position + 1)) ≤ fuel := by omega
      obtain ⟨h', hloop, hsteps, hend⟩ := ih { h with
        position := h.position + 1
        render := (h.steps[h.position]).applyTo h.render } hnext htarget hturns
      exact ⟨h', hloop, hsteps, hend⟩
    · exact ⟨h, by simp [goLoop, heq], rfl, heq⟩
    · have hstep : h.steps[h.position - 1]? = some h.steps[h.position - 1] :=
        List.getElem?_eq_getElem (by omega)
      rw [goLoop, if_neg hgt.ne', if_pos hgt, back, if_neg (by omega), hstep, Option.map_some,
        Option.bind_some]
      have hnext : h.position - 1 ≤ h.steps.length := by omega
      have hturns : h.position - 1 - target + (target - (h.position - 1)) ≤ fuel := by omega
      obtain ⟨h', hloop, hsteps, hend⟩ := ih { h with
        position := h.position - 1
        render := (h.steps[h.position - 1]).revert h.render } hnext htarget hturns
      exact ⟨h', hloop, hsteps, hend⟩

/-- **`history.go` returns** from every position among the steps. -/
lemma History.go_eq_some {h : History} (hpos : h.position ≤ h.steps.length) (k : ℤ) :
    ∃ h', h.go k = some h' ∧ h'.steps = h.steps ∧ h'.position ≤ h'.steps.length := by
  by_cases heq : (h.position : ℤ) = k
  · exact ⟨h, if_pos heq, rfl, hpos⟩
  · rw [go, if_neg heq]
    dsimp only
    set target : ℤ := if (if k ≤ 0 then 0 else k) > (h.steps.length : ℤ) then (h.steps.length : ℤ)
      else (if k ≤ 0 then 0 else k) with htarget
    have hle : target.toNat ≤ h.steps.length := by
      rw [htarget]
      split_ifs <;> omega
    obtain ⟨h', hloop, hsteps, hend⟩ :=
      goLoop_eq_some (h.position + h.steps.length) h hpos hle (by omega)
    exact ⟨h', hloop, hsteps, by rw [hend, hsteps]; exact hle⟩

/-! ## Branch objects -/

namespace Heap

variable {h : Heap}

/-- Every history and every graph can be made: every chain of parents ends, and parents are branches
of the same document. -/
structure Usable (h : Heap) : Prop where
  registered : h.Registered
  listed : h.Listed
  forest : h.Forest
  drawable : ∀ b ∈ h.objects, b.parent ≠ 0 →
    ∃ p ∈ h.objects, p.id = b.parent ∧ p.document = b.document

/-- Every branch has a history. -/
lemma Usable.gethistory_eq_some (hu : h.Usable) {b : Branch} (hb : b ∈ h.objects) :
    ∃ history, h.gethistory b = some history := by
  obtain ⟨past, hpast⟩ := (hu.forest b hb).getprecedinghistory_isSome
  exact ⟨_, by rw [gethistory, hpast, Option.map_some]⟩

/-- **Every graph can be drawn.** -/
lemma Usable.entergraphview_eq_some (hu : h.Usable) (lastbranch : Option Branch) (doc : ℤ) :
    ∃ g, h.entergraphview lastbranch doc = some g := by
  rw [← Option.isSome_iff_exists, entergraphview_isSome_iff]
  rintro ⟨ref, b⟩ hb hne
  obtain ⟨hobj, hdoc⟩ := hu.listed.mem_drawn.mp hb
  obtain ⟨p, hp, hid, hsame⟩ := hu.drawable b (List.mem_of_getElem? hobj) hne
  obtain ⟨k, hk⟩ := List.getElem?_of_mem hp
  exact ⟨(k, p), hu.listed.mem_drawn.mpr ⟨hk, hsame.trans hdoc⟩, hid⟩

/-- New branches only add to what can be drawn. -/
lemma Usable.drawable_newbranch (hu : h.Usable) {o : BranchArgs ℤ}
    (hparent : o.parent ≠ 0 → ∃ p ∈ h.objects, p.id = o.parent ∧ p.document = o.document) :
    ∀ b ∈ (h.newbranch o).objects, b.parent ≠ 0 →
      ∃ p ∈ (h.newbranch o).objects, p.id = b.parent ∧ p.document = b.document := by
  intro b hb hne
  obtain ⟨p, hp, hid, hdoc⟩ : ∃ p ∈ h.objects, p.id = b.parent ∧ p.document = b.document := by
    rcases mem_newbranch.mp hb with hb | rfl
    · exact hu.drawable b hb hne
    · exact hparent hne
  exact ⟨p, mem_newbranch.mpr (.inl hp), hid, hdoc⟩

/-- **Entering the editor without a branch** takes the id `1` from the branch that has it, and ends
the chains of parents there. -/
lemma Usable.enter (hu : h.Usable) : (h.newbranch ⟨1, 0, 0, 1⟩).Usable := by
  refine ⟨hu.registered.newbranch _, hu.listed.newbranch _, fun b hb => ?_,
    hu.drawable_newbranch fun hne => absurd rfl hne⟩
  rcases mem_newbranch.mp hb with hb | rfl
  · obtain ⟨n, hn⟩ := hu.forest b hb
    clear hb
    induction hn with
    | root hroot => exact .of_parent_eq_zero hroot
    | @link b p n hne hp _ ih =>
      by_cases hone : b.parent = 1
      · exact (getprecedinghistory_enter hone).1
      · obtain ⟨ref, href, hobj⟩ := Option.bind_eq_some_iff.mp hp
        have hp' : (h.newbranch ⟨1, 0, 0, 1⟩).lookup b.parent = some p := by
          rw [lookup, branches_newbranch, if_neg hone, href, Option.bind_some,
            getElem?_newbranch_old hobj]
        refine .of_parent hne hp' (ih ?_)
        exact mem_newbranch.mpr (.inl (mem_objects_of_lookup hp))
  · exact .of_parent_eq_zero rfl

/-- **A fork with a fresh id** off a branch of its document. -/
lemma Usable.newbranch (hu : h.Usable) {o : BranchArgs ℤ} (hfresh : h.branches o.id = none)
    (hparent : o.parent ≠ 0 → ∃ p ∈ h.objects, p.id = o.parent ∧ p.document = o.document) :
    (h.newbranch o).Usable := by
  have hgrows : Grows h (h.newbranch o) := grows_newbranch hfresh
  refine ⟨hu.registered.newbranch _, hu.listed.newbranch _, fun b hb => ?_,
    hu.drawable_newbranch hparent⟩
  rcases mem_newbranch.mp hb with hb | rfl
  · exact hgrows.rooted (hu.forest b hb) rfl
  · by_cases hroot : o.parent = 0
    · exact .of_parent_eq_zero hroot
    · -- the parent has an id that is registered, if not for itself
      obtain ⟨q, hq, hid, -⟩ := hparent hroot
      obtain ⟨ref, href⟩ := hu.registered.covered q hq
      obtain ⟨p, hp, -⟩ := hu.registered.registered _ _ href
      have hlookup : h.lookup o.parent = some p := by
        rw [lookup, ← hid, href, Option.bind_some, hp]
      exact .of_parent hroot (lookup_newbranch_of_lookup hfresh hlookup)
        (hgrows.rooted (hu.forest p (List.mem_of_getElem? hp)) rfl)

/-- Typing keeps the heap usable. -/
lemma Usable.type (hu : h.Usable) (ref : ℕ) (change : Change) (text : JsString) :
    (h.type ref change text).Usable := by
  refine ⟨hu.registered.type ref change text, hu.listed.type ref change text, fun b' hb' => ?_,
    fun b' hb' hne => ?_⟩
  · obtain ⟨b, hb, hargs⟩ := exists_of_mem_type hb'
    exact grows_type.rooted (hu.forest b hb) hargs
  · obtain ⟨b, hb, hargs⟩ := exists_of_mem_type hb'
    rw [hargs] at hne ⊢
    obtain ⟨p, hp, hid, hdoc⟩ := hu.drawable b hb hne
    obtain ⟨k, hk⟩ := List.getElem?_of_mem hp
    obtain ⟨p', hp', hargs', -⟩ := getElem?_type_grows hk
    exact ⟨p', List.mem_of_getElem? hp', by rw [hargs', hid], by rw [hargs', hdoc]⟩

/-- Parent-closed rows can be used. -/
lemma usable_load {rows : List (BranchArgs ℤ)} (hrows : ParentClosed rows) :
    (load rows).heap.Usable := by
  have hinv := hrows.forestInv
  refine ⟨hinv.registered, hinv.listed, hinv.forest, fun b hb hne => ?_⟩
  obtain ⟨p, hp, hdoc⟩ := hinv.parent b hb hne
  exact ⟨p, mem_objects_of_lookup hp, hinv.registered.id_of_lookup hp, hdoc⟩

end Heap

/-! ## The editor -/

/-- The editor shows a branch object that exists, at a position of its history. -/
structure EditorView.Valid (e : EditorView) (h : Heap) : Prop where
  branch : e.branch < h.objects.length
  position : e.history.position ≤ e.history.steps.length

/-- The branch objects can be used, and the editor is valid if it is shown. -/
structure State.Valid (c : State) : Prop where
  usable : c.heap.Usable
  editor : ∀ e, c.view = .editor e → e.Valid c.heap

namespace State.Valid

variable {c : State} {e : EditorView}

/-- **Forking returns** with a fresh id. -/
lemma branchout_eq (hc : c.Valid) (he : e.Valid c.heap) {random : ℤ}
    (hfresh : c.heap.branches random = none) :
    ∃ d f, branchout c e random = some (d, f) ∧ d.heap.Usable ∧ f.Valid d.heap ∧
      c.heap.objects.length ≤ d.heap.objects.length := by
  obtain ⟨b, hb⟩ : ∃ b, c.heap.objects[e.branch]? = some b :=
    ⟨_, List.getElem?_eq_getElem he.branch⟩
  have husable : (c.heap.newbranch (forkArgs e b random)).Usable :=
    hc.usable.newbranch hfresh fun _ => ⟨b, List.mem_of_getElem? hb, rfl, rfl⟩
  obtain ⟨history, hhistory⟩ := husable.gethistory_eq_some (Heap.mem_newbranch.mpr (.inr rfl))
  refine ⟨{ c with heap := c.heap.newbranch (forkArgs e b random) },
    { e with
      branch := c.heap.objects.length
      history := { history with position := history.steps.length } }, ?_, husable, ⟨?_, le_rfl⟩, ?_⟩
  · simp only [forkArgs] at hhistory
    simp [branchout, hb, hhistory, forkArgs]
  · simp [Heap.newbranch]
  · simp [Heap.newbranch]

/-- Recording a change keeps the editor valid. -/
lemma record (husable : c.heap.Usable) (he : e.Valid c.heap) (text : JsString) :
    (record c e text).Valid where
  usable := husable.type _ _ _
  editor := by
    rintro f ⟨⟩
    exact ⟨by simpa [Client.record, Heap.type] using he.branch, le_rfl⟩

/-- **The handlers of the editor** return, and make no branch object unusable. -/
lemma edit (hc : c.Valid) (hview : c.view = .editor e) {event : Event}
    (hevent : event.editing = true) (hfresh : FreshFork c event) :
    ∃ c', step c event = some c' ∧ c'.Valid ∧
      c.heap.objects.length ≤ c'.heap.objects.length := by
  have he := hc.editor e hview
  cases event with
  | oninput text random =>
    simp only [step, hview]
    by_cases hend : e.history.position = e.history.steps.length
    · refine ⟨Client.record c e text, if_neg (by simpa using hend), record hc.usable he text, ?_⟩
      simp [Client.record, Heap.type]
    · have hrandom : c.heap.branches random = none :=
        (hfresh random (by simp [newid, hview, hend])).2
      obtain ⟨d, f, hfork, husable, hf, hlength⟩ := hc.branchout_eq he hrandom
      refine ⟨Client.record d f text, ?_, record husable hf text, ?_⟩
      · rw [oninput, if_pos hend, hfork, Option.map_some]
      · simpa [Client.record, Heap.type] using hlength
  | slide go =>
    obtain ⟨history, hgo, -, hpos⟩ := History.go_eq_some he.position go
    simp only [step, hview, Client.slide, hgo, Option.map_some]
    refine ⟨_, rfl, ⟨hc.usable, ?_⟩, le_rfl⟩
    rintro f ⟨⟩
    exact ⟨he.branch, hpos⟩
  | branchbtn random =>
    obtain ⟨d, f, hfork, husable, hf, hlength⟩ := hc.branchout_eq he (hfresh random rfl).2
    simp only [step, hview, hfork, Option.map_some]
    refine ⟨_, rfl, ⟨husable, ?_⟩, hlength⟩
    rintro f ⟨⟩
    exact hf
  | graph => cases hevent
  | userbtn => cases hevent
  | opendocument doc => cases hevent
  | vertex ref => cases hevent
  | login => cases hevent

/-- **Entering the editor** returns, on a branch object that exists or on a new one. -/
lemma entereditorview_eq (husable : c.heap.Usable) {activebranch : Option ℕ}
    (hbranch : ∀ ref ∈ activebranch, ref < c.heap.objects.length) :
    ∃ c', entereditorview c activebranch = some c' ∧ c'.Valid ∧
      c.heap.objects.length ≤ c'.heap.objects.length := by
  cases activebranch with
  | none =>
    have hnew := husable.enter
    obtain ⟨history, hhistory⟩ := hnew.gethistory_eq_some (Heap.mem_newbranch.mpr (.inr rfl))
    refine ⟨{ c with
      heap := c.heap.newbranch ⟨1, 0, 0, 1⟩
      view := .editor ⟨c.heap.objects.length, ⟨history.steps, history.steps.length, []⟩, [], []⟩ },
      ?_, ⟨hnew, ?_⟩, by simp [Heap.newbranch]⟩
    · simp [entereditorview, hhistory]
    · rintro f ⟨⟩
      exact ⟨by simp [Heap.newbranch], le_rfl⟩
  | some ref =>
    have hlt := hbranch ref rfl
    have hb : c.heap.objects[ref]? = some c.heap.objects[ref] := List.getElem?_eq_getElem hlt
    obtain ⟨history, hhistory⟩ := husable.gethistory_eq_some (List.mem_of_getElem? hb)
    refine ⟨{ c with view := .editor ⟨ref,
      ⟨history.steps, history.steps.length, (c.heap.objects[ref]).render⟩,
      (c.heap.objects[ref]).render, (c.heap.objects[ref]).render⟩ }, ?_, ⟨husable, ?_⟩, le_rfl⟩
    · simp [entereditorview, hb, hhistory]
    · rintro f ⟨⟩
      exact ⟨hlt, le_rfl⟩

end State.Valid

/-! ## The graph -/

/-- Vertices stand for branch objects that are drawn. -/
lemma Heap.branch_of_vertices {h : Heap} {lastbranch : Option Branch} {doc : ℤ} {g : Graph}
    (hg : h.entergraphview lastbranch doc = some g) {id : ℤ} {v : Vertex}
    (hv : g.vertices id = some v) :
    ∃ ref ∈ h.docs doc, ref < h.objects.length ∧ v.branch = some ref := by
  have hfoldl (l : List (ℕ × Branch)) (g₀ : Graph)
      (hg₀ : ∀ v, g₀.vertices id = some v → ∃ p ∈ h.drawn doc, v.branch = some p.1)
      (hl : ∀ p ∈ l, p ∈ h.drawn doc) (v : Vertex)
      (hv : (l.foldl (fun g p => g.drawVertex lastbranch p.1 p.2) g₀).vertices id = some v) :
      ∃ p ∈ h.drawn doc, v.branch = some p.1 := by
    induction l generalizing g₀ with
    | nil => exact hg₀ v hv
    | cons p l ih =>
      refine ih (g₀.drawVertex lastbranch p.1 p.2) (fun v hv => ?_)
        (fun q hq => hl q (List.mem_cons_of_mem _ hq)) hv
      rw [Graph.vertices_drawVertex] at hv
      by_cases hid : id = p.2.id
      · rw [hid, Function.update_self, Option.some.injEq] at hv
        exact ⟨p, hl p List.mem_cons_self, by rw [← hv]; rfl⟩
      · rw [Function.update_of_ne hid] at hv
        exact hg₀ v hv
  have hbare := (Graph.joined_foldlM_drawEdge hg).bare id
  rw [hv, Option.map_some] at hbare
  obtain ⟨w, hw, hsame⟩ := Option.map_eq_some_iff.mp hbare.symm
  obtain ⟨p, hp, hbranch⟩ := hfoldl (h.drawn doc) Graph.empty (by rintro v ⟨⟩)
    (fun _ hp => hp) w hw
  obtain ⟨ref, href, hobj⟩ := List.mem_filterMap.mp hp
  obtain ⟨b, hb, rfl⟩ := Option.map_eq_some_iff.mp hobj
  refine ⟨ref, href, (List.getElem?_eq_some_iff.mp hb).1, ?_⟩
  rw [← hbranch]
  exact (congrArg Vertex.branch hsame).symm

/-- The vertices of the graph stand for branch objects that exist, and those that the mouse is over
or has clicked are vertices of it. -/
structure GraphObject.Valid (g : GraphObject) (h : Heap) : Prop where
  branch : ∀ id v, g.graph.vertices id = some v → ∃ ref < h.objects.length, v.branch = some ref
  active : ∀ id ∈ g.active, (g.graph.vertices id).isSome
  ending : ∀ id ∈ g.ending, (g.graph.vertices id).isSome

/-- Branch objects are not removed. -/
lemma GraphObject.Valid.mono {g : GraphObject} {h h' : Heap} (hg : g.Valid h)
    (hle : h.objects.length ≤ h'.objects.length) : g.Valid h' where
  branch := by
    intro id v hv
    obtain ⟨ref, hlt, hbranch⟩ := hg.branch id v hv
    exact ⟨ref, hlt.trans_le hle, hbranch⟩
  active := hg.active
  ending := hg.ending

/-! ## The window -/

namespace Window

variable {w w' : Window}

/-- The listing is parent-closed, and forks draw ids that are fresh and not `0`. -/
def Sound (w : Window) : WindowEvent → Prop
  | .respond i _ rows => w.requests[i]? = some .branches → ParentClosed rows
  | .input text random => FreshFork w.client (.oninput text random)
  | .button (.branch random) => FreshFork w.client (.branchbtn random)
  | _ => True

/-- The invariant of a window that has its listing: the branch objects can be used, and what the
editor and the graph refer to is there. -/
structure Sturdy (w : Window) : Prop where
  valid : w.client.Valid
  graph : ∀ g ∈ w.graph, g.Valid w.client.heap
  stale : w.stale > 0 → w.graph.isSome
  listed : Callback.branches ∉ w.requests

/-- A window that waits for its listing. -/
structure Loading (w : Window) : Prop where
  page : w.page = ⟨⟨Heap.empty, [], [], .loading⟩, [], [], []⟩
  mouse : w.mouse = .unset
  graph : w.graph = none
  stale : w.stale = 0
  onmouseup : w.onmouseup = false
  requests : w.requests = [.branches]

/-- A window that has just got its listing. -/
structure Loaded (w : Window) (rows : List (BranchArgs ℤ)) : Prop where
  page : w.page = ⟨load rows, [], [], []⟩
  mouse : w.mouse = .unset
  graph : w.graph = none
  stale : w.stale = 0
  requests : w.requests = []

/-- A document that has just been loaded. -/
lemma Loaded.sturdy {rows : List (BranchArgs ℤ)} (h : w.Loaded rows) (hrows : ParentClosed rows) :
    w.Sturdy where
  valid := by
    rw [client, h.page]
    exact ⟨Heap.usable_load hrows, by rintro e ⟨⟩⟩
  graph := by
    rw [h.graph]
    rintro g ⟨⟩
  stale := by
    rw [h.stale]
    rintro ⟨⟩
  listed := by
    rw [h.requests]
    exact List.not_mem_nil

/-- Leaving a view. -/
lemma Sturdy.left (h : w.Sturdy) : w.left.Sturdy := ⟨h.valid, h.graph, h.stale, h.listed⟩

/-- Entering a view other than the editor. -/
lemma Sturdy.enter (h : w.Sturdy) {view : View} (hview : view.editor? = none) (leave : Leave)
    (dom : List Node) : (w.enter view leave dom).Sturdy where
  valid := ⟨h.valid.usable, by
    rintro e he
    rw [show view = .editor e from he] at hview
    cases hview⟩
  graph := h.graph
  stale := h.stale
  listed := h.listed

/-- Entering the account view. -/
lemma Sturdy.enteraccountview (h : w.Sturdy) : w.enteraccountview.Sturdy := by
  rw [Window.enteraccountview]
  split_ifs
  · exact h.enter rfl _ _
  · exact h.enter rfl _ _

/-- **Entering the editor** returns. -/
lemma Sturdy.entereditorview (h : w.Sturdy) {activebranch : Option ℕ}
    (hbranch : ∀ ref ∈ activebranch, ref < w.client.heap.objects.length) :
    ∃ w', w.entereditorview activebranch = some w' ∧ w'.Sturdy := by
  obtain ⟨c, hc, hvalid, hlength⟩ := State.Valid.entereditorview_eq h.valid.usable hbranch
  refine ⟨_, by rw [Window.entereditorview, hc, Option.map_some], ?_⟩
  exact ⟨hvalid, fun g hg => (h.graph g hg).mono hlength, h.stale, h.listed⟩

/-- **Entering the graph view** returns. -/
lemma Sturdy.entergraphview (h : w.Sturdy) (lastbranch : Option Branch) (doc : ℤ) :
    ∃ w', w.entergraphview lastbranch doc = some w' ∧ w'.Sturdy := by
  obtain ⟨g, hg⟩ := h.valid.usable.entergraphview_eq_some lastbranch doc
  refine ⟨_, by rw [Window.entergraphview, hg, Option.map_some], ?_⟩
  have hentered := @Sturdy.enter w h (.graph doc) rfl (.graph ⟨w.nodes, .canvas⟩)
    [⟨w.nodes, .canvas⟩]
  refine ⟨hentered.valid, ?_, fun _ => rfl, h.listed⟩
  rintro _ ⟨⟩
  refine ⟨fun id v hv => ?_, by rintro _ ⟨⟩, by rintro _ ⟨⟩⟩
  obtain ⟨ref, -, hlt, hbranch⟩ := Heap.branch_of_vertices hg hv
  exact ⟨ref, hlt, hbranch⟩

/-- Leaving the view for one that can always be entered. -/
lemma Sturdy.map_leaveView (h : w.Sturdy) (hleavable : w.Leavable) {enter : Window → Window}
    (henter : ∀ v : Window, v.Sturdy → (enter v).Sturdy) :
    ∃ w', w.leaveView.map enter = some w' ∧ w'.Sturdy := by
  rw [hleavable.leaveView_eq.1]
  exact ⟨_, rfl, henter _ h.left⟩

/-- Leaving the view for one that is made of the branch objects. -/
lemma Sturdy.bind_leaveView (h : w.Sturdy) (hleavable : w.Leavable)
    {enter : Window → Option Window}
    (henter : ∀ v : Window, v.Sturdy → v.page = w.page → ∃ w', enter v = some w' ∧ w'.Sturdy) :
    ∃ w', w.leaveView.bind enter = some w' ∧ w'.Sturdy := by
  rw [hleavable.leaveView_eq.1]
  exact henter _ h.left rfl

/-- What the editor puts on the page is there in the editor only. -/
lemma Shown.editor_of_holds (h : w.Shown) {element : Element}
    (helement : element ∈ [Element.slider, .editor, .buttonbox]) (hholds : w.Holds element) :
    ∃ e, w.client.view = .editor e := by
  obtain ⟨node, hnode, rfl⟩ := hholds
  have hmem : node.element ∈ w.body.map Node.element := List.mem_map_of_mem hnode
  have helements := h.elements
  rw [Window.elements] at helements
  generalize w.body.map Node.element = elements at hmem helements
  cases hleave : w.leave <;> cases hview : w.client.view <;>
    simp only [hleave, hview, Leave.elements, Option.some.injEq, reduceCtorEq] at helements
  case editor.editor e => exact ⟨e, rfl⟩
  all_goals
    subst helements
    revert helement hmem
    generalize node.element = element
    intro helement hmem
    simp only [List.mem_cons, List.not_mem_nil, or_false] at helement
    rcases helement with rfl | rfl | rfl <;> simp at hmem

/-- The handlers of the editor return. -/
lemma Sturdy.edit (h : w.Sturdy) {e : EditorView} (hview : w.client.view = .editor e)
    {event : Event} (hevent : event.editing = true) (hfresh : FreshFork w.client event) :
    ∃ page, pageStep w.page (.edit event) = some page ∧ Sturdy { w with page := page } := by
  obtain ⟨c, hc, hvalid, hlength⟩ := h.valid.edit hview hevent hfresh
  refine ⟨{ w.page with client := c, pushed := w.page.pushed ++ recorded w.client event }, ?_,
    hvalid, fun g hg => (h.graph g hg).mono hlength, h.stale, h.listed⟩
  rw [pageStep, hc, Option.map_some]

/-- The upload loop touches neither the branch objects nor the view. -/
lemma Sturdy.withUpload (h : w.Sturdy) (u : Upload) :
    Sturdy { w with page := w.page.withUpload u } :=
  ⟨⟨h.valid.usable, h.valid.editor⟩, h.graph, h.stale, h.listed⟩

/-- Another request is sent. -/
lemma Sturdy.request (h : w.Sturdy) {callback : Callback} (hcallback : callback ≠ .branches) :
    (w.request callback).Sturdy where
  valid := h.valid
  graph := h.graph
  stale := h.stale
  listed := by
    rw [Window.request, List.mem_append, List.mem_singleton, not_or]
    exact ⟨h.listed, hcallback.symm⟩

section Handlers

variable {setcookie : JsString → JsString → JsString}

/-- A click returns. -/
lemma Sturdy.click (h : w.Sturdy) (hshown : w.Shown) (node : Node) :
    ∃ w', w.handle setcookie (.click node) = some w' ∧ w'.Sturdy := by
  cases helement : node.element <;> simp only [handle, helement]
  case login => exact ⟨_, rfl, h.request (by simp)⟩
  case register => exact ⟨_, rfl, h.request (by simp)⟩
  case createbtn => exact ⟨_, rfl, h.request (by simp)⟩
  case logout =>
    have hcookie (cookie : JsString) :
        Sturdy { w with cookie := cookie } ∧ Leavable { w with cookie := cookie } :=
      ⟨⟨h.valid, h.graph, h.stale, h.listed⟩, hshown.leavable.present, hshown.nodes,
        hshown.locked.mp⟩
    exact (hcookie _).1.map_leaveView (hcookie _).2 fun v hv => hv.enteraccountview
  case entry doc =>
    exact h.bind_leaveView hshown.leavable fun v hv _ => hv.entergraphview none doc
  all_goals exact ⟨w, rfl, h⟩

/-- A button of the editor returns. -/
lemma Sturdy.button (h : w.Sturdy) (hshown : w.Shown) {button : Button}
    (henabled : w.Enabled (.button button)) (hsound : w.Sound (.button button)) :
    ∃ w', w.handle setcookie (.button button) = some w' ∧ w'.Sturdy := by
  obtain ⟨e, hview⟩ := hshown.editor_of_holds (by simp) henabled
  cases button with
  | graph =>
    obtain ⟨b, hb⟩ : ∃ b, w.client.heap.objects[e.branch]? = some b :=
      ⟨_, List.getElem?_eq_getElem (h.valid.editor e hview).branch⟩
    simp only [handle, hview, hb, Option.bind_eq_bind, Option.bind_some]
    exact h.bind_leaveView hshown.leavable fun v hv _ => hv.entergraphview _ _
  | branch random =>
    obtain ⟨page, hpage, hsturdy⟩ := @Sturdy.edit w h e hview (.branchbtn random) rfl hsound
    exact ⟨_, by rw [handle, hpage, Option.map_some], hsturdy⟩
  | user => exact h.map_leaveView hshown.leavable fun v hv => hv.enteraccountview

/-- The slider returns in the editor, and throws in every other view. -/
lemma Sturdy.slide (h : w.Sturdy) (go : ℤ) :
    (∃ e w', w.client.view = .editor e ∧ w.slide go = some w' ∧ w'.Sturdy) ∨
      (∀ e, w.client.view ≠ .editor e) ∧ w.slide go = none := by
  cases hview : w.client.view with
  | editor e =>
    obtain ⟨page, hpage, hsturdy⟩ := @Sturdy.edit w h e hview (.slide go) rfl (by rintro _ ⟨⟩)
    exact .inl ⟨e, _, rfl, by rw [Window.slide, hpage, Option.map_some], hsturdy⟩
  | loading => exact .inr ⟨by simp, by simp [Window.slide, pageStep, step, hview]⟩
  | account => exact .inr ⟨by simp, by simp [Window.slide, pageStep, step, hview]⟩
  | locked => exact .inr ⟨by simp, by simp [Window.slide, pageStep, step, hview]⟩
  | graph doc => exact .inr ⟨by simp, by simp [Window.slide, pageStep, step, hview]⟩

/-- Letting go of the mouse returns. -/
lemma Sturdy.mouseup (h : w.Sturdy) :
    ∃ w', w.handle setcookie .mouseup = some w' ∧ w'.Sturdy := by
  have hlock : (if w.onmouseup then w.request .lock else w).Sturdy := by
    split_ifs
    · exact h.request (by simp)
    · exact h
  rw [handle]
  generalize (if w.onmouseup then w.request .lock else w) = v at hlock
  cases hmouse : v.mouse with
  | unset => exact ⟨v, rfl, hlock⟩
  | slider =>
    exact ⟨{ v with mouse := .unset }, rfl,
      ⟨hlock.valid, hlock.graph, hlock.stale, hlock.listed⟩⟩
  | graph =>
    cases hgraph : v.graph with
    | none => exact ⟨v, rfl, hlock⟩
    | some g =>
      cases hactive : g.active with
      | none => exact ⟨v, by simp [hactive], hlock⟩
      | some id =>
        have hg := hlock.graph g hgraph
        refine ⟨{ v with mouse := .unset, graph := some { g with ending := some id } },
          by simp [hactive], hlock.valid, ?_, fun _ => rfl, hlock.listed⟩
        rintro _ ⟨⟩
        refine ⟨hg.branch, hg.active, ?_⟩
        rintro _ ⟨⟩
        exact hg.active id hactive

/-- The interval of the graph returns. -/
lemma Sturdy.interval (h : w.Sturdy) (hshown : w.Shown) {late : Bool}
    (henabled : w.Enabled (.interval late)) :
    ∃ w', w.handle setcookie (.interval late) = some w' ∧ w'.Sturdy := by
  obtain ⟨g, hgraph⟩ : ∃ g, w.graph = some g := by
    rcases henabled with hstale | ⟨g, hg, -⟩
    · exact Option.isSome_iff_exists.mp (h.stale hstale)
    · exact ⟨g, hg⟩
  have hg := h.graph g hgraph
  rw [handle, hgraph, Option.bind_eq_bind, Option.bind_some]
  cases hending : g.ending with
  | none => exact ⟨w, rfl, h⟩
  | some id =>
    cases late with
    | false => exact ⟨w, rfl, h⟩
    | true =>
      obtain ⟨v, hv⟩ := Option.isSome_iff_exists.mp (hg.ending id hending)
      obtain ⟨ref, hlt, hbranch⟩ := hg.branch id v hv
      have hquit : Sturdy { w with graph := some { g with task := false } } := by
        refine ⟨h.valid, ?_, fun _ => rfl, h.listed⟩
        rintro _ ⟨⟩
        exact ⟨hg.branch, hg.active, hg.ending⟩
      simp only [if_true, hv, Option.bind_eq_bind, Option.bind_some, hbranch]
      rw [← hending]
      refine hquit.bind_leaveView ⟨hshown.leavable.present, hshown.nodes, hshown.locked.mp⟩
        fun v' hv' hpage => hv'.entereditorview ?_
      rintro _ ⟨⟩
      rw [client, hpage]
      exact hlt

/-- The callback of a request returns. -/
lemma Sturdy.respond (h : w.Sturdy) (hshown : w.Shown) {i status : ℕ} {rows : List (BranchArgs ℤ)}
    (henabled : w.Enabled (.respond i status rows)) :
    ∃ w', w.handle setcookie (.respond i status rows) = some w' ∧ w'.Sturdy := by
  obtain ⟨callback, hcallback⟩ : ∃ callback, w.requests[i]? = some callback :=
    ⟨_, List.getElem?_eq_getElem henabled⟩
  have hmem := List.mem_of_getElem? hcallback
  have hanswered (requests : List Callback) (alerts : List String)
      (hsub : requests ⊆ w.requests) :
      Sturdy { w with requests := requests, alerts := alerts } ∧
        Leavable { w with requests := requests, alerts := alerts } :=
    ⟨⟨h.valid, h.graph, h.stale, fun hin => h.listed (hsub hin)⟩, hshown.leavable.present,
      hshown.nodes, hshown.locked.mp⟩
  obtain ⟨hsturdy, hleavable⟩ := hanswered (w.requests.eraseIdx i)
    (if status ≠ 200 then w.alerts ++ [callback.failure] else w.alerts)
    (List.eraseIdx_sublist _ _).subset
  rw [handle, hcallback, Option.bind_some]
  cases callback with
  | branches => exact absurd hmem h.listed
  | newbranch => exact hsturdy.map_leaveView hleavable fun v hv => hv.enteraccountview
  | user =>
    exact hsturdy.bind_leaveView hleavable fun v hv _ => hv.entereditorview (by rintro _ ⟨⟩)
  | login =>
    exact hsturdy.bind_leaveView hleavable fun v hv _ => hv.entereditorview (by rintro _ ⟨⟩)
  | lock =>
    exact hsturdy.bind_leaveView hleavable fun v hv _ => hv.entereditorview (by rintro _ ⟨⟩)

/-- The end of an upload returns. -/
lemma Sturdy.complete (h : w.Sturdy) (hshown : w.Shown) {i status : ℕ}
    (henabled : w.Enabled (.complete i status)) :
    ∃ w', w.handle setcookie (.complete i status) = some w' ∧ w'.Sturdy := by
  obtain ⟨r, hr⟩ : ∃ r, w.page.upload.transfer.outstanding[i]? = some r :=
    ⟨_, List.getElem?_eq_getElem henabled⟩
  have hupload := h.withUpload (w.page.upload.complete i status r)
  have hleavable : Leavable { w with
      page := w.page.withUpload (w.page.upload.complete i status r) } :=
    ⟨hshown.leavable.present, hshown.nodes, hshown.locked.mp⟩
  rw [handle, synchStep, hr, Option.map_some, Option.bind_some]
  dsimp only
  split_ifs
  · exact ⟨_, rfl, hupload⟩
  · refine hupload.map_leaveView hleavable fun v hv => ?_
    have hlocked := @Sturdy.enter v hv .locked rfl .locked (v.create [.locked])
    exact ⟨hlocked.valid, hlocked.graph, hlocked.stale, hlocked.listed⟩
  · exact ⟨_, rfl, hupload.valid, hupload.graph, hupload.stale, hupload.listed⟩

/-- **Every handler** but that of a slider dragged out of the editor returns, and keeps the
invariant. -/
lemma Sturdy.handle (h : w.Sturdy) (hshown : w.Shown) {event : WindowEvent}
    (henabled : w.Enabled event) (hsound : w.Sound event) :
    (∃ w', w.handle setcookie event = some w' ∧ w'.Sturdy) ∧
        ¬ (w.mouse = .slider ∧ (∃ vertex go, event = .mousemove vertex go) ∧
          ∀ e, w.client.view ≠ .editor e) ∨
      w.handle setcookie event = none ∧ w.mouse = .slider ∧
        (∃ vertex go, event = .mousemove vertex go) ∧ ∀ e, w.client.view ≠ .editor e := by
  cases event with
  | click node => exact .inl ⟨h.click hshown node, by simp⟩
  | button button => exact .inl ⟨h.button hshown henabled hsound, by simp⟩
  | input text random =>
    obtain ⟨e, hview⟩ := hshown.editor_of_holds (by simp) henabled
    obtain ⟨page, hpage, hsturdy⟩ := @Sturdy.edit w h e hview (.oninput text random) rfl hsound
    exact .inl ⟨⟨_, by rw [Window.handle, hpage, Option.map_some], hsturdy⟩, by simp⟩
  | grab go =>
    obtain ⟨e, hview⟩ := hshown.editor_of_holds (by simp) henabled
    have hgrabbed : Sturdy { w with mouse := .slider } := ⟨h.valid, h.graph, h.stale, h.listed⟩
    rcases hgrabbed.slide go with ⟨-, w', -, hw', hsturdy⟩ | ⟨hnone, -⟩
    · exact .inl ⟨⟨w', hw', hsturdy⟩, by simp⟩
    · exact absurd hview (hnone e)
  | mousemove vertex go =>
    cases hmouse : w.mouse with
    | unset => exact .inl ⟨⟨w, by simp [Window.handle, hmouse], h⟩, by simp⟩
    | graph =>
      refine .inl ⟨⟨{ w with graph := w.graph.map fun g => { g with active := vertex } },
        by simp [Window.handle, hmouse], h.valid, ?_, fun hstale => ?_, h.listed⟩, by simp⟩
      · intro g hg
        obtain ⟨g, hgraph, rfl⟩ := Option.map_eq_some_iff.mp hg
        have hvalid := h.graph g hgraph
        refine ⟨hvalid.branch, fun id hid => ?_, hvalid.ending⟩
        obtain ⟨g', hg', hsome⟩ := henabled id hid
        obtain rfl := Option.some.inj (hgraph.symm.trans hg')
        exact hsome
      · rw [Option.isSome_map]
        exact h.stale hstale
    | slider =>
      rcases h.slide go with ⟨e, w', hview, hw', hsturdy⟩ | ⟨hnone, hthrows⟩
      · exact .inl ⟨⟨w', by simp [Window.handle, hmouse, hw'], hsturdy⟩, by simp [hview]⟩
      · exact .inr ⟨by simp [Window.handle, hmouse, hthrows], rfl, ⟨vertex, go, rfl⟩, hnone⟩
  | mouseup => exact .inl ⟨h.mouseup, by simp⟩
  | interval late => exact .inl ⟨h.interval hshown henabled, by simp⟩
  | respond i status rows => exact .inl ⟨h.respond hshown henabled, by simp⟩
  | tick =>
    exact .inl ⟨⟨_, rfl,
      h.withUpload { w.page.upload with transfer := w.page.upload.transfer.synch }⟩, by simp⟩
  | complete i status => exact .inl ⟨h.complete hshown henabled, by simp⟩
  | cookie cookie =>
    exact .inl ⟨⟨_, rfl, ⟨h.valid, h.graph, h.stale, h.listed⟩⟩, by simp⟩

/-- **While the listing is awaited**, all handlers return, and nothing happens but ticks. -/
lemma Loading.handle (h : w.Loading) (hshown : w.Shown) {event : WindowEvent}
    (henabled : w.Enabled event) :
    ∃ w', w.handle setcookie event = some w' ∧ (w'.Loading ∨ ∃ i status rows,
      event = .respond i status rows ∧ w.requests[i]? = some .branches ∧ w'.Loaded rows) := by
  have hview : w.client.view = .loading := by rw [client, h.page]
  have hnoeditor (element : Element) (helement : element ∈ [Element.slider, .editor, .buttonbox]) :
      ¬ w.Holds element := by
    intro hholds
    obtain ⟨e, he⟩ := hshown.editor_of_holds helement hholds
    rw [hview] at he
    cases he
  cases event with
  | click node =>
    have hmem : node.element ∈ w.body.map Node.element := List.mem_map_of_mem henabled
    have helements := hshown.elements
    rw [Window.elements, hview] at helements
    cases hleave : w.leave <;> rw [hleave] at helements <;> simp only [Leave.elements,
      Option.some.injEq, reduceCtorEq] at helements
    rw [← helements, List.mem_singleton] at hmem
    exact ⟨w, by simp [Window.handle, hmem], .inl h⟩
  | button button => exact absurd henabled (hnoeditor _ (by simp))
  | input text random => exact absurd henabled (hnoeditor _ (by simp))
  | grab go => exact absurd henabled (hnoeditor _ (by simp))
  | mousemove vertex go => exact ⟨w, by simp [Window.handle, h.mouse], .inl h⟩
  | mouseup => exact ⟨w, by simp [Window.handle, h.mouse, h.onmouseup], .inl h⟩
  | interval late =>
    rcases henabled with hstale | ⟨g, hg, -⟩
    · rw [h.stale] at hstale
      cases hstale
    · rw [h.graph] at hg
      cases hg
  | respond i status rows =>
    obtain rfl : i = 0 := by
      have hlt : i < w.requests.length := henabled
      rw [h.requests] at hlt
      simpa using hlt
    have hcallback : w.requests[0]? = some .branches := by rw [h.requests]; rfl
    have hleavable (page : Page) (requests : List Callback) (alerts : List String) :
        Leavable { w with page := page, requests := requests, alerts := alerts } :=
      ⟨hshown.leavable.present, hshown.nodes, hshown.locked.mp⟩
    rw [Window.handle, hcallback, Option.bind_some, success]
    dsimp only [withClient]
    rw [(hleavable _ _ _).leaveView_eq.1, Option.map_some]
    refine ⟨_, rfl, .inr ⟨0, status, rows, rfl, hcallback, ?_, h.mouse, h.graph, h.stale, ?_⟩⟩
    · dsimp only [enteruserview, Window.enter, left, withClient, client]
      rw [h.page]
      rfl
    · dsimp only [enteruserview, Window.enter, left, withClient]
      rw [h.requests]
      rfl
  | tick =>
    refine ⟨_, rfl, .inl ⟨?_, h.mouse, h.graph, h.stale, h.onmouseup, h.requests⟩⟩
    dsimp only
    rw [h.page]
    rfl
  | complete i status =>
    have hlt : i < w.page.outstanding.length := henabled
    rw [h.page] at hlt
    cases hlt
  | cookie cookie =>
    exact ⟨_, rfl, .inl ⟨h.page, h.mouse, h.graph, h.stale, h.onmouseup, h.requests⟩⟩

/-- **Every event** keeps the window in one of the two invariants. -/
lemma sturdy_step (w : Window) (event : WindowEvent) (w' : Window)
    (h : w.Shown ∧ (w.Loading ∨ w.Sturdy)) (hsound : w.Sound event)
    (hstep : windowStep setcookie w event = some w') : w'.Shown ∧ (w'.Loading ∨ w'.Sturdy) := by
  obtain ⟨hshown, hinv⟩ := h
  refine ⟨shown_step w event w' hshown hstep, ?_⟩
  rw [windowStep] at hstep
  split_ifs at hstep with henabled
  rcases hinv with hloading | hsturdy
  · obtain ⟨v, hv, hinv⟩ := @Loading.handle w setcookie hloading hshown event henabled
    obtain rfl := Option.some.inj (hstep.symm.trans hv)
    rcases hinv with hinv | ⟨i, status, rows, rfl, hcallback, hloaded⟩
    · exact .inl hinv
    · exact .inr (hloaded.sturdy (hsound hcallback))
  · rcases @Sturdy.handle w setcookie hsturdy hshown event henabled hsound with
      ⟨⟨v, hv, hinv⟩, -⟩ | ⟨hnone, -⟩
    · obtain rfl := Option.some.inj (hstep.symm.trans hv)
      exact .inr hinv
    · rw [hnone] at hstep
      cases hstep

/-- The first request asks for the listing. -/
lemma loading_onload (cookie : JsString) : (onload cookie).Loading :=
  ⟨rfl, rfl, rfl, rfl, rfl, rfl⟩

end Handlers

end Window

/-- **Which handlers throw.** In every run of the window from a parent-closed listing, in which
forks draw fresh ids, the handler of an event that can happen throws exactly when the slider is
dragged while another view than the editor is shown. So histories and graphs can always be made, a
view can always be left, intervals and responses find what they refer to, and no recursion over the
parents of branches runs forever.

**Proof sketch.** The branch objects stay usable: a fork draws a fresh id, and the branch made by
the editor without an argument is a root (`Heap.Usable.newbranch`, `Heap.Usable.enter`). Vertices
refer to branch objects, which are never removed (`GraphObject.Valid.mono`). -/
theorem handler_throws_iff {setcookie : JsString → JsString → JsString} {cookie : JsString}
    {events : List WindowEvent} {w : Window}
    (hrun : Run.run (windowStep setcookie) (Window.onload cookie) events = some w)
    (hsound : Run.Guarded (windowStep setcookie) Window.Sound (Window.onload cookie) events)
    {event : WindowEvent} (henabled : w.Enabled event) (hevent : w.Sound event) :
    w.handle setcookie event = none ↔ w.mouse = .slider ∧
      (∃ vertex go, event = .mousemove vertex go) ∧ ∀ e, w.client.view ≠ .editor e := by
  obtain ⟨hshown, hinv⟩ := Run.run_invariant_of_guarded (I := fun w : Window =>
    w.Shown ∧ (w.Loading ∨ w.Sturdy)) Window.sturdy_step
    ⟨Window.shown_onload cookie, .inl (Window.loading_onload cookie)⟩ hsound hrun
  rcases hinv with hloading | hsturdy
  · obtain ⟨v, hv, -⟩ := @Window.Loading.handle w setcookie hloading hshown event henabled
    rw [hv, hloading.mouse]
    simp
  · rcases @Window.Sturdy.handle w setcookie hsturdy hshown event henabled hevent with
      ⟨⟨v, hv, -⟩, hnot⟩ | ⟨hnone, hslider⟩
    · rw [hv]
      exact ⟨fun h => absurd h (by simp), fun h => absurd h hnot⟩
    · exact ⟨fun _ => hslider, fun _ => hnone⟩

/-- The slider is held while the account view is entered, and then dragged. -/
theorem handler_throws_iff_dragged :
    let events : List WindowEvent := [.respond 0 200 [⟨2, 0, 0, 7⟩], .click ⟨3, .entry 7⟩,
      .mousemove (some 2) 0, .mouseup, .interval true, .grab 0, .button .user]
    ∃ w, Run.run (windowStep fun _ _ => []) (Window.onload []) events = some w ∧
      (w.handle (fun _ _ => []) (.mousemove none 0) = none ↔ w.mouse = .slider ∧
        (∃ vertex go, WindowEvent.mousemove none 0 = .mousemove vertex go) ∧
        ∀ e, w.client.view ≠ .editor e) := by
  intro events
  have hsome : (Run.run (windowStep fun _ _ => []) (Window.onload []) events).isSome := by
    decide +kernel
  have hrows : ParentClosed [⟨2, 0, 0, 7⟩] :=
    ⟨by decide, by decide, by simp, fun r => not_transGen_of_parent_lt (by decide)⟩
  have hsound : Run.Guarded (windowStep fun _ _ => []) Window.Sound (Window.onload []) events :=
    ⟨fun _ => hrows, fun _ _ => ⟨trivial, fun _ _ => ⟨trivial, fun _ _ => ⟨trivial, fun _ _ =>
      ⟨trivial, fun _ _ => ⟨trivial, fun _ _ => ⟨trivial, fun _ _ => trivial⟩⟩⟩⟩⟩⟩⟩
  exact ⟨_, (Option.some_get hsome).symm, handler_throws_iff (Option.some_get hsome).symm hsound
    (by rintro _ ⟨⟩) trivial⟩

end SleepyText.Client
