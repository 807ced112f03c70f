import SleepyText.Lib.Shared
import SleepyText.Client.Typed
import SleepyText.System.Retransmission

set_option relaxedAutoImplicit false
set_option autoImplicit false

/-!
# From the windows to the file

Every client uploads its changes for branch 1337, whatever branch they were typed into. So the
changes of all windows end up in one file. Each window has its own requests and responses on their
way; the files of the server are shared.

## Main definitions

* `Tab`, `tabStep` — a window with its requests and responses, and what can happen to it.
* `TabStepped` — what an event does.
* `Tab.Kept` — the invariant of a window.

## Main results

* `tabStepped_of_step` — what every event does.
* `appends_tabStep` — one event appends to the file what it appends to the log of the window.
* `typed_reaches_file` — what the file has of the changes typed in each window.
-/

namespace SleepyText.System

open Client (Change JsString Window WindowEvent windowStep Page PageMove)
open Server (Memory Bytes Directory SystemCalls branchFile)

/-- A window, the number of uploads it has sent, those on their way and their responses, which of
them the server has processed, and the changes it has appended for them. -/
structure Tab where
  window : Window
  sent : ℕ
  network : List Sent
  responses : List (ℕ × ℕ)
  processed : List ℕ
  log : List Change

/-- The upload of the window to the given files. -/
def Tab.delivery (t : Tab) (dir : Directory) : Delivery :=
  ⟨t.window.page.upload, t.sent, t.network, t.responses, t.processed, dir, t.log⟩

/-- A window with the requests and responses of `s`. -/
def Tab.of (window : Window) (s : Delivery) : Tab :=
  ⟨window, s.sent, s.network, s.responses, s.processed, s.log⟩

/-- A window that has just been opened. -/
def Tab.onload (cookie : JsString) : Tab := ⟨.onload cookie, 0, [], [], [], []⟩

/-- What can happen: an event of the window other than the end of an upload, or an event of the
network between the window and the server. -/
inductive TabEvent where
  | window (event : WindowEvent)
  | deliver (i : ℕ) (mem : Memory) (payload : Bytes)
  | lose (i : ℕ)
  | respond (i : ℕ)
  | loseResponse (i : ℕ)
  | fail (status : ℕ)

/-- One event of a window and the files of the server. An upload ends with its response, a timeout
or an error. -/
def tabStep (env : SystemCalls) (setcookie : JsString → JsString → JsString) :
    Tab × Directory → TabEvent → Option (Tab × Directory)
  | (t, dir), .window event =>
    match event.synch with
    | some (.complete _ _) => none
    | _ => (windowStep setcookie t.window event).map fun w =>
      (.of w ((t.delivery dir).send w.page.upload), dir)
  | (t, dir), .deliver i mem payload =>
    (deliveryStep env (t.delivery dir) (.deliver i mem payload)).map fun s =>
      (.of t.window s, s.dir)
  | (t, dir), .lose i =>
    if i < t.network.length then some ({ t with network := t.network.eraseIdx i }, dir) else none
  | (t, dir), .respond i =>
    t.responses[i]?.bind fun (number, status) =>
      let t := { t with responses := t.responses.eraseIdx i }
      if (t.delivery dir).Awaits number then
        (windowStep setcookie t.window (.complete 0 status)).map fun w =>
          ({ t with window := w }, dir)
      else some (t, dir)
  | (t, dir), .loseResponse i =>
    if i < t.responses.length then some ({ t with responses := t.responses.eraseIdx i }, dir)
    else none
  | (t, dir), .fail status =>
    if status = 200 then none
    else (windowStep setcookie t.window (.complete 0 status)).map fun w =>
      ({ t with window := w }, dir)

/-- What an event does. -/
inductive TabStepped (env : SystemCalls) (t : Tab) (dir : Directory) :
    TabEvent → Tab × Directory → Prop
  | moved {e : TabEvent} {w : Window} : PageMove t.window.page none w.page →
      TabStepped env t dir e ({ t with window := w }, dir)
  | sent {e : TabEvent} {w : Window} : PageMove t.window.page (some .tick) w.page →
      TabStepped env t dir e (.of w ((t.delivery dir).send w.page.upload), dir)
  | arrived {i : ℕ} {mem : Memory} {payload : Bytes} {s : Delivery} :
      deliveryStep env (t.delivery dir) (.deliver i mem payload) = some s →
      TabStepped env t dir (.deliver i mem payload) (.of t.window s, s.dir)
  | lost {e : TabEvent} {network : List Sent} {responses : List (ℕ × ℕ)} : network ⊆ t.network →
      responses ⊆ t.responses →
      TabStepped env t dir e ({ t with network := network, responses := responses }, dir)
  | answered {e : TabEvent} {status : ℕ} {responses : List (ℕ × ℕ)} {w : Window} :
      (t.sent, status) ∈ t.responses → responses ⊆ t.responses →
      t.window.page.outstanding ≠ [] → PageMove t.window.page (some (.complete 0 status)) w.page →
      TabStepped env t dir e ({ t with window := w, responses := responses }, dir)
  | failed {e : TabEvent} {status : ℕ} {w : Window} : status ≠ 200 →
      PageMove t.window.page (some (.complete 0 status)) w.page →
      TabStepped env t dir e ({ t with window := w }, dir)

section Steps

variable {env : SystemCalls} {setcookie : JsString → JsString → JsString} {t : Tab}
  {dir : Directory}

/-- Outside of the upload loop nothing is sent. -/
lemma Tab.of_send {w : Window} (hmove : PageMove t.window.page none w.page) :
    Tab.of w ((t.delivery dir).send w.page.upload) = { t with window := w } := by
  obtain ⟨changes, hupload⟩ := hmove.upload_eq
  simp [Tab.of, Delivery.send, Tab.delivery, hupload]

/-- **Every event** does one of these things. -/
theorem tabStepped_of_step {e : TabEvent} {s : Tab × Directory}
    (hstep : tabStep env setcookie (t, dir) e = some s) : TabStepped env t dir e s := by
  cases e with
  | window event =>
    rw [tabStep] at hstep
    cases hsynch : event.synch with
    | none =>
      simp only [hsynch] at hstep
      obtain ⟨w, hw, rfl⟩ := Option.map_eq_some_iff.mp hstep
      have hmove := Window.pageMove_of_step hw
      rw [hsynch] at hmove
      rw [Tab.of_send hmove]
      exact .moved hmove
    | some loop =>
      cases loop with
      | push change => cases event <;> simp [WindowEvent.synch] at hsynch
      | tick =>
        simp only [hsynch] at hstep
        obtain ⟨w, hw, rfl⟩ := Option.map_eq_some_iff.mp hstep
        have hmove := Window.pageMove_of_step hw
        rw [hsynch] at hmove
        exact .sent hmove
      | complete i status =>
        simp only [hsynch, reduceCtorEq] at hstep
  | deliver i mem payload =>
    obtain ⟨s, hs, rfl⟩ := Option.map_eq_some_iff.mp hstep
    exact .arrived hs
  | lose i =>
    rw [tabStep] at hstep
    split_ifs at hstep
    obtain rfl := Option.some.inj hstep
    exact .lost List.eraseIdx_subset (List.Subset.refl _)
  | respond i =>
    obtain ⟨⟨number, status⟩, hr, hstep⟩ := Option.bind_eq_some_iff.mp hstep
    dsimp only at hstep
    split_ifs at hstep with hawaits
    · obtain ⟨w, hw, rfl⟩ := Option.map_eq_some_iff.mp hstep
      obtain ⟨rfl, hwait⟩ : number = t.sent ∧ t.window.page.outstanding ≠ [] := hawaits
      exact .answered (List.mem_of_getElem? hr) List.eraseIdx_subset hwait
        (Window.pageMove_of_step hw)
    · obtain rfl := Option.some.inj hstep
      exact .lost (List.Subset.refl _) List.eraseIdx_subset
  | loseResponse i =>
    rw [tabStep] at hstep
    split_ifs at hstep
    obtain rfl := Option.some.inj hstep
    exact .lost (List.Subset.refl _) List.eraseIdx_subset
  | fail status =>
    rw [tabStep] at hstep
    split_ifs at hstep with hstatus
    obtain ⟨w, hw, rfl⟩ := Option.map_eq_some_iff.mp hstep
    exact .failed hstatus (Window.pageMove_of_step hw)

/-! ## One window -/

/-- The changes typed in a window are in the branch objects, and those that the server has appended
for it are changes typed. For this the window is taken with a file of its own. -/
structure Tab.Kept (t : Tab) : Prop where
  tracked : ∃ dir positions n, (t.delivery dir).Tracked positions n
  typed : ∃ typed, t.window.page.Typed typed

/-- Nothing has been typed into a new window. -/
lemma Tab.kept_onload (cookie : JsString) : (Tab.onload cookie).Kept where
  tracked := ⟨fun _ => none, [], 0, ⟨rfl, rfl⟩, fun _ hw => absurd hw List.not_mem_nil,
    fun _ hr => absurd hr List.not_mem_nil, .nil, Repeats.Covers.nil, le_rfl, rfl⟩
  typed := ⟨[], Window.typed_onload cookie⟩

/-- The page of the window moves. -/
lemma Tab.Kept.move (h : t.Kept) {w : Window} {event : Option Client.SynchEvent}
    (hmove : PageMove t.window.page event w.page) : ∃ typed, w.page.Typed typed := by
  obtain ⟨typed, htyped⟩ := h.typed
  obtain ⟨more, hmore⟩ := htyped.move hmove
  exact ⟨_, hmore⟩

/-- Something is pushed. -/
lemma Tab.Kept.push (h : t.Kept) {w : Window} (hmove : PageMove t.window.page none w.page) :
    Tab.Kept { t with window := w } := by
  refine ⟨?_, h.move hmove⟩
  obtain ⟨own, positions, n, htracked⟩ := h.tracked
  obtain ⟨changes, hupload⟩ := hmove.upload_eq
  obtain ⟨typed, htyped⟩ := h.move hmove
  have hconserved := htyped.conserved
  refine ⟨own, positions, n, ?_⟩
  rw [Tab.delivery, hupload]
  rw [hupload] at hconserved
  exact htracked.upload hconserved (List.prefix_refl _) htracked.acked (List.prefix_append _ _)
    fun hout => ⟨hout, rfl, rfl⟩

/-- The queue is sent. -/
lemma Tab.Kept.tick (h : t.Kept) {w : Window}
    (hmove : PageMove t.window.page (some .tick) w.page) (dir : Directory) :
    (Tab.of w ((t.delivery dir).send w.page.upload)).Kept := by
  refine ⟨?_, h.move hmove⟩
  obtain ⟨own, positions, n, htracked⟩ := h.tracked
  exact ⟨own, positions, n, htracked.tick hmove.synchStep_eq⟩

/-- An upload ends. -/
lemma Tab.Kept.complete (h : t.Kept) {status : ℕ} {w : Window} {responses : List (ℕ × ℕ)}
    (hresponses : responses ⊆ t.responses)
    (hmove : PageMove t.window.page (some (.complete 0 status)) w.page)
    (hok : ∀ own positions n, (t.delivery own).Tracked positions n → status = 200 →
      t.window.page.acked.length + t.window.client.intransfer.length ≤ n) :
    Tab.Kept { t with window := w, responses := responses } := by
  refine ⟨?_, h.move hmove⟩
  obtain ⟨own, positions, n, htracked⟩ := h.tracked
  have hlost := htracked.lose (List.Subset.refl _) hresponses
  exact ⟨own, positions, n, hlost.complete hmove.synchStep_eq (hok own positions n htracked)⟩

/-- Requests and responses are lost. -/
lemma Tab.Kept.lose (h : t.Kept) {network : List Sent} {responses : List (ℕ × ℕ)}
    (hnetwork : network ⊆ t.network) (hresponses : responses ⊆ t.responses) :
    Tab.Kept { t with network := network, responses := responses } := by
  obtain ⟨own, positions, n, htracked⟩ := h.tracked
  exact ⟨⟨own, positions, n, htracked.lose hnetwork hresponses⟩, h.typed⟩

/-- A request on its way carries its changes. -/
lemma Tab.Kept.request (h : t.Kept) {w : Sent} (hw : w ∈ t.network) :
    w.request = .send w.request.changes := by
  obtain ⟨own, positions, n, htracked⟩ := h.tracked
  exact (htracked.network w hw).request

/-- The server processes a request, with the files that all windows share. -/
lemma Tab.Kept.deliver (henv : env.Works) (h : t.Kept) {i : ℕ} {mem : Memory} {payload : Bytes}
    {s : Delivery}
    (hstep : deliveryStep env (t.delivery dir) (.deliver i mem payload) = some s) :
    (Tab.of t.window s).Kept ∧ ∃ changes, s.log = t.log ++ changes ∧
      s.dir.content (branchFile 1337) =
        dir.content (branchFile 1337) ++ changes.flatMap Change.stored := by
  obtain ⟨w, dir', hw, rfl, hdir⟩ := deliveryStep_deliver henv (fun _ hw => h.request hw) hstep
  obtain ⟨own, positions, n, htracked⟩ := h.tracked
  -- the file that the window would have on its own
  have hown : Directory.content (fun _ => some (own.content (branchFile 1337) ++
      w.request.changes.flatMap Change.stored)) (branchFile 1337) =
      own.content (branchFile 1337) ++ w.request.changes.flatMap Change.stored := rfl
  obtain ⟨positions', n', hprocessed⟩ := htracked.process hw hown
  exact ⟨⟨⟨_, positions', n', hprocessed⟩, h.typed⟩, w.request.changes, rfl, hdir⟩

/-- **One event** of a window appends to the file of the branch what it appends to its log. -/
theorem appends_tabStep (henv : env.Works) :
    Shared.Appends Tab.Kept Tab.log (fun dir : Directory => dir.content (branchFile 1337))
      Change.stored (tabStep env setcookie) := by
  intro t dir e t' dir' h hstep
  have hquiet : ∃ changes, t.log = t.log ++ changes ∧ dir.content (branchFile 1337) =
      dir.content (branchFile 1337) ++ changes.flatMap Change.stored :=
    ⟨[], by simp, by simp⟩
  cases tabStepped_of_step hstep with
  | moved hmove => exact ⟨h.push hmove, hquiet⟩
  | sent hmove => exact ⟨h.tick hmove dir, hquiet⟩
  | arrived hs => exact h.deliver henv hs
  | lost hnetwork hresponses => exact ⟨h.lose hnetwork hresponses, hquiet⟩
  | answered hr hresponses hwait hmove =>
    refine ⟨h.complete hresponses hmove fun own positions n htracked => ?_, hquiet⟩
    exact (htracked.responses _ hr).2 ⟨rfl, hwait⟩
  | failed hstatus hmove =>
    exact ⟨h.complete (List.Subset.refl _) hmove fun _ _ _ _ hok => absurd hok hstatus, hquiet⟩

end Steps

/-! ## Runs -/

/-- What the server has appended for a window, in terms of the changes typed. -/
lemma Tab.Kept.exists_typed {t : Tab} (h : t.Kept) :
    ∃ (typed : List (ℕ × Change)) (positions : List ℕ) (n : ℕ),
      (∀ ref b, t.window.client.heap.objects[ref]? = some b →
        Interleaving.part typed ref = b.data) ∧
      (∀ p ∈ typed, p.1 < t.window.client.heap.objects.length) ∧
      List.Forall₂ (fun k change => ∃ ref, typed[k]? = some (ref, change)) positions t.log ∧
      positions.eraseDups = List.range n ∧
      t.window.page.acked <+: (Interleaving.items typed).take n ∧
      (t.window.client.queue = [] → t.window.client.intransfer = [] → n = typed.length) := by
  obtain ⟨own, positions, n, htracked⟩ := h.tracked
  obtain ⟨typed, htyped⟩ := h.typed
  have hpushed : t.window.page.acked ++ t.window.client.intransfer ++ t.window.client.queue =
      Interleaving.items typed := htyped.conserved.pushed.trans htyped.pushed.symm
  have hacked : t.window.page.acked.length ≤ n := htracked.acked
  have hlog : List.Forall₂ (fun k change => ∃ ref, typed[k]? = some (ref, change)) positions
      t.log := by
    apply htracked.log.imp
    intro k change hk
    have hk : t.window.page.pushed[k]? = some change := hk
    rw [← htyped.pushed, List.getElem?_map] at hk
    obtain ⟨⟨ref, _⟩, href, rfl⟩ := Option.map_eq_some_iff.mp hk
    exact ⟨ref, href⟩
  refine ⟨typed, positions, n, htyped.heap.data, htyped.heap.sources, hlog, htracked.covers, ?_,
    fun hqueue hintransfer => ?_⟩
  · rw [List.prefix_take_iff, ← hpushed, List.append_assoc]
    exact ⟨List.prefix_append _ _, hacked⟩
  · rw [hqueue, hintransfer, List.append_nil, List.append_nil] at hpushed
    rw [hpushed, List.length_map] at hacked
    -- what was appended has been typed
    apply Nat.le_antisymm _ hacked
    by_contra hlt
    have hmem : typed.length ∈ positions := htracked.covers.mem_iff.mpr (Nat.lt_of_not_le hlt)
    obtain ⟨k, hk, hposition⟩ := List.mem_iff_getElem.mp hmem
    obtain ⟨ref, href⟩ := hlog.get hk (hlog.length_eq ▸ hk)
    simp [hposition] at href

/-- **From the windows to the file.** Any number of windows upload to one server, whose file of
branch 1337 is empty at first. In every run, in whatever order windows are used, uploads arrive, are
lost or end, the file is an interleaving of what the server has appended for each window, and
nothing else. What it has appended for a window are changes typed in this window, each branch's in
their order; without repetitions, they are the first `n` typed, in order, among them all that were
acknowledged, and all that were typed once nothing is left to upload.

**Proof sketch.** The upload handler appends the same whatever the file contains, so each window
runs as if it had a file of its own (`Tab.Kept.deliver`). -/
theorem typed_reaches_file {ι : Type*} [DecidableEq ι] {env : SystemCalls} (henv : env.Works)
    {setcookie : JsString → JsString → JsString} {cookie : ι → JsString} {dir dir' : Directory}
    (hnew : dir.content (branchFile 1337) = []) {tabs : ι → Tab} {events : List (ι × TabEvent)}
    (hrun : Run.run (Shared.step (tabStep env setcookie)) (fun i => .onload (cookie i), dir)
      events = some (tabs, dir')) :
    ∃ stored : List (ι × Change),
      dir'.content (branchFile 1337) = (Interleaving.items stored).flatMap Change.stored ∧
      ∀ i, ∃ (typed : List (ℕ × Change)) (positions : List ℕ) (n : ℕ),
        (∀ ref b, (tabs i).window.client.heap.objects[ref]? = some b →
          Interleaving.part typed ref = b.data) ∧
        (∀ p ∈ typed, p.1 < (tabs i).window.client.heap.objects.length) ∧
        List.Forall₂ (fun k change => ∃ ref, typed[k]? = some (ref, change)) positions
          (Interleaving.part stored i) ∧
        positions.eraseDups = List.range n ∧
        (tabs i).window.page.acked <+: (Interleaving.items typed).take n ∧
        ((tabs i).window.client.queue = [] → (tabs i).window.client.intransfer = [] →
          n = typed.length) := by
  obtain ⟨stored, h⟩ := Shared.run_interleaves (appends_tabStep henv)
    (fun i => Tab.kept_onload (cookie i)) (fun _ => rfl) hrun
  have hstore := h.store
  rw [hnew, List.nil_append] at hstore
  refine ⟨stored, hstore, fun i => ?_⟩
  rw [h.parts i]
  exact (h.members i).exists_typed

/-- The arrival of the request `i` with the given changes. -/
def TabEvent.arrive (i : ℕ) (list : List Change) : TabEvent :=
  .deliver i (fun x => (Client.transferencode list).getD x 0)
    ⟨0, (Client.transferencode list).length⟩

/-- Two windows upload, and the upload of the second is processed twice. -/
theorem typed_reaches_file_two :
    let opened (i : Fin 2) (doc : ℤ) : List (Fin 2 × TabEvent) := [
      (i, .window (.respond 0 200 [⟨2, 0, 0, doc⟩])), (i, .window (.click ⟨3, .entry doc⟩)),
      (i, .window (.mousemove (some 2) 0)), (i, .window .mouseup), (i, .window (.interval true))]
    let events : List (Fin 2 × TabEvent) := opened 0 7 ++ opened 1 8 ++ [
      (1, .window (.input [97] 0)), (0, .window (.input [98] 0)), (1, .window .tick),
      (0, .window .tick), (1, .arrive 0 [⟨0, [], [97]⟩]), (1, .fail 0), (1, .window .tick),
      (0, .arrive 0 [⟨0, [], [98]⟩]), (1, .arrive 0 [⟨0, [], [97]⟩]), (0, .respond 0)]
    ∃ (tabs : Fin 2 → Tab) (dir : Directory),
      Run.run (Shared.step (tabStep working fun _ _ => []))
        (fun _ => .onload [], fun _ => none) events = some (tabs, dir) ∧
      ∃ stored : List (Fin 2 × Change),
        dir.content (branchFile 1337) = (Interleaving.items stored).flatMap Change.stored ∧
        ∀ i, ∃ (typed : List (ℕ × Change)) (positions : List ℕ) (n : ℕ),
          (∀ ref b, (tabs i).window.client.heap.objects[ref]? = some b →
            Interleaving.part typed ref = b.data) ∧
          (∀ p ∈ typed, p.1 < (tabs i).window.client.heap.objects.length) ∧
          List.Forall₂ (fun k change => ∃ ref, typed[k]? = some (ref, change)) positions
            (Interleaving.part stored i) ∧
          positions.eraseDups = List.range n ∧
          (tabs i).window.page.acked <+: (Interleaving.items typed).take n ∧
          ((tabs i).window.client.queue = [] → (tabs i).window.client.intransfer = [] →
            n = typed.length) := by
  intro opened events
  have hsome : (Run.run (Shared.step (tabStep working fun _ _ => []))
      (fun _ => .onload [], fun _ => none) events).isSome := by decide +kernel
  obtain ⟨⟨tabs, dir⟩, hrun⟩ := Option.isSome_iff_exists.mp hsome
  exact ⟨tabs, dir, hrun, typed_reaches_file works_working rfl hrun⟩

end SleepyText.System
