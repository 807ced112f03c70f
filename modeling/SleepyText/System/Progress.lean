import SleepyText.Server.Message
import SleepyText.System.Encoding
import SleepyText.System.Windows

set_option relaxedAutoImplicit false
set_option autoImplicit false

/-!
# Uploads that get through

An upload is sent again with everything typed in the meantime, until it succeeds, and the server
answers only requests that fit into the buffer of their connection. So uploads grow, and one that
has grown too large blocks its window for good.

## Main definitions

* `Browser`, `Browser.Fits` — the requests that uploads are sent as, and those that are answered.
* `Tab.Carried` — an upload that arrives fits with its header.
* `Tab.Underway`, `Tab.Clear` — the upload in transfer can still succeed, and what is left as well.
* `Tab.Jammed` — something typed can never be acknowledged.

## Main results

* `jammed_tabStep` — no event helps a jammed window.
* `uploads_get_through_iff` — when all that was typed can still be acknowledged.
-/

namespace SleepyText.System

open Client (Change Request JsString Window WindowEvent windowStep Page PageMove transferencode)
open Server (Memory Bytes Directory SystemCalls Message branchFile ascii)

/-! ## Requests -/

/-- What a browser makes of the uploads of a window: the request that the upload with a number is
sent as, whose header it chooses, and the longest request that the server answers. The buffer of a
connection has 4096 bytes; whether the last one can be used is up to `SSL_read`, which is called
once more without room for a byte. -/
structure Browser where
  message : ℕ → List UInt8 → Message
  limit : ℕ
  body : ∀ number bs, (message number bs).body = bs
  length_le : ∀ number bs bs', bs.length ≤ bs'.length →
    (message number bs).encode.length ≤ (message number bs').encode.length
  limit_le : limit ≤ 4096

/-- The upload with this number fits into the buffer of a connection, with its header. -/
def Browser.Fits (b : Browser) (number : ℕ) (changes : List Change) : Prop :=
  (b.message number (transferencode changes)).encode.length ≤ b.limit

/-- Nothing is left to upload, or a later upload with these changes fits. -/
def Browser.Room (b : Browser) (sent : ℕ) (changes : List Change) : Prop :=
  changes = [] ∨ ∃ number > sent, b.Fits number changes

section Requests

variable {b : Browser} {number sent : ℕ} {changes more : List Change}

/-- The body alone is shorter than the buffer. -/
lemma Browser.Fits.length_lt (h : b.Fits number changes) :
    (transferencode changes).length < 4096 := by
  have hlimit := b.limit_le
  rw [Browser.Fits, Message.encode, b.body] at h
  simp only [List.length_append, List.length_cons, List.length_nil] at h
  omega

/-- Fewer changes fit as well. -/
lemma Browser.Fits.mono (h : b.Fits number changes)
    (hle : (transferencode more).length ≤ (transferencode changes).length) : b.Fits number more :=
  (b.length_le number _ _ hle).trans h

/-- The changes in front have room. -/
lemma Browser.Room.left (h : b.Room sent (changes ++ more)) : b.Room sent changes := by
  obtain hnil | ⟨number, hlt, hfits⟩ := h
  · exact .inl (List.append_eq_nil_iff.mp hnil).1
  · refine .inr ⟨number, hlt, hfits.mono ?_⟩
    rw [length_transferencode, length_transferencode, List.flatMap_append, List.length_append]
    omega

/-- Later uploads are fewer. -/
lemma Browser.Room.of_succ (h : b.Room (sent + 1) changes) : b.Room sent changes := by
  obtain hnil | ⟨number, hlt, hfits⟩ := h
  · exact .inl hnil
  · exact .inr ⟨number, by omega, hfits⟩

end Requests

/-! ## Windows -/

/-- An upload that arrives fits with its header. -/
def Tab.Carried (b : Browser) (t : Tab) : TabEvent → Prop
  | .deliver i _ _ => ∀ w ∈ t.network[i]?, b.Fits w.number w.request.changes
  | .window _ | .lose _ | .respond _ | .loseResponse _ | .fail _ => True

/-- The upload in transfer can still succeed: its request is on its way and fits, or the response
that it has succeeded is on its way. -/
def Tab.Underway (b : Browser) (t : Tab) : Prop :=
  (∃ w ∈ t.network, w.number = t.sent ∧ b.Fits t.sent w.request.changes) ∨
    (t.sent, 200) ∈ t.responses

/-- The upload loop of the window. -/
abbrev Tab.upload (t : Tab) : Client.Upload := t.window.page.upload

/-- What happens on the network leaves the upload loop alone. -/
lemma Tab.upload_of (w : Window) (s : Delivery) : (Tab.of w s).upload = w.page.upload := rfl

/-- There is room for what is left to upload, or the upload in transfer can still succeed and there
is room for the queue behind it. -/
def Tab.Clear (b : Browser) (t : Tab) : Prop :=
  b.Room t.sent (t.upload.transfer.intransfer ++ t.upload.transfer.queue) ∨
    t.upload.transfer.intransfer ≠ [] ∧ t.Underway b ∧ b.Room t.sent t.upload.transfer.queue

/-- Of the first `k` changes typed, some are not acknowledged and never will be: there is no room
for what is left, nor for the queue behind an upload in transfer that can still succeed. -/
structure Tab.Jammed (b : Browser) (t : Tab) (k : ℕ) : Prop where
  acked : t.upload.acked.length < k
  pending : ¬ b.Room t.sent (t.upload.transfer.intransfer ++ t.upload.transfer.queue)
  queue : t.upload.transfer.intransfer ≠ [] → t.Underway b →
    t.upload.acked.length + t.upload.transfer.intransfer.length < k ∧
      ¬ b.Room t.sent t.upload.transfer.queue

section Jammed

variable {env : SystemCalls} {setcookie : JsString → JsString → JsString} {b : Browser} {t : Tab}
  {k : ℕ} {dir : Directory}

/-- The upload loop of a window conserves what was pushed. -/
lemma Tab.Kept.conserved (h : t.Kept) : t.upload.Conserved := by
  obtain ⟨typed, htyped⟩ := h.typed
  exact htyped.conserved

/-- The requests and responses on their way belong to uploads that were sent. -/
lemma Tab.Kept.number_le (h : t.Kept) :
    (∀ w ∈ t.network, w.number ≤ t.sent) ∧ ∀ r ∈ t.responses, r.1 ≤ t.sent := by
  obtain ⟨own, positions, n, htracked⟩ := h.tracked
  exact ⟨fun w hw => (htracked.network w hw).number, fun r hr => (htracked.responses r hr).1⟩

/-- Fewer messages on their way help nothing. -/
lemma Tab.Underway.mono {t' : Tab} (h : t'.Underway b) (hsent : t'.sent = t.sent)
    (hnetwork : t'.network ⊆ t.network) (hresponses : t'.responses ⊆ t.responses) :
    t.Underway b := by
  rw [Tab.Underway, hsent] at h
  rcases h with ⟨w, hw, hnumber, hfits⟩ | hr
  · exact .inl ⟨w, hnetwork hw, hnumber, hfits⟩
  · exact .inr (hresponses hr)

/-- Typing does not help. -/
lemma Tab.Jammed.push (h : t.Jammed b k) {w : Window}
    (hmove : PageMove t.window.page none w.page) : Tab.Jammed b { t with window := w } k := by
  obtain ⟨changes, hupload⟩ := hmove.upload_eq
  refine ⟨?_, ?_, ?_⟩ <;> rw [Tab.upload, hupload]
  · exact h.acked
  · intro hroom
    rw [← List.append_assoc] at hroom
    exact h.pending hroom.left
  · intro hne hunderway
    obtain ⟨hlt, hqueue⟩ := h.queue hne hunderway
    exact ⟨hlt, fun hroom => hqueue hroom.left⟩

/-- A tick sends what does not fit. -/
lemma Tab.Jammed.tick (h : t.Jammed b k) (hkept : t.Kept) {w : Window}
    (hmove : PageMove t.window.page (some .tick) w.page) (dir : Directory) :
    (Tab.of w ((t.delivery dir).send w.page.upload)).Jammed b k := by
  rcases @send_tick (t.delivery dir) hkept.conserved _ hmove.synchStep_eq with
    heq | ⟨hintransfer, -, -, heq⟩
  · have hupload : (Tab.of w (t.delivery dir)).upload = t.upload := congrArg Delivery.upload heq
    rw [heq]
    refine ⟨?_, ?_, ?_⟩ <;> rw [hupload]
    · exact h.acked
    · exact h.pending
    · exact h.queue
  · have hupload : w.page.upload = { t.upload with
        transfer := ⟨[], t.upload.transfer.queue, [.send t.upload.transfer.queue]⟩ } :=
      congrArg Delivery.upload heq
    have hintransfer : t.upload.transfer.intransfer = [] := hintransfer
    have hqueue : ¬ b.Room t.sent t.upload.transfer.queue := by
      have hpending := h.pending
      rwa [hintransfer] at hpending
    rw [heq]
    refine ⟨?_, ?_, ?_⟩ <;> rw [Tab.upload_of, hupload]
    · exact h.acked
    · rw [List.append_nil]
      exact fun hroom => hqueue hroom.of_succ
    · rintro - (⟨v, hv, hnumber, hfits⟩ | hr)
      · rcases List.mem_append.mp hv with hv | hv
        · have hle := hkept.number_le.1 v hv
          have hnumber : v.number = t.sent + 1 := hnumber
          omega
        · rw [List.mem_singleton.mp hv] at hfits
          exact absurd (.inr ⟨t.sent + 1, Nat.lt_succ_self _, hfits⟩) hqueue
      · have hle := hkept.number_le.2 _ hr
        have hlt : t.sent + 1 ≤ t.sent := hle
        omega

/-- An upload that failed is queued again, in front. -/
lemma Tab.Jammed.fail (h : t.Jammed b k) {status : ℕ} (hstatus : status ≠ 200)
    {w : Window} {responses : List (ℕ × ℕ)}
    (hmove : PageMove t.window.page (some (.complete 0 status)) w.page) :
    Tab.Jammed b { t with window := w, responses := responses } k := by
  obtain ⟨r, hr, hupload⟩ := Option.map_eq_some_iff.mp hmove.synchStep_eq
  refine ⟨?_, ?_, ?_⟩ <;>
    simp only [Tab.upload, ← hupload, Client.Upload.complete, Client.Transfer.onreadystatechange,
      if_neg hstatus]
  · exact h.acked
  · exact h.pending
  · intro hne
    exact absurd rfl hne

/-- An upload that succeeded leaves a queue that does not fit. -/
lemma Tab.Jammed.succeed (h : t.Jammed b k) (hkept : t.Kept) (hr : (t.sent, 200) ∈ t.responses)
    {w : Window} {responses : List (ℕ × ℕ)}
    (hmove : PageMove t.window.page (some (.complete 0 200)) w.page) :
    Tab.Jammed b { t with window := w, responses := responses } k := by
  obtain ⟨r, hr', hupload⟩ := Option.map_eq_some_iff.mp hmove.synchStep_eq
  obtain ⟨hne, -, rfl⟩ := hkept.conserved.of_getElem? hr'
  obtain ⟨hlt, hqueue⟩ := h.queue hne (.inr hr)
  refine ⟨?_, ?_, ?_⟩ <;>
    simp only [Tab.upload, ← hupload, Client.Upload.complete, Client.Transfer.onreadystatechange,
      if_true]
  · rw [List.length_append]
    exact hlt
  · exact hqueue
  · intro hne
    exact absurd rfl hne

/-- The server only answers an upload that fits, which was under way before. -/
lemma Tab.Jammed.deliver (henv : env.Works) (h : t.Jammed b k) (hkept : t.Kept) {i : ℕ}
    {mem : Memory} {payload : Bytes} {s : Delivery}
    (hstep : deliveryStep env (t.delivery dir) (.deliver i mem payload) = some s)
    (hcarried : ∀ w ∈ t.network[i]?, b.Fits w.number w.request.changes) :
    (Tab.of t.window s).Jammed b k := by
  obtain ⟨w, dir', hw, rfl, -⟩ := deliveryStep_deliver henv (fun _ hw => hkept.request hw) hstep
  have hmem : w ∈ t.network := List.mem_of_getElem? hw
  have hfits := hcarried w hw
  refine ⟨h.acked, h.pending, fun hne hunderway => h.queue hne ?_⟩
  rcases hunderway with ⟨v, hv, hnumber, hv'⟩ | hr
  · exact .inl ⟨v, List.mem_of_mem_eraseIdx hv, hnumber, hv'⟩
  · rcases List.mem_append.mp hr with hr | hr
    · exact .inr hr
    · obtain ⟨hnumber, -⟩ := Prod.mk.inj (List.mem_singleton.mp hr)
      exact .inl ⟨w, hmem, hnumber.symm, hnumber.symm ▸ hfits⟩

/-- **No event** helps a jammed window, when the uploads that arrive fit with their headers. -/
theorem jammed_tabStep (henv : env.Works) {e : TabEvent} {t' : Tab} {dir' : Directory}
    (h : t.Kept ∧ t.Jammed b k) (hcarried : t.Carried b e)
    (hstep : tabStep env setcookie (t, dir) e = some (t', dir')) : t'.Kept ∧ t'.Jammed b k := by
  obtain ⟨hkept, h⟩ := h
  refine ⟨(appends_tabStep henv _ _ _ _ _ hkept hstep).1, ?_⟩
  cases tabStepped_of_step hstep with
  | moved hmove => exact h.push hmove
  | sent hmove => exact h.tick hkept hmove dir
  | arrived hs => exact h.deliver henv hkept hs hcarried
  | lost hnetwork hresponses =>
    exact ⟨h.acked, h.pending, fun hne hunderway =>
      h.queue hne (hunderway.mono rfl hnetwork hresponses)⟩
  | @answered _ status _ _ hr _ _ hmove =>
    by_cases hstatus : status = 200
    · subst hstatus
      exact h.succeed hkept hr hmove
    · exact h.fail hstatus hmove
  | failed hstatus hmove => exact h.fail hstatus hmove

end Jammed

/-! ## What gets through -/

section Passage

variable {env : SystemCalls} {setcookie : JsString → JsString → JsString} {b : Browser} {t : Tab}

/-- The window can get all that was typed acknowledged, without the other windows. -/
def Tab.Passes (env : SystemCalls) (setcookie : JsString → JsString → JsString) (b : Browser)
    (t : Tab) (dir : Directory) : Prop :=
  ∃ events t' dir',
    Run.Guarded (tabStep env setcookie) (fun s e => s.1.Carried b e) (t, dir) events ∧
    Run.run (tabStep env setcookie) (t, dir) events = some (t', dir') ∧
    t.upload.pushed <+: t'.upload.acked

/-- After an event that pushes nothing. -/
lemma Tab.Passes.step {t' : Tab} {dir dir' : Directory} {e : TabEvent}
    (hstep : tabStep env setcookie (t, dir) e = some (t', dir')) (hcarried : t.Carried b e)
    (hpushed : t'.upload.pushed = t.upload.pushed) (h : t'.Passes env setcookie b dir') :
    t.Passes env setcookie b dir := by
  obtain ⟨events, t'', dir'', hguarded, hrun, hacked⟩ := h
  refine ⟨e :: events, t'', dir'', ⟨hcarried, fun s hs => ?_⟩,
    Run.run_cons_eq_some.mpr ⟨_, hstep, hrun⟩, hpushed ▸ hacked⟩
  obtain rfl := Option.some.inj (hstep.symm.trans hs)
  exact hguarded

/-- An upload ends with a status other than 403. -/
lemma exists_complete {w : Window} (hout : w.page.outstanding ≠ []) {status : ℕ}
    (hstatus : status ≠ 403) : ∃ w', windowStep setcookie w (.complete 0 status) = some w' := by
  obtain ⟨r, outstanding, hout⟩ := List.exists_cons_of_ne_nil hout
  have henabled : w.Enabled (.complete 0 status) := by
    change 0 < w.page.outstanding.length
    simp [hout]
  have hcomplete : (Client.synchStep w.page.upload (.complete 0 status)).isSome := by
    simp [Client.synchStep, Page.upload, hout]
  obtain ⟨u, hu⟩ := Option.isSome_iff_exists.mp hcomplete
  rw [windowStep, if_pos henabled, Window.handle, hu, Option.bind_some]
  dsimp only
  rw [if_neg hstatus]
  split_ifs
  · exact ⟨_, rfl⟩
  · exact ⟨_, rfl⟩

/-- Nothing is left to upload. -/
lemma Tab.Kept.passes_done (h : t.Kept) (hintransfer : t.upload.transfer.intransfer = [])
    (hqueue : t.upload.transfer.queue = []) (dir : Directory) :
    t.Passes env setcookie b dir := by
  refine ⟨[], t, dir, trivial, rfl, ?_⟩
  have hpushed := h.conserved.pushed
  rw [hintransfer, hqueue, List.append_nil, List.append_nil] at hpushed
  rw [hpushed]

/-- The end of an upload. -/
lemma upload_of_complete {status : ℕ} {w : Window}
    (hstep : windowStep setcookie t.window (.complete 0 status) = some w) :
    w.page.upload.transfer.intransfer = [] ∧ w.page.upload.pushed = t.upload.pushed ∧
      w.page.upload.transfer.queue = if status = 200 then t.upload.transfer.queue
        else t.upload.transfer.intransfer ++ t.upload.transfer.queue := by
  obtain ⟨r, hr, hupload⟩ := Option.map_eq_some_iff.mp
    (Window.pageMove_of_step hstep).synchStep_eq
  rw [← hupload]
  simp only [Client.Upload.complete, Client.Transfer.onreadystatechange]
  split_ifs <;> simp

/-- The upload in transfer can fail, and is queued again. -/
lemma Tab.Kept.exists_fail (henv : env.Works) (h : t.Kept)
    (hne : t.upload.transfer.intransfer ≠ []) (dir : Directory) :
    ∃ t' : Tab, tabStep env setcookie (t, dir) (.fail 0) = some (t', dir) ∧ t'.Kept ∧
      t'.sent = t.sent ∧ t'.upload.pushed = t.upload.pushed ∧
      t'.upload.transfer.intransfer = [] ∧
      t'.upload.transfer.queue = t.upload.transfer.intransfer ++ t.upload.transfer.queue := by
  have hout : t.upload.transfer.outstanding ≠ [] := by
    rw [h.conserved.outstanding, if_neg hne]
    exact List.cons_ne_nil _ _
  -- a timeout
  obtain ⟨w, hw⟩ := @exists_complete setcookie t.window hout 0 (by decide)
  obtain ⟨hintransfer, hpushed, hqueue⟩ := upload_of_complete hw
  have hstep : tabStep env setcookie (t, dir) (.fail 0) = some ({ t with window := w }, dir) := by
    rw [tabStep, if_neg (by decide), hw, Option.map_some]
  exact ⟨_, hstep, (appends_tabStep henv _ _ _ _ _ h hstep).1, rfl, hpushed, hintransfer, hqueue⟩

/-- A queue that is not empty is sent by a tick, when nothing is in transfer. -/
lemma Tab.Kept.exists_tick (henv : env.Works) (h : t.Kept)
    (hidle : t.upload.transfer.intransfer = []) (hqueue : t.upload.transfer.queue ≠ [])
    (dir : Directory) :
    ∃ t' : Tab, tabStep env setcookie (t, dir) (.window .tick) = some (t', dir) ∧ t'.Kept ∧
      t'.sent = t.sent + 1 ∧ t'.upload.pushed = t.upload.pushed ∧
      t'.upload.transfer.intransfer = t.upload.transfer.queue ∧
      t'.upload.transfer.queue = [] ∧
      ⟨t.sent + 1, .send t.upload.transfer.queue⟩ ∈ t'.network := by
  have hpos : 0 < t.upload.transfer.queue.length := List.length_pos_iff.mpr hqueue
  obtain ⟨w, hw⟩ : ∃ w, windowStep setcookie t.window .tick = some w := ⟨_, rfl⟩
  have hstep : tabStep env setcookie (t, dir) (.window .tick) =
      some (.of w ((t.delivery dir).send w.page.upload), dir) := by
    rw [tabStep]
    dsimp only [WindowEvent.synch]
    rw [hw, Option.map_some]
  have hkept := (appends_tabStep henv _ _ _ _ _ h hstep).1
  have hstepped := (Window.pageMove_of_step hw).synchStep_eq
  rcases @send_tick (t.delivery dir) h.conserved _ hstepped with heq | ⟨-, -, -, heq⟩
  · -- a tick with a queue does something
    have hupload : w.page.upload = t.upload := congrArg Delivery.upload heq
    have hsynch : t.upload.transfer.synch = w.page.upload.transfer :=
      congrArg Client.Upload.transfer (Option.some.inj hstepped)
    rw [Client.Transfer.synch, if_pos ⟨List.length_eq_zero_iff.mpr hidle, hpos⟩, hupload] at hsynch
    exact absurd (congrArg Client.Transfer.queue hsynch).symm hqueue
  · have hupload : w.page.upload = { t.upload with
        transfer := ⟨[], t.upload.transfer.queue, [.send t.upload.transfer.queue]⟩ } :=
      congrArg Delivery.upload heq
    refine ⟨_, hstep, hkept, congrArg Delivery.sent heq, ?_, ?_, ?_, ?_⟩
    · rw [Tab.upload_of, hupload]
    · rw [Tab.upload_of, hupload]
    · rw [Tab.upload_of, hupload]
    · rw [heq]
      exact List.mem_append_right _ List.mem_cons_self

/-- The response to the upload in transfer is on its way. -/
lemma Tab.Kept.passes_respond (henv : env.Works) (h : t.Kept)
    (hr : (t.sent, 200) ∈ t.responses) (hne : t.upload.transfer.intransfer ≠ []) {dir : Directory}
    (hrest : ∀ t' : Tab, t'.Kept → t'.sent = t.sent → t'.upload.transfer.intransfer = [] →
      t'.upload.transfer.queue = t.upload.transfer.queue → t'.Passes env setcookie b dir) :
    t.Passes env setcookie b dir := by
  obtain ⟨i, hi⟩ := List.getElem?_of_mem hr
  have hout : t.upload.transfer.outstanding ≠ [] := by
    rw [h.conserved.outstanding, if_neg hne]
    exact List.cons_ne_nil _ _
  obtain ⟨w, hw⟩ := @exists_complete setcookie t.window hout 200 (by decide)
  obtain ⟨hintransfer, hpushed, hqueue⟩ := upload_of_complete hw
  have hstep : tabStep env setcookie (t, dir) (.respond i) =
      some ({ t with window := w, responses := t.responses.eraseIdx i }, dir) := by
    have hawaits : Delivery.Awaits (Tab.delivery { t with responses := t.responses.eraseIdx i }
        dir) t.sent := ⟨rfl, hout⟩
    rw [tabStep, hi, Option.bind_some]
    dsimp only
    rw [if_pos hawaits, hw, Option.map_some]
  refine .step hstep trivial hpushed
    (hrest _ (appends_tabStep henv _ _ _ _ _ h hstep).1 rfl hintransfer ?_)
  exact hqueue

/-- The upload in transfer is on its way, and fits. -/
lemma Tab.Kept.passes_deliver (henv : env.Works) (h : t.Kept) {w : Sent} (hw : w ∈ t.network)
    (hnumber : w.number = t.sent) (hfits : b.Fits t.sent w.request.changes)
    (hne : t.upload.transfer.intransfer ≠ []) {dir : Directory}
    (hrest : ∀ (t' : Tab) dir', t'.Kept → t'.sent = t.sent → t'.upload.transfer.intransfer = [] →
      t'.upload.transfer.queue = t.upload.transfer.queue → t'.Passes env setcookie b dir') :
    t.Passes env setcookie b dir := by
  obtain ⟨i, hi⟩ := List.getElem?_of_mem hw
  -- the body of the request at the start of the memory
  set mem : Memory := Memory.store (fun _ => 0) 0 (transferencode w.request.changes)
  set payload : Bytes := ⟨0, (transferencode w.request.changes).length⟩
  have hread : mem.read payload = transferencode w.request.changes := Memory.read_store _
  have hbody : w.request.body = transferencode w.request.changes :=
    congrArg Request.body (h.request hw)
  have hshort := hfits.length_lt
  obtain ⟨f, hfeed, -⟩ :=
    feed_transferencode henv (hshort.trans (by norm_num)) hread dir
  have hstep : tabStep env setcookie (t, dir) (.deliver i mem payload) =
      some (.of t.window ((t.delivery dir).process i w .ok f.dir), f.dir) := by
    have hi' : (t.delivery dir).network[i]? = some w := hi
    have hdir : (t.delivery dir).dir = dir := rfl
    rw [tabStep, deliveryStep, hi', Option.bind_some, if_pos ⟨hread.trans hbody.symm, hshort⟩,
      hdir, hfeed]
    rfl
  have hcarried : t.Carried b (.deliver i mem payload) := by
    intro v hv
    obtain rfl := Option.some.inj (hi.symm.trans hv)
    rwa [hnumber]
  obtain ⟨hkept, -⟩ := appends_tabStep henv _ _ _ _ _ h hstep
  have hresponse : (t.sent, 200) ∈ t.responses ++ [(w.number, 200)] := by
    rw [hnumber]
    exact List.mem_append_right _ List.mem_cons_self
  exact .step hstep hcarried rfl
    (hkept.passes_respond henv hresponse hne fun t' => hrest t' _)

/-- With nothing in transfer, the queue is sent, until an upload has room for it.

**Proof sketch.** Induction on the number of uploads before the one that fits: each of them fails,
and the same is sent again. -/
lemma Tab.Kept.passes_idle (henv : env.Works) (h : t.Kept)
    (hidle : t.upload.transfer.intransfer = []) (hroom : b.Room t.sent t.upload.transfer.queue)
    (dir : Directory) : t.Passes env setcookie b dir := by
  by_cases hqueue : t.upload.transfer.queue = []
  · exact h.passes_done hidle hqueue dir
  obtain hnil | ⟨number, hlt, hfits⟩ := hroom
  · exact absurd hnil hqueue
  obtain ⟨k, rfl⟩ : ∃ k, number = t.sent + 1 + k := ⟨number - (t.sent + 1), by omega⟩
  induction k generalizing t with
  | zero =>
    obtain ⟨t', hstep, hkept, hsent, hpushed, hintransfer, hqueue', hmem⟩ :=
      @exists_tick env setcookie t henv h hidle hqueue dir
    refine .step hstep trivial hpushed ?_
    apply hkept.passes_deliver henv hmem hsent.symm (by rw [hsent]; exact hfits)
    · rw [hintransfer]
      exact hqueue
    · intro t'' dir' hkept' _ hidle' hsame
      exact hkept'.passes_done hidle' (hsame.trans hqueue') dir'
  | succ k ih =>
    obtain ⟨t', hstep, hkept, hsent, hpushed, hintransfer, hqueue', -⟩ :=
      @exists_tick env setcookie t henv h hidle hqueue dir
    obtain ⟨u, hfail, hkept', hsent', hpushed', hidle', hqueue''⟩ :=
      @exists_fail env setcookie t' henv hkept (by rwa [hintransfer]) dir
    have hsame : u.upload.transfer.queue = t.upload.transfer.queue := by
      rw [hqueue'', hintransfer, hqueue', List.append_nil]
    refine .step hstep trivial hpushed (.step hfail trivial hpushed' ?_)
    apply ih hkept' hidle' (by rwa [hsame])
    · omega
    · rw [hsame, hsent', hsent]
      rwa [show t.sent + 1 + (k + 1) = t.sent + 1 + 1 + k by omega] at hfits

/-- A window that is not clear is jammed. -/
lemma Tab.Kept.jammed (h : t.Kept) (hclear : ¬ t.Clear b) :
    t.Jammed b t.upload.pushed.length := by
  obtain ⟨hpending, hqueue⟩ := not_or.mp hclear
  have hlength := congrArg List.length h.conserved.pushed
  rw [List.length_append, List.length_append] at hlength
  refine ⟨?_, hpending, fun hne hunderway => ?_⟩
  · have hpos : 0 < (t.upload.transfer.intransfer ++ t.upload.transfer.queue).length :=
      List.length_pos_iff.mpr fun hnil => hpending (.inl hnil)
    rw [List.length_append] at hpos
    omega
  · have hroom : ¬ b.Room t.sent t.upload.transfer.queue := fun hroom =>
      hqueue ⟨hne, hunderway, hroom⟩
    have hpos : 0 < t.upload.transfer.queue.length :=
      List.length_pos_iff.mpr fun hnil => hroom (.inl hnil)
    exact ⟨by omega, hroom⟩

/-- A window that is clear gets everything through. -/
lemma Tab.Kept.passes (henv : env.Works) (h : t.Kept) (hclear : t.Clear b) (dir : Directory) :
    t.Passes env setcookie b dir := by
  rcases hclear with hroom | ⟨hne, hunderway, hroom⟩
  · by_cases hne : t.upload.transfer.intransfer = []
    · rw [hne] at hroom
      exact h.passes_idle henv hne hroom dir
    · obtain ⟨t', hfail, hkept, hsent, hpushed, hidle, hqueue⟩ :=
        @exists_fail env setcookie t henv h hne dir
      refine .step hfail trivial hpushed (hkept.passes_idle henv hidle ?_ dir)
      rwa [hqueue, hsent]
  · have hrest (t' : Tab) (dir' : Directory) (hkept : t'.Kept) (hsent : t'.sent = t.sent)
        (hidle : t'.upload.transfer.intransfer = [])
        (hqueue : t'.upload.transfer.queue = t.upload.transfer.queue) :
        t'.Passes env setcookie b dir' :=
      hkept.passes_idle henv hidle (by rwa [hqueue, hsent]) dir'
    rcases hunderway with ⟨w, hw, hnumber, hfits⟩ | hr
    · exact h.passes_deliver henv hw hnumber hfits hne hrest
    · exact h.passes_respond henv hr hne fun t' => hrest t' dir

end Passage

/-- **What gets through.** In every state that any number of windows reach, all that was typed so
far in a window can still be acknowledged, by a continuation in which the uploads that arrive fit
with their headers, exactly when a later upload has room for what is left, or the upload in transfer
can still succeed and a later one has room for the queue behind it. Else no such continuation,
whatever is typed, sent, lost or answered in this or other windows, gets it acknowledged: the
changes are sent again and again in requests that the server does not answer.

**Proof sketch.** A failed upload is queued again in front of what was typed since, so what has no
room now has none ever after (`jammed_tabStep`). If it has, ticks, an arrival and a response are
enough. -/
theorem uploads_get_through_iff {ι : Type*} [DecidableEq ι] {env : SystemCalls} (henv : env.Works)
    {setcookie : JsString → JsString → JsString} {cookie : ι → JsString} (browser : ι → Browser)
    {dir dir' : Directory} {tabs : ι → Tab} {events : List (ι × TabEvent)}
    (hrun : Run.run (Shared.step (tabStep env setcookie)) (fun i => .onload (cookie i), dir)
      events = some (tabs, dir')) (i : ι) :
    (∃ events' tabs' dir'',
      Run.Guarded (Shared.step (tabStep env setcookie))
        (Shared.Guard fun i t e => t.Carried (browser i) e) (tabs, dir') events' ∧
      Run.run (Shared.step (tabStep env setcookie)) (tabs, dir') events' =
        some (tabs', dir'') ∧ (tabs i).window.page.pushed <+: (tabs' i).window.page.acked) ↔
      (tabs i).Clear (browser i) := by
  have hkept : (tabs i).Kept := Shared.run_member (I := Tab.Kept)
    (fun _ _ _ _ _ h hstep => (appends_tabStep henv _ _ _ _ _ h hstep).1)
    (Tab.kept_onload (cookie i)) hrun
  constructor
  · rintro ⟨events', tabs', dir'', hguarded, hrun', hacked⟩
    by_contra hclear
    obtain ⟨-, hjammed⟩ := Shared.run_member_of_guarded (i := i)
      (G := fun i t e => Tab.Carried (browser i) t e)
      (I := fun t : Tab => t.Kept ∧ t.Jammed (browser i) (tabs i).upload.pushed.length)
      (fun _ _ _ _ _ h hcarried hstep => jammed_tabStep henv h hcarried hstep)
      ⟨hkept, hkept.jammed hclear⟩ hguarded hrun'
    exact absurd hacked.length_le (Nat.not_le_of_lt hjammed.acked)
  · intro hclear
    obtain ⟨events', t', dir'', hguarded, hrun', hacked⟩ := hkept.passes henv hclear dir'
    refine ⟨_, _, _, @Shared.guarded_of_member _ _ _ _ _ _ _ i (tabs, dir') _ hguarded,
      @Shared.run_of_member _ _ _ _ _ _ i (tabs, dir') _ _ hrun', ?_⟩
    rwa [Function.update_self]

/-- The request for an upload, with other lines and its length in the header. -/
def postFeed (lines : List (List UInt8)) (body : List UInt8) : Message where
  method := ascii "POST"
  target := ascii "/api/0/feed"
  version := ascii "HTTP/1.1"
  lines := lines ++ [ascii "Content-Length: " ++ Decimal.digits body.length]
  body := body

/-- A longer body makes a longer request. -/
lemma length_postFeed_le (lines : List (List UInt8)) {body body' : List UInt8}
    (hle : body.length ≤ body'.length) :
    (postFeed lines body).encode.length ≤ (postFeed lines body').encode.length := by
  have hdigits := Decimal.length_digits_mono hle
  simp only [Message.encode, Message.header, Message.requestLine, postFeed, List.flatMap_append,
    List.flatMap_cons, List.flatMap_nil, List.length_append, List.length_cons, List.length_nil]
  omega

/-- The browser of a user who has logged in before the second upload. -/
def exampleBrowser : Browser where
  message number body := postFeed (if number < 2 then [] else [ascii "Cookie: session=5"]) body
  limit := 4095
  body _ _ := rfl
  length_le _ _ _ hle := length_postFeed_le _ hle
  limit_le := by decide

/-- Two windows, one of which has typed a letter and asked for a new branch. -/
theorem uploads_get_through_iff_letter :
    let events : List (Fin 2 × TabEvent) := [(1, .window (.cookie [])),
      (0, .window (.respond 0 200 [⟨2, 0, 0, 7⟩])), (0, .window (.click ⟨3, .entry 7⟩)),
      (0, .window (.mousemove (some 2) 0)), (0, .window .mouseup), (0, .window (.interval true)),
      (0, .window (.input [97] 0)), (0, .window .tick), (0, .window (.button (.branch 5))),
      (0, .window (.input [97, 98] 0)), (0, .lose 0)]
    ∃ (tabs : Fin 2 → Tab) (dir : Directory),
      Run.run (Shared.step (tabStep working fun _ _ => []))
        (fun _ => .onload [], fun _ => none) events = some (tabs, dir) ∧
      ((∃ events' tabs' dir',
          Run.Guarded (Shared.step (tabStep working fun _ _ => []))
            (Shared.Guard fun _ t e => t.Carried exampleBrowser e) (tabs, dir) events' ∧
          Run.run (Shared.step (tabStep working fun _ _ => [])) (tabs, dir) events' =
            some (tabs', dir') ∧
          (tabs 0).window.page.pushed <+: (tabs' 0).window.page.acked) ↔
        (tabs 0).Clear exampleBrowser) := by
  intro events
  have hsome : (Run.run (Shared.step (tabStep working fun _ _ => []))
      (fun _ => .onload [], fun _ => none) events).isSome := by decide +kernel
  obtain ⟨⟨tabs, dir⟩, hrun⟩ := Option.isSome_iff_exists.mp hsome
  exact ⟨tabs, dir, hrun, uploads_get_through_iff works_working (fun _ => exampleBrowser) hrun 0⟩

end SleepyText.System
