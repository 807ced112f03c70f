import SleepyText.System.Delivery

set_option relaxedAutoImplicit false
set_option autoImplicit false

/-!
# What the server appends

The client sends the changes of a request again when the request fails, and neither side keeps
account of what the server has appended already. So the changes arrive at least once, in order and
without gaps; they arrive exactly once as long as no request fails that the server processes.

## Main definitions

* `Delivery.Tracked` — the invariant of all runs.
* `FailsOnlyLost`, `Delivery.InOrder` — only requests fail that are lost, and the invariant of such
  runs.

## Main results

* `log_at_least_once` — what the server has appended, in every run.
* `log_repeats` — a change that is appended twice.
-/

namespace SleepyText.System

open Client (Change Request synchStep transferencode)
open Server (Memory Bytes Directory SystemCalls branchFile)
open Repeats (Covers)

/-! ## All runs -/

/-- A request on its way has changes that are consecutive in what was pushed; in front of them
stand acknowledged changes only, and all of these if the client waits for the request. -/
structure Delivery.Consecutive (s : Delivery) (w : Sent) : Prop where
  request : w.request = Request.send w.request.changes
  number : w.number ≤ s.sent
  front : ∃ pre, pre <+: s.upload.acked ∧ pre ++ w.request.changes <+: s.upload.pushed ∧
    (s.Awaits w.number →
      pre = s.upload.acked ∧ w.request.changes = s.upload.transfer.intransfer)

/-- The invariant of all runs: the changes in the log have the given positions in what was pushed,
and these cover the first `n`, among them those acknowledged. -/
structure Delivery.Tracked (s : Delivery) (positions : List ℕ) (n : ℕ) : Prop where
  conserved : s.upload.Conserved
  network : ∀ w ∈ s.network, s.Consecutive w
  responses : ∀ r ∈ s.responses, r.1 ≤ s.sent ∧ (s.Awaits r.1 → r.2 = 200 →
    s.upload.acked.length + s.upload.transfer.intransfer.length ≤ n)
  log : List.Forall₂ (fun i change => s.upload.pushed[i]? = some change) positions s.log
  covers : Covers positions n
  acked : s.upload.acked.length ≤ n
  file : s.dir.content (branchFile 1337) = s.log.flatMap Change.stored

/-- The positions of consecutive changes. -/
lemma forall₂_range' {pre changes pushed : List Change} (h : pre ++ changes <+: pushed) :
    List.Forall₂ (fun i change => pushed[i]? = some change)
      (List.range' pre.length changes.length) changes := by
  induction changes generalizing pre with
  | nil => exact .nil
  | cons change changes ih =>
    obtain ⟨rest, rfl⟩ := h
    have hrest := @ih (pre ++ [change]) ⟨rest, by simp⟩
    rw [List.length_append, List.length_singleton] at hrest
    rw [List.length_cons, List.range'_succ]
    refine .cons ?_ hrest
    simp

section Steps

variable {env : SystemCalls} {s t : Delivery} {positions : List ℕ} {n : ℕ}

/-- The client moves on, and waits for no other request than before. -/
lemma Delivery.Tracked.upload (h : s.Tracked positions n) {u : Client.Upload} (hu : u.Conserved)
    (hacked : s.upload.acked <+: u.acked) (hlen : u.acked.length ≤ n)
    (hpushed : s.upload.pushed <+: u.pushed)
    (hwait : u.transfer.outstanding ≠ [] → s.upload.transfer.outstanding ≠ [] ∧
      u.acked = s.upload.acked ∧ u.transfer.intransfer = s.upload.transfer.intransfer) :
    Delivery.Tracked { s with upload := u } positions n := by
  refine ⟨hu, fun w hw => ?_, fun r hr => ?_, ?_, h.covers, hlen, h.file⟩
  · obtain ⟨hrequest, hnumber, pre, hpre, hchanges, hcurrent⟩ := h.network w hw
    refine ⟨hrequest, hnumber, pre, hpre.trans hacked, hchanges.trans hpushed, ?_⟩
    rintro ⟨heq, hout⟩
    obtain ⟨hout', hacked', hintransfer⟩ := hwait hout
    obtain ⟨hpre', hchanges'⟩ := hcurrent ⟨heq, hout'⟩
    exact ⟨hpre'.trans hacked'.symm, hchanges'.trans hintransfer.symm⟩
  · obtain ⟨hnumber, hresponse⟩ := h.responses r hr
    refine ⟨hnumber, ?_⟩
    rintro ⟨heq, hout⟩ hok
    obtain ⟨hout', hacked', hintransfer⟩ := hwait hout
    have hle := hresponse ⟨heq, hout'⟩ hok
    rw [← hacked', ← hintransfer] at hle
    exact hle
  · apply h.log.imp
    intro i change hi
    obtain ⟨rest, hrest⟩ := hpushed
    change u.pushed[i]? = some change
    rw [← hrest, List.getElem?_append_left (List.getElem?_eq_some_iff.mp hi).1, hi]

/-- Requests and responses are lost. -/
lemma Delivery.Tracked.lose (h : s.Tracked positions n) {network : List Sent}
    {responses : List (ℕ × ℕ)} (hnetwork : network ⊆ s.network)
    (hresponses : responses ⊆ s.responses) :
    Delivery.Tracked { s with network := network, responses := responses } positions n where
  conserved := h.conserved
  network := fun w hw =>
    let hw := h.network w (hnetwork hw)
    ⟨hw.request, hw.number, hw.front⟩
  responses := fun r hr => h.responses r (hresponses hr)
  log := h.log
  covers := h.covers
  acked := h.acked
  file := h.file

/-- The client completes the request that it waits for. -/
lemma Delivery.Tracked.complete (h : s.Tracked positions n) {status : ℕ} {u : Client.Upload}
    (hstep : synchStep s.upload (.complete 0 status) = some u)
    (hok : status = 200 →
      s.upload.acked.length + s.upload.transfer.intransfer.length ≤ n) :
    Delivery.Tracked { s with upload := u } positions n := by
  obtain ⟨hout, hpushed, hacked⟩ := synchStep_complete h.conserved hstep
  have hu := Client.conserved_synchStep _ _ _ h.conserved hstep
  refine h.upload hu ?_ ?_ (by rw [hpushed]) fun hne => absurd hout hne
  · rw [hacked]
    split_ifs
    · exact List.prefix_append _ _
    · exact List.prefix_refl _
  · rw [hacked]
    split_ifs with hstatus
    · rw [List.length_append]
      exact hok hstatus
    · exact h.acked

/-- The client sends its queue. -/
lemma Delivery.Tracked.tick (h : s.Tracked positions n) {u : Client.Upload}
    (hstep : synchStep s.upload .tick = some u) : (s.send u).Tracked positions n := by
  have hu := Client.conserved_synchStep _ _ _ h.conserved hstep
  have hupload : (s.send u).upload = u := rfl
  rcases send_tick h.conserved hstep with heq | ⟨hintransfer, hout, -, heq⟩
  · rw [heq]
    exact h
  rw [heq] at hupload ⊢
  have hpushed := h.conserved.pushed
  rw [hintransfer, List.append_nil] at hpushed
  refine ⟨hupload ▸ hu, fun w hw => ?_, fun r hr => ?_, h.log, h.covers, h.acked, h.file⟩
  · rcases List.mem_append.mp hw with hw | hw
    · obtain ⟨hrequest, hnumber, pre, hpre, hchanges, -⟩ := h.network w hw
      refine ⟨hrequest, Nat.le_succ_of_le hnumber, pre, hpre, hchanges, fun hawaits => ?_⟩
      have hnumber' : w.number = s.sent + 1 := hawaits.1
      omega
    · obtain rfl := List.mem_singleton.mp hw
      exact ⟨rfl, le_rfl, _, List.prefix_refl _, by rw [← hpushed]; exact List.prefix_refl _,
        fun _ => ⟨rfl, rfl⟩⟩
  · obtain ⟨hnumber, -⟩ := h.responses r hr
    refine ⟨Nat.le_succ_of_le hnumber, fun hawaits => ?_⟩
    have hnumber' : r.1 = s.sent + 1 := hawaits.1
    omega

/-- The server processes a request. -/
lemma Delivery.Tracked.process (h : s.Tracked positions n) {i : ℕ} {w : Sent}
    (hw : s.network[i]? = some w) {dir : Directory}
    (hdir : dir.content (branchFile 1337) =
      s.dir.content (branchFile 1337) ++ w.request.changes.flatMap Change.stored) :
    ∃ positions' n', (s.process i w .ok dir).Tracked positions' n' := by
  obtain ⟨-, hnumber, pre, hpre, hchanges, hcurrent⟩ := h.network w (List.mem_of_getElem? hw)
  have hle : pre.length ≤ n := hpre.length_le.trans h.acked
  refine ⟨positions ++ List.range' pre.length w.request.changes.length,
    max n (pre.length + w.request.changes.length), h.conserved, fun w' hw' => ?_, fun r hr => ?_,
    ?_, h.covers.append hle _, h.acked.trans (Nat.le_max_left _ _), ?_⟩
  · have hw' := h.network w' (List.mem_of_mem_eraseIdx hw')
    exact ⟨hw'.request, hw'.number, hw'.front⟩
  · rcases List.mem_append.mp hr with hr | hr
    · obtain ⟨hr, hresponse⟩ := h.responses r hr
      exact ⟨hr, fun hawaits hok => (hresponse hawaits hok).trans (Nat.le_max_left _ _)⟩
    · obtain rfl := List.mem_singleton.mp hr
      refine ⟨hnumber, fun hawaits _ => ?_⟩
      obtain ⟨rfl, hintransfer⟩ := hcurrent hawaits
      rw [hintransfer]
      exact Nat.le_max_right _ _
  · exact List.rel_append h.log (forall₂_range' hchanges)
  · change dir.content (branchFile 1337) = (s.log ++ w.request.changes).flatMap Change.stored
    rw [hdir, h.file, List.flatMap_append]

/-- **Every event** keeps the invariant. -/
theorem tracked_deliveryStep (henv : env.Works) (s : Delivery) (e : DeliveryEvent) (t : Delivery)
    (h : ∃ positions n, s.Tracked positions n) (hstep : deliveryStep env s e = some t) :
    ∃ positions n, t.Tracked positions n := by
  obtain ⟨positions, n, h⟩ := h
  cases deliveryStepped_of_step hstep with
  | pushed hu =>
    have hconserved := Client.conserved_synchStep _ _ _ h.conserved hu
    obtain rfl := Option.some.inj hu
    exact ⟨positions, n, h.upload hconserved (List.prefix_refl _) h.acked
      (List.prefix_append _ _) fun hout => ⟨hout, rfl, rfl⟩⟩
  | sent hu => exact ⟨positions, n, h.tick hu⟩
  | arrived harrive =>
    obtain ⟨w, dir, hw, rfl, hdir⟩ :=
      deliveryStep_deliver henv (fun w hw => (h.network w hw).request) harrive
    exact h.process hw hdir
  | lost => exact ⟨positions, n, h.lose List.eraseIdx_subset (List.Subset.refl _)⟩
  | @answered i number status u hr hawaits hu =>
    have hlose := h.lose (List.Subset.refl _) (@List.eraseIdx_subset _ s.responses i)
    obtain ⟨-, hresponse⟩ := h.responses _ (List.mem_of_getElem? hr)
    exact ⟨positions, n, hlose.complete hu (hresponse hawaits)⟩
  | ignored | unanswered =>
    exact ⟨positions, n, h.lose (List.Subset.refl _) List.eraseIdx_subset⟩
  | failed hstatus hu => exact ⟨positions, n, h.complete hu fun hok => absurd hok hstatus⟩

/-! ## Runs in which only lost requests fail -/

/-- A request fails only if the server has not processed it and will not. -/
def FailsOnlyLost (s : Delivery) : DeliveryEvent → Prop
  | .fail _ => s.sent ∉ s.processed ∧ ∀ w ∈ s.network, w.number ≠ s.sent
  | _ => True

instance (s : Delivery) : (e : DeliveryEvent) → Decidable (FailsOnlyLost s e)
  | .fail _ =>
    inferInstanceAs (Decidable (s.sent ∉ s.processed ∧ ∀ w ∈ s.network, w.number ≠ s.sent))
  | .push _ | .tick | .deliver _ _ _ | .lose _ | .respond _ | .loseResponse _ =>
    inferInstanceAs (Decidable True)

/-- The invariant of these runs: the only request that can arrive is the one that the client waits
for, and the log is what was acknowledged, with the changes of this request behind it once the
server has processed it. -/
structure Delivery.InOrder (s : Delivery) : Prop where
  conserved : s.upload.Conserved
  processed : ∀ k ∈ s.processed, k ≤ s.sent
  responses : ∀ r ∈ s.responses, r.2 = 200 ∧ r.1 ∈ s.processed
  network : s.network = [] ∨ s.upload.transfer.outstanding ≠ [] ∧ s.sent ∉ s.processed ∧
    s.network = [⟨s.sent, Request.send s.upload.transfer.intransfer⟩]
  log : s.log = if s.sent ∈ s.processed ∧ s.upload.transfer.outstanding ≠ [] then
    s.upload.acked ++ s.upload.transfer.intransfer else s.upload.acked

/-- The log is a part of what was pushed. -/
lemma Delivery.InOrder.prefix_pushed (h : s.InOrder) : s.log <+: s.upload.pushed := by
  have hpushed := h.conserved.pushed
  rw [h.log, ← hpushed]
  split_ifs
  · exact List.prefix_append _ _
  · rw [List.append_assoc]
    exact List.prefix_append _ _

/-- The request that can arrive is one that the client has made. -/
lemma Delivery.InOrder.request (h : s.InOrder) {w : Sent} (hw : w ∈ s.network) :
    w.request = Request.send w.request.changes := by
  rcases h.network with hnetwork | ⟨-, -, hnetwork⟩
  · rw [hnetwork] at hw
    exact absurd hw List.not_mem_nil
  · rw [hnetwork] at hw
    obtain rfl := List.mem_singleton.mp hw
    rfl

/-- Nothing can arrive any more once the server has processed the last request. -/
lemma Delivery.InOrder.network_eq_nil (h : s.InOrder) (hmem : s.sent ∈ s.processed) :
    s.network = [] := by
  rcases h.network with hnetwork | ⟨-, hnew, -⟩
  · exact hnetwork
  · exact absurd hmem hnew

/-- Nothing can arrive any more once the request is lost. -/
lemma Delivery.InOrder.eraseIdx_network (h : s.InOrder) {i : ℕ} (hi : i < s.network.length) :
    s.network.eraseIdx i = [] := by
  rcases h.network with hnetwork | ⟨-, -, hnetwork⟩
  · rw [hnetwork]
    rfl
  · rw [hnetwork, List.length_singleton] at hi
    obtain rfl : i = 0 := by omega
    rw [hnetwork]
    rfl

/-- Requests and responses are lost. -/
lemma Delivery.InOrder.lose (h : s.InOrder) {network : List Sent} {responses : List (ℕ × ℕ)}
    (hnetwork : network = [] ∨ network = s.network) (hresponses : responses ⊆ s.responses) :
    Delivery.InOrder { s with network := network, responses := responses } where
  conserved := h.conserved
  processed := h.processed
  responses := fun r hr => h.responses r (hresponses hr)
  network := by
    rcases hnetwork with rfl | rfl
    · exact .inl rfl
    · exact h.network
  log := h.log

/-- The client completes the request that it waits for, when nothing else is on its way. -/
lemma Delivery.InOrder.complete (h : s.InOrder) (hnetwork : s.network = []) {status : ℕ}
    {u : Client.Upload} (hstep : synchStep s.upload (.complete 0 status) = some u)
    (hlog : s.log = if status = 200 then s.upload.acked ++ s.upload.transfer.intransfer
      else s.upload.acked) : Delivery.InOrder { s with upload := u } := by
  obtain ⟨hout, -, hacked⟩ := synchStep_complete h.conserved hstep
  refine ⟨Client.conserved_synchStep _ _ _ h.conserved hstep, h.processed, h.responses,
    .inl hnetwork, ?_⟩
  rw [if_neg fun hwait => hwait.2 hout]
  exact hlog.trans hacked.symm

/-- The client sends its queue. -/
lemma Delivery.InOrder.tick (h : s.InOrder) {u : Client.Upload}
    (hstep : synchStep s.upload .tick = some u) : (s.send u).InOrder := by
  have hu := Client.conserved_synchStep _ _ _ h.conserved hstep
  have hupload : (s.send u).upload = u := rfl
  rcases send_tick h.conserved hstep with heq | ⟨-, hout, -, heq⟩
  · rw [heq]
    exact h
  rw [heq] at hupload ⊢
  have hnew : s.sent + 1 ∉ s.processed := fun hmem => by
    have hle := h.processed _ hmem
    omega
  have hnetwork : s.network = [] := by
    rcases h.network with hnetwork | ⟨hwait, -⟩
    · exact hnetwork
    · exact absurd hout hwait
  refine ⟨hupload ▸ hu, fun k hk => Nat.le_succ_of_le (h.processed k hk), h.responses, ?_, ?_⟩
  · right
    refine ⟨List.cons_ne_nil _ _, hnew, ?_⟩
    rw [hnetwork]
    rfl
  · have hlog := h.log
    rw [if_neg fun hwait => hwait.2 hout] at hlog
    rw [if_neg fun hwait => hnew hwait.1]
    exact hlog

/-- The server processes the request that the client waits for. -/
lemma Delivery.InOrder.process (h : s.InOrder) {i : ℕ} {w : Sent} (hw : s.network[i]? = some w)
    (dir : Directory) : (s.process i w .ok dir).InOrder := by
  rcases h.network with hnetwork | ⟨hwait, hnew, hnetwork⟩
  · rw [hnetwork] at hw
    exact absurd hw (by simp)
  rw [hnetwork] at hw
  obtain ⟨hi, rfl⟩ := List.getElem?_eq_some_iff.mp hw
  obtain rfl : i = 0 := by simpa using hi
  have hlog := h.log
  rw [if_neg fun hwait => hnew hwait.1] at hlog
  refine ⟨h.conserved, fun k hk => ?_, fun r hr => ?_, .inl ?_, ?_⟩
  · rcases List.mem_append.mp hk with hk | hk
    · exact h.processed k hk
    · obtain rfl := List.mem_singleton.mp hk
      exact le_rfl
  · rcases List.mem_append.mp hr with hr | hr
    · obtain ⟨hok, hmem⟩ := h.responses r hr
      exact ⟨hok, List.mem_append_left _ hmem⟩
    · obtain rfl := List.mem_singleton.mp hr
      exact ⟨rfl, List.mem_append_right _ List.mem_cons_self⟩
  · change s.network.eraseIdx 0 = []
    rw [hnetwork]
    rfl
  · rw [if_pos ⟨List.mem_append_right _ List.mem_cons_self, hwait⟩]
    change s.log ++ s.upload.transfer.intransfer = s.upload.acked ++ s.upload.transfer.intransfer
    rw [hlog]

/-- **Every event** keeps the order, unless a request fails that is not lost. -/
theorem inOrder_deliveryStep (henv : env.Works) (s : Delivery) (e : DeliveryEvent) (t : Delivery)
    (h : s.InOrder) (hlost : FailsOnlyLost s e) (hstep : deliveryStep env s e = some t) :
    t.InOrder := by
  cases deliveryStepped_of_step hstep with
  | pushed hu =>
    have hconserved := Client.conserved_synchStep _ _ _ h.conserved hu
    obtain rfl := Option.some.inj hu
    exact ⟨hconserved, h.processed, h.responses, h.network, h.log⟩
  | sent hu => exact h.tick hu
  | arrived harrive =>
    obtain ⟨w, dir, hw, rfl, -⟩ := deliveryStep_deliver henv (fun w hw => h.request hw) harrive
    exact h.process hw dir
  | lost hi => exact h.lose (.inl (h.eraseIdx_network hi)) (List.Subset.refl _)
  | @answered i number status u hr hawaits hu =>
    have hlose := h.lose (.inr rfl) (@List.eraseIdx_subset _ s.responses i)
    obtain ⟨rfl, hmem⟩ := h.responses _ (List.mem_of_getElem? hr)
    obtain ⟨rfl, hwait⟩ : number = s.sent ∧ s.upload.transfer.outstanding ≠ [] := hawaits
    apply hlose.complete (h.network_eq_nil hmem) hu
    rw [if_pos rfl]
    exact h.log.trans (if_pos ⟨hmem, hwait⟩)
  | ignored | unanswered => exact h.lose (.inr rfl) List.eraseIdx_subset
  | failed hstatus hu =>
    obtain ⟨hnew, hlost⟩ := hlost
    have hnetwork : s.network = [] := by
      rcases h.network with hnetwork | ⟨-, -, hnetwork⟩
      · exact hnetwork
      · exact absurd rfl (hlost _ (by rw [hnetwork]; exact List.mem_cons_self))
    apply h.complete hnetwork hu
    rw [if_neg hstatus]
    exact h.log.trans (if_neg fun hwait => hnew hwait.1)

end Steps

/-! ## The log -/

/-- **What the server appends**, over every interleaving of edits, ticks, arrivals, losses and
failures. Every change in the log was pushed; without repetitions they are the first changes
pushed, in order, and all that were acknowledged are among them; the file of the branch has exactly
these changes. If only lost requests fail, then the log is a part of what was pushed: nothing is
appended twice or out of order. -/
theorem log_at_least_once {env : SystemCalls} (henv : env.Works) {dir : Directory}
    (hnew : dir.content (branchFile 1337) = []) {events : List DeliveryEvent} {s : Delivery}
    (hrun : Run.run (deliveryStep env) (.init dir) events = some s) :
    (∃ positions n, List.Forall₂ (fun i change => s.upload.pushed[i]? = some change)
        positions s.log ∧ positions.eraseDups = List.range n ∧ s.upload.acked.length ≤ n) ∧
      s.dir.content (branchFile 1337) = s.log.flatMap Change.stored ∧
      (Run.Guarded (deliveryStep env) FailsOnlyLost (.init dir) events →
        s.log <+: s.upload.pushed) := by
  have htracked : ∃ positions n, Delivery.Tracked (.init dir) positions n :=
    ⟨[], 0, Client.Upload.Conserved.init, fun w hw => absurd hw List.not_mem_nil,
      fun r hr => absurd hr List.not_mem_nil, .nil, Covers.nil, le_rfl, hnew⟩
  obtain ⟨positions, n, h⟩ := Run.run_invariant (tracked_deliveryStep henv) htracked hrun
  refine ⟨⟨positions, n, h.log, h.covers, h.acked⟩, h.file, fun hlost => ?_⟩
  have hinit : Delivery.InOrder (.init dir) :=
    ⟨Client.Upload.Conserved.init, fun k hk => absurd hk List.not_mem_nil,
      fun r hr => absurd hr List.not_mem_nil, .inl rfl, rfl⟩
  exact (Run.run_invariant_of_guarded (inOrder_deliveryStep henv) hinit hlost hrun).prefix_pushed

/-- System calls that succeed and transfer everything. -/
def working : SystemCalls := ⟨fun _ => true, fun _ n => n⟩

lemma works_working : working.Works := ⟨fun _ => rfl, fun _ _ => le_rfl⟩

/-- The arrival of the request `i` with the given changes, its body at the start of the memory. -/
def DeliveryEvent.arrive (i : ℕ) (list : List Change) : DeliveryEvent :=
  .deliver i (fun x => (transferencode list).getD x 0) ⟨0, (transferencode list).length⟩

/-- A request is lost and fails, and its change arrives with the next one. -/
theorem log_at_least_once_lost :
    ∃ s, Run.run (deliveryStep working) (.init fun _ => none) [.push ⟨0, [], [97]⟩, .tick,
        .lose 0, .push ⟨1, [], [98]⟩, .fail 0, .tick,
        .arrive 0 [⟨0, [], [97]⟩, ⟨1, [], [98]⟩], .respond 0] = some s ∧
      (∃ positions n, List.Forall₂ (fun i change => s.upload.pushed[i]? = some change)
        positions s.log ∧ positions.eraseDups = List.range n ∧ s.upload.acked.length ≤ n) ∧
      s.dir.content (branchFile 1337) = s.log.flatMap Change.stored ∧
      s.log <+: s.upload.pushed ∧ s.log = [⟨0, [], [97]⟩, ⟨1, [], [98]⟩] := by
  have hsome : (Run.run (deliveryStep working) (.init fun _ => none) [.push ⟨0, [], [97]⟩, .tick,
      .lose 0, .push ⟨1, [], [98]⟩, .fail 0, .tick, .arrive 0 [⟨0, [], [97]⟩, ⟨1, [], [98]⟩],
      .respond 0]).map Delivery.log = some [⟨0, [], [97]⟩, ⟨1, [], [98]⟩] := by decide +kernel
  obtain ⟨s, hrun, hlog⟩ := Option.map_eq_some_iff.mp hsome
  obtain ⟨hpositions, hfile, hlost⟩ := log_at_least_once works_working rfl hrun
  exact ⟨s, hrun, hpositions, hfile, hlost (by decide +kernel), hlog⟩

/-- A change whose request fails after the server has processed it is appended twice. -/
theorem log_repeats :
    ∃ s, Run.run (deliveryStep working) (.init fun _ => none) [.push ⟨0, [], [97]⟩, .tick,
        .arrive 0 [⟨0, [], [97]⟩], .fail 0, .tick, .arrive 0 [⟨0, [], [97]⟩]] = some s ∧
      s.upload.pushed = [⟨0, [], [97]⟩] ∧ s.log = [⟨0, [], [97]⟩, ⟨0, [], [97]⟩] ∧
      ¬ s.log <+: s.upload.pushed := by
  have hsome : (Run.run (deliveryStep working) (.init fun _ => none) [.push ⟨0, [], [97]⟩, .tick,
      .arrive 0 [⟨0, [], [97]⟩], .fail 0, .tick, .arrive 0 [⟨0, [], [97]⟩]]).map
        (fun s => (s.upload.pushed, s.log)) =
      some ([⟨0, [], [97]⟩], [⟨0, [], [97]⟩, ⟨0, [], [97]⟩]) := by decide +kernel
  obtain ⟨s, hrun, hs⟩ := Option.map_eq_some_iff.mp hsome
  obtain ⟨hpushed, hlog⟩ := Prod.mk.inj hs
  refine ⟨s, hrun, hpushed, hlog, ?_⟩
  rw [hpushed, hlog]
  decide

end SleepyText.System
