import SleepyText.Lib.Repeats
import SleepyText.Client.Network
import SleepyText.Server.BranchLog

set_option relaxedAutoImplicit false
set_option autoImplicit false

/-!
# Uploads over a network

The upload loop of the client, the network and the upload handler of the server, as one transition
system. Requests and responses may be lost or arrive late, and the client may give up a request
that the server has processed, or will process.

## Main definitions

* `Change.stored` — the bytes of a change in the file of a branch.
* `Delivery`, `deliveryStep` — the system and its events.
* `DeliveryStepped` — what an event does.

## Main results

* `feed_transferencode` — the handler accepts what the client sends, and appends its changes to the
  file of branch 1337.
* `deliveryStep_deliver` — what the arrival of a request does.
* `deliveryStepped_of_step` — what every event does.
-/

namespace SleepyText.System

open Client (Change Request synchStep transferencode changeencode blob encodeInt32)
open Server (Memory Bytes Directory SystemCalls FeedCall HttpResult Record httpCallbackFeed
  branchFile recordsAt)
open Word

/-! ## What the server stores of a change -/

/-- The bytes of a change in the file of a branch. -/
def Change.stored (change : Change) : List UInt8 :=
  105 :: (be32 (change.pos % 2 ^ 32) ++ le32 (blob change.last).length ++
    le32 (blob change.now).length ++ (blob change.last ++ blob change.now))

/-- The record that a change is sent as. -/
structure Sends (change : Change) (r : Record) : Prop where
  pos : r.pos.toNat = change.pos % 2 ^ 32
  last : r.last = blob change.last
  now : r.now = blob change.now

lemma Sends.encode {change : Change} {r : Record} (h : Sends change r) :
    r.encode = changeencode change := by
  have hint (k : ℕ) : encodeInt32 (k : ℤ) = be32 (k % 2 ^ 32) := Client.encodeInt32_eq k
  have hlast : (blob change.last).length < 2 ^ 32 := h.last ▸ r.last_lt
  have hnow : (blob change.now).length < 2 ^ 32 := h.now ▸ r.now_lt
  rw [Record.encode, changeencode, h.pos, h.last, h.now]
  simp only [List.map_cons, List.map_nil]
  rw [hint, hint, hint, Nat.mod_eq_of_lt hlast, Nat.mod_eq_of_lt hnow]
  simp

lemma Sends.stored {change : Change} {r : Record} (h : Sends change r) :
    r.stored = Change.stored change := by
  rw [Record.stored, Change.stored, h.pos, h.last, h.now]

/-- A change is sent as a record. -/
lemma exists_record {change : Change} (hlast : (blob change.last).length < 2 ^ 32)
    (hnow : (blob change.now).length < 2 ^ 32) : ∃ r : Record, Sends change r := by
  refine ⟨⟨UInt32.ofNat change.pos, blob change.last, blob change.now, hlast, hnow⟩, ?_, rfl, rfl⟩
  simp

/-- Changes are sent as records. -/
lemma exists_records {list : List Change} (h : ∀ change ∈ list,
      (blob change.last).length < 2 ^ 32 ∧ (blob change.now).length < 2 ^ 32) :
    ∃ records : List Record, List.Forall₂ Sends list records := by
  induction list with
  | nil => exact ⟨[], .nil⟩
  | cons change list ih =>
    obtain ⟨hlast, hnow⟩ := h change List.mem_cons_self
    obtain ⟨r, hr⟩ := exists_record hlast hnow
    obtain ⟨records, hrecords⟩ := ih fun c hc => h c (List.mem_cons_of_mem _ hc)
    exact ⟨r :: records, .cons hr hrecords⟩

/-- The bytes of the records are what is sent. -/
lemma flatMap_encode {list : List Change} {records : List Record}
    (h : List.Forall₂ Sends list records) :
    records.flatMap Record.encode = list.flatMap changeencode := by
  induction h with
  | nil => rfl
  | cons hr _ ih => rw [List.flatMap_cons, List.flatMap_cons, hr.encode, ih]

/-- The bytes stored for the records. -/
lemma flatMap_stored {list : List Change} {records : List Record}
    (h : List.Forall₂ Sends list records) :
    records.flatMap Record.stored = list.flatMap Change.stored := by
  induction h with
  | nil => rfl
  | cons hr _ ih => rw [List.flatMap_cons, List.flatMap_cons, hr.stored, ih]

/-- The texts of a change are not longer than a request that carries it. -/
lemma length_blob_le {list : List Change} {change : Change} (h : change ∈ list) :
    (blob change.last).length ≤ (transferencode list).length ∧
      (blob change.now).length ≤ (transferencode list).length := by
  have hmem : (changeencode change).length ≤ (list.flatMap changeencode).length := by
    rw [List.length_flatMap]
    exact List.single_le_sum (by simp) _ (List.mem_map_of_mem h)
  simp only [changeencode, List.length_cons, List.length_append, List.flatten_cons,
    List.flatten_nil, List.length_nil] at hmem
  rw [transferencode, List.length_cons, List.length_append]
  omega

/-- The body of a request is an upload for branch 1337. -/
lemma exists_upload {list : List Change} (h : (transferencode list).length < 2 ^ 32) :
    ∃ u : Server.Upload, u.encode = transferencode list ∧
      (recordsAt (branchFile 1337) u.segments).flatMap Record.stored =
        list.flatMap Change.stored := by
  obtain ⟨records, hrecords⟩ := @exists_records list fun change hchange =>
    ⟨(length_blob_le hchange).1.trans_lt h, (length_blob_le hchange).2.trans_lt h⟩
  have hencode := flatMap_encode hrecords
  have hstored := flatMap_stored hrecords
  have hid : encodeInt32 1337 = be32 (1337 : UInt32).toNat := Client.encodeInt32_eq 1337
  refine ⟨⟨[⟨1337, records⟩], [], .inl rfl⟩, ?_, ?_⟩
  · simp [Server.Upload.encode, Server.Segment.encode, transferencode, hencode, hid]
  · rw [Server.recordsAt_cons, if_pos rfl, ← hstored]
    simp [recordsAt]

/-- **The handler accepts what the client sends**, and appends its changes to the file of the
branch. -/
theorem feed_transferencode {env : SystemCalls} (henv : env.Works) {mem : Memory}
    {payload : Bytes} {list : List Change} (hsize : payload.len < 2 ^ 32)
    (hbody : mem.read payload = transferencode list) (dir : Directory) :
    ∃ f, httpCallbackFeed env mem payload dir = some (.ok, f) ∧
      f.dir.content (branchFile 1337) =
        dir.content (branchFile 1337) ++ list.flatMap Change.stored := by
  have hlen : (transferencode list).length < 2 ^ 32 := by
    rw [← hbody, Memory.length_read]
    exact hsize
  obtain ⟨u, hencode, hstored⟩ := exists_upload hlen
  obtain ⟨f, hfeed, hcontent⟩ := FeedCall.content_feed (c := ⟨env, mem, payload⟩) henv hsize
    (hbody.trans hencode.symm) dir
  exact ⟨f, hfeed, by rw [hcontent, hstored]⟩

/-! ## The system -/

/-- A request on its way to the server, with its number among the requests of the client. -/
structure Sent where
  number : ℕ
  request : Request
  deriving DecidableEq, Repr

/-- The client, the number of requests it has sent, the requests and the responses on their way,
where a response is the number of its request and a status, the requests that the server has
processed, its files, and the changes it has appended. -/
structure Delivery where
  upload : Client.Upload
  sent : ℕ
  network : List Sent
  responses : List (ℕ × ℕ)
  processed : List ℕ
  dir : Directory
  log : List Change

/-- The client waits for the response to the request with this number. It waits for one request at
most, the last that it has sent. -/
abbrev Delivery.Awaits (s : Delivery) (number : ℕ) : Prop :=
  number = s.sent ∧ s.upload.transfer.outstanding ≠ []

/-- What can happen. `deliver` says where in the memory of the server the body of the request
stands; `fail` is a timeout or an error that the client observes. -/
inductive DeliveryEvent where
  | push (change : Change)
  | tick
  | deliver (i : ℕ) (mem : Memory) (payload : Bytes)
  | lose (i : ℕ)
  | respond (i : ℕ)
  | loseResponse (i : ℕ)
  | fail (status : ℕ)

/-- The system before anything was typed. -/
def Delivery.init (dir : Directory) : Delivery := ⟨.init, 0, [], [], [], dir, []⟩

/-- The client sends the requests that are new in its list of outstanding ones. -/
def Delivery.send (s : Delivery) (u : Client.Upload) : Delivery :=
  let requests := u.transfer.outstanding.drop s.upload.transfer.outstanding.length
  { s with
    upload := u
    sent := s.sent + requests.length
    network := s.network ++ requests.map fun request => ⟨s.sent + 1, request⟩ }

/-- The server has processed the request `i`. -/
def Delivery.process (s : Delivery) (i : ℕ) (w : Sent) (status : HttpResult) (dir : Directory) :
    Delivery :=
  { s with
    network := s.network.eraseIdx i
    responses := s.responses ++ [(w.number, status.code)]
    processed := s.processed ++ [w.number]
    dir := dir
    log := if status = .ok then s.log ++ w.request.changes else s.log }

/-- One event of the system. The client takes no notice of a response that it does not wait for. A
request whose body leaves no room in the 4096 bytes of the buffer of its connection is never
dispatched; whether there is room for its header as well is left open here. -/
def deliveryStep (env : SystemCalls) (s : Delivery) : DeliveryEvent → Option Delivery
  | .push change => (synchStep s.upload (.push change)).map fun u => { s with upload := u }
  | .tick => (synchStep s.upload .tick).map s.send
  | .deliver i mem payload =>
    s.network[i]?.bind fun w =>
      if mem.read payload = w.request.body ∧ payload.len < 4096 then
        (httpCallbackFeed env mem payload s.dir).map fun (status, f) => s.process i w status f.dir
      else none
  | .lose i =>
    if i < s.network.length then some { s with network := s.network.eraseIdx i } else none
  | .respond i =>
    s.responses[i]?.bind fun (number, status) =>
      let s := { s with responses := s.responses.eraseIdx i }
      if s.Awaits number then
        (synchStep s.upload (.complete 0 status)).map fun u => { s with upload := u }
      else some s
  | .loseResponse i =>
    if i < s.responses.length then some { s with responses := s.responses.eraseIdx i } else none
  | .fail status =>
    if status = 200 then none
    else (synchStep s.upload (.complete 0 status)).map fun u => { s with upload := u }

/-! ## Events -/

variable {env : SystemCalls} {s t : Delivery}

/-- **A tick** sends all of the queue, or does nothing. -/
theorem send_tick (h : s.upload.Conserved) {u : Client.Upload}
    (hstep : synchStep s.upload .tick = some u) :
    s.send u = s ∨
      s.upload.transfer.intransfer = [] ∧ s.upload.transfer.outstanding = [] ∧
      s.upload.transfer.queue ≠ [] ∧ s.send u = { s with
        upload := { s.upload with
          transfer := ⟨[], s.upload.transfer.queue, [Request.send s.upload.transfer.queue]⟩ }
        sent := s.sent + 1
        network := s.network ++ [⟨s.sent + 1, Request.send s.upload.transfer.queue⟩] } := by
  obtain rfl := Option.some.inj hstep
  by_cases hsend : s.upload.transfer.intransfer.length = 0 ∧ s.upload.transfer.queue.length > 0
  · obtain ⟨hempty, hpos⟩ := hsend
    have hempty := List.length_eq_zero_iff.mp hempty
    have hout := h.outstanding
    rw [if_pos hempty] at hout
    refine .inr ⟨hempty, hout, List.length_pos_iff.mp hpos, ?_⟩
    simp [Delivery.send, Client.Transfer.synch, hempty, hpos, hout]
  · have hsynch : s.upload.transfer.synch = s.upload.transfer := if_neg hsend
    left
    simp [Delivery.send, hsynch]

/-- **The completion** of the request that the client waits for. -/
theorem synchStep_complete {u u' : Client.Upload} (h : u.Conserved) {status : ℕ}
    (hstep : synchStep u (.complete 0 status) = some u') :
    u'.transfer.outstanding = [] ∧ u'.pushed = u.pushed ∧
      u'.acked = if status = 200 then u.acked ++ u.transfer.intransfer else u.acked := by
  obtain ⟨r, hr, rfl⟩ := Option.map_eq_some_iff.mp hstep
  obtain ⟨hne, -, rfl⟩ := h.of_getElem? hr
  have hout := h.outstanding
  rw [if_neg hne] at hout
  refine ⟨?_, rfl, rfl⟩
  simp [Client.Upload.complete, hout]

/-- The body of a request that arrives is shorter than the buffer. -/
lemma length_lt_of_deliver {i : ℕ} {mem : Memory} {payload : Bytes}
    (h : deliveryStep env s (.deliver i mem payload) = some t) {w : Sent}
    (hw : s.network[i]? = some w) (hrequest : w.request = .send w.request.changes) :
    (transferencode w.request.changes).length < 4096 := by
  obtain ⟨w', hw', h⟩ := Option.bind_eq_some_iff.mp h
  obtain rfl := Option.some.inj (hw.symm.trans hw')
  split_ifs at h with hpayload
  obtain ⟨hread, hlen⟩ := hpayload
  have hbody : w.request.body = transferencode w.request.changes := congrArg Request.body hrequest
  rwa [← hbody, ← hread, Memory.length_read]

/-- **The arrival of a request** that the client made: it is accepted, and its changes are appended
to the log. -/
theorem deliveryStep_deliver (henv : env.Works) {i : ℕ} {mem : Memory} {payload : Bytes}
    (hsent : ∀ w ∈ s.network, w.request = Request.send w.request.changes)
    (h : deliveryStep env s (.deliver i mem payload) = some t) :
    ∃ w dir, s.network[i]? = some w ∧ t = s.process i w .ok dir ∧
      dir.content (branchFile 1337) =
        s.dir.content (branchFile 1337) ++ w.request.changes.flatMap Change.stored := by
  obtain ⟨w, hw, h⟩ := Option.bind_eq_some_iff.mp h
  split_ifs at h with hpayload
  obtain ⟨hread, hlen⟩ := hpayload
  have hbody : mem.read payload = transferencode w.request.changes := by
    rw [hread, hsent w (List.mem_of_getElem? hw)]
    rfl
  obtain ⟨f, hfeed, hcontent⟩ := feed_transferencode henv (by omega) hbody s.dir
  rw [hfeed] at h
  exact ⟨w, f.dir, hw, (Option.some.inj h).symm, hcontent⟩

/-- What an event does, where the handler answers an arrival. -/
inductive DeliveryStepped (env : SystemCalls) (s : Delivery) : DeliveryEvent → Delivery → Prop
  | pushed {change : Change} {u : Client.Upload} : synchStep s.upload (.push change) = some u →
      DeliveryStepped env s (.push change) { s with upload := u }
  | sent {u : Client.Upload} : synchStep s.upload .tick = some u →
      DeliveryStepped env s .tick (s.send u)
  | arrived {i : ℕ} {mem : Memory} {payload : Bytes} {t : Delivery} :
      deliveryStep env s (.deliver i mem payload) = some t →
      DeliveryStepped env s (.deliver i mem payload) t
  | lost {i : ℕ} : i < s.network.length →
      DeliveryStepped env s (.lose i) { s with network := s.network.eraseIdx i }
  | answered {i number status : ℕ} {u : Client.Upload} :
      s.responses[i]? = some (number, status) → s.Awaits number →
      synchStep s.upload (.complete 0 status) = some u →
      DeliveryStepped env s (.respond i)
        { s with responses := s.responses.eraseIdx i, upload := u }
  | ignored {i : ℕ} :
      DeliveryStepped env s (.respond i) { s with responses := s.responses.eraseIdx i }
  | unanswered {i : ℕ} :
      DeliveryStepped env s (.loseResponse i) { s with responses := s.responses.eraseIdx i }
  | failed {status : ℕ} {u : Client.Upload} : status ≠ 200 →
      synchStep s.upload (.complete 0 status) = some u →
      DeliveryStepped env s (.fail status) { s with upload := u }

/-- **Every event** does one of these things. -/
theorem deliveryStepped_of_step {e : DeliveryEvent} (h : deliveryStep env s e = some t) :
    DeliveryStepped env s e t := by
  cases e with
  | push change =>
    unfold deliveryStep at h
    obtain ⟨u, hu, rfl⟩ := Option.map_eq_some_iff.mp h
    exact .pushed hu
  | tick =>
    unfold deliveryStep at h
    obtain ⟨u, hu, rfl⟩ := Option.map_eq_some_iff.mp h
    exact .sent hu
  | deliver i mem payload => exact .arrived h
  | lose i =>
    rw [deliveryStep] at h
    split_ifs at h with hi
    obtain rfl := Option.some.inj h
    exact .lost hi
  | respond i =>
    obtain ⟨⟨number, status⟩, hr, h⟩ := Option.bind_eq_some_iff.mp h
    dsimp only at h
    split_ifs at h with hawaits
    · obtain ⟨u, hu, rfl⟩ := Option.map_eq_some_iff.mp h
      exact .answered hr hawaits hu
    · obtain rfl := Option.some.inj h
      exact .ignored
  | loseResponse i =>
    rw [deliveryStep] at h
    split_ifs at h
    obtain rfl := Option.some.inj h
    exact .unanswered
  | fail status =>
    rw [deliveryStep] at h
    split_ifs at h with hstatus
    obtain ⟨u, hu, rfl⟩ := Option.map_eq_some_iff.mp h
    exact .failed hstatus hu

end SleepyText.System
