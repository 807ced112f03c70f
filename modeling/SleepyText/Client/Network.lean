import SleepyText.Lib.Run
import SleepyText.Lib.Utf
import SleepyText.Lib.Word
import SleepyText.Client.Editor

set_option relaxedAutoImplicit false
set_option autoImplicit false

/-!
# Uploading changes

The upload loop of the client (`network.js`). Changes are pushed to `queue`; a tick of `synch`
moves the whole queue to `intransfer` and sends it, and the completion of the request empties
`intransfer`, back into the queue unless the status is 200.

## Main definitions

* `encodeInt32`, `transferencode` — the body of a request.
* `Transfer`, `Transfer.synch`, `Transfer.onreadystatechange` — the lists and the outstanding
  requests.
* `Upload`, `synchStep` — the upload loop as a transition system that also records what was
  pushed and what was acknowledged.
* `Page`, `pageStep` — the editor and the upload loop together.

## Main results

* `encodeInt32_eq` — `encodeInt32` writes the bytes of a number, most significant first.
* `queue_conserves_changes` — acknowledged changes, `intransfer` and `queue` together are the
  changes pushed, in order.
* `page_simulates`, `page_conserves_changes` — the page runs the upload loop, pushing what the
  editor records, and so conserves it.
-/

namespace SleepyText.Client

/-! ## The body of a request -/

/-- The conversion of a number that `>>` makes. -/
def toInt32 (n : ℤ) : ℤ := n.bmod (2 ^ 32)

/-- The conversion of a number stored into a `Uint8Array`. -/
def toUint8 (n : ℤ) : UInt8 := UInt8.ofNat (n % 256).toNat

/-- `encodeInt32`: byte `3 - i` is `(n >> (8*i)) % 256`. -/
def encodeInt32 (n : ℤ) : List UInt8 :=
  [3, 2, 1, 0].map fun i : ℕ => toUint8 ((toInt32 n >>> (8 * i)).tmod 256)

/-- `new Blob([s])`: the UTF-8 bytes of a string. -/
abbrev blob (s : JsString) : List UInt8 := Utf.toUtf8 s

/-- The pieces that `transferencode` makes of one change. -/
def changeencode (c : Change) : List UInt8 :=
  let utf8 := [blob c.last, blob c.now]
  let data := [(c.pos : ℤ), (blob c.last).length, (blob c.now).length].map encodeInt32
  105 :: (data.flatten ++ utf8.flatten)

/-- `transferencode`: `'b'`, the branch id `1337`, and `'i'` with three numbers and two texts for
each change. -/
def transferencode (list : List Change) : List UInt8 :=
  98 :: (encodeInt32 1337 ++ list.flatMap changeencode)

/-- One byte of `encodeInt32`. -/
private lemma toUint8_shift (n : ℤ) {i : ℕ} (hi : 8 * i + 8 ≤ 32) :
    toUint8 ((toInt32 n >>> (8 * i)).tmod 256) =
      UInt8.ofNat ((n % 2 ^ 32).toNat / 2 ^ (8 * i)) := by
  have hbmod : (toInt32 n) % 2 ^ 32 = n % 2 ^ 32 := Int.bmod_emod
  have htmod (z : ℤ) : z.tmod 256 % 256 = z % 256 := by
    have h := Int.tmod_add_mul_tdiv z 256
    omega
  apply UInt8.toNat_inj.mp
  rw [toUint8, UInt8.toNat_ofNat', UInt8.toNat_ofNat', htmod, Int.shiftRight_eq_div_pow]
  have hcases : i = 0 ∨ i = 1 ∨ i = 2 ∨ i = 3 := by omega
  rcases hcases with rfl | rfl | rfl | rfl <;> norm_num at hbmod ⊢ <;> omega

/-- **`encodeInt32`** writes the four bytes of a number, the most significant first. -/
theorem encodeInt32_eq (n : ℤ) : encodeInt32 n = Word.be32 (n % 2 ^ 32).toNat := by
  simp only [encodeInt32, List.map_cons, List.map_nil, Word.be32]
  rw [toUint8_shift n (show 8 * 3 + 8 ≤ 32 by norm_num), toUint8_shift n (show 8 * 2 + 8 ≤ 32 by
    norm_num), toUint8_shift n (show 8 * 1 + 8 ≤ 32 by norm_num),
    toUint8_shift n (show 8 * 0 + 8 ≤ 32 by norm_num)]
  simp

/-! ## The upload loop -/

/-- A request to `/api/0/feed`: the changes it was made from and its body. -/
structure Request where
  changes : List Change
  body : List UInt8
  deriving DecidableEq, Repr

/-- `req.send(transferencode(list))`. -/
def Request.send (list : List Change) : Request := ⟨list, transferencode list⟩

/-- The two lists of the upload loop, and the requests sent and not yet completed. -/
structure Transfer where
  queue : List Change
  intransfer : List Change
  outstanding : List Request
  deriving DecidableEq, Repr

/-- The body of `synch`. -/
def Transfer.synch (t : Transfer) : Transfer :=
  if t.intransfer.length = 0 ∧ t.queue.length > 0 then
    { queue := []
      intransfer := t.queue
      outstanding := t.outstanding ++ [Request.send t.queue] }
  else t

/-- `req.onreadystatechange` of `synch`, once `readyState` is 4. -/
def Transfer.onreadystatechange (t : Transfer) (status : ℕ) : Transfer :=
  if status = 200 then { t with intransfer := [] }
  else { t with queue := t.intransfer ++ t.queue, intransfer := [] }

/-- The upload loop, with the changes pushed so far and those of the requests answered with
200. -/
structure Upload where
  transfer : Transfer
  pushed : List Change
  acked : List Change
  deriving DecidableEq, Repr

/-- What can happen to the upload loop. A timeout is a completion with status 0. -/
inductive SynchEvent where
  | push (change : Change)
  | tick
  | complete (i : ℕ) (status : ℕ)
  deriving DecidableEq, Repr

/-- The outstanding request `i` completes. -/
def Upload.complete (u : Upload) (i status : ℕ) (r : Request) : Upload where
  transfer :=
    { u.transfer.onreadystatechange status with outstanding := u.transfer.outstanding.eraseIdx i }
  pushed := u.pushed
  acked := if status = 200 then u.acked ++ r.changes else u.acked

/-- One event of the upload loop. -/
def synchStep (u : Upload) : SynchEvent → Option Upload
  | .push change =>
    some { u with
      transfer := { u.transfer with queue := u.transfer.queue ++ [change] }
      pushed := u.pushed ++ [change] }
  | .tick => some { u with transfer := u.transfer.synch }
  | .complete i status => (u.transfer.outstanding[i]?).map (u.complete i status)

/-- The upload loop of a page just loaded. -/
def Upload.init : Upload := ⟨⟨[], [], []⟩, [], []⟩

/-- The invariant of the upload loop: nothing pushed is lost, and the request for `intransfer`
is the one outstanding. -/
structure Upload.Conserved (u : Upload) : Prop where
  pushed : u.acked ++ u.transfer.intransfer ++ u.transfer.queue = u.pushed
  outstanding : u.transfer.outstanding =
    if u.transfer.intransfer = [] then [] else [Request.send u.transfer.intransfer]

/-- A request outstanding carries `intransfer`, and is the only one. -/
lemma Upload.Conserved.of_getElem? {u : Upload} (h : u.Conserved) {i : ℕ} {r : Request}
    (hr : u.transfer.outstanding[i]? = some r) :
    u.transfer.intransfer ≠ [] ∧ i = 0 ∧ r = Request.send u.transfer.intransfer := by
  rw [h.outstanding] at hr
  split_ifs at hr with hempty
  · simp at hr
  · obtain ⟨hi, rfl⟩ := List.getElem?_eq_some_iff.mp hr
    obtain rfl : i = 0 := by simpa using hi
    exact ⟨hempty, rfl, rfl⟩

lemma Upload.Conserved.tick {u : Upload} (h : u.Conserved) :
    Upload.Conserved { u with transfer := u.transfer.synch } := by
  have hout := h.outstanding
  by_cases hsend : u.transfer.intransfer.length = 0 ∧ u.transfer.queue.length > 0
  · obtain ⟨hempty, hpos⟩ := hsend
    have hempty := List.length_eq_zero_iff.mp hempty
    have hqueue : u.transfer.queue ≠ [] := List.length_pos_iff.mp hpos
    have hpushed := h.pushed
    rw [hempty, List.append_nil] at hpushed
    rw [hempty, if_pos rfl] at hout
    refine ⟨?_, ?_⟩
    · simpa [Transfer.synch, hempty, hpos] using hpushed
    · simp [Transfer.synch, hempty, hpos, hqueue, hout]
  · rw [Transfer.synch, if_neg hsend]
    exact h

lemma Upload.Conserved.complete {u : Upload} (h : u.Conserved) {i status : ℕ} {r : Request}
    (hr : u.transfer.outstanding[i]? = some r) : (u.complete i status r).Conserved := by
  obtain ⟨hne, rfl, rfl⟩ := h.of_getElem? hr
  have hout : u.transfer.outstanding.eraseIdx 0 = [] := by
    rw [h.outstanding, if_neg hne]
    rfl
  have hpushed := h.pushed
  by_cases hok : status = 200
  · refine ⟨?_, ?_⟩
    · simpa [Upload.complete, Transfer.onreadystatechange, hok, Request.send] using hpushed
    · simpa [Upload.complete, Transfer.onreadystatechange, hok] using hout
  · refine ⟨?_, ?_⟩
    · simpa [Upload.complete, Transfer.onreadystatechange, hok] using hpushed
    · simpa [Upload.complete, Transfer.onreadystatechange, hok] using hout

/-- Every event of the upload loop keeps the invariant. -/
theorem conserved_synchStep (u : Upload) (e : SynchEvent) (u' : Upload) (h : u.Conserved)
    (hstep : synchStep u e = some u') : u'.Conserved := by
  cases e with
  | push change =>
    obtain rfl := Option.some.inj hstep
    refine ⟨?_, h.outstanding⟩
    rw [← h.pushed, List.append_assoc _ _ [change]]
  | tick =>
    obtain rfl := Option.some.inj hstep
    exact h.tick
  | complete i status =>
    obtain ⟨r, hr, rfl⟩ := Option.map_eq_some_iff.mp hstep
    exact h.complete hr

lemma Upload.Conserved.init : Upload.init.Conserved := ⟨rfl, rfl⟩

/-- **The upload loop conserves changes.** In every run, the changes acknowledged, those in
transfer and those queued are together the changes pushed, in order; at most one request is
outstanding; and one is exactly as long as there are changes in transfer, which its body
encodes. -/
theorem queue_conserves_changes {events : List SynchEvent} {u : Upload}
    (hrun : Run.run synchStep Upload.init events = some u) :
    u.acked ++ u.transfer.intransfer ++ u.transfer.queue = u.pushed ∧
      u.transfer.outstanding.length ≤ 1 ∧
      (u.transfer.outstanding ≠ [] ↔ u.transfer.intransfer ≠ []) ∧
      ∀ r ∈ u.transfer.outstanding, r.body = transferencode u.transfer.intransfer := by
  have h := Run.run_invariant conserved_synchStep Upload.Conserved.init hrun
  refine ⟨h.pushed, ?_, ?_, ?_⟩
  · rw [h.outstanding]
    split_ifs <;> simp
  · rw [h.outstanding]
    split_ifs with hempty <;> simp [hempty]
  · intro r hr
    obtain ⟨i, hi⟩ := List.getElem?_of_mem hr
    obtain ⟨-, -, rfl⟩ := h.of_getElem? hi
    rfl

/-- A request that times out, and is sent again with the change pushed meanwhile. -/
theorem queue_conserves_changes_timeout :
    ∃ u, Run.run synchStep Upload.init [.push ⟨0, [], [97]⟩, .tick, .push ⟨1, [], [98]⟩,
        .complete 0 0, .tick] = some u ∧
      u.acked ++ u.transfer.intransfer ++ u.transfer.queue = u.pushed ∧
      u.transfer.outstanding.length ≤ 1 ∧
      (u.transfer.outstanding ≠ [] ↔ u.transfer.intransfer ≠ []) ∧
      ∀ r ∈ u.transfer.outstanding, r.body = transferencode u.transfer.intransfer :=
  ⟨_, rfl, @queue_conserves_changes [.push ⟨0, [], [97]⟩, .tick,
    .push ⟨1, [], [98]⟩, .complete 0 0, .tick] _ rfl⟩

/-! ## The page -/

/-- The page: the client, its requests outstanding, and what was pushed and acknowledged. -/
structure Page where
  client : State
  outstanding : List Request
  pushed : List Change
  acked : List Change

/-- The upload loop of a page. -/
def Page.upload (p : Page) : Upload where
  transfer := ⟨p.client.queue, p.client.intransfer, p.outstanding⟩
  pushed := p.pushed
  acked := p.acked

/-- What can happen to the page: an event of the editor, or one of its upload loop. -/
inductive PageEvent where
  | edit (event : Event)
  | tick
  | complete (i : ℕ) (status : ℕ)
  deriving DecidableEq, Repr

/-- The changes that an event of the editor pushes to `queue`. -/
def recorded (c : State) : Event → List Change
  | .oninput text _ =>
    match c.view with
    | .editor e => [diff e.last text]
    | _ => []
  | _ => []

/-- The page with the upload loop `u`. -/
def Page.withUpload (p : Page) (u : Upload) : Page where
  client := { p.client with queue := u.transfer.queue, intransfer := u.transfer.intransfer }
  outstanding := u.transfer.outstanding
  pushed := u.pushed
  acked := u.acked

/-- One event of the page. The answer 403 locks it. -/
def pageStep (p : Page) : PageEvent → Option Page
  | .edit event =>
    (step p.client event).map fun client =>
      { p with client := client, pushed := p.pushed ++ recorded p.client event }
  | .tick => (synchStep p.upload .tick).map p.withUpload
  | .complete i status =>
    (synchStep p.upload (.complete i status)).map fun u =>
      let p := p.withUpload u
      { p with client := if status = 403 then { p.client with view := .locked } else p.client }

/-- **The editor** only touches `queue`, and only appends the change it records. -/
theorem step_lists {c c' : State} {event : Event} (h : step c event = some c') :
    c'.queue = c.queue ++ recorded c event ∧ c'.intransfer = c.intransfer := by
  cases stepped_of_step h with
  | typed hview htyped =>
    obtain ⟨-, rfl⟩ | ⟨-, d, f, hfork, rfl⟩ := oninput_eq_some htyped
    · simp [record, recorded, hview]
    · obtain ⟨b, -, rfl, -, hlast⟩ := branchout_eq_some hfork
      simp [record, recorded, hview, hlast]
  | slid _ hslide =>
    obtain ⟨history, -, rfl⟩ := Option.map_eq_some_iff.mp hslide
    simp [recorded]
  | forked _ hfork =>
    obtain ⟨b, -, rfl, -⟩ := branchout_eq_some hfork
    simp [recorded]
  | left hquiet => cases event <;> simp [recorded, Event.quiet] at hquiet ⊢
  | entered henter =>
    obtain ⟨e, rfl⟩ := entereditorview_eq_some henter
    simp [recorded]
  | started henter =>
    obtain ⟨e, rfl⟩ := entereditorview_eq_some henter
    simp [recorded]

/-- The upload loop of a page follows what the editor pushes. -/
lemma run_synchStep_push (u : Upload) (changes : List Change) :
    Run.run synchStep u (changes.map .push) = some { u with
      transfer := { u.transfer with queue := u.transfer.queue ++ changes }
      pushed := u.pushed ++ changes } := by
  induction changes generalizing u with
  | nil => simp
  | cons change changes ih =>
    rw [List.map_cons, Run.run_cons_eq_some]
    refine ⟨_, rfl, ?_⟩
    simp [ih, List.append_assoc]

/-- **The page runs the upload loop**, pushing what the editor records. -/
theorem page_simulates :
    Run.Simulates pageStep synchStep fun p u => p.upload = u := by
  rintro p e p' _ rfl h
  cases e with
  | edit event =>
    obtain ⟨client, hclient, rfl⟩ := Option.map_eq_some_iff.mp h
    obtain ⟨hqueue, hintransfer⟩ := step_lists hclient
    refine ⟨(recorded p.client event).map .push, _, run_synchStep_push _ _, ?_⟩
    simp [Page.upload, hqueue, hintransfer]
  | tick =>
    rw [pageStep, Option.map_eq_some_iff] at h
    obtain ⟨u, hu, rfl⟩ := h
    exact ⟨[.tick], u, Run.run_cons_eq_some.mpr ⟨u, hu, rfl⟩, rfl⟩
  | complete i status =>
    obtain ⟨u, hu, rfl⟩ := Option.map_eq_some_iff.mp h
    refine ⟨[.complete i status], u, Run.run_cons_eq_some.mpr ⟨u, hu, rfl⟩, ?_⟩
    dsimp only
    split_ifs <;> rfl

/-- In every run of the page, the changes acknowledged, in transfer and queued are the changes
that the editor recorded. -/
theorem page_conserves_changes {rows : List (BranchArgs ℤ)} {events : List PageEvent} {p : Page}
    (hrun : Run.run pageStep ⟨load rows, [], [], []⟩ events = some p) :
    p.acked ++ p.client.intransfer ++ p.client.queue = p.pushed := by
  obtain ⟨ds, u, hu, rfl⟩ := Run.run_simulates page_simulates (a := Upload.init) rfl hrun
  exact (Run.run_invariant conserved_synchStep Upload.Conserved.init hu).pushed

end SleepyText.Client
