import SleepyText.Server.FeedTrace
import SleepyText.Server.Routing

set_option relaxedAutoImplicit false
set_option autoImplicit false

/-!
# The slices of a request

The server cuts ranges out of ranges with `bslice`, which compares the start with the length of the
range but not the end. The end is given in two places: for the comparison of an address with an
entry of the table, and for the id of a segment.

## Main definitions

* `Slice`, `Slice.Inside` — a call of `bslice`, and whether its result lies in its argument.
* `requestSlices` — the calls that the handling of a received buffer makes.
* `CutReached` — the upload handler meets a segment header whose id is cut short.
* `Contained` — the condition under which all of them stay inside.

## Main results

* `Slice.inside_iff` — what a slice needs to lie in its argument.
* `dispatch_slice`, `feedBody_slice` — the slices are those of the model.
* `feedSlices_inside_iff` — the slices of the upload handler.
* `request_slices_iff` — all slices lie in their arguments exactly when the condition holds.
* `feed_request_reads_beyond` — a request for which one does not.
-/

namespace SleepyText.Server

/-! ## Slices -/

/-- A call of `bslice`. -/
structure Slice where
  string : Bytes
  start : ℕ
  stop : ℕ
  deriving DecidableEq, Repr

/-- The result of the call. -/
def Slice.value (s : Slice) : Bytes := bslice s.string s.start s.stop

/-- **The slice lies in its argument**; in particular its length did not wrap below zero. -/
structure Slice.Inside (s : Slice) : Prop where
  start : s.string.asVoid ≤ s.value.asVoid
  stop : s.value.asVoid + s.value.len ≤ s.string.asVoid + s.string.len

/-- A slice up to the end of its argument. -/
lemma inside_of_stop_zero (string : Bytes) (start : ℕ) : Slice.Inside ⟨string, start, 0⟩ := by
  have hvalue : Slice.value ⟨string, start, 0⟩ =
      if start ≥ string.len then ⟨string.asVoid, 0⟩
      else ⟨string.asVoid + start, string.len - start⟩ := bslice_zero string start
  constructor <;> rw [hvalue] <;> split_ifs <;> dsimp only <;> omega

/-- **A slice with an end** lies in its argument when it starts behind it, or ends in it. -/
theorem Slice.inside_iff (string : Bytes) {start stop : ℕ} (hle : start ≤ stop) (hpos : 0 < stop) :
    Slice.Inside ⟨string, start, stop⟩ ↔ string.len ≤ start ∨ stop ≤ string.len := by
  have hvalue : Slice.value ⟨string, start, stop⟩ =
      if start ≥ string.len then ⟨string.asVoid, 0⟩
      else ⟨string.asVoid + start, stop - start⟩ := by
    rw [value, bslice, sizeSub, if_pos hle, if_pos hpos]
  constructor
  · rintro ⟨-, hstop⟩
    rw [hvalue] at hstop
    split_ifs at hstop with hshort
    · exact .inl hshort
    · dsimp only at hstop
      exact .inr (by omega)
  · intro h
    constructor <;> rw [hvalue] <;> split_ifs <;> dsimp only <;> omega

/-! ## The calls -/

/-- The slice of `http_extract_param`. -/
def extractParamSlices (m : Memory) (header : Bytes) (field : List UInt8) : List Slice :=
  [⟨(bfind m header field).after, 2, 0⟩]

/-- The slices of `http_server_callback_dispatch`: one for each entry that is tried. -/
def dispatchSlices {α : Type*} (m : Memory) (request : HttpRequest) :
    List (α × List UInt8) → List Slice
  | [] => []
  | (_, addr) :: callbacks =>
    if m.read request.addr = addr then []
    else if addr.length ≤ 1 then dispatchSlices m request callbacks
    else
      ⟨request.addr, 0, addr.length⟩ ::
        if m.read (bslice request.addr 0 addr.length) = addr then []
        else dispatchSlices m request callbacks

/-- The slices of a turn of the loop of `http_callback_feed`. -/
def turnSlices (env : SystemCalls) (f : FeedState) : List Slice :=
  if f.p.len > 0 then
    if f.mem f.p.asVoid = 98 then
      ⟨f.p, 1, 5⟩ ::
        if (bslice f.p 1 5).len ≠ 4 then []
        else if env.opens (if f.file.isSome then f.write env else f).calls then [⟨f.p, 5, 0⟩]
        else []
    else if f.mem f.p.asVoid = 105 then
      match feedRecord f with
      | .inl _ => [⟨f.p, recordLen (f.mem.read f.p), 0⟩]
      | .inr _ => []
    else []
  else []

/-- The slices of `http_callback_feed`. -/
def feedSlices (env : SystemCalls) (mem : Memory) (payload : Bytes) (dir : Directory) :
    List Slice :=
  (feedTrace env mem payload dir).flatMap (turnSlices env)

/-- The slices of a handler; `getuserid` extracts a field of the header. -/
def Callback.slices (w : World) (m : Memory) (request : HttpRequest) (s : ServerState) :
    Callback → List Slice
  | .newbranch | .branches => extractParamSlices m request.header (ascii "Cookie")
  | .branch => [⟨request.addr, (ascii "/api/0/branch/").length, 0⟩]
  | .feed => feedSlices w.env m request.payload s.dir
  | .root | .user | .login => []

/-- The slices that the handling of a received buffer takes: those of the parser, which are none, of
the answer to a handshake, and for other requests of the dispatch and the handler. -/
def requestSlices (w : World) (m : Memory) (buffer : Bytes) (s : ServerState) : List Slice :=
  let request := httpParseRequest m buffer
  if request.addr.len > 0 then
    extractParamSlices m request.header (ascii "Sec-WebSocket-Version") ++
      if websocketVersion (m.read request.header) = 13 then
        extractParamSlices m request.header (ascii "Sec-WebSocket-Key")
      else
        dispatchSlices m request pairs ++
          match httpServerCallbackDispatch m request pairs with
          | none => []
          | some callback => callback.slices w m request s
  else []

/-! ## The calls are those of the model -/

lemma httpExtractParam_slice (m : Memory) (header : Bytes) (field : List UInt8) :
    ∃ t ∈ extractParamSlices m header field,
      httpExtractParam m header field = (bfind m t.value (ascii "\r\n")).before :=
  ⟨_, List.mem_singleton_self _, rfl⟩

lemma httpCallbackBranch_slice (w : World) (m : Memory) (request : HttpRequest)
    (s : ServerState) (dir : Directory) :
    ∃ t ∈ Callback.slices w m request s .branch, httpCallbackBranch m request.addr dir =
      (.ok, (dir (resolve (branchPath "branches/" (btoi (m.read t.value))))).map
        fun content => content.take (2 ^ 20)) :=
  ⟨_, List.mem_singleton_self _, rfl⟩

/-- **The dispatch** compares its slices, besides the address itself. -/
theorem dispatch_slice {α : Type*} {m : Memory} {request : HttpRequest}
    {table : List (α × List UInt8)} {callback : α}
    (h : httpServerCallbackDispatch m request table = some callback) :
    ∃ addr, (callback, addr) ∈ table ∧ (m.read request.addr = addr ∨
      ∃ t ∈ dispatchSlices m request table, m.read t.value = addr) := by
  induction table with
  | nil => exact absurd h (by simp [httpServerCallbackDispatch])
  | cons e table ih =>
    obtain ⟨callback', addr⟩ := e
    unfold httpServerCallbackDispatch at h
    unfold dispatchSlices
    split_ifs at h ⊢ with hsame hshort hslice
    · obtain rfl := Option.some.inj h
      exact ⟨addr, List.mem_cons_self, .inl hsame⟩
    · obtain ⟨addr', hmem, hchoice⟩ := ih h
      exact ⟨addr', List.mem_cons_of_mem _ hmem, hchoice⟩
    · obtain rfl := Option.some.inj h
      exact ⟨addr, List.mem_cons_self, .inr ⟨_, List.mem_cons_self, hslice⟩⟩
    · obtain ⟨addr', hmem, hchoice⟩ := ih h
      refine ⟨addr', List.mem_cons_of_mem _ hmem, hchoice.imp_right ?_⟩
      rintro ⟨t, ht, hread⟩
      exact ⟨t, List.mem_cons_of_mem _ ht, hread⟩

/-- **A turn of the upload handler** goes on with one of its slices. -/
theorem feedBody_slice {env : SystemCalls} {f g : FeedState} (h : feedBody env f = .inl g) :
    ∃ t ∈ turnSlices env f, g.p = t.value := by
  have hmoves := moves_of_feedBody h
  unfold feedBody at h
  unfold turnSlices
  split_ifs at h with hpos hsegment hrecord
  · rw [if_pos hpos, if_pos hsegment]
    unfold feedSegment at h
    have hp : (if f.file.isSome then f.write env else f).p = f.p := by split_ifs <;> rfl
    generalize (if f.file.isSome then f.write env else f) = w at h hp ⊢
    dsimp only at h
    split_ifs at h with hbid hopen
    obtain rfl := Sum.inl.inj h
    rw [hp] at hbid
    rw [if_neg hbid, if_pos hopen]
    refine ⟨⟨f.p, 5, 0⟩, List.mem_cons_of_mem _ (List.mem_singleton_self _), ?_⟩
    rw [Slice.value, ← hp]
  · rw [if_pos hpos, if_neg hsegment, if_pos hrecord, h]
    cases hmoves with
    | segment hopcode => exact absurd hopcode hsegment
    | record _ _ _ _ hp => exact ⟨_, List.mem_singleton_self _, hp⟩

/-! ## The slices of an upload -/

/-- The upload handler meets a segment header with one, two or three bytes of an id, by the number
of system calls made and by whether a segment was started. -/
inductive CutReached (opens : ℕ → Bool) : ℕ → Bool → List UInt8 → Prop
  | here {calls : ℕ} {opened : Bool} {id : List UInt8} (hne : id ≠ []) (hcut : id.length < 4) :
      CutReached opens calls opened (98 :: id)
  | segment {calls : ℕ} {opened : Bool} {rest : List UInt8} (hne : rest ≠ [])
      (hopen : opens (calls + opened.toNat) = true)
      (h : CutReached opens (calls + opened.toNat + 1) true (rest.drop 4)) :
      CutReached opens calls opened (98 :: rest)
  | record {calls : ℕ} {rest : List UInt8} (hheader : 13 ≤ (105 :: rest).length)
      (hlen : recordLen (105 :: rest) ≤ (105 :: rest).length)
      (h : CutReached opens calls true
        ((swapped (105 :: rest)).drop (recordLen (105 :: rest)))) :
      CutReached opens calls true (105 :: rest)

/-- A turn starts on a segment header whose id is cut short. -/
def FeedState.Cut (f : FeedState) : Prop :=
  f.mem f.p.asVoid = 98 ∧ 1 < f.p.len ∧ f.p.len < 5

variable {env : SystemCalls} {stop : ℕ} {beyond : List UInt8}

/-- The slices of a turn lie in their arguments unless it starts on such a header. -/
lemma turnSlices_inside_iff (f : FeedState) :
    (∀ t ∈ turnSlices env f, t.Inside) ↔ ¬ f.Cut := by
  unfold turnSlices FeedState.Cut
  by_cases hpos : f.p.len > 0
  · rw [if_pos hpos]
    by_cases hsegment : f.mem f.p.asVoid = 98
    · have hid := Slice.inside_iff f.p (show 1 ≤ 5 by omega) (by omega)
      have hrest : ∀ t ∈ (if (bslice f.p 1 5).len ≠ 4 then ([] : List Slice)
          else if env.opens (if f.file.isSome then f.write env else f).calls then [⟨f.p, 5, 0⟩]
          else []), t.Inside := by
        generalize env.opens (if f.file.isSome then f.write env else f).calls = opened
        split_ifs
        · simp
        · simpa using inside_of_stop_zero f.p 5
        · simp
      rw [if_pos hsegment, List.forall_mem_cons, hid]
      constructor
      · rintro ⟨hinside, -⟩ ⟨-, hlong, hshort⟩
        omega
      · intro hcut
        refine ⟨?_, hrest⟩
        by_contra hinside
        exact hcut ⟨hsegment, by omega, by omega⟩
    · have hcut : ¬ (f.mem f.p.asVoid = 98 ∧ 1 < f.p.len ∧ f.p.len < 5) :=
        fun h => hsegment h.1
      rw [if_neg hsegment]
      refine iff_of_true ?_ hcut
      split_ifs
      · cases feedRecord f with
        | inl g => simpa using inside_of_stop_zero f.p _
        | inr r => simp
      · simp
  · have hcut : ¬ (f.mem f.p.asVoid = 98 ∧ 1 < f.p.len ∧ f.p.len < 5) := by omega
    rw [if_neg hpos]
    exact iff_of_true (by simp) hcut

/-- A turn that starts on such a header meets it. -/
lemma FeedState.Cut.reached {f : FeedState} {s : Scan} (h : Refines stop beyond f s)
    (hcut : f.Cut) : CutReached env.opens s.calls s.file.isSome s.rest := by
  obtain ⟨hopcode, hlong, hshort⟩ := hcut
  obtain ⟨n, hn⟩ : ∃ n, f.p.len = n + 2 := ⟨f.p.len - 2, by omega⟩
  rw [h.cons hn, hopcode]
  refine .here ?_ ?_
  · rw [Memory.read_succ]
    exact List.cons_ne_nil _ _
  · rw [Memory.length_read]
    dsimp only
    omega

/-- What the turns of the handler start on is met. -/
lemma cutReached_of_trace {fuel : ℕ} {f : FeedState} {s : Scan} (h : Refines stop beyond f s)
    {g : FeedState} (hg : g ∈ Loop.trace (feedBody env) fuel f) (hcut : g.Cut) :
    CutReached env.opens s.calls s.file.isSome s.rest := by
  induction fuel generalizing f s with
  | zero => exact absurd hg List.not_mem_nil
  | succ fuel ih =>
    unfold Loop.trace at hg
    rcases List.mem_cons.mp hg with rfl | hg
    · exact hcut.reached h
    · have hturn := scanBody_turn env beyond s
      have hbody := @Refines.body stop beyond f s env h
      generalize scanBody env beyond s = y at hturn hbody
      generalize feedBody env f = x at hg hbody
      cases hbody with
      | inr => exact absurd hg List.not_mem_nil
      | inl hnext =>
        have hreached := ih hnext hg
        cases hturn with
        | segment hrest hne hopen =>
          rw [calls_committed] at hopen hreached
          rw [hrest]
          exact .segment hne hopen hreached
        | record hrest hfile hheader hlen =>
          dsimp only at hreached
          rw [hfile] at hreached ⊢
          rw [hrest] at hheader hlen hreached ⊢
          exact .record hheader hlen hreached

/-- A header that a later turn starts on is in the trace of the earlier one. -/
lemma exists_cut_of_turn {fuel : ℕ} {f g : FeedState} (hturn : feedBody env f = .inl g)
    (hfuel : (Loop.loop (feedBody env) (fuel + 1) f).isSome)
    (hlater : (Loop.loop (feedBody env) fuel g).isSome →
      ∃ g' ∈ Loop.trace (feedBody env) fuel g, g'.Cut) :
    ∃ g' ∈ Loop.trace (feedBody env) (fuel + 1) f, g'.Cut := by
  obtain ⟨hloop, htrace⟩ := @Loop.loop_turn _ _ _ fuel _ _ hturn
  rw [hloop] at hfuel
  obtain ⟨g', hg', hcut⟩ := hlater hfuel
  rw [htrace]
  exact ⟨g', List.mem_cons_of_mem _ hg', hcut⟩

/-- What is met, a turn of the handler starts on, if it takes all its turns. -/
lemma exists_cut_of_reached {calls : ℕ} {opened : Bool} {rest : List UInt8}
    (hreached : CutReached env.opens calls opened rest) {fuel : ℕ} {f : FeedState} {s : Scan}
    (h : Refines stop beyond f s) (hcalls : s.calls = calls) (hopened : s.file.isSome = opened)
    (hrest : s.rest = rest) (hfuel : (Loop.loop (feedBody env) fuel f).isSome) :
    ∃ g ∈ Loop.trace (feedBody env) fuel f, g.Cut := by
  induction hreached generalizing fuel f s with
  | @here calls opened id hne hcut =>
    cases fuel with
    | zero => exact absurd hfuel (by simp [Loop.loop])
    | succ fuel =>
      refine ⟨f, by rw [Loop.trace]; exact List.mem_cons_self, ?_⟩
      have hpos := List.length_pos_iff.mpr hne
      obtain ⟨hlen, hopcode, -⟩ := Memory.read_eq_cons (h.rest.trans hrest)
      exact ⟨hopcode, by omega, by omega⟩
  | @segment calls opened rest hne hopen _ ih =>
    cases fuel with
    | zero => exact absurd hfuel (by simp [Loop.loop])
    | succ fuel =>
      subst hcalls hopened
      rw [← calls_committed] at hopen ih
      obtain ⟨g, hturn, hnext⟩ := h.turn (scanBody_segment beyond hrest hne hopen)
      exact exists_cut_of_turn hturn hfuel (ih hnext rfl rfl rfl)
  | @record calls rest hheader hlen _ ih =>
    cases fuel with
    | zero => exact absurd hfuel (by simp [Loop.loop])
    | succ fuel =>
      rw [← hrest] at hheader hlen ih
      obtain ⟨g, hturn, hnext⟩ := h.turn (scanBody_record beyond hrest hopened hheader hlen)
      exact exists_cut_of_turn hturn hfuel (ih hnext hcalls hopened rfl)

/-- **The slices of the upload handler** lie in their arguments exactly when it meets no segment
header whose id is cut short. -/
theorem feedSlices_inside_iff (env : SystemCalls) (mem : Memory) (payload : Bytes)
    (dir : Directory) :
    (∀ t ∈ feedSlices env mem payload dir, t.Inside) ↔
      ¬ CutReached env.opens 0 false (mem.read payload) := by
  have hstart : Refines (payload.asVoid + payload.len)
      (mem.read ⟨payload.asVoid + payload.len, 3⟩) (feedStart mem payload dir)
      (Scan.start (mem.read payload) dir) := refines_start mem payload dir
  have hcut : (∀ t ∈ feedSlices env mem payload dir, t.Inside) ↔
      ∀ f ∈ feedTrace env mem payload dir, ¬ f.Cut := by
    simp only [feedSlices, List.forall_mem_flatMap, turnSlices_inside_iff]
  rw [hcut]
  constructor
  · intro hall hreached
    obtain ⟨status, f, hfeed, -⟩ := httpCallbackFeed_spec env mem payload dir
    have hfuel : (Loop.loop (feedBody env) (2 * payload.len + 2)
        (feedStart mem payload dir)).isSome := Option.isSome_of_eq_some hfeed
    obtain ⟨g, hg, hg'⟩ := exists_cut_of_reached hreached hstart rfl rfl rfl hfuel
    exact hall g hg hg'
  · intro hreached f hf hf'
    exact hreached (cutReached_of_trace hstart hf hf')

/-! ## The slices of a request -/

/-- **Where all slices stay inside**: the request has no address, or is a handshake; or its address
is `/` or as long as the longest entry of the table, and if it begins with the entry of uploads, the
payload has no segment header whose id is cut short. -/
def Contained (w : World) (m : Memory) (buffer : Bytes) : Prop :=
  let request := httpParseRequest m buffer
  request.addr.len = 0 ∨ websocketVersion (m.read request.header) = 13 ∨
    (m.read request.addr = ascii "/" ∨ 16 ≤ request.addr.len) ∧
      (ascii "/api/0/feed" <+: m.read request.addr →
        ¬ CutReached w.env.opens 0 false (m.read request.payload))

variable {m : Memory}

lemma extractParamSlices_inside (m : Memory) (header : Bytes) (field : List UInt8) :
    ∀ t ∈ extractParamSlices m header field, t.Inside := by
  simpa [extractParamSlices] using inside_of_stop_zero _ 2

/-- The slices of the dispatch lie in the address, when no entry is longer. -/
lemma dispatchSlices_inside {α : Type*} {request : HttpRequest} {table : List (α × List UInt8)}
    (h : ∀ e ∈ table, e.2.length ≤ request.addr.len) :
    ∀ t ∈ dispatchSlices m request table, t.Inside := by
  induction table with
  | nil => exact fun t ht => absurd ht List.not_mem_nil
  | cons e table ih =>
    obtain ⟨callback, addr⟩ := e
    rw [List.forall_mem_cons] at h
    dsimp only at h
    have hentry (hlong : ¬ addr.length ≤ 1) : Slice.Inside ⟨request.addr, 0, addr.length⟩ :=
      (Slice.inside_iff request.addr (Nat.zero_le _) (by omega)).mpr (.inr h.1)
    unfold dispatchSlices
    split_ifs with hsame hshort hslice
    · simp
    · exact ih h.2
    · simpa using hentry hshort
    · exact List.forall_mem_cons.mpr ⟨hentry hshort, ih h.2⟩

/-- The slices of the dispatch in the table of `main`: an address other than `/` is compared with
the entry of 16 bytes first. -/
lemma dispatchSlices_pairs_inside_iff {request : HttpRequest} (hpos : 0 < request.addr.len) :
    (∀ t ∈ dispatchSlices m request pairs, t.Inside) ↔
      m.read request.addr = ascii "/" ∨ 16 ≤ request.addr.len := by
  by_cases hroot : m.read request.addr = ascii "/"
  · have hnil : dispatchSlices m request pairs = [] := by rw [pairs, dispatchSlices, if_pos hroot]
    rw [hnil]
    exact iff_of_true (by simp) (.inl hroot)
  by_cases hlong : 16 ≤ request.addr.len
  · refine iff_of_true (dispatchSlices_inside ?_) (.inr hlong)
    have hmax : ∀ e ∈ pairs, e.2.length ≤ 16 := by decide
    exact fun e he => (hmax e he).trans hlong
  · refine iff_of_false (fun hall => ?_) (by tauto)
    have hother : m.read request.addr ≠ ascii "/api/0/newbranch" := by
      intro heq
      have hlen := congrArg List.length heq
      rw [Memory.length_read] at hlen
      exact hlong (by rw [hlen]; decide)
    have hfirst : Slice.Inside ⟨request.addr, 0, 16⟩ := by
      apply hall
      rw [pairs, dispatchSlices, if_neg hroot, if_pos (by decide), dispatchSlices, if_neg hother,
        if_neg (by decide)]
      exact List.mem_cons_self
    rw [Slice.inside_iff request.addr (Nat.zero_le _) (by omega)] at hfirst
    omega

/-- The slices of a handler. -/
lemma slices_inside_iff (w : World) (request : HttpRequest) (s : ServerState)
    (callback : Callback) :
    (∀ t ∈ callback.slices w m request s, t.Inside) ↔
      (callback = .feed → ¬ CutReached w.env.opens 0 false (m.read request.payload)) := by
  cases callback with
  | feed =>
    have hfeed := feedSlices_inside_iff w.env m request.payload s.dir
    exact hfeed.trans ⟨fun h _ => h, fun h => h rfl⟩
  | newbranch | branches =>
    exact iff_of_true (extractParamSlices_inside m request.header _) (by simp)
  | branch =>
    exact iff_of_true (by simpa [Callback.slices] using inside_of_stop_zero request.addr _)
      (by simp)
  | root | user | login => exact iff_of_true (by simp [Callback.slices]) (by simp)

/-- **The slices of a request lie in their arguments** exactly when it is no request that is
compared with a longer entry of the table, and no upload with an id that is cut short.

**Proof sketch.** A slice up to the end of its argument lies in it (`inside_of_stop_zero`). The
others are those of the dispatch (`dispatchSlices_pairs_inside_iff`) and of the ids of an upload
(`feedSlices_inside_iff`). -/
theorem request_slices_iff (w : World) (m : Memory) (buffer : Bytes) (s : ServerState) :
    (∀ t ∈ requestSlices w m buffer s, t.Inside) ↔ Contained w m buffer := by
  unfold requestSlices Contained
  have hupload := @dispatch_eq_feed_iff m buffer
  generalize httpParseRequest m buffer = request at hupload ⊢
  by_cases hpos : request.addr.len > 0
  · rw [if_pos hpos, List.forall_mem_append]
    by_cases hversion : websocketVersion (m.read request.header) = 13
    · rw [if_pos hversion]
      exact iff_of_true ⟨extractParamSlices_inside m _ _, extractParamSlices_inside m _ _⟩
        (.inr (.inl hversion))
    · rw [if_neg hversion, List.forall_mem_append, dispatchSlices_pairs_inside_iff hpos]
      have hcallback : (∀ t ∈ (match httpServerCallbackDispatch m request pairs with
          | none => []
          | some callback => callback.slices w m request s), t.Inside) ↔
          (ascii "/api/0/feed" <+: m.read request.addr →
            ¬ CutReached w.env.opens 0 false (m.read request.payload)) := by
        rw [← hupload hpos]
        cases httpServerCallbackDispatch m request pairs with
        | none => simp
        | some callback => simpa using slices_inside_iff w request s callback
      rw [hcallback]
      constructor
      · rintro ⟨-, hdispatch, hfeed⟩
        exact .inr (.inr ⟨hdispatch, hfeed⟩)
      · rintro (hzero | hhandshake | hinside)
        · omega
        · exact absurd hhandshake hversion
        · exact ⟨extractParamSlices_inside m _ _, hinside⟩
  · rw [if_neg hpos]
    exact iff_of_true (by simp) (.inl (by omega))

/-- The address of an upload is compared with an entry of 16 bytes, and the id of two bytes at the
end of the payload is read as one of four. -/
theorem feed_request_reads_beyond :
    (⟨⟨4, 11⟩, 0, 16⟩ ∈ requestSlices goodAnswers
        (fun x => (ascii "GET /api/0/feed HTTP/1.1\r\n\r\n").getD x 0) ⟨0, 28⟩
        ⟨⟨[], []⟩, fun _ => none⟩ ∧ ¬ Slice.Inside ⟨⟨4, 11⟩, 0, 16⟩) ∧
      ⟨⟨33, 3⟩, 1, 5⟩ ∈ requestSlices goodAnswers
        (fun x => (ascii "GET /api/0/feed?1234 HTTP/1.1\r\n\r\nb12").getD x 0) ⟨0, 36⟩
        ⟨⟨[], []⟩, fun _ => none⟩ ∧ ¬ Slice.Inside ⟨⟨33, 3⟩, 1, 5⟩ := by
  refine ⟨⟨by decide +kernel, ?_⟩, by decide +kernel, ?_⟩
  · rw [Slice.inside_iff _ (by decide) (by decide)]
    decide
  · rw [Slice.inside_iff _ (by decide) (by decide)]
    decide

end SleepyText.Server
