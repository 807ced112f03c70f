import SleepyText.Lib.Run
import SleepyText.Server.Epoll
import SleepyText.Server.Service

set_option relaxedAutoImplicit false
set_option autoImplicit false

/-!
# The server does what the service does

The service has no memory: of each connection it has the bytes that have arrived since the last
answer. The server has them in buffers that `balloc` has returned.

## Main definitions

* `Service`, `serviceStep` — what the server is for.
* `Process.service` — what the service has, for a server.
* `TakenFrom` — an allocator that keeps the promise of `balloc`.

## Main results

* `serverStep_service` — an event of the server is one of the service.
* `server_refines` — however the events of the connections are interleaved, the server does what
  the service does.
* `buffers_inside` — the buffers of the connections stay in their blocks, and apart.
-/

namespace SleepyText.Server

open Footprint

/-! ## The service -/

/-- What the server is for: the bytes that each connection has sent since its last answer, the
tables and the files, and the answered requests. -/
structure Service where
  held : ℕ → Option (List UInt8)
  state : ServerState
  log : List (ℕ × Exchange)

/-- What can happen to the service. The bytes `beyond` and `tail` stand behind the payload and
behind the key of a handshake. -/
inductive ServiceEvent where
  | accept (socket : ℕ)
  | receive (socket : ℕ) (chunk : List UInt8) (w : World) (beyond tail : List UInt8)
  | close (socket : ℕ)

/-- The connection that an event is about. -/
def ServiceEvent.socket : ServiceEvent → ℕ
  | .accept socket | .receive socket _ _ _ _ | .close socket => socket

/-- The exchange of a request and its answer. -/
def Reply.exchange (a : Reply) (r : Parsed) (w : World) (beyond : List UInt8) : Exchange :=
  ⟨r, w, beyond, a.status, a.header, a.body, toInt a.payloadLen⟩

/-- One event of the service. A connection holds 4096 bytes at most. -/
def serviceStep (accept : List UInt8 → List UInt8) (s : Service) :
    ServiceEvent → Option Service
  | .accept socket =>
    if (s.held socket).isNone then
      some { s with held := Function.update s.held socket (some []) }
    else none
  | .receive socket chunk w beyond tail =>
    (s.held socket).bind fun p =>
      let r := parseRequest (p ++ chunk)
      if 4096 < (p ++ chunk).length then none
      else if chunk = [] ∨ r.addr = [] then
        some { s with held := Function.update s.held socket (some (p ++ chunk)) }
      else
        (reply accept w beyond tail r s.state).map fun (a, state) =>
          { held := Function.update s.held socket (some [])
            state := state
            log := s.log ++ [(socket, a.exchange r w beyond)] }
  | .close socket =>
    if (s.held socket).isSome then some { s with held := Function.update s.held socket none }
    else none

/-- The service before anything happens. -/
def Service.init (state : ServerState) : Service := ⟨fun _ => none, state, []⟩

/-- What an event of the server is to the service. -/
inductive Matches : ServerEvent → ServiceEvent → Prop
  | accept (socket : ℕ) : Matches (.accept socket) (.accept socket)
  | receive {socket : ℕ} {call : Call} {chunk : List UInt8} (beyond tail : List UInt8)
      (hrecv : 0 < call.recv) (hplain : plaintext call.answers = some chunk) :
      Matches (.ondata socket call) (.receive socket chunk call.world beyond tail)
  | drop {socket : ℕ} {call : Call} (hclosed : call.recv ≤ 0 ∨ plaintext call.answers = none) :
      Matches (.ondata socket call) (.close socket)
  | onclose (socket : ℕ) : Matches (.onclose socket) (.close socket)

/-! ## The refinement -/

/-- What the service has, for a server. -/
def Process.service (s : Process) : Service where
  held := fun i => (s.connections i).map fun c => s.mem.read c.buffer
  state := s.state
  log := s.log

section Refinement

variable {accept : List UInt8 → List UInt8} {s t : Process} {i : ℕ} {call : Call}
  {c d : HttpTlsConnection} {m : Memory} {chunk : List UInt8}

/-- A change that is apart from the blocks of the other connections is one to what the service has
of this connection. -/
lemma held_update {S : Set ℕ} (h : s.Sound)
    (ht : t.connections = Function.update s.connections i (some c))
    (hchanged : ChangedIn S s.mem t.mem)
    (hS : ∀ j d, s.connections j = some d → i ≠ j → Disjoint d.block S) :
    t.service.held = Function.update s.service.held i (some (t.mem.read c.buffer)) := by
  funext j
  unfold Process.service
  dsimp only
  rw [ht]
  by_cases hij : i = j
  · subst hij
    rw [Function.update_self, Function.update_self]
    rfl
  · rw [Function.update_of_ne (Ne.symm hij), Function.update_of_ne (Ne.symm hij)]
    apply Option.map_congr
    intro d hd
    exact read_of_changedIn hchanged ((hS j d hd hij).mono_left (h.inside j d hd))

/-- A connection that is closed. -/
lemma held_onclose (s : Process) (i : ℕ) :
    (s.onclose i).service = { s.service with held := Function.update s.service.held i none } := by
  unfold Process.service Process.onclose
  congr 1
  funext j
  by_cases hij : j = i
  · subst hij
    simp
  · simp [Function.update_of_ne hij]

/-- **Looking at the buffer**: the server answers what the service answers. -/
lemma crunch_service (h : s.Sound) (hc : s.connections i = some c)
    (hallocates : s.Allocates i call)
    (hreceive : c.receive call.toOndata s.mem = some (some (d, m, chunk.length)))
    (hd : Received call.toOndata c d s.mem m chunk)
    (hcrunch : s.crunch accept i call d m chunk.length = some t) :
    t.Sound ∧ ∃ beyond tail,
      serviceStep accept s.service (.receive i chunk call.world beyond tail) = some t.service := by
  have hapart := fun {j e} => @apart_receive s h i call c d m chunk hc hallocates hd j e
  obtain ⟨hlen, -⟩ := buffer_len_le hd.inside
  have hheld : s.service.held i = some (s.mem.read c.buffer) := by
    unfold Process.service
    dsimp only
    rw [hc]
    rfl
  have hread := hd.read
  have hshort : ¬ 4096 < (s.mem.read c.buffer ++ chunk).length := by
    rw [← hread, Memory.length_read]
    omega
  obtain ⟨hblock, hresponse, hdisjoint⟩ := hallocates.response c d m _ hc hreceive
  have hparsed : (httpParseRequest m d.buffer).read m =
      parseRequest (s.mem.read c.buffer ++ chunk) := by
    rw [read_httpParseRequest, hread]
  -- the buffer is kept when nothing has arrived, or there is no request in it
  have hkept : chunk = [] ∨ (parseRequest (s.mem.read c.buffer ++ chunk)).addr = [] →
      t = { s with mem := m, connections := Function.update s.connections i (some d) } →
      t.Sound ∧ ∃ beyond tail,
        serviceStep accept s.service (.receive i chunk call.world beyond tail) =
          some t.service := by
    rintro hnone rfl
    refine ⟨sound_update h rfl hd.inside fun j e he hij => hapart he hij, [], [], ?_⟩
    have hupdate := held_update (t := { s with
      mem := m, connections := Function.update s.connections i (some d) }) h rfl hd.changed
      fun j e he hij => (hapart he hij).symm
    rw [serviceStep, hheld]
    dsimp only [Option.bind_some]
    rw [if_neg hshort, if_pos hnone, ← hread]
    exact congrArg (fun held => some (Service.mk held s.state s.log)) hupdate.symm
  unfold Process.crunch at hcrunch
  dsimp only at hcrunch
  split_ifs at hcrunch with hpos haddr
  · -- a request
    obtain ⟨⟨m', raw, state⟩, hrespond, ht⟩ := Option.map_eq_some_iff.mp hcrunch
    dsimp only at ht
    obtain ⟨⟨tail, a, hreply, hstatus, hpayloadLen, hwritten⟩, hchanged⟩ :=
      answer_spec call.world haddr hdisjoint hrespond
    set beyond := m.read ⟨(httpParseRequest m d.buffer).payload.asVoid +
      (httpParseRequest m d.buffer).payload.len, 3⟩ with hbeyond
    have hne : ¬ (chunk = [] ∨ (parseRequest (s.mem.read c.buffer ++ chunk)).addr = []) := by
      rintro (rfl | hnil)
      · exact absurd hpos (by simp)
      · rw [← hparsed] at hnil
        have hzero := congrArg List.length hnil
        simp only [HttpRequest.read, Memory.length_read, List.length_nil] at hzero
        omega
    have hconnections : t.connections = Function.update s.connections i (some .fresh) := by
      rw [← ht]
    have hmem : t.mem = (httpAssembleResponse 128 call.response m' raw).1 := by rw [← ht]
    have hstate : t.state = state := by rw [← ht]
    have hlog : t.log = s.log ++ [(i, a.exchange
        (parseRequest (s.mem.read c.buffer ++ chunk)) call.world beyond)] := by
      obtain ⟨hheader, hbody⟩ := Prod.mk.inj hwritten
      rw [← ht]
      dsimp only
      rw [hparsed, hstatus, hheader, hbody, hpayloadLen]
      rfl
    rw [← hmem] at hchanged
    have hupdate := held_update h hconnections
      ((hd.changed.mono Set.subset_union_left).trans
        (hchanged.mono (Set.union_subset_union_left _ hd.inside)))
      fun j e he hij => Set.disjoint_union_right.mpr ⟨(hapart he hij).symm,
        Set.disjoint_union_right.mpr ⟨(hblock j e he).symm, (hresponse j e he).symm⟩⟩
    refine ⟨sound_fresh h hconnections, beyond, tail, ?_⟩
    rw [serviceStep, hheld]
    dsimp only [Option.bind_some]
    rw [if_neg hshort, if_neg hne, ← hread]
    change (reply accept call.world beyond tail _ s.state).map _ = _
    rw [hreply, Option.map_some, hread]
    change some (Service.mk _ state (s.log ++ _)) = some (Service.mk t.service.held t.state t.log)
    rw [hupdate, hstate, hlog]
    rfl
  · refine hkept (.inr ?_) (Option.some.inj hcrunch).symm
    rw [← hparsed]
    exact List.eq_nil_of_length_eq_zero (by simpa [HttpRequest.read] using haddr)
  · refine hkept (.inl ?_) (Option.some.inj hcrunch).symm
    exact List.eq_nil_of_length_eq_zero (by omega)

/-- What the service holds of a connection. -/
lemma held_eq_none_iff (s : Process) (i : ℕ) :
    s.service.held i = none ↔ s.connections i = none := Option.map_eq_none_iff

/-- **One event**: the buffers stay apart, and the service takes a matching step. -/
theorem serverStep_service (h : s.Sound) {e : ServerEvent} (hallocated : s.Allocated e)
    (hstep : serverStep accept s e = some t) :
    t.Sound ∧ ∃ d, Matches e d ∧ serviceStep accept s.service d = some t.service := by
  have hclose : ∀ j, s.connections j ≠ none →
      serviceStep accept s.service (.close j) = some (s.onclose j).service := by
    intro j hj
    rw [serviceStep, if_pos, held_onclose]
    rw [Option.isSome_iff_ne_none]
    exact fun hnone => hj ((held_eq_none_iff s j).mp hnone)
  cases e with
  | accept j =>
    rw [serverStep] at hstep
    split_ifs at hstep with hnone
    have ht := (Option.some.inj hstep).symm
    have hconnections : t.connections = Function.update s.connections j (some .fresh) := by rw [ht]
    have hchanged : ChangedIn ∅ s.mem t.mem := by
      rw [ht]
      exact .refl _ _
    have hupdate := held_update h hconnections hchanged fun _ _ _ _ => Set.disjoint_empty _
    refine ⟨sound_fresh h hconnections, .accept j, .accept j, ?_⟩
    rw [serviceStep, if_pos (by simpa [held_eq_none_iff] using hnone), ht]
    rw [ht] at hupdate
    exact congrArg (fun held => some (Service.mk held s.state s.log)) hupdate.symm
  | onclose j =>
    rw [serverStep] at hstep
    split_ifs at hstep with hsome
    obtain rfl := Option.some.inj hstep
    exact ⟨sound_onclose h j, .close j, .onclose j, hclose j (Option.isSome_iff_ne_none.mp hsome)⟩
  | ondata j call =>
    obtain ⟨c, hc, hrest⟩ := Option.bind_eq_some_iff.mp hstep
    obtain ⟨received, hreceive, hrest⟩ := Option.bind_eq_some_iff.mp hrest
    have hspec := receive_spec hreceive (h.inside j c hc) fun hzero =>
      (hallocated.buffer c hc hzero).1
    rcases received with - | ⟨d, m, len⟩
    · obtain rfl := Option.some.inj hrest
      exact ⟨sound_onclose h j, .close j, .drop hspec, hclose j (by rw [hc]; simp)⟩
    · obtain ⟨chunk, rfl, hd⟩ := hspec
      obtain ⟨hsound, beyond, tail, hservice⟩ :=
        crunch_service h hc hallocated hreceive hd hrest
      exact ⟨hsound, _, .receive beyond tail hd.recv hd.plain, hservice⟩

end Refinement

/-! ## All runs -/

section Runs

variable {accept : List UInt8 → List UInt8} {m : Memory} {state : ServerState}
  {es : List ServerEvent} {s : Process}

/-- The blocks of the connections are below an address. -/
def Process.Below (s : Process) (n : ℕ) : Prop :=
  ∀ i c, s.connections i = some c → c.buffer.asVoid = 0 ∨ c.buffer.asVoid + 4096 ≤ n

/-- The blocks of an event are taken from an address on. -/
def ServerEvent.TakenFrom (n : ℕ) : ServerEvent → Prop
  | .ondata _ call => n ≤ call.block ∧ call.block + 4096 ≤ call.world.block ∧
      call.world.block + 2 ^ 20 ≤ call.response
  | .accept _ | .onclose _ => True

/-- The address behind the blocks of an event. -/
def ServerEvent.next (n : ℕ) : ServerEvent → ℕ
  | .ondata _ call => call.response + 4096
  | .accept _ | .onclose _ => n

/-- Each event takes its blocks behind those of the events before it. -/
def TakenFrom : ℕ → List ServerEvent → Prop
  | _, [] => True
  | n, e :: es => e.TakenFrom n ∧ TakenFrom (e.next n) es

/-- The block of a response body is at most `2 ^ 20` bytes long. -/
lemma responseBlock_len_le (w : World) (m : Memory) (request : HttpRequest) :
    (responseBlock w m request).len ≤ 2 ^ 20 := by
  unfold responseBlock
  dsimp only
  split_ifs with hversion
  · omega
  · cases httpServerCallbackDispatch m request pairs with
    | none => exact Nat.zero_le _
    | some callback =>
      rw [Option.map_some, Option.getD_some]
      cases callback <;> simp [Callback.allocates]

/-- Blocks that nobody has. -/
lemma apart_of_below {n : ℕ} (h : s.Below n) {b : Bytes} (hb : n ≤ b.asVoid) : s.Apart b := by
  intro i c hc
  unfold HttpTlsConnection.block
  split_ifs with hzero
  · exact Set.disjoint_empty _
  · unfold Bytes.addresses
    rw [Set.Ico_disjoint_Ico]
    have hbelow := h i c hc
    dsimp only
    omega

/-- A connection that changes has its block below the address, too. -/
lemma below_update {n k : ℕ} (h : s.Below n) (hk : n ≤ k) {i : ℕ} {c : HttpTlsConnection}
    {t : Process} (ht : t.connections = Function.update s.connections i (some c))
    (hc : c.buffer.asVoid = 0 ∨ c.buffer.asVoid + 4096 ≤ k) : t.Below k := by
  intro j d hd
  rw [ht] at hd
  by_cases hij : j = i
  · subst hij
    rw [Function.update_self] at hd
    obtain rfl := Option.some.inj hd
    exact hc
  · rw [Function.update_of_ne hij] at hd
    have hbelow := h j d hd
    omega

/-- The connections after a call. -/
lemma connections_crunch {i : ℕ} {call : Call} {d : HttpTlsConnection} {len : ℕ} {t : Process}
    (h : s.crunch accept i call d m len = some t) :
    ∃ c, (c = d ∨ c = .fresh) ∧ t.connections = Function.update s.connections i (some c) := by
  unfold Process.crunch at h
  dsimp only at h
  split_ifs at h
  · obtain ⟨_, -, rfl⟩ := Option.map_eq_some_iff.mp h
    exact ⟨.fresh, .inr rfl, rfl⟩
  · obtain rfl := Option.some.inj h
    exact ⟨d, .inl rfl, rfl⟩
  · obtain rfl := Option.some.inj h
    exact ⟨d, .inl rfl, rfl⟩

/-- Blocks that are taken behind all others are apart from them. -/
lemma allocated_of_event {n : ℕ} (hn : 0 < n) (hbelow : s.Below n) {e : ServerEvent}
    (he : e.TakenFrom n) : s.Allocated e := by
  cases e with
  | accept | onclose => trivial
  | ondata i call =>
    obtain ⟨hblock, hworld, hresponse⟩ := he
    refine ⟨fun c _ _ => ⟨by omega, apart_of_below hbelow hblock⟩, ?_⟩
    intro c d m len _ _
    have hlen := responseBlock_len_le call.world m (httpParseRequest m d.buffer)
    have hstart : (responseBlock call.world m (httpParseRequest m d.buffer)).asVoid =
        call.world.block := rfl
    refine ⟨apart_of_below hbelow (by omega), apart_of_below hbelow ?_, ?_⟩
    · dsimp only
      omega
    · unfold Bytes.addresses
      rw [Set.Ico_disjoint_Ico]
      dsimp only
      omega

/-- Blocks are taken upwards. -/
lemma le_next {n : ℕ} {e : ServerEvent} (he : e.TakenFrom n) : n ≤ e.next n := by
  cases e with
  | accept | onclose => exact le_rfl
  | ondata i call =>
    obtain ⟨hblock, hworld, hresponse⟩ := he
    change n ≤ call.response + 4096
    omega

/-- After an event, the blocks are below the address behind its blocks. -/
lemma below_step {n : ℕ} (hs : s.Sound) (hbelow : s.Below n) {e : ServerEvent} {t : Process}
    (he : e.TakenFrom n) (hallocated : s.Allocated e) (ht : serverStep accept s e = some t) :
    t.Below (e.next n) := by
  have hle := le_next he
  have hclose : ∀ i, (s.onclose i).Below (e.next n) := by
    intro i j c hc
    have hj := hbelow j c (of_onclose hc)
    omega
  cases e with
  | accept i =>
    rw [serverStep] at ht
    split_ifs at ht
    obtain rfl := Option.some.inj ht
    exact below_update hbelow hle rfl (.inl rfl)
  | onclose i =>
    rw [serverStep] at ht
    split_ifs at ht
    obtain rfl := Option.some.inj ht
    exact hclose i
  | ondata i call =>
    obtain ⟨c, hc, hrest⟩ := Option.bind_eq_some_iff.mp ht
    obtain ⟨received, hreceive, hrest⟩ := Option.bind_eq_some_iff.mp hrest
    have hspec := receive_spec hreceive (hs.inside i c hc) fun hzero =>
      (hallocated.buffer c hc hzero).1
    rcases received with - | ⟨d, m, len⟩
    · obtain rfl := Option.some.inj hrest
      exact hclose i
    · obtain ⟨chunk, rfl, hd⟩ := hspec
      obtain ⟨d', hd', hconnections⟩ := connections_crunch hrest
      refine below_update hbelow hle hconnections ?_
      rcases hd' with rfl | rfl
      · have hbuffer := hd.buffer
        have hj := hbelow i c hc
        obtain ⟨hblock, hworld, hresponse⟩ := he
        change _ ∨ _ ≤ call.response + 4096
        split_ifs at hbuffer <;> omega
      · exact .inl rfl

/-- **An allocator** that never hands out an address twice keeps the promise of `balloc`. -/
theorem allocated_of_takenFrom {n : ℕ} (hn : 0 < n) (hs : s.Sound) (hbelow : s.Below n)
    (hes : TakenFrom n es) : Run.Guarded (serverStep accept) Process.Allocated s es := by
  induction es generalizing s n with
  | nil => trivial
  | cons e es ih =>
    have hallocated := allocated_of_event hn hbelow hes.1
    refine ⟨hallocated, fun t ht => ?_⟩
    exact ih (hn.trans_le (le_next hes.1)) (serverStep_service hs hallocated ht).1
      (below_step hs hbelow hes.1 hallocated ht) hes.2

/-- From the start on. -/
lemma allocated_init (m : Memory) (state : ServerState) (hes : TakenFrom 1 es) :
    Run.Guarded (serverStep accept) Process.Allocated (.init m state) es :=
  allocated_of_takenFrom Nat.one_pos (sound_init m state) (by simp [Process.Below, Process.init])
    hes

/-- A run from a server whose buffers are apart. -/
lemma service_of_run {s t : Process} (hs : s.Sound)
    (hallocated : Run.Guarded (serverStep accept) Process.Allocated s es)
    (hrun : Run.run (serverStep accept) s es = some t) :
    ∃ ds, List.Forall₂ Matches es ds ∧
      Run.run (serviceStep accept) s.service ds = some t.service := by
  have hsim : ∀ (s : Process) (e : ServerEvent) (t : Process) (a : Service),
      s.Sound ∧ a = s.service → s.Allocated e → serverStep accept s e = some t →
        ∃ d b, Matches e d ∧ serviceStep accept a d = some b ∧ t.Sound ∧ b = t.service := by
    rintro s e t _ ⟨hsound, rfl⟩ he hstep
    obtain ⟨hsound', d, hmatches, hservice⟩ := serverStep_service hsound he hstep
    exact ⟨d, _, hmatches, hservice, hsound', rfl⟩
  obtain ⟨ds, a, hmatches, hservice, -, rfl⟩ := Run.run_lockstep hsim ⟨hs, rfl⟩ hallocated hrun
  exact ⟨ds, hmatches, hservice⟩

/-- **The server and the service.** However the events of the connections are interleaved, the
bytes that each connection has sent since its last answer are in its buffer, the tables and the
files are those of the service, and each request was answered with the bytes of its answer.

**Proof sketch.** What a call writes is in the block of its connection and in the blocks that it
gets for the response (`crunch_service`), and the blocks of other connections are apart. -/
theorem server_refines (hallocated : Run.Guarded (serverStep accept) Process.Allocated
      (.init m state) es)
    (hrun : Run.run (serverStep accept) (.init m state) es = some s) :
    ∃ ds, List.Forall₂ Matches es ds ∧
      Run.run (serviceStep accept) (.init state) ds = some s.service :=
  service_of_run (sound_init m state) hallocated hrun

/-- A call that delivers a chunk in one piece, with its blocks from an address on. -/
def Call.of (n : ℕ) (chunk : List UInt8) : Call :=
  { Ondata.of chunk with
    block := n, world := { goodWorld with block := n + 4096 }, response := n + 4096 + 2 ^ 20 }

/-- A connection sends a request in two parts, and another one sends one in between. -/
def twoConnections : List ServerEvent :=
  [.accept 4, .accept 5, .ondata 4 (.of 1 (ascii "GET /api/0/x HTTP/1.1\r\n\r")),
    .ondata 5 (.of (1 + 2 ^ 21) (ascii "GET / HTTP/1.1\r\n\r\n")),
    .ondata 4 (.of (1 + 2 ^ 22) (ascii "\n")), .onclose 5]

/-- The tables with one user, and the page. -/
def onePage : ServerState where
  db := oneUser
  dir := fun path => if path = ascii "html/main.html" then some (ascii "<html>") else none

/-- The blocks of this run lie one behind the other. -/
lemma takenFrom_twoConnections : TakenFrom 1 twoConnections := by
  simp [TakenFrom, twoConnections, ServerEvent.TakenFrom, ServerEvent.next, Call.of]

/-- The page is there, and the other address does not exist. -/
theorem server_refines_two :
    ∃ s ds, Run.run (serverStep acceptNoKey) (.init (fun _ => 0) onePage)
        twoConnections = some s ∧ List.Forall₂ Matches twoConnections ds ∧
      Run.run (serviceStep acceptNoKey) (.init onePage) ds = some s.service ∧
      s.log.map (fun entry => (entry.1, entry.2.status)) = [(5, .ok), (4, .notFound)] := by
  have hlog : (Run.run (serverStep acceptNoKey) (.init (fun _ => 0) onePage)
      twoConnections).map (fun s => s.log.map fun entry => (entry.1, entry.2.status)) =
        some [(5, .ok), (4, .notFound)] := by decide +kernel
  obtain ⟨s, hrun, hlog⟩ := Option.map_eq_some_iff.mp hlog
  obtain ⟨ds, hmatches, hservice⟩ :=
    server_refines (allocated_init _ _ takenFrom_twoConnections) hrun
  exact ⟨s, ds, hrun, hmatches, hservice, hlog⟩

/-- **The buffers of the connections** stay in their blocks of 4096 bytes, and apart from each
other. -/
theorem buffers_inside (hallocated : Run.Guarded (serverStep accept) Process.Allocated
      (.init m state) es)
    (hrun : Run.run (serverStep accept) (.init m state) es = some s) {i : ℕ}
    {c : HttpTlsConnection} (hc : s.connections i = some c) :
    c.buffer.len ≤ 4096 ∧ c.buffer.addresses ⊆ c.block ∧
      ∀ j d, s.connections j = some d → i ≠ j → Disjoint c.block d.block := by
  have hsound : s.Sound := Run.run_invariant_of_guarded
    (fun _ _ _ hsound he hstep => (serverStep_service hsound he hstep).1) (sound_init m state)
    hallocated hrun
  have hinside := hsound.inside i c hc
  exact ⟨(buffer_len_le hinside).1, hinside, fun j d hd hij => hsound.apart i j c d hc hd hij⟩

/-- The first connection has a part of its request. -/
theorem buffers_inside_two :
    ∃ s c, Run.run (serverStep acceptNoKey) (.init (fun _ => 0) onePage)
        (twoConnections.take 4) = some s ∧ s.connections 4 = some c ∧ c.buffer.len = 24 ∧
      c.buffer.len ≤ 4096 ∧ c.buffer.addresses ⊆ c.block ∧
        ∀ j d, s.connections j = some d → 4 ≠ j → Disjoint c.block d.block := by
  have hlen : (Run.run (serverStep acceptNoKey) (.init (fun _ => 0) onePage)
      (twoConnections.take 4)).bind (fun s => (s.connections 4).map fun c => c.buffer.len) =
        some 24 := by decide +kernel
  obtain ⟨s, hrun, hc⟩ := Option.bind_eq_some_iff.mp hlen
  obtain ⟨c, hc, hlen⟩ := Option.map_eq_some_iff.mp hc
  have htaken : TakenFrom 1 (twoConnections.take 4) := by
    simp [TakenFrom, twoConnections, ServerEvent.TakenFrom, ServerEvent.next, Call.of]
  exact ⟨s, c, hrun, hc, hlen, buffers_inside (allocated_init _ _ htaken) hrun hc⟩

end Runs

end SleepyText.Server
