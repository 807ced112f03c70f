import SleepyText.Server.Connection
import SleepyText.Server.Footprints

set_option relaxedAutoImplicit false
set_option autoImplicit false

/-!
# The server and its connections

`epoll_listen` calls `http_tls_ondata` for whatever connection has data. All connections share the
memory, the tables and the files.

## Main definitions

* `HttpTlsConnection.receive`, `Process.crunch` — the two halves of `http_tls_ondata`.
* `Process`, `serverStep` — the server, and what happens to it.
* `Process.Allocated` — what `balloc` promises.
* `Process.Sound` — the buffers are in their blocks, and apart.

## Main results

* `receive_spec` — a call closes the connection, or appends the plaintext to its buffer.
-/

namespace SleepyText.Server

open Footprint

/-! ## The server -/

/-- What a call of `http_tls_ondata` is given: what arrives, what the handlers are given, and where
`balloc` puts the header of the response. -/
structure Call extends Ondata where
  world : World
  response : ℕ

/-- An answered request: what it was, what its handler was given, the bytes behind its payload, its
status, the header and the payload as they were handed to `SSL_write`, and the length that was given
for the payload. -/
structure Exchange where
  request : Parsed
  world : World
  beyond : List UInt8
  status : HttpResult
  header : List UInt8
  payload : List UInt8
  payloadLen : ℤ

/-- The server: the memory, the connections by their sockets, the tables and the files, and the
answered requests by the sockets that they came from. -/
structure Process where
  mem : Memory
  connections : ℕ → Option HttpTlsConnection
  state : ServerState
  log : List (ℕ × Exchange)

/-- What `epoll_wait` reports: a new connection, data, or a hangup. -/
inductive ServerEvent where
  | accept (socket : ℕ)
  | ondata (socket : ℕ) (call : Call)
  | onclose (socket : ℕ)

/-- The first half of `http_tls_ondata`: append to the buffer what has arrived. The inner `none`
stands for a connection that is closed. -/
def HttpTlsConnection.receive (c : HttpTlsConnection) (call : Ondata) (m : Memory) :
    Option (Option (HttpTlsConnection × Memory × ℕ)) :=
  let (c, buffer) : HttpTlsConnection × Bytes :=
    if c.buffer.asVoid ≠ 0 then
      (c, ⟨c.buffer.asVoid + c.buffer.len, sizeSub 4096 c.buffer.len⟩)
    else (⟨⟨call.block, 0⟩⟩, ⟨call.block, 4096⟩)
  -- `tcp_ondata`
  if call.recv ≤ 0 then some none
  else
    (tlsOndata m call.answers buffer).map fun result =>
      result.map fun (m, buffer) =>
        (⟨⟨c.buffer.asVoid, c.buffer.len + buffer.len⟩⟩, m, buffer.len)

/-- The second half of `http_tls_ondata`: answer the request in the buffer, if there is one. -/
def Process.crunch (accept : List UInt8 → List UInt8) (s : Process) (socket : ℕ) (call : Call)
    (c : HttpTlsConnection) (m : Memory) (len : ℕ) : Option Process :=
  let kept : Process :=
    { s with mem := m, connections := Function.update s.connections socket (some c) }
  if len > 0 then
    let parsed := httpParseRequest m c.buffer
    if parsed.addr.len > 0 then
      (respond accept call.world m parsed s.state).map fun (m', res, state) =>
        let (m'', final) := httpAssembleResponse 128 call.response m' res
        { mem := m''
          -- `bfree(&http_tls->buffer)`
          connections := Function.update s.connections socket (some .fresh)
          state := state
          log := s.log ++ [(socket, ⟨parsed.read m, call.world,
            m.read ⟨parsed.payload.asVoid + parsed.payload.len, 3⟩, res.status,
            sslWritten m'' final.header, sslWritten m'' final.payload, toInt final.payload.len⟩)] }
    else some kept
  else some kept

/-- `http_tls_onclose`. -/
def Process.onclose (s : Process) (socket : ℕ) : Process :=
  { s with connections := Function.update s.connections socket none }

/-- One event: `tls_listener_ondata`, `http_tls_ondata` or `http_tls_onclose`. A new connection has
a socket that no other one has. -/
def serverStep (accept : List UInt8 → List UInt8) (s : Process) : ServerEvent → Option Process
  | .accept socket =>
    if (s.connections socket).isNone then
      some { s with connections := Function.update s.connections socket (some .fresh) }
    else none
  | .ondata socket call =>
    (s.connections socket).bind fun c =>
      (c.receive call.toOndata s.mem).bind fun received =>
        match received with
        | none => some (s.onclose socket)
        | some (c, m, len) => s.crunch accept socket call c m len
  | .onclose socket =>
    if (s.connections socket).isSome then some (s.onclose socket) else none

/-- The server before anything happens. -/
def Process.init (m : Memory) (state : ServerState) : Process := ⟨m, fun _ => none, state, []⟩

/-! ## What `balloc` promises -/

/-- The block of the buffer of a connection. -/
def HttpTlsConnection.block (c : HttpTlsConnection) : Set ℕ :=
  if c.buffer.asVoid = 0 then ∅ else Bytes.addresses ⟨c.buffer.asVoid, 4096⟩

/-- The range is apart from the buffers of all connections. -/
def Process.Apart (s : Process) (b : Bytes) : Prop :=
  ∀ socket c, s.connections socket = some c → Disjoint b.addresses c.block

/-- The blocks that a call gets from `balloc` are apart from the buffers of the connections and from
each other: the one of the buffer, if the connection has none, and the ones for a response. -/
structure Process.Allocates (s : Process) (socket : ℕ) (call : Call) : Prop where
  buffer : ∀ c, s.connections socket = some c → c.buffer.asVoid = 0 →
    call.block ≠ 0 ∧ s.Apart ⟨call.block, 4096⟩
  response : ∀ c d m len, s.connections socket = some c →
    c.receive call.toOndata s.mem = some (some (d, m, len)) →
      let block := responseBlock call.world m (httpParseRequest m d.buffer)
      s.Apart block ∧ s.Apart ⟨call.response, 4096⟩ ∧
        Disjoint block.addresses (Bytes.addresses ⟨call.response, 4096⟩)

/-- `balloc` keeps its promise. -/
def Process.Allocated (s : Process) : ServerEvent → Prop
  | .ondata socket call => s.Allocates socket call
  | .accept _ | .onclose _ => True

/-! ## Receiving -/

/-- The plaintext that the answers of `SSL_read` give, or `none` if the connection is closed. -/
def plaintext : List SslRead → Option (List UInt8)
  | [] => some []
  | .none bs :: answers => (plaintext answers).map (bs ++ ·)
  | .wantRead :: _ => some []
  | .zeroReturn :: _ => none
  | .ssl :: _ => none
  | .syscall :: _ => none
  | .other :: answers => plaintext answers

/-- The loop of `tls_ondata` appends the plaintext, or finds the connection closed. -/
lemma tlsLoop_plaintext {m : Memory} {pos last len : ℕ} {answers : List SslRead}
    {result : Option (Memory × ℕ)} (h : tlsLoop m pos last len answers = some result) :
    match plaintext answers with
    | none => result = none
    | some bs => bs.length ≤ last ∧ result = some (m.store pos bs, len + bs.length) := by
  induction answers generalizing m pos last len with
  | nil => exact absurd h (by simp [tlsLoop])
  | cons answer answers ih =>
    cases answer with
    | none bs =>
      rw [tlsLoop] at h
      split_ifs at h with hle
      have hrest := ih h
      rw [plaintext]
      cases hplain : plaintext answers with
      | none =>
        rw [hplain] at hrest
        exact hrest
      | some bs' =>
        rw [hplain] at hrest
        obtain ⟨hlast, rfl⟩ := hrest
        dsimp only [Option.map_some]
        rw [List.length_append, Memory.store_append]
        refine ⟨by omega, ?_⟩
        rw [Nat.add_assoc]
    | wantRead =>
      obtain rfl := Option.some.inj h
      simp [plaintext, Memory.store_nil]
    | zeroReturn | ssl | syscall =>
      obtain rfl := Option.some.inj h
      rfl
    | other => exact ih h

/-- What a connection has after data arrived: the buffer is in its block, has the plaintext behind
what it had, and nothing outside of the block is changed. -/
structure Received (call : Ondata) (c d : HttpTlsConnection) (m m' : Memory) (chunk : List UInt8) :
    Prop where
  recv : 0 < call.recv
  plain : plaintext call.answers = some chunk
  buffer : d.buffer.asVoid = if c.buffer.asVoid = 0 then call.block else c.buffer.asVoid
  inside : d.buffer.addresses ⊆ d.block
  read : m'.read d.buffer = m.read c.buffer ++ chunk
  changed : ChangedIn d.block m m'

/-- The buffer of a connection is in its block. -/
lemma buffer_len_le {c : HttpTlsConnection} (h : c.buffer.addresses ⊆ c.block) :
    c.buffer.len ≤ 4096 ∧ (c.buffer.asVoid = 0 → c.buffer.len = 0) := by
  unfold HttpTlsConnection.block Bytes.addresses at h
  by_cases hlen : c.buffer.len = 0
  · omega
  split_ifs at h with hzero
  · have hmem := h (Set.mem_Ico.mpr ⟨le_rfl, Nat.lt_add_of_pos_right (Nat.pos_of_ne_zero hlen)⟩)
    exact absurd hmem (Set.notMem_empty _)
  · rw [Set.Ico_subset_Ico_iff (by omega)] at h
    dsimp only at h
    omega

/-- **Receiving**: a call closes the connection, or appends the plaintext to its buffer. -/
theorem receive_spec {call : Ondata} {c : HttpTlsConnection} {m : Memory}
    {received : Option (HttpTlsConnection × Memory × ℕ)}
    (h : c.receive call m = some received) (hinside : c.buffer.addresses ⊆ c.block)
    (hblock : c.buffer.asVoid = 0 → call.block ≠ 0) :
    match received with
    | none => call.recv ≤ 0 ∨ plaintext call.answers = none
    | some (d, m', len) => ∃ chunk, len = chunk.length ∧ Received call c d m m' chunk := by
  obtain ⟨hle, hempty⟩ := buffer_len_le hinside
  -- the range behind what the buffer has
  obtain ⟨c', b, hb, hc', hread, hsplit⟩ : ∃ (c' : HttpTlsConnection) (b : Bytes),
      (b.asVoid = c'.buffer.asVoid + c'.buffer.len ∧ c'.buffer.len + b.len = 4096) ∧
      (c'.buffer.asVoid = if c.buffer.asVoid = 0 then call.block else c.buffer.asVoid) ∧
      (∀ m : Memory, m.read c'.buffer = m.read c.buffer) ∧
      c.receive call m = if call.recv ≤ 0 then some none
        else (tlsOndata m call.answers b).map fun result => result.map fun (m, buffer) =>
          (⟨⟨c'.buffer.asVoid, c'.buffer.len + buffer.len⟩⟩, m, buffer.len) := by
    by_cases hzero : c.buffer.asVoid = 0
    · refine ⟨⟨⟨call.block, 0⟩⟩, ⟨call.block, 4096⟩, ⟨rfl, rfl⟩, (if_pos hzero).symm, ?_, ?_⟩
      · intro m
        have hnil : (m.read c.buffer).length = 0 := by rw [Memory.length_read, hempty hzero]
        rw [List.eq_nil_of_length_eq_zero hnil, Memory.read_zero]
      · rw [HttpTlsConnection.receive, if_neg (not_not.mpr hzero)]
    · refine ⟨c, ⟨c.buffer.asVoid + c.buffer.len, sizeSub 4096 c.buffer.len⟩, ⟨rfl, ?_⟩,
        (if_neg hzero).symm, fun _ => rfl, ?_⟩
      · rw [sizeSub, if_pos hle]
        dsimp only
        omega
      · rw [HttpTlsConnection.receive, if_pos hzero]
  have hne : c'.buffer.asVoid ≠ 0 := by
    rw [hc']
    split_ifs with hzero
    · exact hblock hzero
    · exact hzero
  rw [hsplit] at h
  split_ifs at h with hrecv
  · obtain rfl := Option.some.inj h
    exact .inl hrecv
  · obtain ⟨result, hresult, rfl⟩ := Option.map_eq_some_iff.mp h
    obtain ⟨result', hloop, rfl⟩ := Option.map_eq_some_iff.mp hresult
    have hplaintext := tlsLoop_plaintext hloop
    cases hplain : plaintext call.answers with
    | none =>
      rw [hplain] at hplaintext
      subst hplaintext
      exact .inr rfl
    | some bs =>
      rw [hplain] at hplaintext
      obtain ⟨hlast, rfl⟩ := hplaintext
      dsimp only [Option.map_some]
      rw [Nat.zero_add]
      have hd : HttpTlsConnection.block ⟨⟨c'.buffer.asVoid, c'.buffer.len + bs.length⟩⟩ =
          Bytes.addresses ⟨c'.buffer.asVoid, 4096⟩ := if_neg hne
      refine ⟨bs, rfl, not_le.mp hrecv, hplain, hc', ?_, ?_, ?_⟩
      · rw [hd]
        apply addresses_block
        omega
      · dsimp only
        rw [Memory.read_add, ← hb.1, Memory.read_store,
          Memory.read_store_of_disjoint (.inl hb.1.ge)]
        exact congrArg (· ++ bs) (hread m)
      · rw [hd]
        refine (@changedIn_store m b bs hlast).mono ?_
        apply Set.Ico_subset_Ico
        · dsimp only
          omega
        · dsimp only
          omega

/-- The handler is its two halves. -/
lemma httpTlsOndata_eq_receive (callees : Callees) (call : Ondata) (c : HttpTlsConnection)
    (m : Memory) : httpTlsOndata callees call c m = (c.receive call m).map fun received =>
      received.map fun (c, m, len) => SleepyText.Server.crunch callees c m len := by
  unfold httpTlsOndata HttpTlsConnection.receive
  dsimp only
  split_ifs
  all_goals simp [Option.map_map, Function.comp_def]

/-! ## The buffers -/

/-- What keeps the connections apart: the buffer of each is in its block, and the blocks of two
connections are disjoint. -/
structure Process.Sound (s : Process) : Prop where
  inside : ∀ i c, s.connections i = some c → c.buffer.addresses ⊆ c.block
  apart : ∀ i j c d, s.connections i = some c → s.connections j = some d → i ≠ j →
    Disjoint c.block d.block

section Sound

variable {s : Process}

/-- A fresh connection has no block. -/
lemma block_fresh : HttpTlsConnection.fresh.block = ∅ := if_pos rfl

/-- One connection changes, and has a block that is apart from those of the others. -/
lemma sound_update (h : s.Sound) {i : ℕ} {c : HttpTlsConnection} {t : Process}
    (ht : t.connections = Function.update s.connections i (some c))
    (hinside : c.buffer.addresses ⊆ c.block)
    (hapart : ∀ j d, s.connections j = some d → i ≠ j → Disjoint c.block d.block) : t.Sound where
  inside := by
    intro j d hd
    rw [ht] at hd
    by_cases hij : i = j
    · subst hij
      rw [Function.update_self] at hd
      obtain rfl := Option.some.inj hd
      exact hinside
    · rw [Function.update_of_ne (Ne.symm hij)] at hd
      exact h.inside j d hd
  apart := by
    intro j k d e hd he hjk
    rw [ht] at hd he
    by_cases hij : i = j
    · subst hij
      rw [Function.update_self] at hd
      rw [Function.update_of_ne (Ne.symm hjk)] at he
      obtain rfl := Option.some.inj hd
      exact hapart k e he hjk
    · rw [Function.update_of_ne (Ne.symm hij)] at hd
      by_cases hik : i = k
      · subst hik
        rw [Function.update_self] at he
        obtain rfl := Option.some.inj he
        exact (hapart j d hd hij).symm
      · rw [Function.update_of_ne (Ne.symm hik)] at he
        exact h.apart j k d e hd he hjk

/-- A connection without a buffer. -/
lemma sound_fresh (h : s.Sound) {i : ℕ} {t : Process}
    (ht : t.connections = Function.update s.connections i (some .fresh)) : t.Sound := by
  apply sound_update h ht
  · simp [HttpTlsConnection.fresh, Bytes.addresses]
  · intro j d _ _
    rw [block_fresh]
    exact Set.empty_disjoint _

/-- The connections that a close leaves. -/
lemma of_onclose {i j : ℕ} {d : HttpTlsConnection} (h : (s.onclose i).connections j = some d) :
    s.connections j = some d := by
  by_cases hij : j = i
  · subst hij
    simp [Process.onclose] at h
  · exact (Function.update_of_ne hij _ _).symm.trans h

/-- A closed connection. -/
lemma sound_onclose (h : s.Sound) (i : ℕ) : (s.onclose i).Sound where
  inside := fun j d hd => h.inside j d (of_onclose hd)
  apart := fun j k d e hd he hjk => h.apart j k d e (of_onclose hd) (of_onclose he) hjk

/-- The block of a connection that has received is the one that it had, or the new one. -/
lemma apart_receive (h : s.Sound) {i : ℕ} {call : Call} {c d : HttpTlsConnection} {m : Memory}
    {chunk : List UInt8} (hc : s.connections i = some c) (hallocates : s.Allocates i call)
    (hd : Received call.toOndata c d s.mem m chunk) {j : ℕ} {e : HttpTlsConnection}
    (he : s.connections j = some e) (hij : i ≠ j) : Disjoint d.block e.block := by
  have hbuffer := hd.buffer
  by_cases hzero : c.buffer.asVoid = 0
  · obtain ⟨hne, hapart⟩ := hallocates.buffer c hc hzero
    rw [if_pos hzero] at hbuffer
    have hblock : d.block = Bytes.addresses ⟨call.block, 4096⟩ := by
      rw [HttpTlsConnection.block, hbuffer, if_neg hne]
    rw [hblock]
    exact hapart j e he
  · rw [if_neg hzero] at hbuffer
    have hblock : d.block = c.block := by
      rw [HttpTlsConnection.block, HttpTlsConnection.block, hbuffer]
    rw [hblock]
    exact h.apart i j c e hc he hij

/-- There is no connection at first. -/
lemma sound_init (m : Memory) (state : ServerState) : (Process.init m state).Sound where
  inside := by simp [Process.init]
  apart := by simp [Process.init]

end Sound

end SleepyText.Server
