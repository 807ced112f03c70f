import SleepyText.Server.Message

set_option relaxedAutoImplicit false
set_option autoImplicit false

/-!
# Connections

`http_tls_ondata` of `http_server.c` is called each time data arrives on a connection. It appends
what it decrypts to the buffer of the connection, and answers when the parser finds a request there.

## Main definitions

* `SslRead`, `tlsOndata` — reading the plaintext that has arrived.
* `HttpTlsConnection`, `httpTlsOndata` — a connection, and the handler.
* `Ondata`, `serve` — calls of the handler, one after another.

## Main results

* `httpTlsOndata_partial`, `httpTlsOndata_complete` — a call that leaves a request incomplete, and
  the call that completes it.
* `requests_answered` — however requests are cut, each is answered once, by the call that delivers
  its last part.
-/

namespace SleepyText.Server

/-! ## Reading the plaintext -/

/-- The answer of `SSL_read`, and what `SSL_get_error` says about it. `other` are the codes that
`tls_ondata` does not ask for. -/
inductive SslRead where
  | none (bs : List UInt8)
  | wantRead
  | zeroReturn
  | ssl
  | syscall
  | other
  deriving DecidableEq, Repr

/-- The loop of `tls_ondata` over the answers of `SSL_read`: the memory and the length of the
plaintext, or `none` where it returns -1. The outer `none` stands for answers that are not those of
`SSL_read`: too few of them, or one with more than `last` bytes. -/
def tlsLoop (m : Memory) (pos last len : ℕ) : List SslRead → Option (Option (Memory × ℕ))
  | [] => none
  | .none bs :: answers =>
    if bs.length ≤ last then
      tlsLoop (m.store pos bs) (pos + bs.length) (last - bs.length) (len + bs.length) answers
    else none
  | .wantRead :: _ => some (some (m, len))
  | .zeroReturn :: _ => some none
  | .ssl :: _ => some none
  | .syscall :: _ => some none
  | .other :: answers => tlsLoop m pos last len answers

/-- `tls_ondata`, which sets `plaintext` to the bytes that it appends. -/
def tlsOndata (m : Memory) (answers : List SslRead) (plaintext : Bytes) :
    Option (Option (Memory × Bytes)) :=
  (tlsLoop m plaintext.asVoid plaintext.len 0 answers).map fun result =>
    result.map fun (m, len) => (m, ⟨plaintext.asVoid, len⟩)

/-- Plaintext for which there is room is appended. -/
lemma tlsLoop_pieces (m : Memory) {pos last len : ℕ} (pieces : List (List UInt8))
    (hlast : pieces.flatten.length ≤ last) :
    tlsLoop m pos last len (pieces.map .none ++ [.wantRead]) =
      some (some (m.store pos pieces.flatten, len + pieces.flatten.length)) := by
  induction pieces generalizing m pos last len with
  | nil => simp [tlsLoop, Memory.store_nil]
  | cons bs pieces ih =>
    rw [List.flatten_cons, List.length_append] at hlast
    rw [List.map_cons, List.cons_append, tlsLoop, if_pos (by omega), ih _ (by omega),
      List.flatten_cons, Memory.store_append, List.length_append, Nat.add_assoc]

lemma tlsOndata_pieces (m : Memory) {plaintext : Bytes} {pieces : List (List UInt8)}
    (hroom : pieces.flatten.length ≤ plaintext.len) :
    tlsOndata m (pieces.map .none ++ [.wantRead]) plaintext =
      some (some (m.store plaintext.asVoid pieces.flatten,
        ⟨plaintext.asVoid, pieces.flatten.length⟩)) := by
  rw [tlsOndata, tlsLoop_pieces m pieces hroom, Nat.zero_add]
  rfl

/-! ## The handler -/

/-- `struct http_tls_connection`: the buffer is at address 0 while there is none. -/
structure HttpTlsConnection where
  buffer : Bytes
  deriving DecidableEq, Repr

/-- A connection as `tls_listener_ondata` sets it up. -/
def HttpTlsConnection.fresh : HttpTlsConnection := ⟨⟨0, 0⟩⟩

/-- The code that the handler calls: the key of an answer to a handshake, and the callbacks of the
server behind `http_server_callback_dispatch`, which may use the memory as they like. -/
structure Callees where
  accept : List UInt8 → List UInt8
  dispatch : HttpRequest → Memory → HttpRawResponse × Memory

/-- The world of one call: what `recv` and `SSL_read` return, and where `balloc` puts the buffer. -/
structure Ondata where
  recv : ℤ
  answers : List SslRead
  block : ℕ

/-- What a call does: nothing, answer a handshake with the given headers, or dispatch a request
that reads as given. -/
inductive Served where
  | nothing
  | handshake (headers : List (List UInt8 × List UInt8))
  | dispatched (request : Parsed)
  deriving DecidableEq, Repr

/-- The part of `http_tls_ondata` that looks at the buffer, after `len` bytes were appended. -/
def crunch (callees : Callees) (c : HttpTlsConnection) (m : Memory) (len : ℕ) :
    HttpTlsConnection × Memory × Served :=
  if len > 0 then
    let parsed := httpParseRequest m c.buffer
    if parsed.addr.len > 0 then
      let res := httpWebsocketAccept callees.accept m parsed
      if res.status ≠ .switchingProtocols then
        let (_, m') := callees.dispatch parsed m
        -- `bfree(&http_tls->buffer)`
        (⟨⟨0, 0⟩⟩, m', .dispatched (parsed.read m))
      else (⟨⟨0, 0⟩⟩, m, .handshake res.headers)
    else (c, m, .nothing)
  else (c, m, .nothing)

/-- `http_tls_ondata`; the inner `none` stands for a connection that was closed. -/
def httpTlsOndata (callees : Callees) (call : Ondata) (c : HttpTlsConnection) (m : Memory) :
    Option (Option (HttpTlsConnection × Memory × Served)) :=
  let (c, buffer) : HttpTlsConnection × Bytes :=
    if c.buffer.asVoid ≠ 0 then
      (c, ⟨c.buffer.asVoid + c.buffer.len, sizeSub 4096 c.buffer.len⟩)
    else (⟨⟨call.block, 0⟩⟩, ⟨call.block, 4096⟩)
  -- `tcp_ondata`
  if call.recv ≤ 0 then some none
  else
    (tlsOndata m call.answers buffer).map fun result =>
      result.map fun (m, buffer) =>
        crunch callees ⟨⟨c.buffer.asVoid, c.buffer.len + buffer.len⟩⟩ m buffer.len

/-- Calls of the handler, one after another, and what each does. -/
def serve (callees : Callees) : List Ondata → HttpTlsConnection → Memory →
    Option (HttpTlsConnection × Memory × List Served)
  | [], c, m => some (c, m, [])
  | call :: calls, c, m =>
    match httpTlsOndata callees call c m with
    | some (some (c, m, served)) =>
      (serve callees calls c m).map fun (c, m, rest) => (c, m, served :: rest)
    | _ => none

/-! ## One call -/

/-- A call that delivers a chunk of plaintext, in as many pieces as the records it came in. -/
structure Ondata.Delivers (call : Ondata) (chunk : List UInt8) : Prop where
  recv : 0 < call.recv
  block : call.block ≠ 0
  answers : ∃ pieces : List (List UInt8),
    call.answers = pieces.map .none ++ [.wantRead] ∧ pieces.flatten = chunk

/-- What the connection has of a request. -/
def HttpTlsConnection.Holds (c : HttpTlsConnection) (m : Memory) (p : List UInt8) : Prop :=
  if p = [] then c = .fresh else c.buffer.asVoid ≠ 0 ∧ m.read c.buffer = p

lemma holds_fresh (m : Memory) : HttpTlsConnection.fresh.Holds m [] := by
  rw [HttpTlsConnection.Holds, if_pos rfl]

/-- What a whole request is answered with: a handshake, if the version that it gives for the
protocol reads as 13, else what the callbacks answer. -/
def Message.served (accept : List UInt8 → List UInt8) (r : Message) : Served :=
  if websocketVersion r.header = 13 then .handshake (websocketAccept accept r.header).headers
  else .dispatched ⟨r.header, r.body, r.target⟩

section Calls

variable (callees : Callees) {call : Ondata} {c : HttpTlsConnection} {m : Memory}
  {p chunk : List UInt8} {r : Message}

/-- **Appending**: a call looks at what it had and what it was given. -/
lemma httpTlsOndata_eq (hcall : call.Delivers chunk) (hc : c.Holds m p)
    (hroom : p.length + chunk.length ≤ 4096) :
    ∃ c' m', c'.buffer.asVoid ≠ 0 ∧ Memory.read m' c'.buffer = p ++ chunk ∧
      httpTlsOndata callees call c m = some (some (crunch callees c' m' chunk.length)) := by
  obtain ⟨hrecv, hblock, pieces, hanswers, rfl⟩ := hcall
  unfold HttpTlsConnection.Holds at hc
  split_ifs at hc with hp
  · -- a fresh connection: the buffer is allocated
    subst hp
    subst hc
    refine ⟨⟨⟨call.block, 0 + pieces.flatten.length⟩⟩, m.store call.block pieces.flatten,
      hblock, ?_, ?_⟩
    · rw [Nat.zero_add, Memory.read_store, List.nil_append]
    · rw [List.length_nil, Nat.zero_add] at hroom
      rw [httpTlsOndata, if_neg (by decide)]
      dsimp only
      rw [if_neg (by omega), hanswers, tlsOndata_pieces m hroom]
      rfl
  · obtain ⟨hne, hread⟩ := hc
    have hlen : c.buffer.len = p.length := by rw [← hread, Memory.length_read]
    refine ⟨⟨⟨c.buffer.asVoid, c.buffer.len + pieces.flatten.length⟩⟩,
      m.store (c.buffer.asVoid + c.buffer.len) pieces.flatten, hne, ?_, ?_⟩
    · rw [Memory.read_add, Memory.read_store, Memory.read_store_of_disjoint (.inl le_rfl), hread]
    · have hsub : sizeSub 4096 c.buffer.len = 4096 - c.buffer.len := if_pos (by omega)
      rw [httpTlsOndata, if_pos hne, hsub]
      dsimp only
      rw [if_neg (by omega), hanswers,
        tlsOndata_pieces m (show pieces.flatten.length ≤ 4096 - c.buffer.len by omega)]
      rfl

/-- A call that finds no request keeps what it has. -/
lemma crunch_nothing (h : parseRequest (m.read c.buffer) = ⟨[], [], []⟩) (len : ℕ) :
    crunch callees c m len = (c, m, .nothing) := by
  have haddr : (httpParseRequest m c.buffer).addr.len = 0 := by
    have hread := congrArg Parsed.addr ((read_httpParseRequest m c.buffer).trans h)
    rw [← Memory.length_read (m := m)]
    exact List.length_eq_zero_iff.mpr hread
  unfold crunch
  dsimp only
  rw [haddr]
  simp

/-- A call that finds a request answers it and frees the buffer. -/
lemma crunch_complete (hr : r.WellFormed) (h : m.read c.buffer = r.encode) {len : ℕ}
    (hlen : 0 < len) :
    ∃ m', crunch callees c m len = (.fresh, m', r.served callees.accept) := by
  have hread : (httpParseRequest m c.buffer).read m = ⟨r.header, r.body, r.target⟩ := by
    rw [read_httpParseRequest, h, parseRequest_encode hr]
  have hheader : m.read (httpParseRequest m c.buffer).header = r.header :=
    congrArg Parsed.header hread
  have haddr : 0 < (httpParseRequest m c.buffer).addr.len := by
    have htarget : m.read (httpParseRequest m c.buffer).addr = r.target :=
      congrArg Parsed.addr hread
    rw [← Memory.length_read (m := m), htarget]
    exact List.length_pos_iff.mpr hr.target.1
  rw [crunch, if_pos hlen]
  dsimp only
  rw [if_pos haddr, httpWebsocketAccept_eq, hheader, hread, Message.served]
  by_cases hversion : websocketVersion r.header = 13
  · rw [if_pos hversion, if_neg (by simp [websocketAccept, hversion, httpResult])]
    exact ⟨m, rfl⟩
  · rw [if_neg hversion, if_pos (by simp [websocketAccept, hversion, httpResult])]
    exact ⟨_, rfl⟩

/-! ## A request -/

/-- The calls deliver the request in chunks, none of them empty. -/
def Message.DeliveredBy (r : Message) (calls : List Ondata) : Prop :=
  ∃ chunks, List.Forall₂ Ondata.Delivers calls chunks ∧ (∀ chunk ∈ chunks, chunk ≠ []) ∧
    chunks.flatten = r.encode

/-- What the calls that deliver a request do: the last one answers it. -/
def Message.servedBy (accept : List UInt8 → List UInt8) (r : Message) (calls : List Ondata) :
    List Served :=
  List.replicate (calls.length - 1) .nothing ++ [r.served accept]

/-- **The rest of a request** of which the connection has the part `p`. -/
lemma serve_chunks (hr : r.WellFormed) (hsize : r.encode.length < 4096) {calls : List Ondata}
    {chunks : List (List UInt8)} (hcalls : List.Forall₂ Ondata.Delivers calls chunks)
    (hempty : ∀ chunk ∈ chunks, chunk ≠ []) (hchunks : chunks ≠ [])
    (hp : p ++ chunks.flatten = r.encode) (hc : c.Holds m p) :
    ∃ m', serve callees calls c m = some (.fresh, m', r.servedBy callees.accept calls) := by
  induction hcalls generalizing c m p with
  | nil => exact absurd rfl hchunks
  | @cons call chunk calls chunks hcall hcalls ih =>
    rw [List.flatten_cons, ← List.append_assoc] at hp
    have hlen := congrArg List.length hp
    rw [List.length_append, List.length_append] at hlen
    have hchunk : 0 < chunk.length := List.length_pos_iff.mpr (hempty chunk List.mem_cons_self)
    obtain ⟨c', m', hne, hread, hondata⟩ :=
      httpTlsOndata_eq callees hcall hc (by omega)
    rw [serve, hondata]
    cases hcalls with
    | nil =>
      rw [List.flatten_nil, List.append_nil] at hp
      obtain ⟨m'', hcrunch⟩ := crunch_complete callees hr (hread.trans hp) hchunk
      rw [hcrunch]
      exact ⟨m'', rfl⟩
    | @cons call' chunk' calls chunks hcall' hcalls =>
      -- something is left of the request
      have hchunk' : 0 < chunk'.length :=
        List.length_pos_iff.mpr (hempty chunk' (List.mem_cons_of_mem _ List.mem_cons_self))
      have htake : p ++ chunk = r.encode.take (p ++ chunk).length := by
        rw [← hp, List.take_left]
      have hpart : parseRequest (m'.read c'.buffer) = ⟨[], [], []⟩ := by
        rw [List.flatten_cons, List.length_append] at hlen
        rw [hread, htake]
        exact parseRequest_take hr (by rw [List.length_append]; omega)
      have hholds : c'.Holds m' (p ++ chunk) := by
        rw [HttpTlsConnection.Holds, if_neg fun h => by
          rw [(List.append_eq_nil_iff.mp h).2] at hchunk
          exact absurd hchunk (by decide)]
        exact ⟨hne, hread⟩
      obtain ⟨m'', hserve⟩ := ih (fun chunk hmem => hempty chunk (List.mem_cons_of_mem _ hmem))
        (List.cons_ne_nil _ _) hp hholds
      rw [crunch_nothing callees hpart]
      dsimp only
      rw [hserve]
      exact ⟨m'', rfl⟩

end Calls

/-! ## Sequences of requests -/

lemma serve_append (callees : Callees) (calls calls' : List Ondata) (c : HttpTlsConnection)
    (m : Memory) : serve callees (calls ++ calls') c m =
      (serve callees calls c m).bind fun (c, m, served) =>
        (serve callees calls' c m).map fun (c, m, rest) => (c, m, served ++ rest) := by
  induction calls generalizing c m with
  | nil =>
    rw [List.nil_append]
    simp [serve]
  | cons call calls ih =>
    rw [List.cons_append, serve, serve]
    split
    · rw [ih]
      cases serve callees calls _ _ with
      | none => rfl
      | some result => simp [Option.map_map, Function.comp_def]
    · rfl

/-- **Requests on a connection.** However the bytes of well-formed requests are cut, each request
is answered once, by the call that delivers its last chunk: a handshake if its version of the
protocol reads as 13, and else by dispatching it with the target, the body and the header that it
has. No other call does anything, and the connection is left as it was set up. -/
theorem requests_answered (callees : Callees) {rs : List Message} {calls : List (List Ondata)}
    (hwf : ∀ r ∈ rs, r.WellFormed) (hsize : ∀ r ∈ rs, r.encode.length < 4096)
    (hcalls : List.Forall₂ Message.DeliveredBy rs calls) (m : Memory) :
    ∃ m', serve callees calls.flatten .fresh m =
      some (.fresh, m', (List.zipWith (Message.servedBy callees.accept) rs calls).flatten) := by
  induction hcalls generalizing m with
  | nil => exact ⟨m, rfl⟩
  | @cons r rcalls rs calls hr _ ih =>
    obtain ⟨chunks, hdelivers, hempty, hflatten⟩ := hr
    have hchunks : chunks ≠ [] := by
      rintro rfl
      have hlen := congrArg List.length hflatten
      simp [Message.encode] at hlen
    obtain ⟨m₁, hrequest⟩ := serve_chunks callees (hwf r List.mem_cons_self)
      (hsize r List.mem_cons_self) hdelivers hempty hchunks hflatten (holds_fresh m)
    obtain ⟨m₂, hrest⟩ := ih (fun r hr => hwf r (List.mem_cons_of_mem _ hr))
      (fun r hr => hsize r (List.mem_cons_of_mem _ hr)) m₁
    rw [List.flatten_cons, serve_append, hrequest]
    dsimp only [Option.bind_some]
    rw [hrest]
    exact ⟨m₂, rfl⟩

/-- A call that delivers a chunk in one piece. -/
def Ondata.of (chunk : List UInt8) : Ondata := ⟨1, [.none chunk, .wantRead], 1⟩

/-- Calls that deliver the chunks of a request in one piece each. -/
lemma Message.deliveredBy_of {r : Message} (chunks : List (List UInt8))
    (hempty : ∀ chunk ∈ chunks, chunk ≠ []) (hflatten : chunks.flatten = r.encode) :
    r.DeliveredBy (chunks.map Ondata.of) := by
  refine ⟨chunks, ?_, hempty, hflatten⟩
  rw [List.forall₂_map_left_iff, List.forall₂_same]
  exact fun chunk _ => ⟨Int.one_pos, one_ne_zero, [chunk], rfl, by simp⟩

/-- A request with a body, cut behind the first letter of its body's length and in the empty line,
and a request without one. -/
theorem requests_answered_two :
    ∃ m', serve ⟨fun _ => [], fun _ m => (httpResult .ok, m)⟩
        [[.of (ascii "POST /api/0/feed HTTP/1.1\r\nC"), .of (ascii "ontent-Length: 1\r\n\r"),
          .of (ascii "\nb")], [.of (ascii "GET / HTTP/1.1\r\n\r\n")]].flatten .fresh (fun _ => 0) =
      some (.fresh, m', (List.zipWith (Message.servedBy fun _ => [])
        [⟨ascii "POST", ascii "/api/0/feed", ascii "HTTP/1.1", [ascii "Content-Length: 1"],
          ascii "b"⟩, ⟨ascii "GET", ascii "/", ascii "HTTP/1.1", [], []⟩]
        [[.of (ascii "POST /api/0/feed HTTP/1.1\r\nC"), .of (ascii "ontent-Length: 1\r\n\r"),
          .of (ascii "\nb")], [.of (ascii "GET / HTTP/1.1\r\n\r\n")]]).flatten) := by
  refine requests_answered ⟨fun _ => [], fun _ m => (httpResult .ok, m)⟩ ?_ ?_ ?_ _
  · have hpost : Message.WellFormed ⟨ascii "POST", ascii "/api/0/feed", ascii "HTTP/1.1",
        [ascii "Content-Length: 1"], ascii "b"⟩ := by
      constructor <;> decide +kernel
    have hget : Message.WellFormed ⟨ascii "GET", ascii "/", ascii "HTTP/1.1", [], []⟩ := by
      constructor <;> decide +kernel
    simpa using ⟨hpost, hget⟩
  · decide +kernel
  · have hpost := Message.deliveredBy_of (r := ⟨ascii "POST", ascii "/api/0/feed",
      ascii "HTTP/1.1", [ascii "Content-Length: 1"], ascii "b"⟩)
      [ascii "POST /api/0/feed HTTP/1.1\r\nC", ascii "ontent-Length: 1\r\n\r", ascii "\nb"]
      (by decide +kernel) (by decide +kernel)
    have hget := Message.deliveredBy_of (r := ⟨ascii "GET", ascii "/", ascii "HTTP/1.1", [], []⟩)
      [ascii "GET / HTTP/1.1\r\n\r\n"] (by decide +kernel) (by decide +kernel)
    exact .cons hpost (.cons hget .nil)

/-- A well-formed request whose version of the protocol reads as 13 is not dispatched. -/
theorem request_not_dispatched :
    ∃ r : Message, r.WellFormed ∧ r.encode.length < 4096 ∧ r.DeliveredBy [.of r.encode] ∧
      r.target = ascii "/" ∧
      (serve ⟨fun _ => [], fun _ m => (httpResult .ok, m)⟩ [.of r.encode] .fresh (fun _ => 0)).map
        (fun result => result.2.2) = some [.handshake [(ascii "Sec-WebSocket-Accept", [])]] := by
  refine ⟨⟨ascii "GET", ascii "/", ascii "HTTP/1.1", [ascii "Sec-WebSocket-Version: 13"], []⟩,
    ?_, ?_, ?_, rfl, ?_⟩
  · constructor <;> decide +kernel
  · decide +kernel
  · exact Message.deliveredBy_of [_] (by decide +kernel) (by decide +kernel)
  · decide +kernel

end SleepyText.Server
