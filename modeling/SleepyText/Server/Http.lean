import SleepyText.Server.Bytes

set_option relaxedAutoImplicit false
set_option autoImplicit false

/-!
# Requests and responses

The parser of `http.c` searches the bytes of a connection from the start each time some arrive.

## Main definitions

* `HttpResult`, `HttpRequest`, `HttpRawResponse` — requests and responses.
* `httpParseRequest` — the parser, on memory; a request that is not complete has no address.
* `httpWebsocketAccept` — the answer to a handshake.
* `Parsed`, `parseRequest`, `websocketAccept` — the same on the bytes alone.

## Main results

* `read_httpParseRequest` — the parser reads what `parseRequest` says.
* `httpWebsocketAccept_eq` — the answer to a handshake is made from the header.
-/

namespace SleepyText.Server

/-- `enum http_result`. -/
inductive HttpResult where
  | ok
  | badRequest
  | notFound
  | forbidden
  | switchingProtocols
  | internalServerError
  deriving DecidableEq, Repr

/-- `http_result_text`. -/
def httpResultText : HttpResult → List UInt8
  | .ok => ascii "200 Ok"
  | .badRequest => ascii "400 Bad Request"
  | .notFound => ascii "404 Not Found"
  | .forbidden => ascii "403 Forbidden"
  | .switchingProtocols => ascii "101 Switching Protocols"
  | .internalServerError => ascii "500 Internal Server Error"

/-- The status that a client reads from the text of a result. -/
def HttpResult.code (status : HttpResult) : ℕ := Decimal.value ((httpResultText status).take 3)

/-- `struct http_request`. -/
structure HttpRequest where
  header : Bytes
  payload : Bytes
  addr : Bytes
  deriving DecidableEq, Repr

/-- `struct http_raw_response`, with the names and the values of its headers. -/
structure HttpRawResponse where
  status : HttpResult
  payload : Bytes
  headers : List (List UInt8 × List UInt8)
  deriving DecidableEq, Repr

/-- `http_result`. -/
def httpResult (status : HttpResult) : HttpRawResponse := ⟨status, ⟨0, 0⟩, []⟩

/-! ## The parser -/

/-- `http_extract_param`: the value is behind `field` and two more bytes. -/
def httpExtractParam (m : Memory) (header : Bytes) (field : List UInt8) : Bytes :=
  let f := bfind m header field
  let f := bfind m (bslice f.after 2 0) (ascii "\r\n")
  f.before

/-- `http_parse_request`. -/
def httpParseRequest (m : Memory) (buffer : Bytes) : HttpRequest :=
  let f := bfind m buffer (ascii "\r\n\r\n")
  if f.found.len = 0 then ⟨⟨0, 0⟩, ⟨0, 0⟩, ⟨0, 0⟩⟩
  else
    let header := f.before
    let payload := f.after
    let f := bfind m header (ascii "Content-Length: ")
    -- `contentlen` is an `int`, compared with a `size_t`
    if f.found.len > 0 ∧
        toSize (btoi (m.read (bfind m f.after (ascii "\r\n")).before)) ≠ payload.len then
      ⟨⟨0, 0⟩, ⟨0, 0⟩, ⟨0, 0⟩⟩
    else
      let f := bfind m header (ascii " ")
      let f := bfind m f.after (ascii " ")
      ⟨header, payload, f.before⟩

/-- `http_websocket_accept`, where `accept` is the key of the answer for the key of the request and
the suffix of the protocol: the base 64 form of the SHA-1 digest. -/
def httpWebsocketAccept (accept : List UInt8 → List UInt8) (m : Memory) (request : HttpRequest) :
    HttpRawResponse :=
  let version := btoi (m.read (httpExtractParam m request.header (ascii "Sec-WebSocket-Version")))
  if version ≠ 13 then httpResult .badRequest
  else
    let key := m.read (httpExtractParam m request.header (ascii "Sec-WebSocket-Key"))
    let rfc6455 := ascii "258EAFA5-E914-47DA-95CA-C5AB0DC85B11"
    { httpResult .switchingProtocols with
      headers := [(ascii "Sec-WebSocket-Accept", accept (key ++ rfc6455))] }

/-! ## The parser on bytes -/

/-- What a request reads. -/
structure Parsed where
  header : List UInt8
  payload : List UInt8
  addr : List UInt8
  deriving DecidableEq, Repr

/-- The bytes of a request. -/
def HttpRequest.read (m : Memory) (r : HttpRequest) : Parsed :=
  ⟨m.read r.header, m.read r.payload, m.read r.addr⟩

/-- The value of a field, up to the end of its line. -/
def extractParam (header field : List UInt8) : List UInt8 :=
  Search.before (ascii "\r\n") ((Search.after field header).drop 2)

/-- The length of the body that a header announces, if it does. -/
def contentLength (header : List UInt8) : Option ℕ :=
  (Search.find (ascii "Content-Length: ") header).map fun found =>
    toSize (btoi (Search.before (ascii "\r\n") found.2))

/-- The text between the first two spaces of a header. -/
def address (header : List UInt8) : List UInt8 :=
  Search.before (ascii " ") (Search.after (ascii " ") header)

/-- `http_parse_request` on the bytes of the buffer. -/
def parseRequest (buffer : List UInt8) : Parsed :=
  match Search.find (ascii "\r\n\r\n") buffer with
  | none => ⟨[], [], []⟩
  | some (header, payload) =>
    if (contentLength header).all (· = payload.length) then ⟨header, payload, address header⟩
    else ⟨[], [], []⟩

/-- The protocol version that a header gives, or 0. -/
def websocketVersion (header : List UInt8) : ℤ :=
  btoi (extractParam header (ascii "Sec-WebSocket-Version"))

/-- `http_websocket_accept` on the bytes of the header. -/
def websocketAccept (accept : List UInt8 → List UInt8) (header : List UInt8) : HttpRawResponse :=
  if websocketVersion header ≠ 13 then httpResult .badRequest
  else
    { httpResult .switchingProtocols with
      headers := [(ascii "Sec-WebSocket-Accept",
        accept (extractParam header (ascii "Sec-WebSocket-Key") ++
          ascii "258EAFA5-E914-47DA-95CA-C5AB0DC85B11"))] }

lemma read_httpExtractParam (m : Memory) (header : Bytes) (field : List UInt8) :
    m.read (httpExtractParam m header field) = extractParam (m.read header) field := by
  rw [httpExtractParam, extractParam, read_before, read_bslice_zero, read_after]

/-- The rest of a line and of the lines behind it is cut off at the end of the line. -/
lemma before_lines {u : List UInt8} (hu : ∀ c ∈ u, c ≠ 13) (lines : List (List UInt8)) :
    Search.before (ascii "\r\n") (u ++ lines.flatMap fun l => 13 :: 10 :: l) = u := by
  have hstate : Search.state (ascii "\r\n") 0 u = some 0 :=
    Search.state_of_ne_head fun c hc heq => hu c hc (Option.some.inj heq).symm
  exact Search.before_flatMap (by decide) hstate lines id

/-- Text up to a line end, whatever follows. -/
lemma before_break {u : List UInt8} (hu : ∀ c ∈ u, c ≠ 13) (w : List UInt8) :
    Search.before (ascii "\r\n") (u ++ 13 :: 10 :: w) = u := by
  have hstate : Search.state (ascii "\r\n") 0 u = some 0 :=
    Search.state_of_ne_head fun c hc heq => hu c hc (Option.some.inj heq).symm
  exact Search.before_append w (by decide) hstate

/-- The test of the parser for a body that is not complete. -/
lemma contentLength_all_iff (m : Memory) (header : Bytes) (n : ℕ) :
    ((bfind m header (ascii "Content-Length: ")).found.len > 0 ∧
        toSize (btoi (m.read (bfind m (bfind m header (ascii "Content-Length: ")).after
          (ascii "\r\n")).before)) ≠ n) ↔
      ¬ (contentLength (m.read header)).all (· = n) = true := by
  have hpos : 0 < (ascii "Content-Length: ").length := by decide
  rw [found_len, read_before, read_after, contentLength, Search.after]
  cases Search.find (ascii "Content-Length: ") (m.read header) with
  | none => simp
  | some found => simp [hpos]

/-- **The parser** reads what `parseRequest` says. -/
theorem read_httpParseRequest (m : Memory) (buffer : Bytes) :
    (httpParseRequest m buffer).read m = parseRequest (m.read buffer) := by
  have hpos : (ascii "\r\n\r\n").length ≠ 0 := by decide
  have hlen := found_len m buffer (ascii "\r\n\r\n")
  have hheader := read_before m buffer (ascii "\r\n\r\n")
  have hpayload := read_after m buffer (ascii "\r\n\r\n")
  unfold Search.before at hheader
  unfold Search.after at hpayload
  unfold httpParseRequest parseRequest
  simp only [contentLength_all_iff]
  cases hfind : Search.find (ascii "\r\n\r\n") (m.read buffer) with
  | none =>
    rw [hfind] at hlen
    rw [if_pos (hlen.trans (if_neg (by decide)))]
    rfl
  | some found =>
    rw [hfind] at hlen hheader hpayload
    rw [if_neg (by rw [hlen.trans (if_pos rfl)]; exact hpos)]
    dsimp only [Option.map_some, Option.getD_some] at hheader hpayload ⊢
    rw [hheader, ← Memory.length_read (m := m), hpayload]
    split_ifs with hlength
    · rw [HttpRequest.read, hheader, hpayload, read_before, read_after, hheader, address]
    · rfl

/-- **The answer to a handshake** is made from the header. -/
theorem httpWebsocketAccept_eq (accept : List UInt8 → List UInt8) (m : Memory)
    (request : HttpRequest) :
    httpWebsocketAccept accept m request = websocketAccept accept (m.read request.header) := by
  rw [httpWebsocketAccept, read_httpExtractParam, read_httpExtractParam]
  rfl

end SleepyText.Server
