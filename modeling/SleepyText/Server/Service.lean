import SleepyText.Server.Footprints
import SleepyText.Server.Framing

set_option relaxedAutoImplicit false
set_option autoImplicit false

/-!
# The service that the server gives

What the server is for, without its memory: a request is a header, an address and a payload, and
the answer to it is a status, header fields and a payload, made from the tables and the files as
they are.

## Main definitions

* `Reply`, `Reply.header`, `Reply.body` — an answer, and its bytes.
* `Callback.reply`, `reply` — what a handler answers, and what the server does.
* `RawResponse.Reads` — a response in memory stands for an answer.

## Main results

* `run_reply`, `respond_reply` — the handlers answer so, wherever the request stands.
* `respondWith_reply` — and these bytes are handed over.
* `answer_spec` — and nothing else of the memory is changed.
-/

namespace SleepyText.Server

open Footprint

/-! ## Answers -/

/-- An answer; the payload is `none` when it could not be read, and its length is -1 then. -/
structure Reply where
  status : HttpResult
  fields : List (List UInt8 × List UInt8)
  payload : Option (List UInt8)
  deriving DecidableEq, Repr

/-- An answer that is a status only. -/
def Reply.plain (status : HttpResult) : Reply := ⟨status, [], some []⟩

/-- The length of the payload, as a `size_t`. -/
def Reply.payloadLen (r : Reply) : ℕ := (r.payload.map List.length).getD (toSize (-1))

/-- A header field. -/
def fieldLine (f : List UInt8 × List UInt8) : List UInt8 := f.1 ++ ascii ": " ++ f.2 ++ [13, 10]

/-- The header of an answer. -/
def Reply.header (r : Reply) : List UInt8 :=
  statusLine r.status ++ bodyLines r.status r.payloadLen ++ r.fields.flatMap fieldLine ++ [13, 10]

/-- The bytes behind the header. -/
def Reply.body (r : Reply) : List UInt8 := r.payload.getD []

/-- The answer of a handler to a request, and the tables and the files after it. Behind the payload
stand the bytes `beyond`. `none` stands for a listing that overruns its block. -/
def Callback.reply (w : World) (beyond : List UInt8) (r : Parsed) (s : ServerState) :
    Callback → Option (Reply × ServerState)
  | .root => some (⟨.ok, [], (w.readable s.dir (ascii "html/main.html")).map fun c =>
      c.take (2 ^ 20)⟩, s)
  | .newbranch =>
    let user := headerUser r.header s.db
    if user = 0 then some (.plain .badRequest, s)
    else if w.sql.inserts then
      let db := s.db.insertbranch w.sql (bscanf r.payload w.locals) user
      some (.plain .ok, { s with db := db })
    else some (.plain .badRequest, s)
  | .branch =>
    let blobid := btoi (r.addr.drop (ascii "/api/0/branch/").length)
    let content := w.readable s.dir (resolve (branchPath "branches/" blobid))
    some (⟨.ok, [], content.map fun c => c.take (2 ^ 20)⟩, s)
  | .branches =>
    let user := headerUser r.header s.db
    let rows := s.db.selectbranches user
    if user = 0 then some (.plain .badRequest, s)
    else if Server.Overruns rows then none
    else some (⟨.ok, [], some (fitted 0 (printedRows rows))⟩, s)
  | .feed =>
    (Loop.loop (scanBody w.env beyond) (2 * r.payload.length + 2)
      (Scan.start r.payload s.dir)).map fun (status, dir) => (.plain status, { s with dir := dir })
  | .user =>
    if w.sql.inserts then
      let db := s.db.insertuser w (Search.before [10] r.payload) (Search.after [10] r.payload)
      some (.plain .ok, { s with db := db })
    else some (.plain .badRequest, s)
  | .login =>
    match s.db.selectpassword (Search.before [10] r.payload) with
    | none => some (.plain .badRequest, s)
    | some (dbpassword, session) =>
      if Search.after [10] r.payload = dbpassword then
        some (⟨.ok, [(ascii "Set-Cookie", sessionCookie session)], some []⟩, s)
      else some (.plain .badRequest, s)

/-- The answer to a handshake: its key is printed up to the first zero, which may stand in the
bytes `tail` behind it, in a block of 128 bytes. -/
def handshake (accept : List UInt8 → List UInt8) (tail header : List UInt8) : Reply :=
  let key := accept (extractParam header (ascii "Sec-WebSocket-Key") ++
    ascii "258EAFA5-E914-47DA-95CA-C5AB0DC85B11")
  let key := key.take 128
  let value := padded key.length (((key ++ tail).take 128).takeWhile (· ≠ 0))
  ⟨.switchingProtocols, [(ascii "Sec-WebSocket-Accept", value)], some []⟩

/-- **The service**: the answer to a request, and the tables and the files after it. -/
def reply (accept : List UInt8 → List UInt8) (w : World) (beyond tail : List UInt8) (r : Parsed)
    (s : ServerState) : Option (Reply × ServerState) :=
  if websocketVersion r.header = 13 then some (handshake accept tail r.header, s)
  else
    match pairs.find? fun e => AnswersTo e.2 r.addr with
    | none => some (.plain .notFound, s)
    | some (callback, _) => callback.reply w beyond r s

/-! ## Responses in memory -/

/-- The response `raw` in the memory `m` stands for an answer, and what it refers to is in the
block. The strings of its fields are looked for in 128 bytes. -/
structure RawResponse.Reads (m : Memory) (block : Bytes) (raw : RawResponse) (r : Reply) :
    Prop where
  read : raw.read m = (r.status, r.payload)
  fields : raw.headers.flatMap (headerLine m 128) = r.fields.flatMap fieldLine
  inside : r.payload.isSome → raw.payload.addresses ⊆ block.addresses ∧ raw.payload.len ≤ 2 ^ 20
  values : ∀ f ∈ raw.headers, Bytes.addresses ⟨f.val.asVoid, 128⟩ ⊆ block.addresses

section Reads

variable {m : Memory} {block : Bytes}

/-- A status alone. -/
lemma reads_rawResult (m : Memory) (block : Bytes) (status : HttpResult) :
    (rawResult status).Reads m block (.plain status) where
  read := read_rawResult m status
  fields := rfl
  inside := fun _ => ⟨by simp [rawResult, Bytes.addresses], Nat.zero_le _⟩
  values := by simp [rawResult]

/-- A payload that stands in the block. -/
lemma reads_payload {payload : Bytes} (hinside : payload.addresses ⊆ block.addresses)
    (hlen : payload.len ≤ 2 ^ 20) :
    RawResponse.Reads m block { rawResult .ok with payload := payload }
      ⟨.ok, [], some (m.read payload)⟩ where
  read := by
    have hsize : toSize (-1) = 2 ^ 64 - 1 := by decide
    unfold RawResponse.read
    rw [if_neg (by dsimp only; omega)]
    rfl
  fields := rfl
  inside := fun _ => ⟨hinside, hlen⟩
  values := by simp [rawResult]

/-- A page, in a block of its size. -/
lemma reads_readPage (m : Memory) (page : ℕ) (content : Option (List UInt8)) :
    RawResponse.Reads (readPage m page content).1 ⟨page, 2 ^ 20⟩
      { rawResult .ok with payload := (readPage m page content).2 }
      ⟨.ok, [], content.map fun c => c.take (2 ^ 20)⟩ where
  read := read_readPage m page content .ok
  fields := rfl
  inside := by
    intro hsome
    obtain ⟨c, rfl⟩ : ∃ c, content = some c := by
      cases content with
      | none => exact absurd hsome (by simp)
      | some c => exact ⟨c, rfl⟩
    exact ⟨addresses_block (List.length_take_le _ _), List.length_take_le _ _⟩
  values := by simp [rawResult]

/-- The string at an address, when it ends with a zero. -/
lemma cstring_of_read {extent a : ℕ} {text : List UInt8} (hzero : ∀ c ∈ text, c ≠ 0)
    (hextent : text.length < extent) (hread : m.read ⟨a, text.length + 1⟩ = text ++ [0]) :
    cstring m extent a = text := by
  obtain ⟨k, rfl⟩ : ∃ k, extent = text.length + 1 + k := ⟨extent - (text.length + 1), by omega⟩
  have hwhole : ∀ c ∈ text, decide (c ≠ 0) = true := fun c hc => by simpa using hzero c hc
  rw [cstring, Memory.read_add, hread, List.append_assoc, List.takeWhile_append_of_pos hwhole]
  simp

/-- No digit is zero, nor is a byte of the cookie. -/
lemma sessionCookie_ne_zero (session : ℤ) : ∀ c ∈ sessionCookie session, c ≠ 0 := by
  have hfront : (0 : UInt8) ∉ ascii "session=" := by decide
  have hback : (0 : UInt8) ∉ ascii "; path=/; secure\r\n\r\n" := by decide
  rintro c hc rfl
  rw [sessionCookie, List.mem_append, List.mem_append] at hc
  rcases hc with (hc | hc) | hc
  · exact hfront hc
  · exact absurd (Decimal.range_of_mem_print hc).1 (by decide)
  · exact hback hc

/-- **The cookie** of a login is printed as it is. -/
lemma reads_cookie (m : Memory) (block : ℕ) (session : ℤ) :
    RawResponse.Reads (bprintf m ⟨block, 128⟩ (sessionCookie session)).1 ⟨block, 128⟩
      { rawResult .ok with headers := [⟨ascii "Set-Cookie",
        (bprintf m ⟨block, 128⟩ (sessionCookie session)).2.1⟩] }
      ⟨.ok, [(ascii "Set-Cookie", sessionCookie session)], some []⟩ := by
  set text := sessionCookie session with htext
  have hlen : text.length < 128 := length_sessionCookie_lt session
  have hmem : (bprintf m ⟨block, 128⟩ text).1 = m.store block (text ++ [0]) := by
    unfold bprintf vsnprintf
    dsimp only
    rw [if_neg (by decide), List.take_of_length_le (by omega)]
  have hread : (m.store block (text ++ [0])).read ⟨block, text.length + 1⟩ = text ++ [0] := by
    have hstore := Memory.read_store (m := m) (a := block) (text ++ [0])
    rwa [List.length_append, List.length_singleton] at hstore
  have hstring : cstring (bprintf m ⟨block, 128⟩ text).1 128 block = text := by
    rw [hmem]
    exact cstring_of_read (sessionCookie_ne_zero session) hlen hread
  refine ⟨?_, ?_, fun _ => ⟨by simp [rawResult, Bytes.addresses], by simp [rawResult]⟩, ?_⟩
  · have hlen : (0 : ℕ) ≠ toSize (-1) := by decide
    exact congrArg (Prod.mk _) (if_neg hlen)
  · -- the width is the length of the text
    have hval : (bprintf m ⟨block, 128⟩ text).2.1 = ⟨block, text.length⟩ := rfl
    have hpadded (bs : List UInt8) : padded bs.length bs = bs := by simp [padded]
    rw [List.flatMap_singleton, List.flatMap_singleton, headerLine, hval]
    dsimp only
    rw [hstring, hpadded, hpadded]
    rfl
  · intro f hf
    obtain rfl := List.mem_singleton.mp hf
    exact subset_rfl

end Reads

/-! ## The handlers -/

section Handlers

variable (w : World) (m : Memory) (request : HttpRequest) (s : ServerState)

/-- What a handler leaves stands for what the service answers. -/
def Outcome.Reads (block : Bytes) (o : Outcome) (r : Reply × ServerState) : Prop :=
  o.2.1.Reads o.1 block r.1 ∧ o.2.2 = r.2

/-- The login and the password of a payload, by its bytes. -/
lemma credentials_eq (payload : Bytes) : credentials m payload =
    (Search.before [10] (m.read payload), Search.after [10] (m.read payload)) := by
  rw [credentials, read_before, read_after]

/-- A loop that both ways leaves with the same. -/
lemma feed_reply (beyond : List UInt8)
    (hbeyond : m.read ⟨request.payload.asVoid + request.payload.len, 3⟩ = beyond) :
    ∃ status f, httpCallbackFeed w.env m request.payload s.dir = some (status, f) ∧
      Loop.loop (scanBody w.env beyond) (2 * (m.read request.payload).length + 2)
        (Scan.start (m.read request.payload) s.dir) = some (status, f.dir) := by
  subst hbeyond
  obtain ⟨status, f, hfeed, hleaves⟩ := httpCallbackFeed_spec w.env m request.payload s.dir
  obtain ⟨r, hscan⟩ := @scan_isSome
    (m.read ⟨request.payload.asVoid + request.payload.len, 3⟩) w.env (m.read request.payload) s.dir
  have hsame := (Loop.leaves_of_loop hscan).unique hleaves
  exact ⟨status, f, hfeed, by rw [hscan, hsame]⟩

/-- **The listing** of the rows of a user. -/
lemma branches_reply {r : Parsed} (beyond : List UInt8)
    (huser : getuserid m request.header s.db = headerUser r.header s.db) :
    Option.Rel (Outcome.Reads ⟨w.block, 4096⟩)
      (if Callback.branches.Overruns m request s then none
        else Callback.branches.run w m request s)
      (Callback.branches.reply w beyond r s) := by
  set user := headerUser r.header s.db
  set rows := s.db.selectbranches user with hrows
  have hoverruns : Callback.branches.Overruns m request s ↔ user ≠ 0 ∧ Overruns rows := by
    rw [hrows, ← huser]
    exact Iff.rfl
  have hrun : Callback.branches.run w m request s =
      let r := httpCallbackBranches user rows m w.block
      some (r.2.1, { rawResult r.1 with payload := r.2.2 }, s) := by
    rw [Callback.run, huser]
  have hreply : Callback.branches.reply w beyond r s = if user = 0 then some (.plain .badRequest, s)
      else if Overruns rows then none
      else some (⟨.ok, [], some (fitted 0 (printedRows rows))⟩, s) := rfl
  rw [hrun, hreply]
  by_cases hzero : user = 0
  · rw [if_neg fun h => (hoverruns.mp h).1 hzero, if_pos hzero, httpCallbackBranches, if_pos hzero]
    exact .some ⟨reads_rawResult _ _ _, rfl⟩
  · by_cases hlong : Overruns rows
    · rw [if_pos (hoverruns.mpr ⟨hzero, hlong⟩), if_neg hzero, if_pos hlong]
      exact .none
    · have hfit : (printedRows rows).length ≤ 4096 := not_lt.mp hlong
      obtain ⟨m', hspec, hread⟩ := httpCallbackBranches_spec hzero rows m w.block hfit
      rw [if_neg fun h => hlong (hoverruns.mp h).2, if_neg hzero, if_neg hlong, hspec, ← hread]
      refine .some ⟨reads_payload (addresses_block hfit) ?_, rfl⟩
      dsimp only
      omega

/-- **The handlers** answer as the service does, wherever the request stands. -/
theorem run_reply {r : Parsed} (hr : request.read m = r) (callback : Callback) :
    Option.Rel (Outcome.Reads ⟨w.block, callback.allocates⟩)
      (if callback.Overruns m request s then none else callback.run w m request s)
      (callback.reply w (m.read ⟨request.payload.asVoid + request.payload.len, 3⟩) r s) := by
  have hheader : m.read request.header = r.header := congrArg Parsed.header hr
  have hpayload : m.read request.payload = r.payload := congrArg Parsed.payload hr
  have haddr : m.read request.addr = r.addr := congrArg Parsed.addr hr
  by_cases hcallback : callback = .branches
  · subst hcallback
    exact branches_reply w m request s _ (by rw [getuserid_eq, hheader])
  rw [if_neg fun h => hcallback h.eq_branches]
  cases callback with
  | branches => exact absurd rfl hcallback
  | root => exact .some ⟨reads_readPage _ _ _, rfl⟩
  | newbranch =>
    unfold Callback.run Callback.reply httpCallbackNewbranch
    rw [getuserid_eq, hheader, hpayload]
    dsimp only
    split_ifs <;> exact .some ⟨reads_rawResult _ _ _, rfl⟩
  | branch =>
    unfold Callback.run Callback.reply httpCallbackBranch
    rw [read_bslice_zero, haddr]
    refine .some ⟨?_, rfl⟩
    generalize w.readable s.dir (resolve (branchPath "branches/"
      (btoi (r.addr.drop (ascii "/api/0/branch/").length)))) = content
    have htake : (content.map fun c => c.take (2 ^ 20)).map (fun c => c.take (2 ^ 20)) =
        content.map fun c => c.take (2 ^ 20) := by
      cases content <;> simp [List.take_take]
    have hreads := reads_readPage m w.block (content.map fun c => c.take (2 ^ 20))
    rwa [htake] at hreads
  | feed =>
    obtain ⟨status, f, hfeed, hscan⟩ := feed_reply w m request s _ rfl
    rw [hpayload] at hscan
    unfold Callback.run Callback.reply
    rw [hfeed, hscan]
    exact .some ⟨reads_rawResult _ _ _, rfl⟩
  | user =>
    unfold Callback.run Callback.reply httpCallbackUser
    rw [credentials_eq, hpayload]
    dsimp only
    split_ifs <;> exact .some ⟨reads_rawResult _ _ _, rfl⟩
  | login =>
    unfold Callback.run Callback.reply httpCallbackLogin
    rw [credentials_eq, hpayload]
    dsimp only
    cases s.db.selectpassword (Search.before [10] r.payload) with
    | none => exact .some ⟨reads_rawResult _ _ _, rfl⟩
    | some row =>
      obtain ⟨dbpassword, session⟩ := row
      dsimp only
      by_cases heq : Search.after [10] r.payload = dbpassword
      · rw [if_pos heq, if_pos heq]
        exact .some ⟨reads_cookie m w.block session, rfl⟩
      · rw [if_neg heq, if_neg heq]
        exact .some ⟨reads_rawResult m _ .badRequest, rfl⟩

end Handlers

/-! ## All requests -/

section Requests

variable {accept : List UInt8 → List UInt8} (w : World) {m : Memory}

/-- **The answer to a handshake**: behind the key in its block stand some other bytes. -/
lemma reads_handshake (m : Memory) {header : List UInt8}
    (hversion : websocketVersion header = 13) : ∃ tail : List UInt8,
    RawResponse.Reads (rawAccept w m (websocketAccept accept header)).1 ⟨w.block, 128⟩
      (rawAccept w m (websocketAccept accept header)).2 (handshake accept tail header) := by
  rw [websocketAccept, if_neg (by simpa using hversion)]
  unfold handshake
  set key := (accept (extractParam header (ascii "Sec-WebSocket-Key") ++
    ascii "258EAFA5-E914-47DA-95CA-C5AB0DC85B11")).take 128 with hkey
  have hlen : key.length ≤ 128 := List.length_take_le _ _
  have hread : (m.store w.block key).read ⟨w.block, 128⟩ =
      key ++ (m.store w.block key).read ⟨w.block + key.length, 128 - key.length⟩ := by
    conv_lhs => rw [← Nat.add_sub_cancel' hlen, Memory.read_add, Memory.read_store]
  refine ⟨(m.store w.block key).read ⟨w.block + key.length, 128 - key.length⟩, ?_, ?_,
    fun _ => ⟨by simp [rawAccept, httpResult, Bytes.addresses], by simp [rawAccept, httpResult]⟩,
    ?_⟩
  · have hzero : (0 : ℕ) ≠ toSize (-1) := by decide
    exact congrArg (Prod.mk _) (if_neg hzero)
  · have hpadded (bs : List UInt8) : padded bs.length bs = bs := by simp [padded]
    have htake : (key ++ (m.store w.block key).read
        ⟨w.block + key.length, 128 - key.length⟩).take 128 =
        (m.store w.block key).read ⟨w.block, 128⟩ := by
      rw [← hread, List.take_of_length_le (by rw [Memory.length_read])]
    simp only [rawAccept, List.flatMap_singleton, headerLine, fieldLine, ← hkey]
    rw [cstring, hpadded, htake]
  · intro f hf
    obtain rfl := List.mem_singleton.mp hf
    exact subset_rfl

/-- **The server answers as the service does**, to a request that the parser finds wherever it
stands in the memory. -/
theorem respond_reply {buffer : Bytes} (s : ServerState)
    (haddr : 0 < (httpParseRequest m buffer).addr.len) : ∃ tail,
    Option.Rel (Outcome.Reads (responseBlock w m (httpParseRequest m buffer)))
      (respond accept w m (httpParseRequest m buffer) s)
      (reply accept w (m.read ⟨(httpParseRequest m buffer).payload.asVoid +
        (httpParseRequest m buffer).payload.len, 3⟩) tail (parseRequest (m.read buffer)) s) := by
  have hread := read_httpParseRequest m buffer
  generalize parseRequest (m.read buffer) = r at hread ⊢
  have hdispatch := dispatch_eq_find? routable_pairs haddr (byte_behind_addr buffer haddr)
  generalize httpParseRequest m buffer = request at hread hdispatch ⊢
  have hheader : m.read request.header = r.header := congrArg Parsed.header hread
  have haddr : m.read request.addr = r.addr := congrArg Parsed.addr hread
  unfold respond responseBlock reply
  rw [httpWebsocketAccept_eq, hheader]
  dsimp only
  by_cases hversion : websocketVersion r.header = 13
  · obtain ⟨tail, hreads⟩ := @reads_handshake accept w m _ hversion
    refine ⟨tail, ?_⟩
    have hstatus : (rawAccept w m (websocketAccept accept r.header)).2.status =
        .switchingProtocols := congrArg Prod.fst hreads.read
    rw [if_pos hversion, if_neg (by simpa using hstatus), if_pos hversion]
    exact .some ⟨hreads, rfl⟩
  · refine ⟨[], ?_⟩
    have hstatus : (rawAccept w m (httpResult .badRequest)).2.status ≠ .switchingProtocols := by
      simp [rawAccept, httpResult]
    rw [websocketAccept, if_pos hversion, if_neg hversion, if_neg hversion, if_pos hstatus,
      dispatch, hdispatch, haddr]
    cases pairs.find? fun e => AnswersTo e.2 r.addr with
    | none => exact .some ⟨reads_rawResult _ _ _, rfl⟩
    | some entry => exact run_reply w m request s hread entry.1

/-! ## The bytes that are handed over -/

/-- Status lines are short. -/
lemma length_statusLine_lt (status : HttpResult) : (statusLine status).length < 64 := by
  cases status <;> decide

/-- The lines about the body are short. -/
lemma length_bodyLines_lt (status : HttpResult) (len : ℕ) : (bodyLines status len).length < 64 := by
  have hrange := toInt64_range len
  have hprint : (Decimal.print (toInt64 len)).length ≤ 20 :=
    Decimal.length_print_le (k := 19) (by omega) (by omega)
  have hascii : (ascii "Content-Length: ").length = 16 ∧
      (ascii "Upgrade: websocket\r\nConnection: Upgrade\r\n").length = 41 := by decide
  unfold bodyLines
  split_ifs
  · omega
  · simp only [List.length_append, List.length_cons, List.length_nil]
    omega

/-- Padding only fills up. -/
lemma length_padded (width : ℕ) (text : List UInt8) :
    (padded width text).length = max width text.length := by
  simp only [padded, List.length_append, List.length_replicate]
  omega

/-- The header of an answer whose fields are short. -/
lemma length_header_lt {r : Reply} (hfields : (r.fields.flatMap fieldLine).length ≤ 1024) :
    r.header.length < 4096 := by
  have hstatus := length_statusLine_lt r.status
  have hbody := length_bodyLines_lt r.status r.payloadLen
  simp only [Reply.header, List.length_append, List.length_cons, List.length_nil]
  omega

/-- A field with its separator and line break. -/
lemma length_fieldLine (name value : List UInt8) :
    (fieldLine (name, value)).length = name.length + value.length + 4 := by
  have hascii : (ascii ": ").length = 2 := by decide
  simp only [fieldLine, List.length_append, hascii, List.length_cons, List.length_nil]
  omega

/-- The fields of the answer of a handler are short. -/
lemma length_fields_reply_le {beyond : List UInt8} {r : Parsed} {s s' : ServerState}
    {callback : Callback} {a : Reply} (h : callback.reply w beyond r s = some (a, s')) :
    (a.fields.flatMap fieldLine).length ≤ 1024 := by
  cases callback with
  | root | branch =>
    obtain rfl := congrArg Prod.fst (Option.some.inj h)
    simp
  | newbranch | branches | user =>
    simp only [Callback.reply] at h
    split_ifs at h
    all_goals
      obtain rfl := congrArg Prod.fst (Option.some.inj h)
      simp [Reply.plain]
  | feed =>
    obtain ⟨o, -, hout⟩ := Option.map_eq_some_iff.mp h
    obtain rfl := congrArg Prod.fst hout
    simp [Reply.plain]
  | login =>
    simp only [Callback.reply] at h
    split at h
    · obtain rfl := congrArg Prod.fst (Option.some.inj h)
      simp [Reply.plain]
    · rename_i session _
      split_ifs at h
      · obtain rfl := congrArg Prod.fst (Option.some.inj h)
        have hcookie := length_sessionCookie_lt session
        have hname : (ascii "Set-Cookie").length = 10 := by decide
        rw [List.flatMap_singleton, length_fieldLine]
        omega
      · obtain rfl := congrArg Prod.fst (Option.some.inj h)
        simp [Reply.plain]

/-- **The header of an answer** fits into its block. -/
theorem length_header_reply_lt {beyond tail : List UInt8} {r : Parsed} {s s' : ServerState}
    {a : Reply} (h : reply accept w beyond tail r s = some (a, s')) : a.header.length < 4096 := by
  apply length_header_lt
  unfold reply at h
  split_ifs at h with hversion
  · obtain rfl := congrArg Prod.fst (Option.some.inj h)
    have hname : (ascii "Sec-WebSocket-Accept").length = 20 := by decide
    unfold handshake
    dsimp only
    rw [List.flatMap_singleton, length_fieldLine, length_padded]
    have hkey (bs : List UInt8) : (bs.take 128).length ≤ 128 := List.length_take_le _ _
    have hstring (bs : List UInt8) : ((bs.take 128).takeWhile (· ≠ 0)).length ≤ 128 :=
      (List.takeWhile_sublist _).length_le.trans (hkey bs)
    rw [hname]
    exact (Nat.add_le_add_right (Nat.add_le_add_left (max_le (hkey _) (hstring _)) _) _).trans
      (by norm_num)
  · split at h
    · obtain rfl := congrArg Prod.fst (Option.some.inj h)
      simp [Reply.plain]
    · exact length_fields_reply_le w h

/-- The length of a payload is the one of the answer. -/
lemma payload_len_of_reads {block : Bytes} {raw : RawResponse} {r : Reply}
    (h : raw.Reads m block r) : raw.payload.len = r.payloadLen := by
  have hpayload := congrArg Prod.snd h.read
  dsimp only [RawResponse.read] at hpayload
  unfold Reply.payloadLen
  rw [← hpayload]
  split_ifs with hnone
  · exact hnone
  · simp

/-- The header that is assembled is the one of the answer. -/
lemma headerText_of_reads {block : Bytes} {raw : RawResponse} {r : Reply}
    (h : raw.Reads m block r) : headerText m 128 raw = r.header := by
  have hstatus : raw.status = r.status := congrArg Prod.fst h.read
  rw [headerText, Reply.header, hstatus, payload_len_of_reads h, h.fields]

/-- The header of an answer is written to its block only. -/
lemma changedIn_assembleResponse {block : Bytes} {response : ℕ} {raw : RawResponse} {r : Reply}
    (h : raw.Reads m block r) (hshort : r.header.length < 4096)
    (hdisjoint : Disjoint block.addresses (Bytes.addresses ⟨response, 4096⟩)) :
    ChangedIn (Bytes.addresses ⟨response, 4096⟩) m
      (httpAssembleResponse 128 response m raw).1 := by
  apply httpAssembleResponse_footprint
  · intro f hf
    exact hdisjoint.mono_left (h.values f hf)
  · rwa [headerText_of_reads h]

/-- **What is handed over** for a response: the header and the payload of the answer, when the
header fits and the blocks are disjoint. -/
theorem respondWith_reply {block : Bytes} {response : ℕ} {raw : RawResponse} {r : Reply}
    (h : raw.Reads m block r) (hshort : r.header.length < 4096)
    (hdisjoint : Disjoint block.addresses (Bytes.addresses ⟨response, 4096⟩)) :
    respondWith 128 response m raw = (r.header, r.body) := by
  have htext := headerText_of_reads h
  have hrange : ∀ f ∈ raw.headers,
      f.val.asVoid + 128 ≤ response ∨ response + 4096 ≤ f.val.asVoid := fun f hf =>
    (disjoint_addresses_iff (by simp) (by simp)).mp (hdisjoint.mono_left (h.values f hf))
  have hchanged := changedIn_assembleResponse h hshort hdisjoint
  rw [← htext] at hshort
  obtain ⟨m', heq, hread⟩ := httpAssembleResponse_spec hrange hshort
  rw [heq] at hchanged
  rw [respondWith, heq]
  dsimp only
  rw [sslWritten_of_lt (by dsimp only; omega), hread, htext]
  apply congrArg (Prod.mk r.header)
  have hpayload := congrArg Prod.snd h.read
  dsimp only [RawResponse.read] at hpayload
  unfold Reply.body
  rw [← hpayload]
  split_ifs with hnone
  · -- the length is -1, and nothing is handed over
    have hzero : (toInt (toSize (-1))).toNat = 0 := by decide
    rw [sslWritten, hnone, hzero]
    rfl
  · rw [if_neg hnone] at hpayload
    obtain ⟨hinside, hlen⟩ := h.inside (by rw [← hpayload]; rfl)
    rw [sslWritten_of_lt (by omega)]
    exact read_of_changedIn hchanged (hdisjoint.mono_left hinside)

/-- What is behind a match is in the range. -/
lemma addresses_after (m : Memory) (input : Bytes) (what : List UInt8) :
    (bfind m input what).after.addresses ⊆ input.addresses := by
  unfold bfind
  cases hsearch : Search.search what 0 0 (m.read input) with
  | none => simp [Bytes.addresses]
  | some i =>
    have hlt := Search.lt_of_search hsearch
    rw [Memory.length_read] at hlt
    apply Set.Ico_subset_Ico
    · dsimp only
      omega
    · dsimp only
      omega

/-- The payload of a request is in its buffer. -/
lemma addresses_payload (m : Memory) (buffer : Bytes) :
    (httpParseRequest m buffer).payload.addresses ⊆ buffer.addresses := by
  unfold httpParseRequest
  dsimp only
  split_ifs
  · simp [Bytes.addresses]
  · simp [Bytes.addresses]
  · exact addresses_after _ _ _

/-- **A request is answered** as the service answers it, and nothing is written outside of the
buffer that it stands in and the two blocks of the response. -/
theorem answer_spec {buffer : Bytes} {response : ℕ} {m' : Memory} {raw : RawResponse}
    {s s' : ServerState} (haddr : 0 < (httpParseRequest m buffer).addr.len)
    (hdisjoint : Disjoint (responseBlock w m (httpParseRequest m buffer)).addresses
      (Bytes.addresses ⟨response, 4096⟩))
    (hrespond : respond accept w m (httpParseRequest m buffer) s = some (m', raw, s')) :
    (∃ tail a, reply accept w (m.read ⟨(httpParseRequest m buffer).payload.asVoid +
        (httpParseRequest m buffer).payload.len, 3⟩) tail (parseRequest (m.read buffer)) s =
          some (a, s') ∧
        raw.status = a.status ∧
        (httpAssembleResponse 128 response m' raw).2.payload.len = a.payloadLen ∧
        (sslWritten (httpAssembleResponse 128 response m' raw).1
            (httpAssembleResponse 128 response m' raw).2.header,
          sslWritten (httpAssembleResponse 128 response m' raw).1
            (httpAssembleResponse 128 response m' raw).2.payload) = (a.header, a.body)) ∧
      ChangedIn (buffer.addresses ∪ ((responseBlock w m (httpParseRequest m buffer)).addresses ∪
        Bytes.addresses ⟨response, 4096⟩)) m (httpAssembleResponse 128 response m' raw).1 := by
  obtain ⟨tail, hrel⟩ := respond_reply w s haddr
  rw [hrespond] at hrel
  generalize hreply : reply accept w _ tail _ s = answer at hrel
  cases hrel with
  | @some _ r hreads =>
    obtain ⟨a, state⟩ := r
    obtain ⟨hraw, rfl⟩ := hreads
    have hshort := length_header_reply_lt w hreply
    refine ⟨⟨tail, a, hreply, congrArg Prod.fst hraw.read, payload_len_of_reads hraw,
      respondWith_reply hraw hshort hdisjoint⟩, ?_⟩
    have hhandler := (respond_footprint hrespond).mono
      (Set.union_subset_union_left _ (addresses_payload m buffer))
    have hheader := changedIn_assembleResponse hraw hshort hdisjoint
    refine (hhandler.mono ?_).trans (hheader.mono ?_)
    · exact Set.union_subset_union_right _ Set.subset_union_left
    · exact Set.subset_union_right.trans Set.subset_union_right

end Requests

end SleepyText.Server
