import SleepyText.Lib.Lines
import SleepyText.Server.Listing

set_option relaxedAutoImplicit false
set_option autoImplicit false

/-!
# Response framing

`http_assemble_response` prints the header of a response into a block of 4096 bytes, one piece
behind the other. The values of header fields are printed with `%*s`, so up to the first zero byte
behind them, and their recorded lengths are only widths.

## Main definitions

* `HttpHeader`, `RawResponse` — a response with its fields where they stand in memory.
* `httpAssembleResponse` — the header that is printed.
* `sslWritten`, `respondWith` — the bytes that are handed to `SSL_write`.
* `Framed` — what is handed over is one message.

## Main results

* `httpAssembleResponse_spec` — the header of a response without fields.
* `framed_iff_of_no_headers` — such a response is framed exactly when the length of its payload is
  the number of bytes handed over.
-/

namespace SleepyText.Server

/-! ## Assembling a response -/

/-- A header field: a string of the source, and a value somewhere in memory. -/
structure HttpHeader where
  name : List UInt8
  val : Bytes
  deriving DecidableEq, Repr

/-- `struct http_raw_response`, with its fields where they stand in memory. -/
structure RawResponse where
  status : HttpResult
  payload : Bytes
  headers : List HttpHeader
  deriving DecidableEq, Repr

/-- `http_result`. -/
def rawResult (status : HttpResult) : RawResponse := ⟨status, ⟨0, 0⟩, []⟩

/-- The string at an address: the bytes before the first zero, which is looked for in `extent`
bytes. -/
def cstring (m : Memory) (extent a : ℕ) : List UInt8 := (m.read ⟨a, extent⟩).takeWhile (· ≠ 0)

/-- `"%*s"`: the string, filled up with spaces to a width. -/
def padded (width : ℕ) (text : List UInt8) : List UInt8 :=
  List.replicate (width - text.length) 32 ++ text

/-- `"HTTP/1.1 %*s\r\n"`, with the text of the status. -/
def statusLine (status : HttpResult) : List UInt8 :=
  ascii "HTTP/1.1 " ++ padded (httpResultText status).length (httpResultText status) ++ [13, 10]

/-- The lines that follow: those of a handshake, or `"Content-Length: %zd\r\n"`. -/
def bodyLines (status : HttpResult) (len : ℕ) : List UInt8 :=
  if status = .switchingProtocols then
    ascii "Upgrade: websocket\r\nConnection: Upgrade\r\n"
  else ascii "Content-Length: " ++ Decimal.print (toInt64 len) ++ [13, 10]

/-- `"%*s: %*s\r\n"`, with a header field. -/
def headerLine (m : Memory) (extent : ℕ) (h : HttpHeader) : List UInt8 :=
  padded h.name.length h.name ++ ascii ": " ++
    padded h.val.len (cstring m extent h.val.asVoid) ++ [13, 10]

/-- The loop over the header fields, behind what is printed up to `p`. -/
def headersLoop (extent : ℕ) : List HttpHeader → Memory → Bytes → Memory × Bytes
  | [], m, p => (m, p)
  | h :: headers, m, p =>
    let (m, _, p) := bprintf m p (headerLine m extent h)
    headersLoop extent headers m p

/-- `struct http_response`. -/
structure HttpResponse where
  header : Bytes
  payload : Bytes
  deriving DecidableEq, Repr

/-- `http_assemble_response`; `balloc` returned the address `block`. -/
def httpAssembleResponse (extent block : ℕ) (m : Memory) (raw : RawResponse) :
    Memory × HttpResponse :=
  let (m, _, p) := bprintf m ⟨block, 4096⟩ (statusLine raw.status)
  let (m, _, p) := bprintf m p (bodyLines raw.status raw.payload.len)
  let (m, p) := headersLoop extent raw.headers m p
  let (m, _, p) := bprintf m p [13, 10]
  (m, ⟨⟨block, p.asVoid - block⟩, raw.payload⟩)

/-- The bytes handed to `SSL_write`, whose length is an `int`; without a positive one it hands over
nothing. -/
def sslWritten (m : Memory) (b : Bytes) : List UInt8 := m.read ⟨b.asVoid, (toInt b.len).toNat⟩

@[simp] lemma length_sslWritten (m : Memory) (b : Bytes) :
    (sslWritten m b).length = (toInt b.len).toNat := by
  simp [sslWritten]

lemma sslWritten_of_lt {m : Memory} {b : Bytes} (h : b.len < 2 ^ 31) :
    sslWritten m b = m.read b := by
  rw [sslWritten, toInt_of_range (by omega) (by omega), Int.toNat_natCast]

/-- The two calls of `SSL_write` for a response: the header, and the payload. -/
def respondWith (extent block : ℕ) (m : Memory) (raw : RawResponse) : List UInt8 × List UInt8 :=
  let (m, final) := httpAssembleResponse extent block m raw
  (sslWritten m final.header, sslWritten m final.payload)

/-- What is handed over for a response is one message: each header line is the name, `': '` and
the value, by their lengths and without a line break in them, the first empty line ends the header,
and the length that is printed is that of the payload. -/
structure Framed (extent block : ℕ) (m : Memory) (raw : RawResponse) : Prop where
  lines : (respondWith extent block m raw).1 =
    statusLine raw.status ++ bodyLines raw.status raw.payload.len ++
      raw.headers.flatMap (fun h => h.name ++ ascii ": " ++ m.read h.val ++ [13, 10]) ++ [13, 10]
  clean : ∀ h ∈ raw.headers, ∀ c ∈ h.name ++ m.read h.val, c ≠ 13 ∧ c ≠ 10
  boundary : Lines.FirstEnd 13 10 (respondWith extent block m raw).1
    ((respondWith extent block m raw).1 ++ (respondWith extent block m raw).2)
  length : raw.status ≠ .switchingProtocols →
    toInt64 raw.payload.len = (respondWith extent block m raw).2.length

/-! ## What is printed -/

/-- What is printed into a block of 4096 bytes so far, with room for the zero behind it, and the
range behind it. -/
structure Printed (block : ℕ) (m : Memory) (p : Bytes) (text : List UInt8) : Prop where
  fits : text.length < 4096
  rest : p = ⟨block + text.length, 4096 - text.length⟩
  read : m.read ⟨block, text.length⟩ = text

section Printed

variable {block extent : ℕ} {m : Memory} {p : Bytes} {text : List UInt8}

lemma printed_nil (block : ℕ) (m : Memory) : Printed block m ⟨block, 4096⟩ [] :=
  ⟨by simp, rfl, rfl⟩

/-- **One piece** is printed behind the others. -/
lemma Printed.piece (h : Printed block m p text) (piece : List UInt8)
    (hfit : text.length + piece.length < 4096) :
    Printed block (bprintf m p piece).1 (bprintf m p piece).2.2 (text ++ piece) := by
  obtain ⟨hlt, rfl, hread⟩ := h
  rw [← List.length_append] at hfit
  refine ⟨hfit, ?_, ?_⟩
  · have hleft : sizeSub (4096 - text.length) piece.length = 4096 - (text ++ piece).length := by
      rw [List.length_append] at hfit ⊢
      rw [sizeSub, if_pos (by omega)]
      omega
    rw [← hleft, List.length_append, ← Nat.add_assoc]
    rfl
  · rw [List.length_append] at hfit ⊢
    rw [read_bprintf m block piece hlt (by omega), hread, fitted_of_lt hfit]

/-- Printing into a block leaves the memory outside of it. -/
lemma Printed.read_piece (h : Printed block m p text) (piece : List UInt8) {b : Bytes}
    (hb : b.asVoid + b.len ≤ block ∨ block + 4096 ≤ b.asVoid) :
    (bprintf m p piece).1.read b = m.read b := by
  obtain ⟨hlt, rfl, -⟩ := h
  have hne : 4096 - text.length ≠ 0 := by omega
  unfold bprintf vsnprintf
  dsimp only
  rw [if_neg hne]
  apply Memory.read_store_of_disjoint
  rw [List.length_append, List.length_take, List.length_singleton]
  omega

/-- **The fields** are printed one behind the other, when their values stand outside of the
block. -/
lemma Printed.fields (h : Printed block m p text) {headers : List HttpHeader}
    (houtside : ∀ f ∈ headers, f.val.asVoid + extent ≤ block ∨ block + 4096 ≤ f.val.asVoid)
    (hfit : (text ++ headers.flatMap (headerLine m extent)).length < 4096) :
    Printed block (headersLoop extent headers m p).1 (headersLoop extent headers m p).2
      (text ++ headers.flatMap (headerLine m extent)) := by
  induction headers generalizing m p text with
  | nil => simpa [headersLoop] using h
  | cons f headers ih =>
    rw [List.flatMap_cons, ← List.append_assoc] at hfit ⊢
    have hpiece : text.length + (headerLine m extent f).length < 4096 := by
      rw [List.length_append, List.length_append] at hfit
      omega
    -- the lines of the others are still the same
    have hlines : headers.flatMap (headerLine m extent) =
        headers.flatMap (headerLine (bprintf m p (headerLine m extent f)).1 extent) := by
      apply List.flatMap_congr
      intro g hg
      rw [headerLine, headerLine, cstring, cstring,
        h.read_piece _ (houtside g (List.mem_cons_of_mem _ hg))]
    rw [hlines] at hfit ⊢
    exact ih (h.piece _ hpiece) (fun g hg => houtside g (List.mem_cons_of_mem _ hg)) hfit

end Printed

/-- The header of a response. -/
def headerText (m : Memory) (extent : ℕ) (raw : RawResponse) : List UInt8 :=
  statusLine raw.status ++ bodyLines raw.status raw.payload.len ++
    raw.headers.flatMap (headerLine m extent) ++ [13, 10]

/-- **The header** is the text of its lines, when it fits into the block and the values of its
fields stand outside of the block. -/
theorem httpAssembleResponse_spec {extent block : ℕ} {m : Memory} {raw : RawResponse}
    (houtside : ∀ f ∈ raw.headers, f.val.asVoid + extent ≤ block ∨ block + 4096 ≤ f.val.asVoid)
    (hfit : (headerText m extent raw).length < 4096) :
    ∃ m', httpAssembleResponse extent block m raw =
        (m', ⟨⟨block, (headerText m extent raw).length⟩, raw.payload⟩) ∧
      m'.read ⟨block, (headerText m extent raw).length⟩ = headerText m extent raw := by
  have hlen := hfit
  unfold headerText at hlen
  simp only [List.length_append] at hlen
  have hstatus := (printed_nil block m).piece (statusLine raw.status) (by simp; omega)
  rw [List.nil_append] at hstatus
  have hbody := hstatus.piece (bodyLines raw.status raw.payload.len) (by omega)
  set first := bprintf m ⟨block, 4096⟩ (statusLine raw.status) with hfirst
  set second := bprintf first.1 first.2.2 (bodyLines raw.status raw.payload.len) with hsecond
  have hlines : raw.headers.flatMap (headerLine second.1 extent) =
      raw.headers.flatMap (headerLine m extent) := by
    apply List.flatMap_congr
    intro f hf
    rw [headerLine, headerLine, cstring, cstring, hsecond,
      hstatus.read_piece _ (houtside f hf), hfirst,
      (printed_nil block m).read_piece _ (houtside f hf)]
  have hfields := hbody.fields houtside
    (by rw [hlines]; simp only [List.length_append]; omega)
  rw [hlines] at hfields
  have hend := hfields.piece [13, 10]
    (by simp only [List.length_append]; simpa using hlen)
  have hasVoid := congrArg (fun b : Bytes => b.asVoid - block) hend.rest
  dsimp only at hasVoid
  rw [Nat.add_sub_cancel_left] at hasVoid
  refine ⟨_, ?_, hend.read⟩
  rw [headerText, ← hasVoid]
  rfl

/-! ## Responses without fields -/

/-- The lines of the header of a response without fields. -/
def plainLines (status : HttpResult) (len : ℕ) : List (List UInt8) :=
  [ascii "HTTP/1.1 " ++ httpResultText status,
    ascii "Content-Length: " ++ Decimal.print (toInt64 len)]

lemma headerText_eq_block {m : Memory} {extent : ℕ} {raw : RawResponse}
    (hheaders : raw.headers = []) (hstatus : raw.status ≠ .switchingProtocols) :
    headerText m extent raw = Lines.block 13 10 (plainLines raw.status raw.payload.len) := by
  simp [headerText, hheaders, statusLine, padded, bodyLines, hstatus, Lines.block, plainLines]

/-- No line is empty or has a line break in it. -/
lemma plainLines_ok (status : HttpResult) (len : ℕ) :
    ∀ l ∈ plainLines status len, l ≠ [] ∧ (13 : UInt8) ∉ l := by
  have htext : (13 : UInt8) ∉ ascii "HTTP/1.1 " ++ httpResultText status := by
    cases status <;> decide
  have hlen : (13 : UInt8) ∉ ascii "Content-Length: " ++ Decimal.print (toInt64 len) := by
    rw [List.mem_append]
    rintro (h | h)
    · exact absurd h (by decide)
    · exact absurd (Decimal.range_of_mem_print h).1 (by decide)
  simp only [plainLines, List.forall_mem_cons]
  exact ⟨⟨by simp [ascii], htext⟩, ⟨by simp [ascii], hlen⟩, by simp⟩

lemma length_plainLines_lt (status : HttpResult) (len : ℕ) :
    (Lines.block (13 : UInt8) 10 (plainLines status len)).length < 128 := by
  have hrange := toInt64_range len
  have hprint : (Decimal.print (toInt64 len)).length ≤ 20 :=
    Decimal.length_print_le (k := 19) (by omega) (by omega)
  have htext : (httpResultText status).length ≤ 25 := by cases status <;> decide
  have hascii : (ascii "HTTP/1.1 ").length = 9 ∧ (ascii "Content-Length: ").length = 16 := by decide
  simp only [Lines.block, plainLines, List.flatMap_cons, List.flatMap_nil, List.length_append,
    List.length_cons, List.length_nil]
  omega

/-- **Responses without fields** are framed exactly when the length of the payload is the number of
bytes that are handed over of it. -/
theorem framed_iff_of_no_headers {extent block : ℕ} {m : Memory} {raw : RawResponse}
    (hheaders : raw.headers = []) (hstatus : raw.status ≠ .switchingProtocols) :
    Framed extent block m raw ↔
      toInt64 raw.payload.len = ((toInt raw.payload.len).toNat : ℕ) := by
  have htext := @headerText_eq_block m extent raw hheaders hstatus
  have hlt := length_plainLines_lt raw.status raw.payload.len
  obtain ⟨m', heq, hread⟩ := @httpAssembleResponse_spec extent block m raw (by simp [hheaders])
    (by rw [htext]; omega)
  rw [htext] at heq hread
  set lines := plainLines raw.status raw.payload.len with hlines
  have hwritten : sslWritten m' ⟨block, (Lines.block (13 : UInt8) 10 lines).length⟩ =
      Lines.block 13 10 lines := by
    rw [sslWritten_of_lt (by dsimp only; omega), hread]
  have hresponse : respondWith extent block m raw =
      (Lines.block 13 10 lines, sslWritten m' raw.payload) := by
    rw [respondWith, heq]
    dsimp only
    rw [hwritten]
  rw [← length_sslWritten m' raw.payload]
  constructor
  · intro h
    have hlength := h.length hstatus
    rw [hresponse] at hlength
    dsimp only at hlength
    exact hlength
  · intro h
    refine ⟨?_, by simp [hheaders], ?_, fun _ => ?_⟩ <;> rw [hresponse] <;> dsimp only
    · rw [← htext, headerText, hheaders]
      rfl
    · exact Lines.firstEnd_block (by decide) (List.cons_ne_nil _ _) (plainLines_ok _ _) _
    · exact h

end SleepyText.Server
