import SleepyText.Lib.Loop
import SleepyText.Server.Bytes

set_option relaxedAutoImplicit false
set_option autoImplicit false

/-!
# WebSocket frames

The decoder of masked client frames (`http.c`) is called with one chunk of a stream after the
other and keeps the unfinished frame between the calls. The condition of its loop compares the
length of the chunk with the position the wrong way round, so no byte is ever looked at. The parser
of headers takes the sizes of structures with padding for the sizes of headers, and the values that
announce longer forms of the length one higher than they are.

## Main definitions

* `HttpWebsocketFrame`, `httpWebsocketParseHeader`, `httpWebsocketParse` — the decoder.
* `httpWebsocketStream` — the calls for the chunks of a stream.
* `ClientFrame`, `ClientFrame.encode` — masked frames and their bytes.
* `ClientHeader`, `HttpWebsocketFrame.Holds` — headers, and a buffer that holds part of one.
* `HeaderOk` — what the parser of headers should do.

## Main results

* `httpWebsocketParse_eq` — a call puts out nothing and keeps the state.
* `httpWebsocketStream_decodes_iff` — a stream is decoded exactly when all its payloads are empty.
* `httpWebsocketParseHeader_ok_iff` — the parser of headers does what it should exactly for the
  length 126 in the form of 16 bits, and for parts of headers that are shorter than 8 bytes or not
  in the form of 64 bits.
* `short_header_not_parsed` — a header that it does not parse.
-/

namespace SleepyText.Server

/-! ## The decoder -/

/-- `struct http_websocket_frame`, where `maskbytes` are the bytes of `mask` in memory. -/
structure HttpWebsocketFrame where
  len : ℕ
  maskbytes : Vector UInt8 4
  parsedHeader : Bool
  buffer : Vector UInt8 14
  headerLen : ℕ
  state : ℕ
  deriving DecidableEq

/-- The frame state that starts all zero. -/
def HttpWebsocketFrame.zero : HttpWebsocketFrame where
  len := 0
  maskbytes := Vector.replicate 4 0
  parsedHeader := false
  buffer := Vector.replicate 14 0
  headerLen := 0
  state := 0

/-- `sizeof` of the header structures: the mask is aligned to 4 bytes, `exlen` of the longest one
to 8. -/
def sizeofHeader7 : ℕ := 8
/-- `sizeof(struct http_websocket_header16)`. -/
def sizeofHeader16 : ℕ := 8
/-- `sizeof(struct http_websocket_header64)`. -/
def sizeofHeader64 : ℕ := 24

/-- `http_websocket_parse_header`: the value returned and the frame; `none` stands for a read
behind the end of `buffer`. -/
def httpWebsocketParseHeader (frame : HttpWebsocketFrame) : Option (ℕ × HttpWebsocketFrame) :=
  let hLen := frame.buffer[1].toNat
  let mask : Vector UInt8 4 :=
    #v[frame.buffer[4], frame.buffer[5], frame.buffer[6], frame.buffer[7]]
  let frame := { frame with state := 0 }
  if frame.headerLen < sizeofHeader7 then some (0, frame)
  else if hLen < 255 then
    some (sizeofHeader7,
      { frame with parsedHeader := true, len := toSize (hLen - 128), maskbytes := mask })
  else if frame.headerLen ≥ sizeofHeader16 then
    if hLen = 255 then
      let exlen := frame.buffer[2].toNat + 256 * frame.buffer[3].toNat
      some (sizeofHeader16, { frame with parsedHeader := true, len := exlen, maskbytes := mask })
    -- `exlen` and `mask` of the longest header stand behind the 14 bytes of `buffer`
    else if hLen = sizeofHeader64 then none
    else some (0, frame)
  else some (0, frame)

/-- The `for` loop that fills `buffer`, for `n` turns that all copy the byte `c`; `none` stands
for a write behind the end of `buffer`. -/
def fillBuffer (c : UInt8) : ℕ → HttpWebsocketFrame → Option HttpWebsocketFrame
  | 0, frame => some frame
  | n + 1, frame =>
    if h : frame.headerLen < 14 then
      fillBuffer c n { frame with
        buffer := frame.buffer.set frame.headerLen c h
        headerLen := frame.headerLen + 1 }
    else none

/-- The variables of `http_websocket_parse`: `i`, the frame, and the `k` bytes put out. -/
structure HttpWebsocketScan where
  i : ℕ
  out : List UInt8
  frame : HttpWebsocketFrame
  deriving DecidableEq

/-- What `http_websocket_parse` returns, the bytes put out, and the frame. -/
structure HttpWebsocketResult where
  value : ℤ
  out : List UInt8
  frame : HttpWebsocketFrame
  deriving DecidableEq

/-- One turn of the `while` loop of `http_websocket_parse`; `none` stands for a read behind the
end of `data` and for what is behind the end of `buffer`. -/
def httpWebsocketTurn (data : List UInt8) (s : HttpWebsocketScan) :
    HttpWebsocketScan ⊕ Option HttpWebsocketResult :=
  if data.length < s.i then
    if s.frame.parsedHeader = false then
      let turns := min (data.length - s.i) 14
      match fillBuffer (data.getD s.i 0) turns s.frame with
      | none => .inr none
      | some frame =>
        match httpWebsocketParseHeader frame with
        | none => .inr none
        | some (0, frame) => .inr (some ⟨-1, [], frame⟩)
        | some (r, frame) => .inl { s with i := s.i + r, frame := frame }
    else
      match data[s.i]? with
      | none => .inr none
      | some c =>
        let out := s.out ++ [c ^^^ s.frame.maskbytes.get (Fin.ofNat 4 s.frame.state)]
        let frame := { s.frame with state := s.frame.state + 1 }
        let frame := if out.length = frame.len then { frame with parsedHeader := false } else frame
        .inl ⟨s.i + 1, out, frame⟩
  else .inr (some ⟨0, s.out, s.frame⟩)

/-- `http_websocket_parse` with an output buffer that is large enough. -/
def httpWebsocketParse (data : List UInt8) (frame : HttpWebsocketFrame) :
    Option HttpWebsocketResult :=
  (Loop.loop (httpWebsocketTurn data) (data.length + 1) ⟨0, [], frame⟩).join

/-- The calls of `http_websocket_parse` for the chunks of a stream, with one frame: what they put
out together, if none of them reports an error. -/
def httpWebsocketStream : List (List UInt8) → HttpWebsocketFrame → Option (List UInt8)
  | [], _ => some []
  | data :: chunks, frame => do
    let result ← httpWebsocketParse data frame
    if result.value = 0 then
      let rest ← httpWebsocketStream chunks result.frame
      some (result.out ++ rest)
    else none

/-! ## Client frames -/

/-- The three forms of the length in a header. -/
inductive LengthForm where
  | seven
  | sixteen
  | sixtyFour
  deriving DecidableEq, Repr

/-- The lengths that a form can give are below this bound. -/
def LengthForm.bound : LengthForm → ℕ
  | .seven => 126
  | .sixteen => 2 ^ 16
  | .sixtyFour => 2 ^ 63

/-- The bytes of a length, with the mask bit. -/
def LengthForm.encode (n : ℕ) : LengthForm → List UInt8
  | .seven => [UInt8.ofNat (128 + n)]
  | .sixteen => UInt8.ofNat (128 + 126) :: (Word.be32 n).drop 2
  | .sixtyFour => UInt8.ofNat (128 + 127) :: (Word.be32 (n / 2 ^ 32) ++ Word.be32 n)

/-- A masked frame: the byte of the flags and the opcode, the form of its length, the mask, and
the payload, which the form can hold. -/
structure ClientFrame where
  flags : UInt8
  form : LengthForm
  mask : Vector UInt8 4
  payload : List UInt8
  fits : payload.length < form.bound

/-- The bytes of a frame. -/
def ClientFrame.encode (f : ClientFrame) : List UInt8 :=
  f.flags :: f.form.encode f.payload.length ++ f.mask.toList ++
    f.payload.mapIdx fun i b => b ^^^ f.mask.get (Fin.ofNat 4 i)

/-! ## What is decoded -/

/-- **One call** looks at no byte: the loop is left before its first turn, since no length is
below the position 0. -/
theorem httpWebsocketParse_eq (data : List UInt8) (frame : HttpWebsocketFrame) :
    httpWebsocketParse data frame = some ⟨0, [], frame⟩ := by
  have hguard : ¬ data.length < 0 := Nat.not_lt_zero _
  have hturn : httpWebsocketTurn data ⟨0, [], frame⟩ = .inr (some ⟨0, [], frame⟩) :=
    if_neg hguard
  rw [httpWebsocketParse, Loop.loop, hturn]
  rfl

/-- All calls together put out nothing, and none reports an error. -/
theorem httpWebsocketStream_eq (chunks : List (List UInt8)) (frame : HttpWebsocketFrame) :
    httpWebsocketStream chunks frame = some [] := by
  induction chunks generalizing frame with
  | nil => rfl
  | cons data chunks ih =>
    rw [httpWebsocketStream, httpWebsocketParse_eq]
    simp [ih]

/-- **Stream decoding.** However the bytes of some frames are cut into chunks, the calls put out
the payloads without an error if and only if every payload is empty. -/
theorem httpWebsocketStream_decodes_iff (frames : List ClientFrame) (chunks : List (List UInt8))
    (_hchunks : chunks.flatten = frames.flatMap ClientFrame.encode) :
    httpWebsocketStream chunks .zero = some (frames.flatMap ClientFrame.payload) ↔
      ∀ f ∈ frames, f.payload = [] := by
  rw [httpWebsocketStream_eq, Option.some.injEq, eq_comm, List.flatMap_eq_nil_iff]

/-- A greeting in one frame, with a short length and a mask of zeros. -/
def greeting : ClientFrame :=
  ⟨129, .seven, #v[0, 0, 0, 0], ascii "Hi", by decide⟩

/-- The greeting, cut in the middle of its header. -/
theorem greeting_decodes_iff :
    httpWebsocketStream [[129], [130, 0, 0, 0, 0, 72, 105]] .zero =
        some ([greeting].flatMap ClientFrame.payload) ↔
      ∀ f ∈ [greeting], f.payload = [] :=
  httpWebsocketStream_decodes_iff [greeting] [[129], [130, 0, 0, 0, 0, 72, 105]] (by decide)

/-- The greeting is lost. -/
theorem greeting_lost :
    [[129], [130, 0, 0, 0, 0, 72, 105]].flatten = [greeting].flatMap ClientFrame.encode ∧
      httpWebsocketStream [[129], [130, 0, 0, 0, 0, 72, 105]] .zero ≠
        some ([greeting].flatMap ClientFrame.payload) := by
  refine ⟨by decide, ?_⟩
  rw [httpWebsocketStream_eq]
  decide

/-! ## Headers -/

/-- The header of a masked frame: the byte of the flags and the opcode, the form of the length of
the payload, the length, and the mask. -/
structure ClientHeader where
  flags : UInt8
  form : LengthForm
  len : ℕ
  mask : Vector UInt8 4
  fits : len < form.bound

/-- The bytes of a header. -/
def ClientHeader.encode (h : ClientHeader) : List UInt8 :=
  h.flags :: h.form.encode h.len ++ h.mask.toList

/-- The number of bytes of a header in each form. -/
def LengthForm.headerLen : LengthForm → ℕ
  | .seven => 6
  | .sixteen => 8
  | .sixtyFour => 14

lemma ClientHeader.length_encode (h : ClientHeader) : h.encode.length = h.form.headerLen := by
  rw [encode, List.length_append, List.length_cons, Vector.length_toList]
  cases h.form <;> simp [LengthForm.encode, LengthForm.headerLen, Word.length_be32]

/-- The header of a frame is in front of its payload. -/
lemma ClientFrame.encode_eq (f : ClientFrame) : f.encode =
    ClientHeader.encode ⟨f.flags, f.form, f.payload.length, f.mask, f.fits⟩ ++
      f.payload.mapIdx fun i b => b ^^^ f.mask.get (Fin.ofNat 4 i) := rfl

/-- The buffer of a frame holds the first `k` bytes of a header, which is not parsed yet. -/
structure HttpWebsocketFrame.Holds (frame : HttpWebsocketFrame) (h : ClientHeader) (k : ℕ) :
    Prop where
  headerLen : frame.headerLen = k
  unparsed : frame.parsedHeader = false
  bytes : frame.buffer.toList.take k = h.encode.take k

/-- **What the parser should do** with the first `k` bytes of a header: with all of them, give the
length, the mask and the number of bytes; with less, return 0 and leave the header unparsed. -/
structure HeaderOk (h : ClientHeader) (k : ℕ) (result : Option (ℕ × HttpWebsocketFrame)) :
    Prop where
  whole : k = h.encode.length → ∃ frame, result = some (h.encode.length, frame) ∧
    frame.parsedHeader = true ∧ frame.len = h.len ∧ frame.maskbytes = h.mask
  part : k < h.encode.length → ∃ frame, result = some (0, frame) ∧ frame.parsedHeader = false

section Parse

variable {frame : HttpWebsocketFrame} {h : ClientHeader} {k : ℕ}

/-- A byte in the buffer is the byte of the header. -/
lemma HttpWebsocketFrame.Holds.get (hold : frame.Holds h k) {i : ℕ} (hi : i < k) (hi' : i < 14) :
    h.encode[i]? = some frame.buffer[i] := by
  have hget := congrArg (fun bs => bs[i]?) hold.bytes
  simp only [List.getElem?_take, if_pos hi] at hget
  rw [← hget]
  simp

/-- Less than 8 bytes are no header to the parser. -/
lemma parseHeader_short (h : frame.headerLen < 8) :
    httpWebsocketParseHeader frame = some (0, { frame with state := 0 }) :=
  if_pos h

/-- From 8 bytes on, a second byte below 255 gives the length. -/
lemma parseHeader_of_lt (h : 8 ≤ frame.headerLen) (hlen : frame.buffer[1].toNat < 255) :
    httpWebsocketParseHeader frame = some (8, { frame with
      state := 0
      parsedHeader := true
      len := toSize (frame.buffer[1].toNat - 128)
      maskbytes := #v[frame.buffer[4], frame.buffer[5], frame.buffer[6], frame.buffer[7]] }) := by
  unfold httpWebsocketParseHeader
  dsimp only
  rw [if_neg (by rw [sizeofHeader7]; omega), if_pos hlen]
  rfl

/-- From 8 bytes on, a second byte of 255 makes a header of 8 bytes. -/
lemma parseHeader_of_eq (h : 8 ≤ frame.headerLen) (hlen : frame.buffer[1].toNat = 255) :
    ∃ frame', httpWebsocketParseHeader frame = some (8, frame') ∧ frame'.parsedHeader = true := by
  unfold httpWebsocketParseHeader
  dsimp only
  rw [if_neg (by rw [sizeofHeader7]; omega), if_neg (by omega),
    if_pos (by rw [sizeofHeader16]; omega), if_pos hlen]
  exact ⟨_, rfl, rfl⟩

/-- Less than 8 bytes of a header are treated as a part of one. -/
lemma headerOk_short (hold : frame.Holds h k) (hk : k < 8) (hle : k ≤ h.encode.length) :
    HeaderOk h k (httpWebsocketParseHeader frame) ↔ k < h.encode.length := by
  rw [parseHeader_short (by rw [hold.headerLen]; exact hk)]
  constructor
  · intro hok
    apply lt_of_le_of_ne hle
    intro hwhole
    obtain ⟨frame', hresult, -⟩ := hok.whole hwhole
    have hpos : 0 < h.encode.length := by
      rw [h.length_encode]
      cases h.form <;> decide
    have hzero := congrArg Prod.fst (Option.some.inj hresult)
    dsimp only at hzero
    omega
  · intro hlt
    exact ⟨fun hwhole => by omega, fun _ => ⟨_, rfl, hold.unparsed⟩⟩

/-- The bytes of a header in the form of 16 bits: its mask stands where the parser reads it. -/
lemma encode_sixteen (hform : h.form = .sixteen) :
    h.encode = [h.flags, 254, UInt8.ofNat (h.len / 2 ^ 8), UInt8.ofNat h.len] ++ h.mask.toList := by
  rw [ClientHeader.encode, hform]
  rfl

/-- A whole header in the form of 16 bits is parsed as one for the length 126. -/
lemma headerOk_sixteen (hold : frame.Holds h k) (hform : h.form = .sixteen) (hk : k = 8) :
    HeaderOk h k (httpWebsocketParseHeader frame) ↔ h.len = 126 := by
  subst hk
  have hlength : h.encode.length = 8 := by rw [h.length_encode, hform]; rfl
  have hbyte : frame.buffer[1] = 254 := by
    have hget := hold.get (show 1 < 8 by omega) (by omega)
    rw [encode_sixteen hform] at hget
    exact (Option.some.inj hget).symm
  have hmask : #v[frame.buffer[4], frame.buffer[5], frame.buffer[6], frame.buffer[7]] = h.mask := by
    have hget (i : ℕ) (hi : i < 4) : h.mask[i] = frame.buffer[i + 4] := by
      have hbuffer := hold.get (show i + 4 < 8 by omega) (by omega)
      rw [encode_sixteen hform, List.getElem?_append_right (by simp)] at hbuffer
      simpa [hi] using hbuffer
    ext i hi
    interval_cases i <;> exact (hget _ hi).symm ▸ rfl
  have hvalue : toSize ((frame.buffer[1].toNat : ℤ) - 128) = 126 := by rw [hbyte]; rfl
  rw [parseHeader_of_lt (by rw [hold.headerLen]) (by rw [hbyte]; decide), hmask, hvalue]
  constructor
  · intro hok
    obtain ⟨frame', hresult, -, hlen, -⟩ := hok.whole hlength.symm
    obtain ⟨-, rfl⟩ := Prod.mk.inj (Option.some.inj hresult)
    exact hlen.symm
  · intro hlen
    exact ⟨fun _ => ⟨_, by rw [hlength], rfl, hlen.symm, rfl⟩, fun hlt => by omega⟩

/-- Eight bytes of a header in the form of 64 bits are parsed as a whole one. -/
lemma not_headerOk_sixtyFour (hold : frame.Holds h k) (hform : h.form = .sixtyFour) (hk : 8 ≤ k)
    (hle : k ≤ h.encode.length) :
    ¬ HeaderOk h k (httpWebsocketParseHeader frame) := by
  have hlength : h.encode.length = 14 := by rw [h.length_encode, hform]; rfl
  have hbyte : frame.buffer[1] = 255 := by
    have hget := hold.get (show 1 < k by omega) (by omega)
    rw [ClientHeader.encode, hform] at hget
    exact (Option.some.inj hget).symm
  obtain ⟨frame', hresult, -⟩ := parseHeader_of_eq (by rw [hold.headerLen]; exact hk)
    (by rw [hbyte]; decide)
  rw [hresult]
  intro hok
  rcases hle.eq_or_lt with hwhole | hpart
  · obtain ⟨frame'', heq, -⟩ := hok.whole hwhole
    have hvalue := congrArg Prod.fst (Option.some.inj heq)
    dsimp only at hvalue
    omega
  · obtain ⟨frame'', heq, -⟩ := hok.part hpart
    have hvalue := congrArg Prod.fst (Option.some.inj heq)
    dsimp only at hvalue
    omega

end Parse

/-- **The parser of headers** does what it should with the first `k` bytes of a header exactly when
they are a whole header for the length 126 in the form of 16 bits, or a part that is not 8 bytes or
more of one in the form of 64 bits.

**Proof sketch.** Less than 8 bytes are a part to the parser (`headerOk_short`), which a header in
the form of 7 bits never exceeds. The second byte of the form of 16 bits is taken for a length
(`headerOk_sixteen`), and the one of 64 bits for a whole header of 8 bytes
(`not_headerOk_sixtyFour`). -/
theorem httpWebsocketParseHeader_ok_iff {frame : HttpWebsocketFrame} {h : ClientHeader} {k : ℕ}
    (hold : frame.Holds h k) (hle : k ≤ h.encode.length) :
    HeaderOk h k (httpWebsocketParseHeader frame) ↔
      (k = h.encode.length → h.form = .sixteen ∧ h.len = 126) ∧
        (k < h.encode.length → h.form = .sixtyFour → k < 8) := by
  have hlength := h.length_encode
  by_cases hk : k < 8
  · rw [headerOk_short hold hk hle]
    constructor
    · intro hlt
      exact ⟨fun hwhole => by omega, fun _ _ => hk⟩
    · rintro ⟨hwhole, -⟩
      apply lt_of_le_of_ne hle
      intro heq
      rw [(hwhole heq).1, LengthForm.headerLen] at hlength
      omega
  · cases hform : h.form with
    | seven =>
      rw [hform, LengthForm.headerLen] at hlength
      omega
    | sixteen =>
      rw [hform, LengthForm.headerLen] at hlength
      rw [headerOk_sixteen hold hform (by omega)]
      constructor
      · intro hlen
        exact ⟨fun _ => ⟨rfl, hlen⟩, fun hlt => by omega⟩
      · rintro ⟨hwhole, -⟩
        exact (hwhole (by omega)).2
    | sixtyFour =>
      apply iff_of_false (not_headerOk_sixtyFour hold hform (by omega) hle)
      rintro ⟨hwhole, hpart⟩
      rcases hle.eq_or_lt with heq | hlt
      · exact absurd (hwhole heq).1 (by decide)
      · exact hk (hpart hlt rfl)

/-- A header for the length 126 in the form of 16 bits. -/
def mediumHeader : ClientHeader := ⟨130, .sixteen, 126, #v[1, 2, 3, 4], by decide⟩

/-- A frame that holds it. -/
def mediumFrame : HttpWebsocketFrame :=
  { HttpWebsocketFrame.zero with
    buffer := #v[130, 254, 0, 126, 1, 2, 3, 4, 0, 0, 0, 0, 0, 0]
    headerLen := 8 }

/-- The header for the length 126 is parsed. -/
theorem httpWebsocketParseHeader_ok_iff_sixteen :
    HeaderOk mediumHeader 8 (httpWebsocketParseHeader mediumFrame) ↔
      (8 = mediumHeader.encode.length → mediumHeader.form = .sixteen ∧ mediumHeader.len = 126) ∧
        (8 < mediumHeader.encode.length → mediumHeader.form = .sixtyFour → 8 < 8) :=
  httpWebsocketParseHeader_ok_iff ⟨rfl, rfl, by decide⟩ (by decide)

/-- The header of the greeting, in the form of 7 bits. -/
def greetingHeader : ClientHeader := ⟨129, .seven, 2, #v[1, 2, 3, 4], by decide⟩

/-- A frame that holds it. -/
def greetingFrame : HttpWebsocketFrame :=
  { HttpWebsocketFrame.zero with
    buffer := #v[129, 130, 1, 2, 3, 4, 0, 0, 0, 0, 0, 0, 0, 0]
    headerLen := 6 }

/-- The whole header of 6 bytes is not parsed: 0 is returned. -/
theorem short_header_not_parsed :
    greetingFrame.Holds greetingHeader 6 ∧ greetingHeader.encode.length = 6 ∧
      httpWebsocketParseHeader greetingFrame = some (0, greetingFrame) ∧
      ¬ HeaderOk greetingHeader 6 (httpWebsocketParseHeader greetingFrame) := by
  refine ⟨⟨rfl, rfl, by decide⟩, by decide, by decide, fun hok => ?_⟩
  obtain ⟨frame, hresult, hparsed, -⟩ := hok.whole (by decide)
  rw [show httpWebsocketParseHeader greetingFrame = some (0, greetingFrame) by decide] at hresult
  obtain ⟨-, rfl⟩ := Prod.mk.inj (Option.some.inj hresult)
  exact absurd hparsed (by decide)

end SleepyText.Server
