import SleepyText.Server.Http

set_option relaxedAutoImplicit false
set_option autoImplicit false

/-!
# Requests as clients write them

The parser is given the bytes of a connection before a request is complete. It must not take a part
of a request for a whole one.

## Main definitions

* `Message`, `Message.encode` — a request, and its bytes.
* `Message.WellFormed` — the requests that the parser is meant for.

## Main results

* `parseRequest_encode` — the parser reads a well-formed request.
* `parseRequest_take` — it reads nothing from a part of it.
-/

namespace SleepyText.Server

/-- A request: the parts of its first line, its header lines, and its body. -/
structure Message where
  method : List UInt8
  target : List UInt8
  version : List UInt8
  lines : List (List UInt8)
  body : List UInt8
  deriving DecidableEq, Repr

/-- A part of the request line: not empty, without spaces and line ends. -/
def Token (bs : List UInt8) : Prop := bs ≠ [] ∧ ∀ c ∈ bs, c ≠ 32 ∧ c ≠ 13 ∧ c ≠ 10

/-- A header line: not empty, without line ends. -/
def Line (bs : List UInt8) : Prop := bs ≠ [] ∧ ∀ c ∈ bs, c ≠ 13 ∧ c ≠ 10

instance (bs : List UInt8) : Decidable (Token bs) :=
  inferInstanceAs (Decidable (bs ≠ [] ∧ ∀ c ∈ bs, c ≠ 32 ∧ c ≠ 13 ∧ c ≠ 10))

instance (bs : List UInt8) : Decidable (Line bs) :=
  inferInstanceAs (Decidable (bs ≠ [] ∧ ∀ c ∈ bs, c ≠ 13 ∧ c ≠ 10))

namespace Message

/-- The first line of a request. -/
def requestLine (r : Message) : List UInt8 := r.method ++ 32 :: (r.target ++ 32 :: r.version)

/-- The header of a request, up to the empty line. -/
def header (r : Message) : List UInt8 := r.requestLine ++ r.lines.flatMap fun l => 13 :: 10 :: l

/-- The bytes of a request. -/
def encode (r : Message) : List UInt8 := r.header ++ ([13, 10, 13, 10] ++ r.body)

/-- A request whose length stands in its header: the text `Content-Length: ` occurs in it as the
start of header lines only, each followed by the length of the body; without such a line the body
is empty. -/
structure WellFormed (r : Message) : Prop where
  method : Token r.method
  target : Token r.target
  version : Token r.version
  lines : ∀ l ∈ r.lines, Line l
  requestLine : ¬ ascii "Content-Length: " <:+: r.requestLine
  starts : ∀ l ∈ r.lines, ¬ ascii "Content-Length: " <:+: l.tail
  value : ∀ l ∈ r.lines, ascii "Content-Length: " <+: l →
    l = ascii "Content-Length: " ++ Decimal.digits r.body.length
  absent : (∀ l ∈ r.lines, ¬ ascii "Content-Length: " <+: l) → r.body = []
  body : r.body.length < 2 ^ 31

variable {r : Message}

/-! ## The end of the header -/

lemma not_mem_requestLine (h : r.WellFormed) {c : UInt8} (hc : c ∈ r.requestLine) :
    c ≠ 13 ∧ c ≠ 10 := by
  simp only [Message.requestLine, List.mem_append, List.mem_cons] at hc
  rcases hc with hc | rfl | hc | rfl | hc
  · exact (h.method.2 c hc).2
  · decide
  · exact (h.target.2 c hc).2
  · decide
  · exact (h.version.2 c hc).2

/-- Nothing of the empty line is matched behind a line. -/
lemma state_line {l : List UInt8} (h : Line l) (j : ℕ) :
    Search.state [13, 10, 13, 10] j l = some 0 := by
  obtain ⟨hne, hline⟩ := h
  have hmem : ∀ c ∈ l, c ∉ ([13, 10, 13, 10] : List UInt8) := fun c hc => by
    have hc := hline c hc
    simp [hc.1, hc.2]
  cases l with
  | nil => exact absurd rfl hne
  | cons c l =>
    rw [Search.state_cons_of_not_mem (hmem c List.mem_cons_self)]
    exact Search.state_of_not_mem fun d hd => hmem d (List.mem_cons_of_mem c hd)

/-- **The header** has no empty line. -/
lemma state_header (h : r.WellFormed) : Search.state [13, 10, 13, 10] 0 r.header = some 0 := by
  have hrequest : Line r.requestLine := by
    refine ⟨?_, fun c => not_mem_requestLine h⟩
    simp [Message.requestLine]
  have hlines : Search.state [13, 10, 13, 10] 0
      (r.lines.flatMap fun l => (13 : UInt8) :: 10 :: l) = some 0 := by
    apply Search.state_flatMap
    intro l hl
    exact state_line (h.lines l hl) 2
  rw [Message.header, Search.state_append, state_line hrequest]
  exact hlines

/-! ## The length of the body -/

lemma length_pos : 0 < (ascii "Content-Length: ").length := by decide

/-- Nothing of the field is matched behind a line that has it not. -/
lemma state_contentLength {l : List UInt8} (h : ¬ ascii "Content-Length: " <:+: l) :
    Search.state (ascii "Content-Length: ") 0 (l ++ [13, 10]) = some 0 := by
  have hne : ascii "Content-Length: " ≠ [] := List.length_pos_iff.mp length_pos
  rw [List.append_cons, Search.state_append, Search.state_concat_of_not_mem hne h (by decide),
    Option.bind_some, Search.state_cons_of_not_mem (by decide)]
  rfl

/-- Lines, each with its end behind it instead of in front. -/
lemma flatMap_lines (x : List UInt8) (lines : List (List UInt8)) :
    x ++ (lines.flatMap fun l => (13 : UInt8) :: 10 :: l) ++ [13, 10] =
      (x :: lines).flatMap fun l => l ++ [13, 10] := by
  induction lines generalizing x with
  | nil => simp
  | cons l lines ih =>
    have hl := ih l
    simp only [List.flatMap_cons, List.cons_append, List.nil_append, List.append_assoc] at hl ⊢
    rw [hl]

/-- A header line that does not start with the field has it not. -/
lemma not_infix_line (h : r.WellFormed) {l : List UInt8} (hl : l ∈ r.lines)
    (hstart : ¬ ascii "Content-Length: " <+: l) : ¬ ascii "Content-Length: " <:+: l := by
  rintro ⟨pre, post, hpre⟩
  cases pre with
  | nil => exact hstart ⟨post, hpre⟩
  | cons c pre => exact h.starts l hl ⟨pre, post, by rw [← hpre]; rfl⟩

/-- The request line and lines without the field are passed over. -/
lemma state_lines (h : r.WellFormed) {lines : List (List UInt8)} (hlines : ∀ l ∈ lines, l ∈ r.lines)
    (hstart : ∀ l ∈ lines, ¬ ascii "Content-Length: " <+: l) :
    Search.state (ascii "Content-Length: ") 0
      (r.requestLine ++ (lines.flatMap fun l => 13 :: 10 :: l) ++ [13, 10]) = some 0 := by
  rw [flatMap_lines]
  refine Search.state_flatMap fun l hl => state_contentLength ?_
  rcases List.mem_cons.mp hl with rfl | hl
  · exact h.requestLine
  · exact not_infix_line h (hlines l hl) (hstart l hl)

/-- A header without the field. -/
lemma contentLength_eq_none (h : r.WellFormed)
    (habsent : ∀ l ∈ r.lines, ¬ ascii "Content-Length: " <+: l) :
    contentLength r.header = none := by
  have hstate := state_lines h (fun l hl => hl) habsent
  have hfind : Search.find (ascii "Content-Length: ") r.header = none :=
    Search.find_eq_none_iff.mpr
      (Search.state_isSome_of_append (b := [13, 10]) (Option.isSome_of_eq_some hstate))
  rw [contentLength, hfind]
  rfl

/-- The line of the length ends behind its digits. -/
lemma before_digits (n : ℕ) (lines : List (List UInt8)) :
    Search.before [13, 10]
        (Decimal.digits n ++ lines.flatMap fun l => (13 : UInt8) :: 10 :: l) =
      Decimal.digits n := by
  have hstate : Search.state [13, 10] 0 (Decimal.digits n) = some 0 := by
    apply Search.state_of_not_mem
    intro c hc hmem
    have hdigit : 48 ≤ c.toNat ∧ c.toNat ≤ 57 := Decimal.isDigit_of_mem_digits hc
    rcases List.mem_cons.mp hmem with rfl | hmem
    · exact absurd hdigit (by decide)
    · obtain rfl := List.mem_singleton.mp hmem
      exact absurd hdigit (by decide)
  exact Search.before_flatMap (by decide) hstate lines id

/-- A header with the field. -/
lemma contentLength_eq_some (h : r.WellFormed)
    (hpresent : ¬ ∀ l ∈ r.lines, ¬ ascii "Content-Length: " <+: l) :
    contentLength r.header = some r.body.length := by
  push Not at hpresent
  obtain ⟨l₀, hl₀, hstart₀⟩ := hpresent
  -- the first line that starts with the field
  obtain ⟨l, hl⟩ : ∃ l, r.lines.find? (fun l => decide (ascii "Content-Length: " <+: l)) = some l :=
    Option.isSome_iff_exists.mp (List.find?_isSome.mpr ⟨l₀, hl₀, by simpa using hstart₀⟩)
  obtain ⟨hstart, front, back, hlines, hfront⟩ := List.find?_eq_some_iff_append.mp hl
  obtain rfl := h.value l (by rw [hlines]; simp) (by simpa using hstart)
  have hstate : Search.state (ascii "Content-Length: ") 0
      (r.requestLine ++ (front.flatMap fun l => 13 :: 10 :: l) ++ [13, 10]) = some 0 :=
    state_lines h (fun l hl => by rw [hlines]; simp [hl]) fun l hl => by simpa using hfront l hl
  have hheader : r.header =
      (r.requestLine ++ (front.flatMap fun l => (13 : UInt8) :: 10 :: l) ++ [13, 10]) ++
        (ascii "Content-Length: " ++ (Decimal.digits r.body.length ++
          back.flatMap fun l => (13 : UInt8) :: 10 :: l)) := by
    rw [Message.header, hlines]
    simp
  have hbtoi : btoi (Decimal.digits r.body.length) = r.body.length := by
    have hprint : Decimal.print (r.body.length : ℤ) = Decimal.digits r.body.length := by
      rw [Decimal.print, if_neg (by omega), Int.natAbs_natCast]
    have hbody := h.body
    rw [← hprint, btoi_print (by omega) (by omega)]
  have hsize : toSize (r.body.length : ℤ) = r.body.length := by
    have hbody := h.body
    unfold toSize
    omega
  rw [contentLength, hheader, Search.find_append _ (List.length_pos_iff.mp length_pos) hstate,
    Option.map_some, show ascii "\r\n" = [13, 10] from rfl, before_digits, hbtoi, hsize]

/-! ## The address -/

/-- The address of the request line is the target. -/
lemma address_header (h : r.WellFormed) : address r.header = r.target := by
  have hspace : ascii " " = [32] := rfl
  have hstate {bs : List UInt8} (hbs : Token bs) : Search.state [32] 0 bs = some 0 :=
    Search.state_of_not_mem fun c hc => by simpa using (hbs.2 c hc).1
  have hheader : r.header = r.method ++ ([32] ++ (r.target ++ ([32] ++ (r.version ++
      r.lines.flatMap fun l => 13 :: 10 :: l)))) := by
    simp [Message.header, Message.requestLine]
  rw [address, hspace, hheader, Search.after, Search.find_append _ (by decide) (hstate h.method),
    Option.map_some, Option.getD_some, Search.before,
    Search.find_append _ (by decide) (hstate h.target)]
  rfl

end Message

/-! ## Parsing -/

variable {r : Message}

/-- **A whole request** is read as it was written. -/
theorem parseRequest_encode (h : r.WellFormed) :
    parseRequest r.encode = ⟨r.header, r.body, r.target⟩ := by
  have hlength : (contentLength r.header).all (· = r.body.length) = true := by
    by_cases habsent : ∀ l ∈ r.lines, ¬ ascii "Content-Length: " <+: l
    · rw [Message.contentLength_eq_none h habsent]
      rfl
    · rw [Message.contentLength_eq_some h habsent]
      simp
  rw [parseRequest, show ascii "\r\n\r\n" = [13, 10, 13, 10] from rfl, Message.encode,
    Search.find_append _ (by decide) (Message.state_header h)]
  dsimp only
  rw [if_pos hlength, Message.address_header h]

/-- **A part of a request** is not read as a request. -/
theorem parseRequest_take (h : r.WellFormed) {k : ℕ} (hk : k < r.encode.length) :
    parseRequest (r.encode.take k) = ⟨[], [], []⟩ := by
  have hend : ascii "\r\n\r\n" = [13, 10, 13, 10] := rfl
  have hlen : r.encode.length = r.header.length + (4 + r.body.length) := by
    rw [Message.encode, List.length_append, List.length_append]
    rfl
  rw [parseRequest, hend]
  by_cases hheader : k < r.header.length + 4
  · -- the empty line is not complete
    have hstate : (Search.state [13, 10, 13, 10] 0 (r.header ++ [13, 10, 13])).isSome := by
      rw [Search.state_append, Message.state_header h]
      decide
    have hsplit : r.encode.take k ++ (r.header ++ [13, 10, 13]).drop k =
        r.header ++ [13, 10, 13] := by
      have htake : r.encode.take k = (r.header ++ [13, 10, 13]).take k := by
        have hencode : r.encode = (r.header ++ [13, 10, 13]) ++ (10 :: r.body) := by
          simp [Message.encode]
        rw [hencode, List.take_append_of_le_length (by simp; omega)]
      rw [htake, List.take_append_drop]
    rw [← hsplit] at hstate
    rw [Search.find_eq_none_iff.mpr (Search.state_isSome_of_append hstate)]
  · -- the body is not complete
    have htake : r.encode.take k =
        r.header ++ ([13, 10, 13, 10] ++ r.body.take (k - (r.header.length + 4))) := by
      rw [Message.encode, List.take_append, List.take_of_length_le (by omega), List.take_append,
        List.take_of_length_le (by simp; omega)]
      simp [Nat.sub_sub]
    have hbody : ¬ ∀ l ∈ r.lines, ¬ ascii "Content-Length: " <+: l := by
      intro habsent
      rw [h.absent habsent, List.length_nil] at hlen
      omega
    rw [htake, Search.find_append _ (by decide) (Message.state_header h)]
    dsimp only
    rw [Message.contentLength_eq_some h hbody, if_neg]
    simp only [Option.all_some, List.length_take, decide_eq_true_eq]
    omega

end SleepyText.Server
