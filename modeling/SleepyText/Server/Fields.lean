import SleepyText.Server.Http

set_option relaxedAutoImplicit false
set_option autoImplicit false

/-!
# Header fields

`http_extract_param` looks for the name of a field anywhere in a header. Names contain each other,
and values and the target of the request contain names, so that the first line in which the name is
found need not be the line of the field.

## Main definitions

* `HeaderField`, `HeaderBlock` — the lines of a header.
* `firstFound` — the first line in which a text is found, and where.
* `HeaderBlock.Clear` — no line in front of the line of a field passes for it.

## Main results

* `after_joinLines`, `before_behind` — the two searches of `http_extract_param`, in lines.
* `extractParam_encode` — what it returns.
* `extract_param_iff` — it returns the value of the field exactly when the way to its line is
  clear.
* `extract_param_target` — a request target that is taken for the field.
-/

namespace SleepyText.Server

open Search

/-! ## The lines of a header -/

/-- A line `Name: value`. -/
structure HeaderField where
  name : List UInt8
  value : List UInt8
  deriving DecidableEq, Repr

/-- The bytes of the line. -/
def HeaderField.line (f : HeaderField) : List UInt8 := f.name ++ 58 :: 32 :: f.value

/-- The request line and the fields of a header. -/
structure HeaderBlock where
  requestLine : List UInt8
  fields : List HeaderField
  deriving DecidableEq, Repr

/-- Lines, with line breaks between them. -/
def joinLines : List (List UInt8) → List UInt8
  | [] => []
  | l :: ls => l ++ ls.flatMap fun l => 13 :: 10 :: l

namespace HeaderBlock

/-- The lines of a header. -/
def lines (t : HeaderBlock) : List (List UInt8) := t.requestLine :: t.fields.map HeaderField.line

/-- The bytes of a header. -/
def encode (t : HeaderBlock) : List UInt8 := joinLines t.lines

/-- No line has a line end in it, and the names are distinct. -/
structure WellFormed (t : HeaderBlock) : Prop where
  lines : ∀ l ∈ t.lines, ∀ c ∈ l, c ≠ 13 ∧ c ≠ 10
  names : (t.fields.map HeaderField.name).Nodup

/-- The value of a field, if the header has it. -/
def value? (t : HeaderBlock) (field : List UInt8) : Option (List UInt8) :=
  (t.fields.find? (·.name = field)).map HeaderField.value

/-- The lines in front of the line of a field; all lines if the header does not have it. -/
def linesBefore (t : HeaderBlock) (field : List UInt8) : List (List UInt8) :=
  t.requestLine :: (t.fields.takeWhile (·.name ≠ field)).map HeaderField.line

/-- The lines from the line of a field on. -/
def linesFrom (t : HeaderBlock) (field : List UInt8) : List (List UInt8) :=
  (t.fields.dropWhile (·.name ≠ field)).map HeaderField.line

end HeaderBlock

/-- The first line in which the search for a text ends: what is behind the text in the line, and
the lines that follow. -/
def firstFound (what : List UInt8) : List (List UInt8) → Option (List UInt8 × List (List UInt8))
  | [] => none
  | l :: ls =>
    match find what l with
    | some (_, y) => some (y, ls)
    | none => firstFound what ls

/-- What `http_extract_param` returns when `y` is behind the name in its line and `later` are the
lines that follow: two bytes are passed over, be they in the line or in the line break. -/
def behind (y : List UInt8) (later : List (List UInt8)) : List UInt8 :=
  match y, later with
  | [], later => later.headD []
  | [_], [] => []
  | [_], l :: _ => 10 :: l
  | _ :: _ :: v, _ => v

/-- What is behind the name in another line, and the lines that follow, give the value by
coincidence: the rest of that line is the value, the next line is, or there is no value and nothing
but at most two bytes behind the name. -/
def Coincides (y : List UInt8) (later : List (List UInt8)) : Option (List UInt8) → Prop
  | some v => 2 ≤ y.length ∧ y.drop 2 = v ∨ y = [] ∧ later.head? = some v
  | none => y.length = 2 ∨ y.length < 2 ∧ later = []

/-- **The way to the line of a field is clear**: the search does not end in a line in front of it,
but for coincidences. -/
def HeaderBlock.Clear (t : HeaderBlock) (field : List UInt8) : Prop :=
  ∀ found ∈ firstFound field (t.linesBefore field),
    Coincides found.1 found.2 (t.value? field)

/-! ## The searches in lines -/

variable {what : List UInt8}

lemma firstFound_append (ls ls' : List (List UInt8)) :
    firstFound what (ls ++ ls') =
      match firstFound what ls with
      | some (y, later) => some (y, later ++ ls')
      | none => firstFound what ls' := by
  induction ls with
  | nil => rfl
  | cons l ls ih =>
    rw [List.cons_append, firstFound, firstFound]
    cases find what l with
    | some found => rfl
    | none => exact ih

/-- What is found is in one of the lines, in front of the later ones. -/
lemma firstFound_mem (hwhat : what ≠ []) {ls later : List (List UInt8)} {y : List UInt8}
    (h : firstFound what ls = some (y, later)) :
    ∃ l, y <:+ l ∧ l :: later <:+ ls := by
  induction ls with
  | nil => exact absurd h (by simp [firstFound])
  | cons l ls ih =>
    unfold firstFound at h
    cases hfind : find what l with
    | some found =>
      rw [hfind] at h
      obtain ⟨rfl, rfl⟩ := Prod.mk.inj (Option.some.inj h)
      have hsplit := eq_append_of_find hwhat hfind
      exact ⟨l, ⟨found.1 ++ what, by rw [List.append_assoc, ← hsplit]⟩, List.suffix_refl _⟩
    | none =>
      rw [hfind] at h
      obtain ⟨l', hy, hsuffix⟩ := ih h
      exact ⟨l', hy, hsuffix.trans (List.suffix_cons l ls)⟩

/-- **The search for a name** in lines ends in the first line in which it is found. -/
theorem after_joinLines (hends : ∀ c ∈ what, c ≠ 13 ∧ c ≠ 10) (ls : List (List UInt8)) :
    after what (joinLines ls) =
      match firstFound what ls with
      | some (y, later) => y ++ later.flatMap fun l => 13 :: 10 :: l
      | none => [] := by
  induction ls with
  | nil => rfl
  | cons l ls ih =>
    unfold joinLines firstFound
    cases hfind : find what l with
    | some found =>
      rw [after, find_append_of_some hfind]
      rfl
    | none =>
      dsimp only
      cases ls with
      | nil =>
        rw [List.flatMap_nil, List.append_nil, after, hfind]
        rfl
      | cons l' ls =>
        -- the line break leaves nothing matched
        have hbreak : state what 0 (l ++ [13, 10]) = some 0 := by
          obtain ⟨k, hk⟩ := Option.isSome_iff_exists.mp (find_eq_none_iff.mp hfind)
          rw [state_append, hk, Option.bind_some,
            state_cons_of_not_mem fun hc => (hends 13 hc).1 rfl,
            state_cons_of_not_mem fun hc => (hends 10 hc).2 rfl]
          rfl
        have hsplit : l ++ ((l' :: ls).flatMap fun l => 13 :: 10 :: l) =
            l ++ [13, 10] ++ joinLines (l' :: ls) := by
          simp [joinLines]
        rw [hsplit, after_append hbreak, ih]

/-- **The search for the end of the value**, two bytes behind the name. -/
theorem before_behind {y : List UInt8} {later : List (List UInt8)} (hy : ∀ c ∈ y, c ≠ 13)
    (hlater : ∀ l ∈ later, ∀ c ∈ l, c ≠ 13) :
    before (ascii "\r\n") ((y ++ later.flatMap fun l => 13 :: 10 :: l).drop 2) =
      behind y later := by
  match y, later with
  | [], [] => rfl
  | [], l :: ls => exact before_lines (hlater l List.mem_cons_self) ls
  | [_], [] => rfl
  | [_], l :: ls =>
    have hl : ∀ c ∈ 10 :: l, c ≠ 13 :=
      List.forall_mem_cons.mpr ⟨by decide, hlater l List.mem_cons_self⟩
    exact before_lines hl ls
  | _ :: _ :: v, ls =>
    exact before_lines (fun c hc => hy c (List.mem_cons_of_mem _ (List.mem_cons_of_mem _ hc))) ls

/-! ## The lookup -/

namespace HeaderBlock

variable {t : HeaderBlock} {field : List UInt8}

lemma lines_split (t : HeaderBlock) (field : List UInt8) :
    t.lines = t.linesBefore field ++ t.linesFrom field := by
  rw [lines, linesBefore, linesFrom, List.cons_append, ← List.map_append,
    List.takeWhile_append_dropWhile]

/-- The line of a field that the header has, and the lines behind it. -/
lemma linesFrom_of_value? {v : List UInt8} (h : t.value? field = some v) :
    ∃ ls, t.linesFrom field = (field ++ 58 :: 32 :: v) :: ls := by
  obtain ⟨f, hf, rfl⟩ := Option.map_eq_some_iff.mp h
  obtain ⟨hname, front, back, hfields, hfront⟩ := List.find?_eq_some_iff_append.mp hf
  obtain rfl : f.name = field := by simpa using hname
  have hdrop : t.fields.dropWhile (·.name ≠ f.name) = f :: back := by
    rw [hfields, List.dropWhile_append_of_pos (by simpa using hfront), List.dropWhile_cons_of_neg]
    simp
  exact ⟨back.map HeaderField.line, by rw [linesFrom, hdrop]; rfl⟩

lemma linesFrom_of_none (h : t.value? field = none) : t.linesFrom field = [] := by
  rw [value?, Option.map_eq_none_iff, List.find?_eq_none] at h
  rw [linesFrom, List.map_eq_nil_iff, ← List.append_nil t.fields, List.dropWhile_append_of_pos]
  · rfl
  · simpa using h

/-- A field is found at the start of its line. -/
lemma firstFound_own (hfield : field ≠ []) (v : List UInt8) (ls : List (List UInt8)) :
    firstFound field ((field ++ 58 :: 32 :: v) :: ls) = some (58 :: 32 :: v, ls) := by
  have hfind : find field ([] ++ (field ++ 58 :: 32 :: v)) = some ([], 58 :: 32 :: v) :=
    find_append _ hfield rfl
  rw [firstFound, ← List.nil_append (field ++ _), hfind]

/-- **What `http_extract_param` returns** from a header. -/
theorem extractParam_encode (h : t.WellFormed) (hfield : field ≠ [])
    (hends : ∀ c ∈ field, c ≠ 13 ∧ c ≠ 10) :
    extractParam t.encode field =
      match firstFound field t.lines with
      | some (y, later) => behind y later
      | none => [] := by
  rw [extractParam, encode, after_joinLines hends]
  cases hfirst : firstFound field t.lines with
  | none => rfl
  | some found =>
    obtain ⟨y, later⟩ := found
    obtain ⟨l, hy, hsuffix⟩ := firstFound_mem hfield hfirst
    have hl (l' : List UInt8) (hl' : l' ∈ l :: later) : ∀ c ∈ l', c ≠ 13 := fun c hc =>
      (h.lines l' (hsuffix.subset hl') c hc).1
    exact before_behind (fun c hc => hl l List.mem_cons_self c (hy.subset hc))
      fun l' hl' => hl l' (List.mem_cons_of_mem l hl')

/-- The lines behind the one in which a name is found are lines of fields. -/
lemma later_lines (hfield : field ≠ []) {y : List UInt8} {later : List (List UInt8)}
    (hfirst : firstFound field (t.linesBefore field) = some (y, later)) :
    (∃ l ∈ t.lines, y <:+ l) ∧ later ⊆ t.lines ∧ ∀ l ∈ later, l ≠ [] := by
  obtain ⟨l, hy, hsuffix⟩ := firstFound_mem hfield hfirst
  have hlines : t.linesBefore field ⊆ t.lines := by
    rw [t.lines_split field]
    exact List.subset_append_left _ _
  refine ⟨⟨l, hlines (hsuffix.subset List.mem_cons_self), hy⟩,
    fun l' hl' => hlines (hsuffix.subset (List.mem_cons_of_mem l hl')), fun l' hl' => ?_⟩
  have hfields : l' ∈ (t.fields.takeWhile (·.name ≠ field)).map HeaderField.line := by
    unfold linesBefore at hsuffix
    rcases List.suffix_cons_iff.mp hsuffix with heq | hsuffix
    · rw [← (List.cons.inj heq).2]
      exact hl'
    · exact hsuffix.subset (List.mem_cons_of_mem l hl')
  obtain ⟨f, -, rfl⟩ := List.mem_map.mp hfields
  simp [HeaderField.line]

/-- What is returned from a line in front of the line of a field is its value by coincidence
only. -/
lemma behind_eq_iff (h : t.WellFormed) (hfield : field ≠ []) {y : List UInt8}
    {later : List (List UInt8)}
    (hfirst : firstFound field (t.linesBefore field) = some (y, later)) :
    behind y (later ++ t.linesFrom field) = (t.value? field).getD [] ↔
      Coincides y later (t.value? field) := by
  obtain ⟨⟨l, hl, hy⟩, hlater, hne⟩ := later_lines hfield hfirst
  cases hvalue : t.value? field with
  | none =>
    rw [linesFrom_of_none hvalue, List.append_nil, Option.getD_none]
    match y, later with
    | [], [] => simp [behind, Coincides]
    | [], l :: ls => simpa [behind, Coincides] using hne l List.mem_cons_self
    | [_], [] => simp [behind, Coincides]
    | [_], l :: ls => simp [behind, Coincides]
    | _ :: _ :: v, ls => simp [behind, Coincides]
  | some v =>
    obtain ⟨ls, hls⟩ := linesFrom_of_value? hvalue
    have hv : ∀ c ∈ v, c ≠ 10 := by
      have hmem : field ++ 58 :: 32 :: v ∈ t.lines := by
        rw [t.lines_split field, hls]
        simp
      exact fun c hc => (h.lines _ hmem c (by simp [hc])).2
    rw [hls, Option.getD_some]
    match y, later with
    | [], [] =>
      have hlong : field ++ 58 :: 32 :: v ≠ v := by
        intro heq
        have hlen := congrArg List.length heq
        simp only [List.length_append, List.length_cons] at hlen
        omega
      simpa [behind, Coincides] using hlong
    | [], l :: ls' => simp [behind, Coincides]
    | [_], [] =>
      have hbreak : 10 :: (field ++ 58 :: 32 :: v) ≠ v := by
        intro heq
        exact hv 10 (by rw [← heq]; exact List.mem_cons_self) rfl
      simpa [behind, Coincides] using hbreak
    | [_], l :: ls' =>
      have hbreak : 10 :: l ≠ v := by
        intro heq
        exact hv 10 (by rw [← heq]; exact List.mem_cons_self) rfl
      simpa [behind, Coincides] using hbreak
    | _ :: _ :: w, ls' => simp [behind, Coincides]

end HeaderBlock

/-- **`http_extract_param` returns the value of the field**, or nothing if the header does not have
it, exactly when no line in front passes for the line of the field.

**Proof sketch.** The search ends in the first line in which the name is found
(`extractParam_encode`). In the line of the field this is at its start (`firstFound_own`), and in
another line the value is returned by coincidence only (`behind_eq_iff`). -/
theorem extract_param_iff {t : HeaderBlock} (h : t.WellFormed) {field : List UInt8}
    (hfield : field ≠ []) (hends : ∀ c ∈ field, c ≠ 13 ∧ c ≠ 10) {m : Memory} {header : Bytes}
    (hread : m.read header = t.encode) :
    m.read (httpExtractParam m header field) = (t.value? field).getD [] ↔ t.Clear field := by
  rw [read_httpExtractParam, hread, HeaderBlock.extractParam_encode h hfield hends,
    t.lines_split field, firstFound_append, HeaderBlock.Clear]
  cases hfirst : firstFound field (t.linesBefore field) with
  | some found =>
    obtain ⟨y, later⟩ := found
    simpa using HeaderBlock.behind_eq_iff h hfield hfirst
  | none =>
    refine iff_of_true ?_ (by simp)
    dsimp only
    cases hvalue : t.value? field with
    | none =>
      rw [HeaderBlock.linesFrom_of_none hvalue]
      rfl
    | some v =>
      obtain ⟨ls, hls⟩ := HeaderBlock.linesFrom_of_value? hvalue
      rw [hls, HeaderBlock.firstFound_own hfield]
      rfl

/-- The lookup of `Cookie` in a header of two lines. -/
theorem extract_param_iff_two :
    Memory.read (fun x => (ascii "GET / HTTP/1.1\r\nCookie: session=5").getD x 0)
        (httpExtractParam (fun x => (ascii "GET / HTTP/1.1\r\nCookie: session=5").getD x 0)
          ⟨0, 33⟩ (ascii "Cookie")) =
      ascii "session=5" ↔
    HeaderBlock.Clear ⟨ascii "GET / HTTP/1.1", [⟨ascii "Cookie", ascii "session=5"⟩]⟩
      (ascii "Cookie") :=
  @extract_param_iff ⟨ascii "GET / HTTP/1.1", [⟨ascii "Cookie", ascii "session=5"⟩]⟩
    ⟨by simp [HeaderBlock.lines, HeaderField.line, ascii], by simp⟩ (ascii "Cookie") (by decide)
    (by simp [ascii]) (fun x => (ascii "GET / HTTP/1.1\r\nCookie: session=5").getD x 0) ⟨0, 33⟩
    (by decide)

/-- A request whose target ends in `?Cookie=`: what follows the target is returned for the
cookies. -/
theorem extract_param_target :
    HeaderBlock.WellFormed
        ⟨ascii "GET /?Cookie= HTTP/1.1", [⟨ascii "Cookie", ascii "session=5"⟩]⟩ ∧
      HeaderBlock.value? ⟨ascii "GET /?Cookie= HTTP/1.1", [⟨ascii "Cookie", ascii "session=5"⟩]⟩
        (ascii "Cookie") = some (ascii "session=5") ∧
      Memory.read
          (fun x => (ascii "GET /?Cookie= HTTP/1.1\r\nCookie: session=5").getD x 0) ⟨0, 41⟩ =
        HeaderBlock.encode ⟨ascii "GET /?Cookie= HTTP/1.1",
          [⟨ascii "Cookie", ascii "session=5"⟩]⟩ ∧
      Memory.read (fun x => (ascii "GET /?Cookie= HTTP/1.1\r\nCookie: session=5").getD x 0)
        (httpExtractParam
          (fun x => (ascii "GET /?Cookie= HTTP/1.1\r\nCookie: session=5").getD x 0) ⟨0, 41⟩
          (ascii "Cookie")) = ascii "HTTP/1.1" :=
  ⟨⟨by simp [HeaderBlock.lines, HeaderField.line, ascii], by simp⟩, by decide, by decide +kernel,
    by decide +kernel⟩

end SleepyText.Server
