import SleepyText.Server.Http

set_option relaxedAutoImplicit false
set_option autoImplicit false

/-!
# The announced length of a body

`http_parse_request` takes a request for complete when its body has as many bytes as the header
announces. The number goes through 64 bits with a sign, 32 bits with a sign and 64 bits without
one, so that unboundedly many announced lengths are taken for each possible one.

## Main definitions

* `Announces` — a header announces a length, once.
* `TakenFor` — a number is taken for the length of a body.
* `Addressed` — a header has an address.

## Main results

* `toSize_btoi_eq_iff` — what the parser makes of digits.
* `contentLength_of_announces` — the parser finds the digits.
* `content_length_iff` — the exact condition under which only complete requests are accepted.
* `content_length_folded` — an incomplete request that is accepted.
-/

namespace SleepyText.Server

open Search

/-! ## The number -/

/-- The number `n` is taken for the length `len`: the two agree modulo `2 ^ 32`, and `len` is a
value of type `int`, or a negative one converted. -/
def TakenFor (n len : ℕ) : Prop :=
  n % 2 ^ 32 = len % 2 ^ 32 ∧ (len < 2 ^ 31 ∨ 2 ^ 64 - 2 ^ 31 ≤ len ∧ len < 2 ^ 64)

instance (n len : ℕ) : Decidable (TakenFor n len) := inferInstanceAs (Decidable (_ ∧ _))

lemma toSize_toInt_eq_iff (n len : ℕ) : toSize (toInt n) = len ↔ TakenFor n len := by
  rw [toSize, toInt, Int.bmod_def, TakenFor]
  split_ifs
  · omega
  · omega

/-- The conversion to 32 bits goes through 64 bits unnoticed. -/
lemma toInt_toInt64 (n : ℤ) : toInt (toInt64 n) = toInt n :=
  Int.bmod_bmod_of_dvd ⟨2 ^ 32, by norm_num⟩

/-- **The length that digits announce**, as the parser compares it. -/
theorem toSize_btoi_eq_iff {ds : List UInt8} (hdigits : ∀ c ∈ ds, Decimal.IsDigit c) (len : ℕ) :
    toSize (btoi ds) = len ↔ TakenFor (Decimal.value ds) len := by
  rw [btoi, btoi64_of_isDigit hdigits, toInt_toInt64, toSize_toInt_eq_iff]

/-! ## Where it stands -/

/-- **The header announces the length `n`**, in one line, and has the name of the field nowhere
else. -/
def Announces (header : List UInt8) (n : ℕ) : Prop :=
  ∃ front ds back, header = front ++ (ascii "Content-Length: " ++ (ds ++ back)) ∧
    (front = [] ∨ [13, 10] <:+ front) ∧ (back = [] ∨ [13, 10] <+: back) ∧
    ds ≠ [] ∧ (∀ c ∈ ds, Decimal.IsDigit c) ∧ Decimal.value ds = n ∧
    ∀ a b, header = a ++ (ascii "Content-Length: " ++ b) → a = front

/-- What stands in front of the name leaves nothing of it matched. -/
lemma state_front {front rest : List UInt8}
    (hline : front = [] ∨ [13, 10] <:+ front)
    (honce : ∀ a b, front ++ (ascii "Content-Length: " ++ rest) =
      a ++ (ascii "Content-Length: " ++ b) → a = front) :
    state (ascii "Content-Length: ") 0 front = some 0 := by
  rcases hline with rfl | ⟨front', rfl⟩
  · rfl
  · have habsent : ¬ ascii "Content-Length: " <:+: front' ++ [13] := by
      rintro ⟨a, b, hab⟩
      have heq := honce a (b ++ 10 :: (ascii "Content-Length: " ++ rest)) (by
        rw [List.append_cons front', ← hab]
        simp)
      have hlen := congrArg List.length heq
      have hlen' := congrArg List.length hab
      simp only [List.length_append, List.length_cons, List.length_nil] at hlen hlen'
      have hpos : 0 < (ascii "Content-Length: ").length := by decide
      omega
    rw [List.append_cons]
    exact state_concat_of_not_mem (by decide) habsent (by decide)

/-- **The parser finds the digits**, also when it takes more bytes for the header, from a line break
on. -/
theorem contentLength_of_announces {header w : List UInt8} {n : ℕ} (h : Announces header n)
    (hw : w = [] ∨ [13, 10] <+: w) (len : ℕ) :
    (contentLength (header ++ w)).all (· = len) = true ↔ TakenFor n len := by
  obtain ⟨front, ds, back, rfl, hfront, hback, -, hdigits, rfl, honce⟩ := h
  have hcr : ∀ c ∈ ds, c ≠ 13 := by
    rintro c hc rfl
    exact absurd (hdigits 13 hc) (by decide)
  have hbefore : before (ascii "\r\n") (ds ++ (back ++ w)) = ds := by
    have hend : back ++ w = [] ∨ [13, 10] <+: back ++ w := by
      rcases hback with rfl | hback
      · exact hw
      · exact .inr (hback.trans (List.prefix_append back w))
    rcases hend with hnil | ⟨w', hw'⟩
    · rw [hnil]
      exact before_lines hcr []
    · rw [← hw']
      exact before_break hcr w'
  have hfind : find (ascii "Content-Length: ")
      (front ++ (ascii "Content-Length: " ++ (ds ++ back)) ++ w) =
        some (front, ds ++ (back ++ w)) := by
    have hsplit : front ++ (ascii "Content-Length: " ++ (ds ++ back)) ++ w =
        front ++ (ascii "Content-Length: " ++ (ds ++ (back ++ w))) := by
      simp only [List.append_assoc]
    rw [hsplit]
    exact find_append _ (by decide) (state_front hfront honce)
  rw [contentLength, hfind, Option.map_some, Option.all_some, decide_eq_true_eq, hbefore,
    toSize_btoi_eq_iff hdigits]

/-! ## Complete requests -/

/-- A header has an address: behind its first space is a byte other than a space. -/
def Addressed (header : List UInt8) : Prop :=
  ∃ front c rest, header = front ++ 32 :: c :: rest ∧ 32 ∉ front ∧ c ≠ 32

/-- The parser finds an address where there is one. -/
lemma address_ne_nil_iff (header : List UInt8) : address header ≠ [] ↔ Addressed header := by
  have hspace : ascii " " = [32] := rfl
  rw [address, hspace, after, before]
  constructor
  · intro hne
    cases hfind : find [32] header with
    | none =>
      rw [hfind] at hne
      exact absurd rfl hne
    | some found =>
      obtain ⟨front, y⟩ := found
      obtain ⟨hheader, hfront⟩ := (find_eq_some_iff_append (by decide)).mp hfind
      rw [hfind, Option.map_some, Option.getD_some] at hne
      cases y with
      | nil => exact absurd rfl hne
      | cons c rest =>
        refine ⟨front, c, rest, hheader, failedAttempts_singleton.mp hfront, ?_⟩
        rintro rfl
        exact hne rfl
  · rintro ⟨front, c, rest, hheader, hfront, hc⟩
    have hfind : find [32] header = some (front, c :: rest) :=
      (find_eq_some_iff_append (by decide)).mpr ⟨hheader, failedAttempts_singleton.mpr hfront⟩
    rw [hfind, Option.map_some, Option.getD_some]
    cases hfind' : find [32] (c :: rest) with
    | none => exact List.cons_ne_nil c rest
    | some found =>
      obtain ⟨a, b⟩ := found
      obtain ⟨hsplit, -⟩ := (find_eq_some_iff_append (by decide)).mp hfind'
      rintro rfl
      exact hc (List.cons.inj hsplit).1

/-- What the parser takes for the header goes on behind the header with a line break. -/
lemma exists_behind_header {header payload h p : List UInt8}
    (hfirst : FirstAt (ascii "\r\n\r\n") (header ++ (ascii "\r\n\r\n" ++ payload)) header)
    (hfind : find (ascii "\r\n\r\n") (header ++ (ascii "\r\n\r\n" ++ payload)) = some (h, p)) :
    ∃ w, h = header ++ w ∧ (w = [] ∨ [13, 10] <+: w) := by
  have hsplit := eq_append_of_find (by decide) hfind
  have hle := hfirst.2 h p hsplit
  obtain ⟨w, rfl⟩ : ∃ w, h = header ++ w := by
    obtain ⟨w, hw, -⟩ | ⟨w, hw, -⟩ := List.append_eq_append_iff.mp hsplit
    · exact ⟨w, hw⟩
    · have hlen := congrArg List.length hw
      rw [List.length_append] at hlen
      obtain rfl : w = [] := List.eq_nil_of_length_eq_zero (by omega)
      exact ⟨[], by rw [hw, List.append_nil, List.append_nil]⟩
  refine ⟨w, rfl, ?_⟩
  rw [List.append_assoc] at hsplit
  have hw := List.append_cancel_left hsplit
  match w, hw with
  | [], _ => exact .inl rfl
  | [a], hw => exact absurd (List.cons.inj (List.cons.inj hw).2).1 (by decide)
  | a :: b :: w', hw =>
    obtain ⟨rfl, hb⟩ := List.cons.inj hw
    obtain ⟨rfl, -⟩ := List.cons.inj hb
    exact .inr ⟨w', rfl⟩

/-- **Only complete requests are accepted**, of those that announce the length `n`, exactly when the
body has `n` bytes, or `n` is not taken for the number of bytes behind the end of a header that has
an address and consists of failed attempts to find its end.

**Proof sketch.** What the parser takes for the header are the failed attempts in front of an end
(`find_eq_some_iff_append`). It finds the digits there (`contentLength_of_announces`,
`exists_behind_header`), and compares the number that they are taken for. -/
theorem content_length_iff {m : Memory} {buffer : Bytes} {header payload : List UInt8} {n : ℕ}
    (hread : m.read buffer = header ++ (ascii "\r\n\r\n" ++ payload))
    (hfirst : FirstAt (ascii "\r\n\r\n") (m.read buffer) header) (hline : Announces header n) :
    ((httpParseRequest m buffer).addr.len ≠ 0 → payload.length = n) ↔
      payload.length = n ∨ ∀ h p, m.read buffer = h ++ (ascii "\r\n\r\n" ++ p) →
        FailedAttempts (ascii "\r\n\r\n") h → Addressed h → ¬ TakenFor n p.length := by
  have haddr : (httpParseRequest m buffer).addr.len =
      (parseRequest (m.read buffer)).addr.length := by
    rw [← read_httpParseRequest]
    exact (Memory.length_read _).symm
  have hfinds (h p : List UInt8) := @find_eq_some_iff_append _ _ (ascii "\r\n\r\n") (m.read buffer)
    h p (by decide)
  rw [haddr, parseRequest]
  cases hfind : find (ascii "\r\n\r\n") (m.read buffer) with
  | none =>
    refine iff_of_true (fun hne => absurd rfl hne) (.inr fun h p hsplit hfailed => ?_)
    exact absurd ((hfinds h p).mpr ⟨hsplit, hfailed⟩) (by simp [hfind])
  | some found =>
    obtain ⟨h, p⟩ := found
    -- the end of the header that is found is the only one behind failed attempts
    have hcond : (∀ h' p', m.read buffer = h' ++ (ascii "\r\n\r\n" ++ p') →
        FailedAttempts (ascii "\r\n\r\n") h' → Addressed h' → ¬ TakenFor n p'.length) ↔
          (Addressed h → ¬ TakenFor n p.length) := by
      obtain ⟨hsplit, hfailed⟩ := (hfinds h p).mp hfind
      refine ⟨fun hall => hall h p hsplit hfailed, fun hone h' p' hsplit' hfailed' => ?_⟩
      have heq := hfind.symm.trans ((hfinds h' p').mpr ⟨hsplit', hfailed'⟩)
      obtain ⟨rfl, rfl⟩ := Prod.mk.inj (Option.some.inj heq)
      exact hone
    rw [hcond, ← address_ne_nil_iff]
    rw [hread] at hfirst hfind
    obtain ⟨w, rfl, hw⟩ := exists_behind_header hfirst hfind
    have hall := contentLength_of_announces hline hw p.length
    dsimp only
    by_cases htaken : TakenFor n p.length
    · rw [if_pos (hall.mpr htaken), Ne, List.length_eq_zero_iff]
      dsimp only
      tauto
    · rw [if_neg (mt hall.mp htaken)]
      exact iff_of_true (fun hne => absurd rfl hne) (.inr fun _ => htaken)

/-- An announced length of 2 and a body of two bytes. -/
theorem content_length_iff_two :
    ((httpParseRequest (fun x => (ascii "POST / \r\nContent-Length: 2\r\n\r\nab").getD x 0)
        ⟨0, 32⟩).addr.len ≠ 0 → (ascii "ab").length = 2) ↔
      ((ascii "ab").length = 2 ∨
        ∀ h p, Memory.read (fun x => (ascii "POST / \r\nContent-Length: 2\r\n\r\nab").getD x 0)
            ⟨0, 32⟩ = h ++ (ascii "\r\n\r\n" ++ p) →
          FailedAttempts (ascii "\r\n\r\n") h → Addressed h → ¬ TakenFor 2 p.length) := by
  have hend : ∀ k ≤ 32, ((ascii "POST / \r\nContent-Length: 2\r\n\r\nab").drop k).take 4 =
      ascii "\r\n\r\n" → k = 26 := by decide +kernel
  have hname : ∀ k ≤ 26, ((ascii "POST / \r\nContent-Length: 2").drop k).take 16 =
      ascii "Content-Length: " → k = 9 := by decide +kernel
  have hfirst : FirstAt (ascii "\r\n\r\n")
      (ascii "POST / \r\nContent-Length: 2\r\n\r\nab") (ascii "POST / \r\nContent-Length: 2") :=
    @firstAt_of_only_at _ _ _ _ (ascii "ab") (by decide +kernel) hend
  refine @content_length_iff _ _ (ascii "POST / \r\nContent-Length: 2") (ascii "ab") 2
    (by decide +kernel) hfirst ?_
  exact ⟨ascii "POST / \r\n", ascii "2", [], by decide +kernel, .inr (by decide +kernel), .inl rfl,
    by decide, by simp [ascii, Decimal.IsDigit], by decide, fun a b hab =>
      @eq_of_only_at _ (ascii "Content-Length: ")
        (ascii "POST / \r\nContent-Length: 2") (ascii "POST / \r\n") (ascii "2")
        (by decide +kernel) hname a b hab⟩

/-- A body of no bytes is accepted for an announced length of `2 ^ 32`. -/
theorem content_length_folded :
    (httpParseRequest
      (fun x => (ascii "POST /api/0/feed HTTP/1.1\r\nContent-Length: 4294967296\r\n\r\n").getD x 0)
      ⟨0, 57⟩).addr.len ≠ 0 ∧
    Memory.read
      (fun x => (ascii "POST /api/0/feed HTTP/1.1\r\nContent-Length: 4294967296\r\n\r\n").getD x 0)
      ⟨0, 57⟩ = ascii "POST /api/0/feed HTTP/1.1\r\nContent-Length: 4294967296" ++
        (ascii "\r\n\r\n" ++ []) ∧
    FirstAt (ascii "\r\n\r\n")
      (ascii "POST /api/0/feed HTTP/1.1\r\nContent-Length: 4294967296\r\n\r\n")
      (ascii "POST /api/0/feed HTTP/1.1\r\nContent-Length: 4294967296") ∧
    Announces (ascii "POST /api/0/feed HTTP/1.1\r\nContent-Length: 4294967296") (2 ^ 32) := by
  have hend : ∀ k ≤ 57,
      ((ascii "POST /api/0/feed HTTP/1.1\r\nContent-Length: 4294967296\r\n\r\n").drop k).take 4 =
        ascii "\r\n\r\n" → k = 53 := by decide +kernel
  have hname : ∀ k ≤ 53,
      ((ascii "POST /api/0/feed HTTP/1.1\r\nContent-Length: 4294967296").drop k).take 16 =
        ascii "Content-Length: " → k = 27 := by decide +kernel
  refine ⟨by decide +kernel, by decide +kernel,
    @firstAt_of_only_at _ _ _ _ [] (by decide +kernel) hend, ?_⟩
  exact ⟨ascii "POST /api/0/feed HTTP/1.1\r\n", ascii "4294967296", [], by decide +kernel,
    .inr (by decide +kernel), .inl rfl, by decide, by simp [ascii, Decimal.IsDigit], by decide,
    fun a b hab => @eq_of_only_at _ (ascii "Content-Length: ")
      (ascii "POST /api/0/feed HTTP/1.1\r\nContent-Length: 4294967296")
      (ascii "POST /api/0/feed HTTP/1.1\r\n") (ascii "4294967296") (by decide +kernel) hname
      a b hab⟩

end SleepyText.Server
