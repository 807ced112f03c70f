import SleepyText.Server.Listing
import SleepyText.Server.Message

set_option relaxedAutoImplicit false
set_option autoImplicit false

/-!
# Sessions

The server finds the user of a request by the number in the session cookie. It takes the cookie
from the header with three searches, none of which knows where a header line or the name of a
cookie starts.

## Main definitions

* `User`, `BranchRow`, `Database` — the tables.
* `boundSession`, `getuserid` — `getuserid` of `server.c`.
* `CookieHeader` — a request header with a line of cookies.
* `CookieHeader.LineFound`, `CookieHeader.CookieFound` — the searches end where they should.
* `CookieHeader.stray` — the text in front that they end at otherwise.

## Main results

* `getuserid_eq` — `getuserid` depends on the bytes of the header only.
* `getuserid_cookie_iff` — the exact condition under which the session cookie is read.
-/

namespace SleepyText.Server

/-! ## The tables -/

/-- A row of `users`. -/
structure User where
  id : ℤ
  login : List UInt8
  password : List UInt8
  session : ℤ
  deriving DecidableEq, Repr

/-- A row of `branches`. -/
structure BranchRow extends Row where
  user : ℤ
  deriving DecidableEq, Repr

/-- The tables of the server. -/
structure Database where
  users : List User
  branches : List BranchRow
  deriving DecidableEq, Repr

/-- `select id from users where session = ?`: the first row. -/
def Database.selectuserid (db : Database) (session : ℤ) : Option ℤ :=
  (db.users.find? (·.session = session)).map User.id

/-! ## The user of a request -/

/-- The number that `getuserid` binds to its query. -/
def boundSession (m : Memory) (header : Bytes) : ℤ :=
  let cookie := httpExtractParam m header (ascii "Cookie")
  let f := bfind m cookie (ascii "session=")
  let f := bfind m f.after (ascii ";")
  btoi64 (m.read f.before)

/-- `getuserid`; the column is read as an `int`. -/
def getuserid (m : Memory) (header : Bytes) (db : Database) : ℤ :=
  match db.selectuserid (boundSession m header) with
  | none => 0
  | some id => toInt id

/-- The text behind the first `session=` of the cookies, up to the first semicolon. -/
def cookieSession (cookie : List UInt8) : List UInt8 :=
  Search.before (ascii ";") (Search.after (ascii "session=") cookie)

/-- The number that a header gives for the session. -/
def headerSession (header : List UInt8) : ℤ :=
  btoi64 (cookieSession (extractParam header (ascii "Cookie")))

/-- The user that a header gives. -/
def headerUser (header : List UInt8) (db : Database) : ℤ :=
  match db.selectuserid (headerSession header) with
  | none => 0
  | some id => toInt id

lemma boundSession_eq (m : Memory) (header : Bytes) :
    boundSession m header = headerSession (m.read header) := by
  rw [boundSession, headerSession, cookieSession, read_before, read_after, read_httpExtractParam]

/-- **The user of a request** is given by the bytes of its header. -/
theorem getuserid_eq (m : Memory) (header : Bytes) (db : Database) :
    getuserid m header db = headerUser (m.read header) db := by
  rw [getuserid, headerUser, boundSession_eq]

/-! ## Headers with cookies -/

/-- A cookie. -/
structure Cookie where
  name : List UInt8
  value : List UInt8
  deriving DecidableEq, Repr

/-- The bytes of a cookie. -/
def Cookie.encode (c : Cookie) : List UInt8 := c.name ++ 61 :: c.value

/-- Texts separated by `; `. -/
def semicolons : List (List UInt8) → List UInt8
  | [] => []
  | x :: xs => x ++ xs.flatMap fun y => 59 :: 32 :: y

/-- A request header with a line of cookies, and a place in it for the cookie of the session: the
request line, the lines around, and the other cookies. -/
structure CookieHeader where
  requestLine : List UInt8
  linesBefore : List (List UInt8)
  linesAfter : List (List UInt8)
  cookiesBefore : List Cookie
  cookiesAfter : List Cookie
  deriving DecidableEq, Repr

namespace CookieHeader

/-- The cookies of the line, with the given value for the session, if there is one. -/
def cookies (t : CookieHeader) (session : Option (List UInt8)) : List Cookie :=
  t.cookiesBefore ++ (session.map (Cookie.mk (ascii "session"))).toList ++ t.cookiesAfter

/-- The text of the line of cookies. -/
def cookieLine (t : CookieHeader) (session : Option (List UInt8)) : List UInt8 :=
  semicolons ((t.cookies session).map Cookie.encode)

/-- The text in front of the line of cookies. -/
def front (t : CookieHeader) : List UInt8 :=
  (t.requestLine :: t.linesBefore).flatMap (· ++ [13, 10])

/-- The bytes of the header. -/
def encode (t : CookieHeader) (session : Option (List UInt8)) : List UInt8 :=
  t.front ++ (ascii "Cookie" ++ 58 :: 32 :: (t.cookieLine session ++
    t.linesAfter.flatMap fun l => 13 :: 10 :: l))

/-- A text without line ends and semicolons. -/
def Plain (bs : List UInt8) : Prop := ∀ c ∈ bs, c ≠ 13 ∧ c ≠ 10 ∧ c ≠ 59

instance (bs : List UInt8) : Decidable (Plain bs) :=
  List.decidableBAll (fun c => c ≠ 13 ∧ c ≠ 10 ∧ c ≠ 59) bs

/-- Lines have no line ends in them, cookies no semicolons either, and the other cookies have
other names. -/
structure WellFormed (t : CookieHeader) : Prop where
  lines : ∀ l ∈ t.requestLine :: t.linesBefore ++ t.linesAfter, ∀ c ∈ l, c ≠ 13 ∧ c ≠ 10
  cookies : ∀ c ∈ t.cookiesBefore ++ t.cookiesAfter, Plain c.name ∧ Plain c.value
  names : ∀ c ∈ t.cookiesBefore ++ t.cookiesAfter, c.name ≠ ascii "session"

/-- The search for `Cookie` and the two bytes passed over behind it do not end in front of the
line break that the line of cookies stands behind: in the lines in front, `Cookie` is not found, or
found at most one byte before the end of the last of them. -/
def LineFound (t : CookieHeader) : Prop := (Search.after (ascii "Cookie") t.front).length ≤ 3

/-- The search for `session=` finds nothing in the cookies in front of the session. -/
def CookieFound (t : CookieHeader) : Prop :=
  Search.find (ascii "session=") (t.cookiesBefore.flatMap fun c => c.encode ++ [59, 32]) = none

instance (t : CookieHeader) : Decidable t.LineFound :=
  inferInstanceAs (Decidable (_ ≤ 3))

instance (t : CookieHeader) : Decidable t.CookieFound :=
  inferInstanceAs (Decidable (_ = none))

/-- The text that the searches end at in front of the session: up to a semicolon, what stands
behind the first `session=` of the cookies in front, or, when the line of cookies is not found, of
the line that begins two bytes behind the first `Cookie`. -/
def stray (t : CookieHeader) : List UInt8 :=
  if t.LineFound then cookieSession (t.cookiesBefore.flatMap fun c => c.encode ++ [59, 32])
  else cookieSession (Search.before (ascii "\r\n") ((Search.after (ascii "Cookie") t.front).drop 2))

/-- The value is the printed form of the number `n`, or that of no number other than 0 where `n`
is 0. -/
def Printed (v : List UInt8) (n : ℤ) : Prop :=
  (n ≠ 0 ∧ v = Decimal.print n) ∨
    (n = 0 ∧ ∀ s : ℤ, -2 ^ 63 ≤ s → s < 2 ^ 63 → s ≠ 0 → v ≠ Decimal.print s)

/-- The header is read as it is meant. Where the searches end at the session cookie, its value is
the printed form of a number or reads as 0; elsewhere the stray text happens to read as the number
of it. Without a session cookie, what stands behind the first `session=` of the line of cookies, or
the stray text in front of that line, reads as 0. -/
def Clear (t : CookieHeader) : Option (List UInt8) → Prop
  | some v =>
    (t.LineFound ∧ t.CookieFound ∧
      ((∃ s : ℤ, -2 ^ 63 ≤ s ∧ s < 2 ^ 63 ∧ v = Decimal.print s) ∨ btoi64 v = 0)) ∨
    (¬ (t.LineFound ∧ t.CookieFound) ∧ Printed v (btoi64 t.stray))
  | none =>
    (t.LineFound ∧ btoi64 (cookieSession (t.cookieLine none)) = 0) ∨
    (¬ t.LineFound ∧ btoi64 t.stray = 0)

/-- `getuserid` looks up the number `s`, wherever the header stands. -/
def LooksUp (t : CookieHeader) (session : Option (List UInt8)) (s : ℤ) : Prop :=
  ∀ m header, Memory.read m header = t.encode session → boundSession m header = s

/-- The number looked up is the one that the session cookie is the printed form of, if it is that
of one; and without a session cookie no user is found, where sessions are distinct and not 0. -/
def SessionOk (t : CookieHeader) : Option (List UInt8) → Prop
  | some v => ∀ s : ℤ, -2 ^ 63 ≤ s → s < 2 ^ 63 → s ≠ 0 →
      (t.LooksUp (some v) s ↔ v = Decimal.print s)
  | none => ∀ m header db, Memory.read m header = t.encode none →
      (∀ u ∈ db.users, u.session ≠ 0) → (db.users.map User.session).Nodup →
      getuserid m header db = 0

/-! ## The line of cookies -/

lemma mem_semicolons {xs : List (List UInt8)} {c : UInt8} (hc : c ∈ semicolons xs) :
    c = 59 ∨ c = 32 ∨ ∃ x ∈ xs, c ∈ x := by
  cases xs with
  | nil => exact absurd hc (by simp [semicolons])
  | cons x xs =>
    simp only [semicolons, List.mem_append, List.mem_flatMap, List.mem_cons] at hc ⊢
    rcases hc with hc | ⟨y, hy, rfl | rfl | hc⟩
    · exact .inr (.inr ⟨x, .inl rfl, hc⟩)
    · exact .inl rfl
    · exact .inr (.inl rfl)
    · exact .inr (.inr ⟨y, .inr hy, hc⟩)

/-- Separators behind the texts in front of one, and in front of the texts behind it. -/
lemma semicolons_middle (xs ys : List (List UInt8)) (y : List UInt8) :
    semicolons (xs ++ y :: ys) =
      xs.flatMap (· ++ [59, 32]) ++ (y ++ ys.flatMap fun z => 59 :: 32 :: z) := by
  induction xs with
  | nil => rfl
  | cons x xs ih =>
    have hfirst (zs : List (List UInt8)) (z : List UInt8) :
        semicolons (x :: (zs ++ z :: ys)) = x ++ 59 :: 32 :: semicolons (zs ++ z :: ys) := by
      cases zs <;> simp [semicolons]
    rw [List.cons_append, hfirst, ih, List.flatMap_cons]
    simp

variable {t : CookieHeader}

lemma plain_cookies (h : t.WellFormed) {session : Option (List UInt8)}
    (hplain : ∀ v ∈ session, Plain v) {c : Cookie} (hc : c ∈ t.cookies session) :
    Plain c.name ∧ Plain c.value := by
  simp only [cookies, List.mem_append, Option.mem_toList] at hc
  rcases hc with (hc | hc) | hc
  · exact h.cookies c (List.mem_append_left _ hc)
  · obtain ⟨v, hv, rfl⟩ := Option.map_eq_some_iff.mp hc
    exact ⟨by simp [Plain, ascii], hplain v hv⟩
  · exact h.cookies c (List.mem_append_right _ hc)

/-- The line of cookies has no line end in it. -/
lemma not_mem_cookieLine (h : t.WellFormed) {session : Option (List UInt8)}
    (hplain : ∀ v ∈ session, Plain v) {c : UInt8} (hc : c ∈ t.cookieLine session) : c ≠ 13 := by
  rcases mem_semicolons hc with rfl | rfl | ⟨x, hx, hc⟩
  · decide
  · decide
  · obtain ⟨d, hd, rfl⟩ := List.mem_map.mp hx
    obtain ⟨hname, hvalue⟩ := plain_cookies h hplain hd
    rw [Cookie.encode, List.mem_append, List.mem_cons] at hc
    rcases hc with hc | rfl | hc
    · exact (hname c hc).1
    · decide
    · exact (hvalue c hc).1

/-- The line of cookies around the session. -/
lemma cookieLine_some (t : CookieHeader) (v : List UInt8) :
    t.cookieLine (some v) = (t.cookiesBefore.flatMap fun c => c.encode ++ [59, 32]) ++
      (ascii "session=" ++ (v ++ t.cookiesAfter.flatMap fun c => 59 :: 32 :: c.encode)) := by
  have hsession : (Cookie.mk (ascii "session") v).encode = ascii "session=" ++ v := rfl
  rw [cookieLine, cookies, Option.map_some, Option.toList_some, List.append_assoc,
    List.singleton_append, List.map_append, List.map_cons, semicolons_middle, hsession,
    List.flatMap_map, List.flatMap_map, List.append_assoc]

/-! ## The first two searches -/

/-- The bytes of the header behind the name of the line of cookies. -/
def behindName (t : CookieHeader) (session : Option (List UInt8)) : List UInt8 :=
  58 :: 32 :: (t.cookieLine session ++ t.linesAfter.flatMap fun l => 13 :: 10 :: l)

/-- When the lines in front have no `Cookie`, the name of the line is found. -/
lemma after_of_none (hfind : Search.find (ascii "Cookie") t.front = none)
    (session : Option (List UInt8)) :
    Search.after (ascii "Cookie") (t.encode session) = t.behindName session := by
  have hstate : Search.state (ascii "Cookie") 0 t.front = some 0 :=
    Search.state_flatMap_of_none (by simp [ascii]) (by decide) hfind
  rw [Search.after, encode, Search.find_append _ (by decide) hstate]
  rfl

/-- When the lines in front have `Cookie`, it is found there. -/
lemma after_of_some {a b : List UInt8} (hfind : Search.find (ascii "Cookie") t.front = some (a, b))
    (session : Option (List UInt8)) : Search.after (ascii "Cookie") (t.encode session) =
      b ++ (ascii "Cookie" ++ t.behindName session) := by
  rw [Search.after, encode, Search.find_append_of_some hfind]
  rfl

/-- What is behind a match in the lines in front: the rest of its line, and lines. -/
lemma front_split (h : t.WellFormed) {a b : List UInt8}
    (hfind : Search.find (ascii "Cookie") t.front = some (a, b)) :
    ∃ (q : List UInt8) (ys : List (List UInt8)), (∀ c ∈ q, c ≠ 13) ∧
      (∀ y ∈ ys, ∀ c ∈ y, c ≠ 13) ∧ b = q ++ 13 :: 10 :: ys.flatMap (· ++ [13, 10]) := by
  obtain ⟨x, q, ys, hq, hys, rfl⟩ :=
    Search.find_flatMap_split (by simp [ascii]) (by decide) (by decide) hfind
  have hline (l : List UInt8) (hl : l ∈ x :: ys) : ∀ c ∈ l, c ≠ 13 := fun c hc =>
    (h.lines l (List.mem_append_left _ (hys.subset hl)) c hc).1
  exact ⟨q, ys, fun c hc => hline x List.mem_cons_self c (hq.subset hc),
    fun y hy => hline y (List.mem_cons_of_mem x hy), by simp⟩

/-- The line of cookies, up to its end. -/
lemma before_behindName (h : t.WellFormed) (pre : List UInt8) (hpre : ∀ c ∈ pre, c ≠ 13)
    {session : Option (List UInt8)} (hplain : ∀ v ∈ session, Plain v) :
    Search.before (ascii "\r\n") (pre ++ (t.behindName session).drop 2) =
      pre ++ t.cookieLine session := by
  rw [behindName, List.drop_succ_cons, List.drop_succ_cons, List.drop_zero, ← List.append_assoc]
  refine before_lines (fun c hc => ?_) t.linesAfter
  rcases List.mem_append.mp hc with hc | hc
  · exact hpre c hc
  · exact not_mem_cookieLine h hplain hc

/-- **The line of cookies is found** when the search for `Cookie` ends where it should: the value
extracted is the line, with at most its name in front. -/
lemma extractParam_of_lineFound (h : t.WellFormed) (hfound : t.LineFound) :
    ∃ pre, Search.state (ascii "session=") 0 pre = some 0 ∧
      ∀ session, (∀ v ∈ session, Plain v) →
        extractParam (t.encode session) (ascii "Cookie") = pre ++ t.cookieLine session := by
  cases hfind : Search.find (ascii "Cookie") t.front with
  | none =>
    refine ⟨[], rfl, fun session hplain => ?_⟩
    rw [extractParam, after_of_none hfind]
    exact before_behindName h [] (by simp) hplain
  | some found =>
    obtain ⟨a, b⟩ := found
    obtain ⟨q, ys, hq, -, rfl⟩ := front_split h hfind
    have hshort : (q ++ 13 :: 10 :: ys.flatMap (· ++ [13, 10])).length ≤ 3 := by
      rw [LineFound, Search.after, hfind] at hfound
      exact hfound
    simp only [List.length_append, List.length_cons] at hshort
    obtain rfl : ys = [] := by
      cases ys with
      | nil => rfl
      | cons y ys =>
        simp only [List.flatMap_cons, List.length_append, List.length_cons] at hshort
        omega
    rcases q with _ | ⟨x, _ | ⟨y, q⟩⟩
    · -- the line break is passed over
      refine ⟨ascii "Cookie: ", by decide, fun session hplain => ?_⟩
      rw [extractParam, after_of_some hfind]
      exact before_behindName h (ascii "Cookie: ") (by simp [ascii]) hplain
    · -- one byte and the carriage return are passed over
      refine ⟨10 :: ascii "Cookie: ", by decide, fun session hplain => ?_⟩
      rw [extractParam, after_of_some hfind]
      exact before_behindName h (10 :: ascii "Cookie: ") (by simp [ascii]) hplain
    · simp only [List.length_cons] at hshort
      omega

/-- **Another line is found** when the search for `Cookie` ends elsewhere: the value extracted
does not depend on the cookies. -/
lemma extractParam_of_not_lineFound (h : t.WellFormed) (hfound : ¬ t.LineFound)
    (session : Option (List UInt8)) : extractParam (t.encode session) (ascii "Cookie") =
      Search.before (ascii "\r\n") ((Search.after (ascii "Cookie") t.front).drop 2) := by
  cases hfind : Search.find (ascii "Cookie") t.front with
  | none =>
    rw [LineFound, Search.after, hfind] at hfound
    exact absurd (by simp) hfound
  | some found =>
    obtain ⟨a, b⟩ := found
    have hafter : Search.after (ascii "Cookie") t.front = b := by
      rw [Search.after, hfind]
      rfl
    rw [LineFound, hafter] at hfound
    -- behind the two bytes that are passed over there is a line end
    obtain ⟨u, w, hu, hdrop⟩ : ∃ u w, (∀ c ∈ u, c ≠ (13 : UInt8)) ∧
        b.drop 2 = u ++ 13 :: 10 :: w := by
      obtain ⟨q, ys, hq, hys, rfl⟩ := front_split h hfind
      rcases q with _ | ⟨x, _ | ⟨x', q⟩⟩
      · cases ys with
        | nil => exact absurd (by decide) hfound
        | cons y ys =>
          exact ⟨y, ys.flatMap (· ++ [13, 10]), hys y List.mem_cons_self, by simp⟩
      · cases ys with
        | nil => exact absurd (by simp) hfound
        | cons y ys =>
          refine ⟨10 :: y, ys.flatMap (· ++ [13, 10]), ?_, by simp⟩
          rw [List.forall_mem_cons]
          exact ⟨by decide, hys y List.mem_cons_self⟩
      · exact ⟨q, ys.flatMap (· ++ [13, 10]), fun c hc => hq c (by simp [hc]), by simp⟩
    rw [extractParam, after_of_some hfind, hafter, List.drop_append_of_le_length (by omega), hdrop,
      List.append_assoc, before_break hu]
    exact before_break hu _

/-! ## The last two searches -/

/-- Behind the session cookie there are only separators and other cookies. -/
lemma before_semicolon {v : List UInt8} (hv : ∀ c ∈ v, c ≠ 59) (cs : List Cookie) :
    Search.before (ascii ";") (v ++ cs.flatMap fun c => 59 :: 32 :: c.encode) = v := by
  have hstate : Search.state (ascii ";") 0 v = some 0 :=
    Search.state_of_ne_head fun c hc heq => hv c hc (Option.some.inj heq).symm
  exact Search.before_flatMap (by decide) hstate cs fun c => 32 :: c.encode

/-- **The session cookie is found** when the cookies in front have no `session=`. -/
lemma cookieSession_of_cookieFound (hfound : t.CookieFound) {pre : List UInt8}
    (hpre : Search.state (ascii "session=") 0 pre = some 0) {v : List UInt8} (hv : Plain v) :
    cookieSession (pre ++ t.cookieLine (some v)) = v := by
  have hstate : Search.state (ascii "session=") 0
      (t.cookiesBefore.flatMap fun c => c.encode ++ [59, 32]) = some 0 := by
    rw [CookieFound, ← List.flatMap_map Cookie.encode (· ++ [59, 32])] at hfound
    rw [← List.flatMap_map Cookie.encode (· ++ [59, 32])]
    exact Search.state_flatMap_of_none (by simp [ascii]) (by decide) hfound
  rw [cookieSession, Search.after_append hpre, cookieLine_some, Search.after,
    Search.find_append _ (by decide) hstate]
  exact before_semicolon (fun c hc => (hv c hc).2.2) t.cookiesAfter

/-- **Another cookie is found** when one in front has `session=`: the text read does not depend on
the session. -/
lemma cookieSession_of_not_cookieFound (h : t.WellFormed) (hfound : ¬ t.CookieFound)
    {pre : List UInt8} (hpre : Search.state (ascii "session=") 0 pre = some 0) (v : List UInt8) :
    cookieSession (pre ++ t.cookieLine (some v)) =
      cookieSession (t.cookiesBefore.flatMap fun c => c.encode ++ [59, 32]) := by
  obtain ⟨⟨a, b⟩, hfind⟩ := Option.ne_none_iff_exists'.mp hfound
  have hfind' := hfind
  rw [← List.flatMap_map Cookie.encode (· ++ [59, 32])] at hfind'
  obtain ⟨x, q, ys, hq, hys, hb⟩ :=
    Search.find_flatMap_split (by simp [ascii]) (by decide) (by decide) hfind'
  have hplain : ∀ c ∈ q, c ≠ 59 := by
    obtain ⟨d, hd, rfl⟩ := List.mem_map.mp (hys.subset List.mem_cons_self)
    obtain ⟨hname, hvalue⟩ := h.cookies d (List.mem_append_left _ hd)
    intro c hc
    have hc := hq.subset hc
    rw [Cookie.encode, List.mem_append, List.mem_cons] at hc
    rcases hc with hc | rfl | hc
    · exact (hname c hc).2.2
    · decide
    · exact (hvalue c hc).2.2
  have hstate : Search.state (ascii ";") 0 q = some 0 :=
    Search.state_of_ne_head fun c hc heq => hplain c hc (Option.some.inj heq).symm
  have hq (w : List UInt8) : Search.before (ascii ";") (b ++ w) = q := by
    rw [hb, List.append_assoc, List.append_assoc]
    exact Search.before_append _ (by decide) hstate
  rw [cookieSession, Search.after_append hpre, cookieLine_some, Search.after,
    Search.find_append_of_some hfind, Option.map_some, Option.getD_some, hq, cookieSession,
    Search.after, hfind, Option.map_some, Option.getD_some, ← hq [], List.append_nil]

/-! ## What is looked up -/

lemma looksUp_iff {session : Option (List UInt8)} {s : ℤ} :
    t.LooksUp session s ↔ headerSession (t.encode session) = s := by
  constructor
  · intro h
    have hread := Memory.read_store (m := fun _ => 0) (a := 0) (t.encode session)
    rw [← hread, ← boundSession_eq]
    exact h _ _ hread
  · rintro rfl m header hread
    rw [boundSession_eq, hread]

/-- When both searches end where they should, the value of the session cookie is read. -/
lemma looksUp_of_found (h : t.WellFormed) (hline : t.LineFound) (hcookie : t.CookieFound)
    {v : List UInt8} (hv : Plain v) {s : ℤ} : t.LooksUp (some v) s ↔ btoi64 v = s := by
  obtain ⟨pre, hpre, hextract⟩ := extractParam_of_lineFound h hline
  rw [looksUp_iff, headerSession, hextract (some v) (by rintro _ ⟨⟩; exact hv),
    cookieSession_of_cookieFound hcookie hpre hv]

/-- When one of them does not, the stray text is read. -/
lemma looksUp_of_not_found (h : t.WellFormed) (hfound : ¬ (t.LineFound ∧ t.CookieFound))
    {v : List UInt8} (hv : Plain v) {s : ℤ} : t.LooksUp (some v) s ↔ btoi64 t.stray = s := by
  rw [looksUp_iff, headerSession, stray]
  by_cases hline : t.LineFound
  · obtain ⟨pre, hpre, hextract⟩ := extractParam_of_lineFound h hline
    rw [if_pos hline, hextract (some v) (by rintro _ ⟨⟩; exact hv),
      cookieSession_of_not_cookieFound h (fun hcookie => hfound ⟨hline, hcookie⟩) hpre]
  · rw [if_neg hline, extractParam_of_not_lineFound h hline]

/-- Printed numbers are values of cookies. -/
lemma plain_print (s : ℤ) : Plain (Decimal.print s) := by
  have hdigits : ∀ c ∈ Decimal.digits s.natAbs, c ≠ 13 ∧ c ≠ 10 ∧ c ≠ 59 := by
    intro c hc
    have hc : 48 ≤ c.toNat ∧ c.toNat ≤ 57 := Decimal.isDigit_of_mem_digits hc
    refine ⟨?_, ?_, ?_⟩ <;> rintro rfl <;> exact absurd hc (by decide)
  obtain ⟨-, hprint⟩ | ⟨-, hprint⟩ := Decimal.print_eq s
  · rw [hprint, Plain, List.forall_mem_cons]
    exact ⟨by decide, hdigits⟩
  · rwa [hprint]

/-- Only a user with the session 0 is found for a header that gives none. -/
lemma headerUser_of_zero {header : List UInt8} (hzero : headerSession header = 0) {db : Database}
    (husers : ∀ u ∈ db.users, u.session ≠ 0) : headerUser header db = 0 := by
  have hnone : db.selectuserid 0 = none := by
    rw [Database.selectuserid, Option.map_eq_none_iff, List.find?_eq_none]
    simpa using husers
  rw [headerUser, hzero, hnone]

/-- No user is found for a header exactly when the number it gives is 0. -/
lemma sessionOk_none_iff : t.SessionOk none ↔ headerSession (t.encode none) = 0 := by
  constructor
  · intro hok
    by_contra hne
    have hread := Memory.read_store (m := fun _ => 0) (a := 0) (t.encode none)
    have hzero := hok _ _ ⟨[⟨1, [], [], headerSession (t.encode none)⟩], []⟩ hread
      (by simpa using hne) (by simp)
    rw [getuserid_eq, hread, headerUser, Database.selectuserid] at hzero
    simp at hzero
    exact absurd hzero (by decide)
  · intro hzero m header db hread husers _
    rw [getuserid_eq, hread]
    exact headerUser_of_zero hzero husers

/-- A value and the number looked up for it agree exactly when the value is printed so. -/
lemma sessionOk_some_iff {v : List UInt8} {n : ℤ} (hlo : -2 ^ 63 ≤ n) (hhi : n < 2 ^ 63)
    (hlooks : ∀ s, t.LooksUp (some v) s ↔ n = s) : t.SessionOk (some v) ↔ Printed v n := by
  constructor
  · intro hok
    by_cases hzero : n = 0
    · refine .inr ⟨hzero, fun s hslo hshi hne hprint => ?_⟩
      have hs := (hlooks s).mp ((hok s hslo hshi hne).mpr hprint)
      exact hne (hs.symm.trans hzero)
    · exact .inl ⟨hzero, (hok n hlo hhi hzero).mp ((hlooks n).mpr rfl)⟩
  · rintro (⟨hne, rfl⟩ | ⟨hzero, hnone⟩) s hslo hshi hsne
    · rw [hlooks]
      constructor
      · rintro rfl
        rfl
      · intro hprint
        rw [← btoi64_print hlo hhi, hprint, btoi64_print hslo hshi]
    · rw [hlooks]
      exact iff_of_false (fun hs => hsne (hs.symm.trans hzero)) (hnone s hslo hshi hsne)

/-- A value is printed as what it reads as exactly when it is printed at all or reads as 0. -/
lemma printed_btoi64_iff (v : List UInt8) : Printed v (btoi64 v) ↔
    (∃ s : ℤ, -2 ^ 63 ≤ s ∧ s < 2 ^ 63 ∧ v = Decimal.print s) ∨ btoi64 v = 0 := by
  obtain ⟨hlo, hhi⟩ := btoi64_range v
  constructor
  · rintro (⟨-, hprint⟩ | ⟨hzero, -⟩)
    · exact .inl ⟨btoi64 v, hlo, hhi, hprint⟩
    · exact .inr hzero
  · intro h
    by_cases hzero : btoi64 v = 0
    · refine .inr ⟨hzero, fun s hslo hshi hne hprint => hne ?_⟩
      rwa [hprint, btoi64_print hslo hshi] at hzero
    · obtain ⟨s, hslo, hshi, hprint⟩ := h.resolve_right hzero
      have hs : btoi64 v = s := by rw [hprint, btoi64_print hslo hshi]
      exact .inl ⟨hzero, hs ▸ hprint⟩

/-- **The session cookie** of a header is taken for what it is, or its absence, if and only if the
header is clear.

**Proof sketch.** When the searches end where they should, the text read is the value
(`looksUp_of_found`), and `btoi64` reads back what was printed. When one of them does not, the
stray text is read instead (`looksUp_of_not_found`). -/
theorem getuserid_cookie_iff (h : t.WellFormed) {session : Option (List UInt8)}
    (hplain : ∀ v ∈ session, Plain v) : t.SessionOk session ↔ t.Clear session := by
  cases session with
  | none =>
    rw [sessionOk_none_iff, headerSession, Clear]
    by_cases hline : t.LineFound
    · obtain ⟨pre, hpre, hextract⟩ := extractParam_of_lineFound h hline
      simp only [hextract none hplain, cookieSession, Search.after_append hpre, hline, true_and,
        not_true_eq_false, false_and, or_false]
    · simp only [extractParam_of_not_lineFound h hline, stray, hline, if_false, false_and,
        not_false_eq_true, true_and, false_or]
  | some v =>
    have hv := hplain v rfl
    by_cases hfound : t.LineFound ∧ t.CookieFound
    · obtain ⟨hlo, hhi⟩ := btoi64_range v
      rw [sessionOk_some_iff hlo hhi fun s => looksUp_of_found h hfound.1 hfound.2 hv,
        printed_btoi64_iff, Clear]
      simp only [hfound, true_and, not_true_eq_false, false_and, or_false, and_self]
    · obtain ⟨hlo, hhi⟩ := btoi64_range t.stray
      rw [sessionOk_some_iff hlo hhi fun s => looksUp_of_not_found h hfound hv, Clear,
        ← and_assoc]
      simp only [hfound, false_and, not_false_eq_true, true_and, false_or]

/-- A header with one more cookie, whose name ends like that of the session. -/
def twoCookies : CookieHeader :=
  ⟨ascii "GET / HTTP/1.1", [], [], [], [⟨ascii "xsession", ascii "7"⟩]⟩

lemma twoCookies_wellFormed : twoCookies.WellFormed := by
  refine ⟨?_, ?_, ?_⟩ <;> simp [twoCookies, Plain, ascii]

/-- The session is read from a header that has it in front of another cookie. -/
theorem getuserid_cookie_iff_two : twoCookies.SessionOk (some (ascii "5")) :=
  (getuserid_cookie_iff twoCookies_wellFormed (by rintro _ ⟨⟩; decide)).mpr
    (.inl ⟨by decide, by decide, .inl ⟨5, by decide, by decide, by decide +kernel⟩⟩)

/-- With the other cookie in front, its number is looked up instead of that of the session. -/
theorem getuserid_other_cookie :
    let t : CookieHeader :=
      ⟨ascii "GET / HTTP/1.1", [], [], [⟨ascii "xsession", ascii "7"⟩], []⟩
    t.WellFormed ∧ t.LooksUp (some (Decimal.print 5)) 7 ∧
      ¬ t.LooksUp (some (Decimal.print 5)) 5 := by
  refine ⟨⟨by simp [ascii], by simp [Plain, ascii], by simp [ascii]⟩, ?_, ?_⟩
  · rw [looksUp_iff]
    decide +kernel
  · rw [looksUp_iff]
    decide +kernel

end CookieHeader

end SleepyText.Server
