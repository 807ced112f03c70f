import Mathlib.Data.List.TakeWhile
import SleepyText.Lib.Decimal
import SleepyText.Client.Branch

set_option relaxedAutoImplicit false
set_option autoImplicit false

/-!
# Reading the branch listing

After the login the client asks for its branches, and `fetchupdates` of `user.js` makes a branch
object of the lines of the answer.

## Main definitions

* `parseInt` — the function of the language, for radix 10.
* `updatesLoop`, `fetchupdates` — the branch objects that are made.

## Main results

* `parseInt_print` — `parseInt` reads back a printed number of magnitude at most `2 ^ 53`.
* `length_fetchupdates` — there is one object for every two lines.
-/

namespace SleepyText.Client

/-! ## Numbers -/

/-- The double nearest to a natural number, of two the even one: 53 significant bits are kept. -/
def nearestDouble (n : ℕ) : ℕ :=
  let unit := 2 ^ (n.log2 - 52)
  let q := n / unit
  let r := n % unit
  (if 2 * r > unit ∨ 2 * r = unit ∧ q % 2 = 1 then q + 1 else q) * unit

/-- The number that the language makes of an integer in the range of doubles. -/
def toNumber (n : ℤ) : ℤ := n.sign * nearestDouble n.natAbs

/-- White space and line terminators. -/
def isSpace (c : UInt16) : Bool :=
  c.toNat ∈ [9, 10, 11, 12, 13, 32, 160, 0x1680, 0x2028, 0x2029, 0x202F, 0x205F, 0x3000, 0xFEFF] ||
    (0x2000 ≤ c.toNat && c.toNat ≤ 0x200A)

/-- The digits `'0'` to `'9'`. -/
def isDigit (c : UInt16) : Bool := 48 ≤ c.toNat && c.toNat ≤ 57

/-- The sign in front of a number, and the rest. -/
def parseSign : JsString → ℤ × JsString
  | 45 :: s => (-1, s)
  | 43 :: s => (1, s)
  | s => (1, s)

/-- `parseInt(s, 10)`; `none` is `NaN`. -/
def parseInt (s : JsString) : Option ℤ :=
  let (sign, s) := parseSign (s.dropWhile isSpace)
  let ds := s.takeWhile isDigit
  if ds = [] then none else some (toNumber (sign * Decimal.value (ds.map UInt16.toUInt8)))

/-! ## The listing -/

/-- The text of a response of ASCII bytes. -/
def responseText (bytes : List UInt8) : JsString := bytes.map UInt8.toUInt16

/-- The object for a line: `parseInt(r[i], 10)` where `r[i]` is missing is `NaN`. -/
def updatesRow (line : JsString) : BranchArgs (Option ℤ) :=
  let r := line.splitOn 32
  { id := r[0]?.bind parseInt
    parent := r[1]?.bind parseInt
    pos := r[2]?.bind parseInt
    document := r[3]?.bind parseInt }

/-- The loop over `t[i], t[i + 1], …`: it goes on while `i < t.length - 1`, so while two of them
are left, and `i += 2` passes over the second. -/
def updatesLoop : List JsString → List (BranchArgs (Option ℤ))
  | line :: _ :: t => updatesRow line :: updatesLoop t
  | _ => []

/-- The arguments of the calls of `new branch` that `fetchupdates` makes. -/
def fetchupdates (responseText : JsString) : List (BranchArgs (Option ℤ)) :=
  updatesLoop (responseText.splitOn 10)

/-! ## Reading numbers -/

/-- Integers of magnitude at most `2 ^ 53` are doubles. -/
lemma nearestDouble_of_le {n : ℕ} (h : n ≤ 2 ^ 53) : nearestDouble n = n := by
  rcases h.lt_or_eq with hlt | rfl
  · have hlog : n.log2 - 52 = 0 := by
      rcases Nat.eq_zero_or_pos n with rfl | hpos
      · rfl
      · have h53 := (Nat.log2_lt (by omega)).mpr hlt
        omega
    simp [nearestDouble, hlog, Nat.mod_one]
  · decide

lemma toNumber_of_le {n : ℤ} (h : n.natAbs ≤ 2 ^ 53) : toNumber n = n := by
  rw [toNumber, nearestDouble_of_le h, Int.sign_mul_natAbs]

lemma toNat_toUInt16 (c : UInt8) : c.toUInt16.toNat = c.toNat := by simp

lemma isDigit_toUInt16 {c : UInt8} (h : Decimal.IsDigit c) : isDigit c.toUInt16 = true := by
  have hrange : 48 ≤ c.toNat ∧ c.toNat ≤ 57 := h
  simp [isDigit, hrange]

lemma isSpace_toUInt16 {c : UInt8} (h : 33 ≤ c.toNat ∧ c.toNat ≤ 57) :
    isSpace c.toUInt16 = false := by
  simp only [isSpace, toNat_toUInt16, Bool.or_eq_false_iff, decide_eq_false_iff_not,
    List.mem_cons, List.not_mem_nil, or_false, Bool.and_eq_false_iff]
  omega

lemma responseText_append (bs bs' : List UInt8) :
    responseText (bs ++ bs') = responseText bs ++ responseText bs' := List.map_append

lemma map_toUInt8_responseText (bs : List UInt8) :
    (responseText bs).map UInt16.toUInt8 = bs := by
  rw [responseText, List.map_map]
  exact (List.map_congr_left fun c _ => UInt8.toUInt8_toUInt16 c).trans (List.map_id bs)

/-- The digits of a number are read whole. -/
lemma takeWhile_digits (n : ℕ) :
    (responseText (Decimal.digits n)).takeWhile isDigit = responseText (Decimal.digits n) := by
  apply List.takeWhile_eq_self_iff.mpr
  intro c hc
  obtain ⟨d, hd, rfl⟩ := List.mem_map.mp hc
  exact isDigit_toUInt16 (Decimal.isDigit_of_mem_digits hd)

/-- Digits do not start with a sign. -/
lemma parseSign_digits (n : ℕ) : parseSign (responseText (Decimal.digits n)) =
    (1, responseText (Decimal.digits n)) := by
  obtain ⟨d, ds, hds⟩ := List.exists_cons_of_ne_nil (Decimal.digits_ne_nil n)
  have hd : 48 ≤ d.toNat ∧ d.toNat ≤ 57 :=
    Decimal.isDigit_of_mem_digits (n := n) (by rw [hds]; exact List.mem_cons_self)
  rw [hds, responseText, List.map_cons, parseSign]
  · intro s h
    have hcode := congrArg UInt16.toNat (List.cons.inj h).1
    rw [toNat_toUInt16] at hcode
    simp at hcode
    omega
  · intro s h
    have hcode := congrArg UInt16.toNat (List.cons.inj h).1
    rw [toNat_toUInt16] at hcode
    simp at hcode
    omega

/-- A printed number does not start with white space. -/
lemma dropWhile_print (n : ℤ) : (responseText (Decimal.print n)).dropWhile isSpace =
    responseText (Decimal.print n) := by
  cases hprint : Decimal.print n with
  | nil => rfl
  | cons c cs =>
    have hc : 33 ≤ c.toNat ∧ c.toNat ≤ 57 :=
      Decimal.range_of_mem_print (n := n) (by rw [hprint]; exact List.mem_cons_self)
    exact List.dropWhile_cons_of_neg (by rw [isSpace_toUInt16 hc]; decide)

/-- **`parseInt` reads back** a printed number of magnitude at most `2 ^ 53`. -/
theorem parseInt_print {n : ℤ} (h : n.natAbs ≤ 2 ^ 53) :
    parseInt (responseText (Decimal.print n)) = some n := by
  have hne : responseText (Decimal.digits n.natAbs) ≠ [] := by
    simpa [responseText] using Decimal.digits_ne_nil n.natAbs
  obtain ⟨sign, hsign, hparse⟩ : ∃ sign : ℤ, sign * n.natAbs = n ∧
      parseSign (responseText (Decimal.print n)) =
        (sign, responseText (Decimal.digits n.natAbs)) := by
    rcases Decimal.print_eq n with ⟨hneg, hprint⟩ | ⟨hpos, hprint⟩
    · refine ⟨-1, by omega, ?_⟩
      rw [hprint]
      rfl
    · refine ⟨1, by omega, ?_⟩
      rw [hprint, parseSign_digits]
  rw [parseInt, dropWhile_print, hparse]
  dsimp only
  rw [takeWhile_digits, if_neg hne, map_toUInt8_responseText, Decimal.value_digits, hsign,
    toNumber_of_le h]

/-! ## Reading lines -/

/-- One more piece than there are separators. -/
lemma length_splitOn (s : JsString) (c : UInt16) : (s.splitOn c).length = s.count c + 1 := by
  induction s with
  | nil => rfl
  | cons x s ih =>
    rw [List.splitOn_cons_eq_if_modifyHead, List.count_cons]
    split_ifs <;> simp [ih]

/-- The loop makes one object for every two pieces. -/
lemma length_updatesLoop (t : List JsString) : (updatesLoop t).length = t.length / 2 := by
  induction t using updatesLoop.induct with
  | case1 line skipped t ih =>
    rw [updatesLoop, List.length_cons, ih, List.length_cons, List.length_cons]
    omega
  | case2 t h =>
    rcases t with _ | ⟨line, _ | ⟨skipped, t⟩⟩
    · rfl
    · simp [updatesLoop]
    · exact absurd rfl (h line skipped t)

/-- **The number of objects** is half the number of lines, rounded up. -/
theorem length_fetchupdates (s : JsString) :
    (fetchupdates s).length = (s.count 10 + 1) / 2 := by
  rw [fetchupdates, length_updatesLoop, length_splitOn]

end SleepyText.Client
