import Mathlib.Tactic

set_option relaxedAutoImplicit false
set_option autoImplicit false

/-!
# UTF-16 and UTF-8 texts

Strings of UTF-16 code units may hold lone surrogates. Converting such a string to scalar values
replaces each of them by the replacement character, which cannot be undone; UTF-8 encodes scalar
values only.

## Main definitions

* `Utf.WellFormed` — a string of code units without lone surrogates.
* `Utf.encode`, `Utf.decode` — UTF-16, with replacement of lone surrogates.
* `Utf.toUtf8`, `Utf.ofUtf8` — the UTF-8 bytes of a string of code units, and back.

## Main results

* `Utf.WellFormed.cut` — of a well-formed string cut in two, both parts are well formed or none.
* `Utf.ofUtf8_toUtf8_iff` — exactly the well-formed strings survive UTF-8.
-/

namespace Utf

/-- The first half of a surrogate pair. -/
def isHigh (u : UInt16) : Bool := 0xD800 ≤ u.toNat && u.toNat < 0xDC00

/-- The second half of a surrogate pair. -/
def isLow (u : UInt16) : Bool := 0xDC00 ≤ u.toNat && u.toNat < 0xE000

/-- Read a string of code units, where the flag says that the second half of a pair must come
next: `none` if a lone surrogate is met, else whether a second half is missing at the end. -/
def scan : Bool → List UInt16 → Option Bool
  | pending, [] => some pending
  | true, u :: s => if isLow u then scan false s else none
  | false, u :: s => if isLow u then none else scan (isHigh u) s

/-- A string of code units without lone surrogates. -/
def WellFormed (s : List UInt16) : Prop := scan false s = some false

instance (s : List UInt16) : Decidable (WellFormed s) :=
  inferInstanceAs (Decidable (scan false s = some false))

lemma scan_append (p : Bool) (a b : List UInt16) :
    scan p (a ++ b) = (scan p a).bind fun q => scan q b := by
  induction a generalizing p with
  | nil => rfl
  | cons u a ih =>
    cases p with
    | false =>
      simp only [List.cons_append, scan, ih]
      split <;> rfl
    | true =>
      simp only [List.cons_append, scan, ih]
      split <;> rfl

/-- A string that starts where a second half is due is not well formed by itself. -/
lemma not_wellFormed_of_scan_true {b : List UInt16} {q : Bool} (h : scan true b = some q)
    (hb : b ≠ []) : ¬ WellFormed b := by
  cases b with
  | nil => exact absurd rfl hb
  | cons u b =>
    have hlow : isLow u = true := by
      by_contra hne
      simp [scan, hne] at h
    simp [WellFormed, scan, hlow]

/-- **A cut in a well-formed string** either goes through a surrogate pair, and then neither part
is well formed, or both parts are. -/
theorem WellFormed.cut {a b : List UInt16} (h : WellFormed (a ++ b)) :
    WellFormed a ↔ WellFormed b := by
  rw [WellFormed, scan_append] at h
  cases ha : scan false a with
  | none => simp [ha] at h
  | some p =>
    rw [ha, Option.bind_some] at h
    cases p with
    | false => simp [WellFormed, ha, h]
    | true =>
      have hb : b ≠ [] := by
        rintro rfl
        simp [scan] at h
      have hnot := not_wellFormed_of_scan_true h hb
      simpa [WellFormed, ha] using hnot

lemma wellFormed_nil : WellFormed [] := rfl

/-- In front of a well-formed string that is not empty, a well-formed string is well formed. -/
lemma WellFormed.of_middle {a b c : List UInt16} (h : WellFormed (a ++ b ++ c))
    (hb : WellFormed b) (hne : b ≠ []) : WellFormed a := by
  rw [WellFormed, scan_append, scan_append] at h
  cases ha : scan false a with
  | none => simp [ha] at h
  | some p =>
    rw [ha, Option.bind_some] at h
    cases p with
    | false => exact ha
    | true =>
      obtain ⟨q, hq, -⟩ := Option.bind_eq_some_iff.mp h
      exact absurd hb (not_wellFormed_of_scan_true hq hne)

/-! ## UTF-16 -/

/-- The code units of a scalar value. -/
def encodeChar (c : Char) : List UInt16 :=
  if c.toNat < 0x10000 then [UInt16.ofNat c.toNat]
  else [UInt16.ofNat (0xD800 + (c.toNat - 0x10000) / 0x400),
    UInt16.ofNat (0xDC00 + (c.toNat - 0x10000) % 0x400)]

/-- The code units of a text. -/
def encode (cs : List Char) : List UInt16 := cs.flatMap encodeChar

/-- The scalar value of a surrogate pair. -/
def pairChar (u v : UInt16) : Char :=
  Char.ofNat (0x10000 + (u.toNat - 0xD800) * 0x400 + (v.toNat - 0xDC00))

/-- The scalar value of a code unit that is not part of a pair. -/
def loneChar (u : UInt16) : Char :=
  if isHigh u || isLow u then Char.ofNat 0xFFFD else Char.ofNat u.toNat

/-- The text of a string of code units, with lone surrogates replaced by `U+FFFD`. -/
def decode : List UInt16 → List Char
  | u :: v :: s =>
    if isHigh u && isLow v then pairChar u v :: decode s else loneChar u :: decode (v :: s)
  | [u] => [loneChar u]
  | [] => []

/-- `Char.ofNat` keeps scalar values. -/
private lemma toNat_ofNat {n : ℕ} (h : n < 0xD800 ∨ 0xDFFF < n ∧ n < 0x110000) :
    (Char.ofNat n).toNat = n := by
  have hvalid : n.isValidChar := h
  rw [Char.ofNat, dif_pos hvalid]
  rfl

private lemma isHigh_iff (u : UInt16) : isHigh u = true ↔ 0xD800 ≤ u.toNat ∧ u.toNat < 0xDC00 := by
  simp [isHigh]

private lemma isLow_iff (u : UInt16) : isLow u = true ↔ 0xDC00 ≤ u.toNat ∧ u.toNat < 0xE000 := by
  simp [isLow]

/-- The code units of a pair. -/
lemma encodeChar_pairChar {u v : UInt16} (hu : isHigh u = true) (hv : isLow v = true) :
    encodeChar (pairChar u v) = [u, v] := by
  rw [isHigh_iff] at hu
  rw [isLow_iff] at hv
  have hnat : (pairChar u v).toNat =
      0x10000 + (u.toNat - 0xD800) * 0x400 + (v.toNat - 0xDC00) := toNat_ofNat (by omega)
  have hfst : UInt16.ofNat (0xD800 + ((pairChar u v).toNat - 0x10000) / 0x400) = u := by
    apply UInt16.toNat_inj.mp
    rw [UInt16.toNat_ofNat', hnat]
    omega
  have hsnd : UInt16.ofNat (0xDC00 + ((pairChar u v).toNat - 0x10000) % 0x400) = v := by
    apply UInt16.toNat_inj.mp
    rw [UInt16.toNat_ofNat', hnat]
    omega
  rw [encodeChar, if_neg (by omega), hfst, hsnd]

/-- The code unit of a character outside the surrogates. -/
lemma encodeChar_loneChar {u : UInt16} (hu : isHigh u = false) (hl : isLow u = false) :
    encodeChar (loneChar u) = [u] := by
  have hrange : u.toNat < 0xD800 ∨ 0xDFFF < u.toNat ∧ u.toNat < 0x110000 := by
    have hlt := u.toNat_lt
    rw [← Bool.not_eq_true, isHigh_iff] at hu
    rw [← Bool.not_eq_true, isLow_iff] at hl
    omega
  have hnat : (loneChar u).toNat = u.toNat := by
    rw [loneChar, hu, hl]
    exact toNat_ofNat hrange
  have hlt := u.toNat_lt
  rw [encodeChar, hnat, if_pos (by omega), UInt16.ofNat_toNat]

/-- **Decoding loses nothing of a well-formed string.** -/
theorem WellFormed.encode_decode {s : List UInt16} (h : WellFormed s) : encode (decode s) = s := by
  induction s using decode.induct with
  | case1 u v s hpair ih =>
    simp only [Bool.and_eq_true] at hpair
    have hlow : isLow u = false := by
      rw [isHigh_iff] at hpair
      rw [← Bool.not_eq_true, isLow_iff]
      omega
    have hs : WellFormed s := by simpa [WellFormed, scan, hpair.1, hpair.2, hlow] using h
    rw [decode, if_pos (by simp [hpair]), encode, List.flatMap_cons, ← encode, ih hs,
      encodeChar_pairChar hpair.1 hpair.2]
    rfl
  | case2 u v s hpair ih =>
    have hlow : isLow u = false := by
      by_contra hne
      simp [WellFormed, scan, hne] at h
    have hhigh : isHigh u = false := by
      by_contra hne
      simp only [Bool.not_eq_false] at hne
      have hv : isLow v = false := by simpa [hne] using hpair
      simp [WellFormed, scan, hlow, hne, hv] at h
    have hs : WellFormed (v :: s) := by
      simpa [WellFormed, scan, hlow, hhigh] using h
    rw [decode, if_neg hpair, encode, List.flatMap_cons, ← encode, ih hs,
      encodeChar_loneChar hhigh hlow]
    rfl
  | case3 u =>
    have hlow : isLow u = false := by
      by_contra hne
      simp [WellFormed, scan, hne] at h
    have hhigh : isHigh u = false := by simpa [WellFormed, scan, hlow] using h
    simp [decode, encode, encodeChar_loneChar hhigh hlow]
  | case4 => rfl

/-- A code unit outside the surrogates is well formed. -/
private lemma wellFormed_unit {u : UInt16} (h : u.toNat < 0xD800 ∨ 0xDFFF < u.toNat) :
    WellFormed [u] := by
  have hlow : isLow u = false := by
    rw [← Bool.not_eq_true, isLow_iff]
    omega
  have hhigh : isHigh u = false := by
    rw [← Bool.not_eq_true, isHigh_iff]
    omega
  simp [WellFormed, scan, hlow, hhigh]

/-- A surrogate pair is well formed. -/
private lemma wellFormed_pair {u v : UInt16} (hu : 0xD800 ≤ u.toNat ∧ u.toNat < 0xDC00)
    (hv : 0xDC00 ≤ v.toNat ∧ v.toNat < 0xE000) : WellFormed [u, v] := by
  have hlow : isLow u = false := by
    rw [← Bool.not_eq_true, isLow_iff]
    omega
  rw [← isHigh_iff] at hu
  rw [← isLow_iff] at hv
  simp [WellFormed, scan, hlow, hu, hv]

/-- The code units of a scalar value are well formed. -/
lemma wellFormed_encodeChar (c : Char) : WellFormed (encodeChar c) := by
  have hvalid : c.toNat < 0xD800 ∨ 0xDFFF < c.toNat ∧ c.toNat < 0x110000 := c.valid
  unfold encodeChar
  generalize c.toNat = n at hvalid ⊢
  split
  · apply wellFormed_unit
    rw [UInt16.toNat_ofNat']
    omega
  · apply wellFormed_pair
    · rw [UInt16.toNat_ofNat']
      omega
    · rw [UInt16.toNat_ofNat']
      omega

/-- What is encoded is well formed. -/
theorem wellFormed_encode (cs : List Char) : WellFormed (encode cs) := by
  induction cs with
  | nil => rfl
  | cons c cs ih =>
    rw [encode, List.flatMap_cons, ← encode, WellFormed, scan_append, wellFormed_encodeChar c,
      Option.bind_some, ih]

/-! ## UTF-8 -/

/-- The UTF-8 bytes of a string of code units, with lone surrogates replaced by `U+FFFD`. -/
def toUtf8 (s : List UInt16) : List UInt8 := (decode s).flatMap String.utf8EncodeChar

/-- The string of code units that UTF-8 bytes stand for, if they are valid. -/
def ofUtf8 (bytes : List UInt8) : Option (List UInt16) :=
  (bytes.toByteArray.utf8Decode?).map fun cs => encode cs.toList

/-- Decoding the bytes of a string gives the string with its lone surrogates replaced. -/
lemma ofUtf8_toUtf8 (s : List UInt16) : ofUtf8 (toUtf8 s) = some (encode (decode s)) := by
  have h : (toUtf8 s).toByteArray = (decode s).utf8Encode := rfl
  rw [ofUtf8, h, List.utf8Decode?_utf8Encode, Option.map_some]

/-- **Exactly the well-formed strings survive UTF-8.** -/
theorem ofUtf8_toUtf8_iff (s : List UInt16) : ofUtf8 (toUtf8 s) = some s ↔ WellFormed s := by
  rw [ofUtf8_toUtf8, Option.some.injEq]
  constructor
  · intro h
    rw [← h]
    exact wellFormed_encode _
  · exact WellFormed.encode_decode

end Utf
