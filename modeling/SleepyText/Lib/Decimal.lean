import Mathlib.Tactic
import Mathlib.Data.Nat.Digits.Lemmas

set_option relaxedAutoImplicit false
set_option autoImplicit false

/-!
# Decimal numbers as bytes

## Main definitions

* `Decimal.digits`, `Decimal.print` — the decimal form of a natural number and of an integer.
* `Decimal.value` — the number that digits stand for.
* `Decimal.lowFirst` — the digits from the least significant one on.

## Main results

* `Decimal.value_digits` — the digits of a number stand for it.
* `Decimal.isDigit_of_mem_digits` — they are digits.
* `Decimal.print_injective` — different numbers are printed differently.
* `Decimal.reverse_lowFirst` — the digits in the other order.
-/

namespace Decimal

/-- The bytes `'0'` to `'9'`. -/
def IsDigit (c : UInt8) : Prop := 48 ≤ c.toNat ∧ c.toNat ≤ 57

instance (c : UInt8) : Decidable (IsDigit c) :=
  inferInstanceAs (Decidable (48 ≤ c.toNat ∧ c.toNat ≤ 57))

/-- The decimal digits of a number, the most significant first. -/
def digits (n : ℕ) : List UInt8 := (Nat.toDigits 10 n).map fun c => UInt8.ofNat c.toNat

/-- The decimal form of an integer. -/
def print (n : ℤ) : List UInt8 :=
  if n < 0 then 45 :: digits n.natAbs else digits n.natAbs

/-- The number that digits stand for. -/
def value (ds : List UInt8) : ℕ := ds.foldl (fun n d => n * 10 + (d.toNat - 48)) 0

lemma digits_ne_nil (n : ℕ) : digits n ≠ [] := by
  simp [digits, Nat.toDigits_ne_nil]

/-- The code of a digit character. -/
private lemma toNat_of_isDigit {c : Char} (h : c.isDigit = true) : 48 ≤ c.toNat ∧ c.toNat ≤ 57 := by
  simp only [Char.isDigit, Bool.and_eq_true, decide_eq_true_eq, UInt32.le_iff_toNat_le] at h
  exact h

lemma isDigit_of_mem_digits {n : ℕ} {d : UInt8} (h : d ∈ digits n) : IsDigit d := by
  obtain ⟨c, hc, rfl⟩ := List.mem_map.mp h
  have hrange := toNat_of_isDigit (Nat.isDigit_of_mem_toDigits (by omega) (by omega) hc)
  rw [IsDigit, UInt8.toNat_ofNat']
  omega

/-- **The digits of a number stand for it.** -/
theorem value_digits (n : ℕ) : value (digits n) = n := by
  have hfold : ∀ (cs : List Char) (k : ℕ), (∀ c ∈ cs, c.isDigit = true) →
      (cs.map fun c => UInt8.ofNat c.toNat).foldl (fun n d => n * 10 + (d.toNat - 48)) k =
        Nat.ofDigitChars 10 cs k := by
    intro cs
    induction cs with
    | nil => intro k _; simp
    | cons c cs ih =>
      intro k hcs
      have hrange := toNat_of_isDigit (hcs c List.mem_cons_self)
      have hdigit : (UInt8.ofNat c.toNat).toNat - 48 = c.toNat - '0'.toNat := by
        rw [UInt8.toNat_ofNat', show '0'.toNat = 48 from rfl]
        omega
      rw [List.map_cons, List.foldl_cons, hdigit, Nat.ofDigitChars_cons,
        ih _ fun d hd => hcs d (List.mem_cons_of_mem c hd), Nat.mul_comm k]
  have hdigits := fun c (hc : c ∈ Nat.toDigits 10 n) =>
    Nat.isDigit_of_mem_toDigits (by omega) (by omega) hc
  rw [value, digits, hfold _ _ hdigits, Nat.ofDigitChars_toDigits (by omega) (by omega)]

/-- A number below `10 ^ k` has at most `k` digits. -/
lemma length_digits_le {n k : ℕ} (hk : 0 < k) (hn : n < 10 ^ k) : (digits n).length ≤ k := by
  rw [digits, List.length_map]
  exact (Nat.length_toDigits_le_iff (by omega) hk).mpr hn

/-- A larger number has no fewer digits. -/
lemma length_digits_mono {m n : ℕ} (h : m ≤ n) : (digits m).length ≤ (digits n).length := by
  rw [digits, digits, List.length_map, List.length_map]
  have hiff (k : ℕ) := @Nat.length_toDigits_le_iff 10 k (Nat.toDigits 10 n).length (by omega)
    Nat.length_toDigits_pos
  exact (hiff m).mpr (h.trans_lt ((hiff n).mp le_rfl))

/-- A printed number starts with a digit or a minus sign. -/
lemma print_eq (n : ℤ) :
    n < 0 ∧ print n = 45 :: digits n.natAbs ∨ 0 ≤ n ∧ print n = digits n.natAbs := by
  rcases lt_or_ge n 0 with h | h
  · exact .inl ⟨h, if_pos h⟩
  · exact .inr ⟨h, if_neg (by omega)⟩

/-- The characters of a printed number. -/
lemma range_of_mem_print {n : ℤ} {c : UInt8} (h : c ∈ print n) :
    33 ≤ c.toNat ∧ c.toNat ≤ 57 := by
  have hdigit {d : UInt8} (hd : d ∈ digits n.natAbs) : 48 ≤ d.toNat ∧ d.toNat ≤ 57 :=
    isDigit_of_mem_digits hd
  rcases print_eq n with ⟨-, hprint⟩ | ⟨-, hprint⟩
  · rw [hprint, List.mem_cons] at h
    rcases h with rfl | h
    · decide
    · have hrange := hdigit h
      omega
  · rw [hprint] at h
    have hrange := hdigit h
    omega

/-- A printed number has its digits and at most a sign. -/
lemma length_print_le {n : ℤ} {k : ℕ} (hk : 0 < k) (hn : n.natAbs < 10 ^ k) :
    (print n).length ≤ k + 1 := by
  have hdigits := length_digits_le hk hn
  rcases print_eq n with ⟨-, hprint⟩ | ⟨-, hprint⟩ <;> rw [hprint]
  · rw [List.length_cons]
    omega
  · omega

/-- Different numbers are printed differently. -/
theorem print_injective : Function.Injective print := by
  have hdigits {a b : ℕ} (h : digits a = digits b) : a = b := by
    rw [← value_digits a, h, value_digits]
  have hsign (a b : ℕ) : 45 :: digits a ≠ digits b := by
    intro h
    have hdigit : IsDigit 45 := isDigit_of_mem_digits (n := b) (h ▸ List.mem_cons_self)
    exact absurd hdigit (by simp [IsDigit])
  intro n m h
  rcases print_eq n with ⟨hn, hprint⟩ | ⟨hn, hprint⟩ <;>
    rcases print_eq m with ⟨hm, hprint'⟩ | ⟨hm, hprint'⟩ <;> rw [hprint, hprint'] at h
  · have := hdigits (List.cons.inj h).2
    omega
  · exact absurd h (hsign _ _)
  · exact absurd h.symm (hsign _ _)
  · have := hdigits h
    omega

/-! ## The other order -/

/-- The decimal digits of a number, the least significant first; there are none for zero. -/
def lowFirst (n : ℕ) : List UInt8 := (Nat.digits 10 n).map fun d => UInt8.ofNat (d + 48)

@[simp] lemma lowFirst_zero : lowFirst 0 = [] := by
  simp [lowFirst]

lemma lowFirst_of_pos {n : ℕ} (h : 0 < n) :
    lowFirst n = UInt8.ofNat (n % 10 + 48) :: lowFirst (n / 10) := by
  rw [lowFirst, Nat.digits_def' (by omega) h, List.map_cons, lowFirst]

/-- A number below `10 ^ k` has at most `k` digits. -/
lemma length_lowFirst_le {n k : ℕ} (h : n < 10 ^ k) : (lowFirst n).length ≤ k := by
  rw [lowFirst, List.length_map]
  exact (Nat.digits_length_le_iff (by omega) n).mpr h

/-- The character of a digit is the byte of the digit. -/
private lemma ofNat_digitChar {d : ℕ} (h : d < 10) :
    UInt8.ofNat d.digitChar.toNat = UInt8.ofNat (d + 48) := by
  have hall : ∀ d < 10, UInt8.ofNat (Nat.digitChar d).toNat = UInt8.ofNat (d + 48) := by decide
  exact hall d h

/-- **The digits in the other order** are those that are printed. -/
theorem reverse_lowFirst {n : ℕ} (h : 0 < n) : (lowFirst n).reverse = digits n := by
  induction n using Nat.strong_induction_on with
  | _ n ih =>
    rw [lowFirst_of_pos h, List.reverse_cons, digits]
    by_cases hlast : n < 10
    · rw [Nat.toDigits_of_lt_base hlast, Nat.div_eq_of_lt hlast, Nat.mod_eq_of_lt hlast,
        lowFirst_zero, List.map_singleton, ofNat_digitChar hlast]
      rfl
    · rw [Nat.toDigits_of_base_le (by omega) (by omega), List.map_append, List.map_singleton,
        ofNat_digitChar (Nat.mod_lt n (by omega)), ih (n / 10) (by omega) (by omega), digits]

end Decimal
