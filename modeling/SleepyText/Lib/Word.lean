import Mathlib.Tactic

set_option relaxedAutoImplicit false
set_option autoImplicit false

/-!
# 32-bit words as bytes

A 32-bit word is stored as four bytes, the most significant one first (big endian, the order of
the network) or last (little endian, the order of the host).

## Main definitions

* `Word.be32`, `Word.le32` — the bytes of a word in both orders.
* `Word.ofBe` — the number that bytes stand for, most significant byte first.

## Main results

* `Word.ofBe_be32`, `Word.be32_ofBe` — the two are inverse.
-/

namespace Word

/-- The four bytes of `n mod 2 ^ 32`, the most significant first. -/
def be32 (n : ℕ) : List UInt8 :=
  [UInt8.ofNat (n / 2 ^ 24), UInt8.ofNat (n / 2 ^ 16), UInt8.ofNat (n / 2 ^ 8), UInt8.ofNat n]

/-- The four bytes of `n mod 2 ^ 32`, the least significant first. -/
def le32 (n : ℕ) : List UInt8 := (be32 n).reverse

/-- The number that the bytes stand for, the most significant first. -/
def ofBe (bytes : List UInt8) : ℕ := bytes.foldl (fun n b => n * 256 + b.toNat) 0

@[simp] lemma length_be32 (n : ℕ) : (be32 n).length = 4 := rfl

@[simp] lemma length_le32 (n : ℕ) : (le32 n).length = 4 := rfl

/-- Four bytes stand for the number they are the bytes of, up to multiples of `2 ^ 32`. -/
theorem ofBe_be32 (n : ℕ) : ofBe (be32 n) = n % 2 ^ 32 := by
  simp only [ofBe, be32, List.foldl_cons, List.foldl_nil, UInt8.toNat_ofNat']
  omega

lemma ofBe_four (a b c d : UInt8) : ofBe [a, b, c, d] =
    a.toNat * 2 ^ 24 + b.toNat * 2 ^ 16 + c.toNat * 2 ^ 8 + d.toNat := by
  simp only [ofBe, List.foldl_cons, List.foldl_nil]
  omega

lemma ofBe_four_lt (a b c d : UInt8) : ofBe [a, b, c, d] < 2 ^ 32 := by
  have ha := a.toNat_lt
  have hb := b.toNat_lt
  have hc := c.toNat_lt
  have hd := d.toNat_lt
  rw [ofBe_four]
  omega

/-- Four bytes are the bytes of the number they stand for. -/
theorem be32_ofBe (a b c d : UInt8) : be32 (ofBe [a, b, c, d]) = [a, b, c, d] := by
  have ha := a.toNat_lt
  have hb := b.toNat_lt
  have hc := c.toNat_lt
  have hd := d.toNat_lt
  have hbyte (x : ℕ) (y : UInt8) (h : x % 256 = y.toNat) : UInt8.ofNat x = y := by
    apply UInt8.toNat_inj.mp
    rw [UInt8.toNat_ofNat', ← h]
  rw [ofBe_four, be32, hbyte _ a (by omega), hbyte _ b (by omega), hbyte _ c (by omega),
    hbyte _ d (by omega)]

/-- Any four bytes are the bytes of a word. -/
lemma exists_be32 {bytes : List UInt8} (h : bytes.length = 4) :
    ofBe bytes < 2 ^ 32 ∧ be32 (ofBe bytes) = bytes :=
  match bytes, h with
  | [a, b, c, d], _ => ⟨ofBe_four_lt a b c d, be32_ofBe a b c d⟩

end Word
