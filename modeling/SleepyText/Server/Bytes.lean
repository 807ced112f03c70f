import Mathlib.Data.List.GetD
import SleepyText.Lib.Word
import SleepyText.Lib.Search
import SleepyText.Lib.Decimal

set_option relaxedAutoImplicit false
set_option autoImplicit false

/-!
# Memory and byte ranges

The server works on ranges of memory (`bytes.c`): a pointer and a length that the callers keep
within what was allocated. The host is little endian.

## Main definitions

* `Memory`, `Bytes`, `Memory.read` — memory, a range of it, and what stands there.
* `Memory.load32`, `Memory.store32`, `ntohl` — words of 32 bits in the order of the host.
* `bslice`, `bfind`, `bprintf`, `btoi64`, `btoi` — the helpers of `bytes.c`.

## Main results

* `Memory.ntohl_load32`, `Memory.read_swapped` — converting a word of the network in place
  reverses its bytes.
* `read_before`, `read_after` — `bfind` is a search that does not go back.
* `btoi_print` — `btoi` reads back what `%d` prints.
-/

namespace SleepyText.Server

/-! ## Memory -/

/-- The bytes of the memory by their addresses. -/
abbrev Memory := ℕ → UInt8

/-- `bytes`: a pointer, and the number of bytes behind it. -/
structure Bytes where
  asVoid : ℕ
  len : ℕ
  deriving DecidableEq, Repr

namespace Memory

/-- The bytes that stand in a range of memory. -/
def read (m : Memory) (b : Bytes) : List UInt8 := (List.range' b.asVoid b.len).map m

/-- The memory after `bs` is written to the address `a`. -/
def store (m : Memory) (a : ℕ) (bs : List UInt8) : Memory := fun x =>
  if a ≤ x ∧ x < a + bs.length then bs.getD (x - a) 0 else m x

variable {m m' : Memory} {a n k : ℕ}

@[simp] lemma length_read (b : Bytes) : (m.read b).length = b.len := by simp [read]

@[simp] lemma read_zero : m.read ⟨a, 0⟩ = [] := rfl

lemma read_succ : m.read ⟨a, n + 1⟩ = m a :: m.read ⟨a + 1, n⟩ := by
  simp [read, List.range'_succ]

/-- The first byte of a range, and the others. -/
lemma read_cons {b : Bytes} (h : b.len = n + 1) :
    m.read b = m b.asVoid :: m.read ⟨b.asVoid + 1, n⟩ := by
  rw [← read_succ, ← h]

/-- A range that starts with a byte. -/
lemma read_eq_cons {b : Bytes} {c : UInt8} {cs : List UInt8} (h : m.read b = c :: cs) :
    b.len = cs.length + 1 ∧ m b.asVoid = c ∧ m.read ⟨b.asVoid + 1, cs.length⟩ = cs := by
  have hlen : b.len = cs.length + 1 := by
    rw [← length_read (m := m) b, h, List.length_cons]
  rw [read_cons hlen, List.cons.injEq] at h
  exact ⟨hlen, h⟩

/-- A range is its first `n` bytes and the rest. -/
lemma read_add : m.read ⟨a, n + k⟩ = m.read ⟨a, n⟩ ++ m.read ⟨a + n, k⟩ := by
  rw [read, read, read, ← List.map_append, ← List.range'_append_1]

/-- What a range holds depends on the memory in it only. -/
lemma read_congr {b : Bytes} (h : ∀ x, b.asVoid ≤ x → x < b.asVoid + b.len → m x = m' x) :
    m.read b = m'.read b := by
  apply List.map_congr_left
  intro x hx
  rw [List.mem_range'_1] at hx
  exact h x hx.1 hx.2

lemma store_of_outside {bs : List UInt8} {x : ℕ} (h : x < a ∨ a + bs.length ≤ x) :
    m.store a bs x = m x :=
  if_neg (by omega)

/-- The first bytes of a range. -/
lemma take_read (h : k ≤ n) : (m.read ⟨a, n⟩).take k = m.read ⟨a, k⟩ := by
  rw [← Nat.add_sub_cancel' h, read_add, List.take_left' (by simp)]

/-- A range without its first bytes. -/
lemma drop_read (h : k ≤ n) : (m.read ⟨a, n⟩).drop k = m.read ⟨a + k, n - k⟩ := by
  conv_lhs => rw [← Nat.add_sub_cancel' h, read_add]
  rw [List.drop_left' (by simp)]

/-- A part of what a range holds stands in the part of the range. -/
lemma read_part {b : Bytes} {front part rest : List UInt8}
    (h : m.read b = front ++ (part ++ rest)) :
    m.read ⟨b.asVoid + front.length, part.length⟩ = part := by
  have hlen := congrArg List.length h
  rw [length_read, List.length_append, List.length_append] at hlen
  have hdrop : m.read ⟨b.asVoid + front.length, b.len - front.length⟩ = part ++ rest := by
    rw [← drop_read (by omega), h, List.drop_left]
  rw [← take_read (show part.length ≤ b.len - front.length by omega), hdrop, List.take_left]

/-- What was written is read back. -/
lemma read_store (bs : List UInt8) : (m.store a bs).read ⟨a, bs.length⟩ = bs := by
  apply List.ext_getElem
  · simp
  · intro i h _
    have hi : i < bs.length := by simpa using h
    simp [read, store, hi]

lemma store_nil : m.store a [] = m := by
  funext x
  exact if_neg (by simp)

lemma store_singleton (c : UInt8) : m.store a [c] = Function.update m a c := by
  funext x
  rw [store, Function.update_apply]
  by_cases hx : x = a
  · subst hx
    rw [if_pos ⟨Nat.le_refl x, Nat.lt_succ_self x⟩, if_pos rfl, Nat.sub_self]
    rfl
  · rw [if_neg hx, List.length_singleton, if_neg (by omega)]

/-- Writing in two parts. -/
lemma store_append (bs bs' : List UInt8) :
    m.store a (bs ++ bs') = (m.store a bs).store (a + bs.length) bs' := by
  funext x
  rw [store, store, store, List.length_append]
  by_cases hfront : x < a + bs.length
  · rw [if_neg (show ¬ (a + bs.length ≤ x ∧ x < a + bs.length + bs'.length) by omega)]
    by_cases hle : a ≤ x
    · rw [if_pos ⟨hle, by omega⟩, if_pos ⟨hle, hfront⟩, List.getD_append _ _ _ _ (by omega)]
    · rw [if_neg (by omega), if_neg (by omega)]
  · rw [if_neg (show ¬ (a ≤ x ∧ x < a + bs.length) by omega)]
    by_cases hlt : x < a + bs.length + bs'.length
    · rw [if_pos ⟨by omega, by omega⟩, if_pos ⟨by omega, hlt⟩,
        List.getD_append_right _ _ _ _ (by omega), Nat.sub_sub]
    · rw [if_neg (by omega), if_neg (by omega)]

/-- Nothing else is changed by a write. -/
lemma read_store_of_disjoint {bs : List UInt8} {b : Bytes}
    (h : b.asVoid + b.len ≤ a ∨ a + bs.length ≤ b.asVoid) : (m.store a bs).read b = m.read b := by
  apply read_congr
  intro x hx hx'
  exact store_of_outside (by omega)

/-! ### Words -/

/-- The word at an address, the least significant byte first. -/
def load32 (m : Memory) (a : ℕ) : ℕ := Word.ofBe (m.read ⟨a, 4⟩).reverse

/-- Write a word to an address, the least significant byte first. -/
def store32 (m : Memory) (a n : ℕ) : Memory := m.store a (Word.le32 n)

/-- `ntohl`: the word whose bytes in memory, the most significant first, are those of `n`. -/
def ntohl (n : ℕ) : ℕ := Word.ofBe (Word.le32 n)

lemma read_four : m.read ⟨a, 4⟩ = [m a, m (a + 1), m (a + 2), m (a + 3)] := rfl

/-- The bytes of the word loaded. -/
lemma le32_load32 : Word.le32 (m.load32 a) = m.read ⟨a, 4⟩ := by
  rw [load32, read_four, Word.le32]
  simp only [List.reverse_cons, List.reverse_nil, List.nil_append, List.cons_append]
  rw [Word.be32_ofBe]
  rfl

/-- **A word of the network**: `ntohl` makes the number that its bytes stand for. -/
theorem ntohl_load32 : ntohl (m.load32 a) = Word.ofBe (m.read ⟨a, 4⟩) := by
  rw [ntohl, le32_load32]

lemma read_store32_of_disjoint {b : Bytes} (h : b.asVoid + b.len ≤ a ∨ a + 4 ≤ b.asVoid) :
    (m.store32 a n).read b = m.read b :=
  read_store_of_disjoint h

/-- **Converting in place** reverses the four bytes. -/
theorem read_swapped :
    (m.store32 a (ntohl (m.load32 a))).read ⟨a, 4⟩ = (m.read ⟨a, 4⟩).reverse := by
  have hread := read_store (m := m) (a := a) (Word.le32 (ntohl (m.load32 a)))
  unfold store32
  apply hread.trans
  rw [ntohl_load32, read_four, Word.le32, Word.be32_ofBe]

end Memory

export Memory (ntohl)

/-! ## Byte ranges -/

/-- The bytes of a string of the source. -/
def ascii (s : String) : List UInt8 := s.toList.map fun c => UInt8.ofNat c.toNat

/-- `a - b` of two values of type `size_t`. -/
def sizeSub (a b : ℕ) : ℕ := if b ≤ a then a - b else 2 ^ 64 + a - b

/-- `bslice`: the end is not compared with the length. -/
def bslice (string : Bytes) (start stop : ℕ) : Bytes :=
  if start ≥ string.len then ⟨string.asVoid, 0⟩
  else if stop > 0 then ⟨string.asVoid + start, sizeSub stop start⟩
  else ⟨string.asVoid + start, sizeSub (string.len + stop) start⟩

/-- Cutting the first bytes off a range. -/
lemma bslice_zero (string : Bytes) (start : ℕ) :
    bslice string start 0 =
      if start ≥ string.len then ⟨string.asVoid, 0⟩
      else ⟨string.asVoid + start, string.len - start⟩ := by
  unfold bslice
  split_ifs with h h'
  · rfl
  · omega
  · rw [sizeSub, if_pos (by omega), Nat.add_zero]

/-- What is left of a range without its first bytes. -/
lemma read_bslice_zero (m : Memory) (string : Bytes) (start : ℕ) :
    m.read (bslice string start 0) = (m.read string).drop start := by
  rw [bslice_zero]
  split_ifs with h
  · rw [List.drop_eq_nil_of_le (by rw [Memory.length_read]; exact h)]
    rfl
  · rw [← Memory.drop_read (by omega)]

/-- `bfound`. -/
structure Bfound where
  before : Bytes
  found : Bytes
  after : Bytes

/-- `bfind`, in a range whose positions are values of type `int`. -/
def bfind (m : Memory) (input : Bytes) (what : List UInt8) : Bfound :=
  match Search.search what 0 0 (m.read input) with
  | some i =>
    { before := ⟨input.asVoid, i + 1 - what.length⟩
      found := ⟨input.asVoid + i + 1 - what.length, what.length⟩
      after := ⟨input.asVoid + i + 1, input.len - i - 1⟩ }
  | none => ⟨input, ⟨0, 0⟩, ⟨0, 0⟩⟩

section Find

variable (m : Memory) (input : Bytes) (what : List UInt8)

/-- The bytes in front of what was found. -/
theorem read_before : m.read (bfind m input what).before = Search.before what (m.read input) := by
  unfold bfind Search.before Search.find
  cases h : Search.search what 0 0 (m.read input) with
  | none => rfl
  | some i =>
    have hlt := Search.lt_of_search h
    rw [Memory.length_read] at hlt
    exact (Memory.take_read (by omega)).symm

/-- The bytes behind what was found. -/
theorem read_after : m.read (bfind m input what).after = Search.after what (m.read input) := by
  unfold bfind Search.after Search.find
  cases h : Search.search what 0 0 (m.read input) with
  | none => rfl
  | some i =>
    have hlt := Search.lt_of_search h
    rw [Memory.length_read] at hlt
    exact (Memory.drop_read (show i + 1 ≤ input.len by omega)).symm

/-- Whether something was found. -/
lemma found_len : (bfind m input what).found.len =
    if (Search.find what (m.read input)).isSome then what.length else 0 := by
  unfold bfind Search.find
  cases Search.search what 0 0 (m.read input) <;> rfl

end Find

/-- `vsnprintf` of C99, where `text` is what the format prints: at most the length of the range is
written, the final zero included; the result is the length of the whole text. -/
def vsnprintf (m : Memory) (b : Bytes) (text : List UInt8) : Memory × ℕ :=
  (if b.len = 0 then m else m.store b.asVoid (text.take (b.len - 1) ++ [0]), text.length)

/-- `bprintf`: the memory, the range printed and the range behind it. -/
def bprintf (m : Memory) (b : Bytes) (text : List UInt8) : Memory × Bytes × Bytes :=
  let (m, len) := vsnprintf m b text
  (m, ⟨b.asVoid, len⟩, ⟨b.asVoid + len, sizeSub b.len len⟩)

/-- A text that fits, with the zero behind it, is read back. -/
lemma read_bprintf_of_lt (m : Memory) {b : Bytes} {text : List UInt8} (h : text.length < b.len) :
    (bprintf m b text).1.read ⟨b.asVoid, text.length⟩ = text := by
  have hmem : (bprintf m b text).1 = m.store b.asVoid (text ++ [0]) := by
    unfold bprintf vsnprintf
    dsimp only
    rw [if_neg (by omega), List.take_of_length_le (by omega)]
  rw [hmem, ← Memory.take_read (n := (text ++ [0]).length) (by simp), Memory.read_store,
    List.take_left]

/-! ## Numbers -/

/-- The value of an `int64_t` after an operation with the mathematical result `n`. -/
def toInt64 (n : ℤ) : ℤ := n.bmod (2 ^ 64)

/-- The value of an `int` after a conversion of `n`. -/
def toInt (n : ℤ) : ℤ := n.bmod (2 ^ 32)

/-- The value of a `size_t` after a conversion of `n`. -/
def toSize (n : ℤ) : ℕ := (n % 2 ^ 64).toNat

/-- The loop of `btoi64` over the digits: `none` where it returns 0 because of a byte that is not
a digit. -/
def btoi64Loop (acc : ℤ) : List UInt8 → Option ℤ
  | [] => some acc
  | c :: cs =>
    let digit : ℤ := (c.toNat : ℤ) - 48
    if digit > 9 ∨ digit < 0 then none
    else btoi64Loop (toInt64 (toInt64 (acc * 10) + digit)) cs

/-- `btoi64`. -/
def btoi64 (b : List UInt8) : ℤ :=
  match b with
  | 45 :: cs => ((btoi64Loop 0 cs).map fun acc => toInt64 (-acc)).getD 0
  | cs => (btoi64Loop 0 cs).getD 0

/-- `btoi`. -/
def btoi (b : List UInt8) : ℤ := toInt (btoi64 b)

/-- The loop of `btoi64` keeps the value of the digits modulo `2 ^ 64`. -/
lemma btoi64Loop_digits {cs : List UInt8} (h : ∀ c ∈ cs, Decimal.IsDigit c) (n : ℕ) :
    btoi64Loop (toInt64 n) cs =
      some (toInt64 ((cs.foldl (fun n d => n * 10 + (d.toNat - 48)) n : ℕ) : ℤ)) := by
  induction cs generalizing n with
  | nil => rfl
  | cons c cs ih =>
    have hc : 48 ≤ c.toNat ∧ c.toNat ≤ 57 := h c List.mem_cons_self
    have hdigit : ¬ ((c.toNat : ℤ) - 48 > 9 ∨ (c.toNat : ℤ) - 48 < 0) := by omega
    have hacc : toInt64 (toInt64 (toInt64 n * 10) + ((c.toNat : ℤ) - 48)) =
        toInt64 ((n * 10 + (c.toNat - 48) : ℕ) : ℤ) := by
      push_cast [hc.1]
      simp only [toInt64, Int.bmod_add_bmod, Int.bmod_mul_bmod]
    rw [btoi64Loop, if_neg hdigit, hacc, ih fun d hd => h d (List.mem_cons_of_mem c hd),
      List.foldl_cons]

lemma toInt64_of_range {n : ℤ} (h : -2 ^ 63 ≤ n) (h' : n < 2 ^ 63) : toInt64 n = n := by
  rw [toInt64, Int.bmod_eq_of_le] <;> omega

lemma toInt_of_range {n : ℤ} (h : -2 ^ 31 ≤ n) (h' : n < 2 ^ 31) : toInt n = n := by
  rw [toInt, Int.bmod_eq_of_le] <;> omega

lemma toInt64_range (n : ℤ) : -2 ^ 63 ≤ toInt64 n ∧ toInt64 n < 2 ^ 63 := by
  have hle := Int.le_bmod (x := n) (m := 2 ^ 64) (by norm_num)
  have hlt := Int.bmod_lt (x := n) (m := 2 ^ 64) (by norm_num)
  unfold toInt64
  omega

/-- The loop of `btoi64` stays in the range of its type. -/
lemma btoi64Loop_range {acc : ℤ} (hacc : -2 ^ 63 ≤ acc ∧ acc < 2 ^ 63) (cs : List UInt8) :
    -2 ^ 63 ≤ (btoi64Loop acc cs).getD 0 ∧ (btoi64Loop acc cs).getD 0 < 2 ^ 63 := by
  induction cs generalizing acc with
  | nil => exact hacc
  | cons c cs ih =>
    rw [btoi64Loop]
    split_ifs
    · exact ⟨by decide, by decide⟩
    · exact ih (toInt64_range _)

/-- The result of `btoi64` is in the range of its type. -/
theorem btoi64_range (b : List UInt8) : -2 ^ 63 ≤ btoi64 b ∧ btoi64 b < 2 ^ 63 := by
  rw [btoi64.eq_def]
  split
  · rename_i cs
    cases btoi64Loop 0 cs with
    | none => exact ⟨by decide, by decide⟩
    | some acc => exact toInt64_range _
  · exact btoi64Loop_range ⟨by decide, by decide⟩ _

/-- The loop of `btoi64` from the start. -/
lemma btoi64Loop_zero {ds : List UInt8} (h : ∀ c ∈ ds, Decimal.IsDigit c) :
    btoi64Loop 0 ds = some (toInt64 (Decimal.value ds)) :=
  btoi64Loop_digits h 0

/-- `btoi64` of digits. -/
lemma btoi64_of_isDigit {ds : List UInt8} (h : ∀ c ∈ ds, Decimal.IsDigit c) :
    btoi64 ds = toInt64 (Decimal.value ds) := by
  have hloop : btoi64 ds = (btoi64Loop 0 ds).getD 0 := by
    rw [btoi64.eq_def]
    split
    · -- a minus sign is no digit
      exact absurd (h 45 List.mem_cons_self) (by decide)
    · rfl
  rw [hloop, btoi64Loop_zero h, Option.getD_some]

/-- **`btoi64` reads back** what `%ld` prints. -/
theorem btoi64_print {n : ℤ} (h : -2 ^ 63 ≤ n) (h' : n < 2 ^ 63) :
    btoi64 (Decimal.print n) = n := by
  have hdigits : ∀ c ∈ Decimal.digits n.natAbs, Decimal.IsDigit c := fun _ hc =>
    Decimal.isDigit_of_mem_digits hc
  rcases Decimal.print_eq n with ⟨hneg, hprint⟩ | ⟨hpos, hprint⟩
  · have hval : (n.natAbs : ℤ) = -n := by omega
    rw [hprint]
    simp only [btoi64, btoi64Loop_zero hdigits, Decimal.value_digits, Option.map_some,
      Option.getD_some, hval]
    rw [toInt64, toInt64, Int.bmod_neg_bmod, neg_neg, ← toInt64, toInt64_of_range h h']
  · have hval : (n.natAbs : ℤ) = n := by omega
    rw [hprint, btoi64_of_isDigit hdigits, Decimal.value_digits, hval, toInt64_of_range h h']

/-- **`btoi` reads back** what `%d` prints. -/
theorem btoi_print {n : ℤ} (h : -2 ^ 31 ≤ n) (h' : n < 2 ^ 31) : btoi (Decimal.print n) = n := by
  rw [btoi, btoi64_print (by omega) (by omega), toInt_of_range h h']

end SleepyText.Server
