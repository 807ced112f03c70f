import SleepyText.Lib.Loop
import SleepyText.Lib.Reverse
import SleepyText.Server.Bytes

set_option relaxedAutoImplicit false
set_option autoImplicit false

/-!
# Printing numbers

`itob` prints the digits of a number from the last one on and then reverses them in place. Its loop
runs while the number is positive, so that nothing is printed of a negative one, although `btoi`
reads a sign.

## Main definitions

* `itob` — the printer, which stops where it would write outside the buffer.
* `ItobOk` — what it should do.

## Main results

* `itob_spec` — a number that is not negative is printed in its decimal form.
* `itob_inside` — nothing is written outside the buffer.
* `itob_ok_iff` — a number is read back exactly when it is not negative.
* `itob_minus_one` — one that is not.
-/

namespace SleepyText.Server

/-! ## The printer -/

/-- `buf.as_char[i] = c`; `none` stands for a write outside the buffer. -/
def Memory.put (m : Memory) (buf : Bytes) (i : ℕ) (c : UInt8) : Option Memory :=
  if i < buf.len then some (m.store (buf.asVoid + i) [c]) else none

/-- The variables of the first loop of `itob`. -/
structure ItobState where
  number : ℤ
  i : ℕ
  mem : Memory

/-- A turn of the `while` loop of `itob`. -/
def itobTurn (buf : Bytes) (s : ItobState) : ItobState ⊕ Option ItobState :=
  if s.number > 0 then
    match s.mem.put buf s.i (UInt8.ofNat (s.number.tmod 10 + 48).toNat) with
    | none => .inr none
    | some mem => .inl ⟨s.number.tdiv 10, s.i + 1, mem⟩
  else .inr (some s)

/-- A turn of the `for` loop of `itob`. -/
def itobSwap (buf : Bytes) (i : ℕ) (mem : Memory) (j : ℕ) : Option Memory := do
  let t := mem (buf.asVoid + j)
  let mem ← mem.put buf j (mem (buf.asVoid + (i - j - 1)))
  mem.put buf (i - j - 1) t

/-- `itob`: the memory and the text. `none` stands for a write outside the buffer; a value of type
`int` has no more digits than the loop has turns (`itob_inside`). -/
def itob (m : Memory) (buf : Bytes) (number : ℤ) : Option (Memory × Bytes) :=
  if number = 0 then do
    let mem ← m.put buf 0 48
    some (mem, ⟨buf.asVoid, 1⟩)
  else do
    let s ← (Loop.loop (itobTurn buf) 11 ⟨number, 0, m⟩).join
    let mem ← (List.range (s.i / 2)).foldlM (itobSwap buf s.i) s.mem
    some (mem, ⟨buf.asVoid, s.i⟩)

/-- **What printing should do**: write in the buffer only, and give a text that `btoi` reads as the
number. -/
def ItobOk (m : Memory) (buf : Bytes) (number : ℤ) (result : Option (Memory × Bytes)) : Prop :=
  ∃ m' text, result = some (m', text) ∧
    (∀ x, x < buf.asVoid ∨ buf.asVoid + buf.len ≤ x → m' x = m x) ∧ btoi (m'.read text) = number

/-! ## The digits -/

variable {m : Memory} {buf : Bytes} {i k n : ℕ}

lemma put_of_lt {c : UInt8} (h : i < buf.len) :
    m.put buf i c = some (m.store (buf.asVoid + i) [c]) :=
  if_pos h

/-- A turn that prints a digit. -/
lemma itobTurn_of_pos (hk : 0 < k) (hi : i < buf.len) :
    itobTurn buf ⟨k, i, m⟩ = .inl ⟨(k / 10 : ℕ), i + 1,
      m.store (buf.asVoid + i) [UInt8.ofNat (k % 10 + 48)]⟩ := by
  have hdigit : ((k : ℤ).tmod 10 + 48).toNat = k % 10 + 48 := by
    rw [Int.tmod_eq_emod_of_nonneg (by omega)]
    omega
  have hrest : (k : ℤ).tdiv 10 = (k / 10 : ℕ) := by
    rw [Int.tdiv_eq_ediv_of_nonneg (by omega)]
    omega
  unfold itobTurn
  rw [if_pos (by simpa using hk)]
  dsimp only
  rw [put_of_lt hi, hdigit, hrest]

/-- **The first loop** prints the digits from the last one on.

**Proof sketch.** Induction on the number, from which every turn takes the last digit. -/
theorem loop_itobTurn {fuel : ℕ} (hfuel : (Decimal.lowFirst k).length < fuel)
    (hfits : i + (Decimal.lowFirst k).length ≤ buf.len) :
    Loop.loop (itobTurn buf) fuel ⟨k, i, m⟩ = some (some ⟨0, i + (Decimal.lowFirst k).length,
      m.store (buf.asVoid + i) (Decimal.lowFirst k)⟩) := by
  induction k using Nat.strong_induction_on generalizing fuel i m with
  | _ k ih =>
    obtain ⟨fuel, rfl⟩ : ∃ n, fuel = n + 1 := ⟨fuel - 1, by omega⟩
    by_cases hk : k = 0
    · subst hk
      have hleave : itobTurn buf ⟨(0 : ℕ), i, m⟩ = .inr (some ⟨(0 : ℕ), i, m⟩) :=
        if_neg (by simp)
      rw [(Loop.loop_leave hleave).1, Decimal.lowFirst_zero, Memory.store_nil]
      rfl
    · have hsplit := Decimal.lowFirst_of_pos (Nat.pos_of_ne_zero hk)
      have hlen := congrArg List.length hsplit
      rw [List.length_cons] at hlen
      have hturn := @itobTurn_of_pos m buf i k (Nat.pos_of_ne_zero hk) (by omega)
      have hstore : m.store (buf.asVoid + i) (Decimal.lowFirst k) =
          (m.store (buf.asVoid + i) [UInt8.ofNat (k % 10 + 48)]).store (buf.asVoid + (i + 1))
            (Decimal.lowFirst (k / 10)) := by
        rw [hsplit]
        exact Memory.store_append [_] _
      have hend : i + 1 + (Decimal.lowFirst (k / 10)).length =
          i + ((Decimal.lowFirst (k / 10)).length + 1) := by omega
      rw [(Loop.loop_turn hturn).1, ih (k / 10) (by omega) (by omega) (by omega), hstore, hlen,
        hend]

/-! ## Their order -/

/-- A turn of the second loop swaps two bytes of the buffer. -/
lemma itobSwap_eq {j : ℕ} (hj : j < i) (hi : i ≤ buf.len) :
    itobSwap buf i m j =
      some (m ∘ Equiv.swap (buf.asVoid + j) (buf.asVoid + (i - j - 1))) := by
  rw [itobSwap, put_of_lt (by omega), Option.bind_eq_bind, Option.bind_some,
    put_of_lt (by omega), Memory.store_singleton, Memory.store_singleton, Equiv.swap_comm,
    Equiv.comp_swap_eq_update]

/-- **The second loop** makes the swaps of a reversal. -/
theorem foldlM_itobSwap (hn : n ≤ buf.len) (hk : k ≤ n / 2) :
    (List.range k).foldlM (itobSwap buf n) m = some (Reverse.swaps m buf.asVoid n k) := by
  induction k with
  | zero => rfl
  | succ k ih =>
    rw [List.range_succ, List.foldlM_append, ih (by omega), Option.bind_eq_bind,
      Option.bind_some, List.foldlM_cons, itobSwap_eq (by omega) hn, Reverse.swaps_succ]
    rfl

/-! ## What is printed -/

/-- The two loops print a positive number. -/
lemma itob_of_pos (hk : 0 < k) (hturns : (Decimal.lowFirst k).length < 11)
    (hfits : (Decimal.lowFirst k).length ≤ buf.len) :
    itob m buf k = some (Reverse.swaps (m.store buf.asVoid (Decimal.lowFirst k)) buf.asVoid
      (Decimal.lowFirst k).length ((Decimal.lowFirst k).length / 2),
      ⟨buf.asVoid, (Decimal.lowFirst k).length⟩) := by
  have hne : ¬ (k : ℤ) = 0 := by omega
  have hloop := @loop_itobTurn m buf 0 k _ hturns (by omega)
  rw [Nat.zero_add, Nat.add_zero] at hloop
  rw [itob, if_neg hne, hloop]
  simp only [Option.join_some, Option.bind_eq_bind, Option.bind_some,
    foldlM_itobSwap hfits (Nat.le_refl _)]

/-- Nothing is printed of a negative number. -/
lemma itob_of_neg (m : Memory) (buf : Bytes) {number : ℤ} (h : number < 0) :
    itob m buf number = some (m, ⟨buf.asVoid, 0⟩) := by
  have hleave : itobTurn buf ⟨number, 0, m⟩ = .inr (some ⟨number, 0, m⟩) :=
    if_neg (by dsimp only; omega)
  rw [itob, if_neg h.ne, (Loop.loop_leave hleave).1]
  simp only [Option.join_some, Option.bind_eq_bind, Option.bind_some, Nat.zero_div,
    List.range_zero, List.foldlM_nil, Option.pure_def]

/-- **A number that is not negative** is printed in its decimal form, and nothing else is changed.

**Proof sketch.** The first loop stores the digits from the last one on (`loop_itobTurn`), and the
second one reverses them (`foldlM_itobSwap`). -/
theorem itob_spec (m : Memory) {number : ℤ} (h : 0 ≤ number) (h' : number < 2 ^ 31)
    (hfits : (Decimal.print number).length ≤ buf.len) :
    ∃ m', itob m buf number = some (m', ⟨buf.asVoid, (Decimal.print number).length⟩) ∧
      m'.read ⟨buf.asVoid, (Decimal.print number).length⟩ = Decimal.print number ∧
      ∀ x, x < buf.asVoid ∨ buf.asVoid + (Decimal.print number).length ≤ x → m' x = m x := by
  obtain ⟨k, rfl⟩ := Int.eq_ofNat_of_zero_le h
  rcases Nat.eq_zero_or_pos k with rfl | hk
  · have hzero : Decimal.print (0 : ℕ) = [48] := by decide
    rw [hzero] at hfits ⊢
    refine ⟨m.store buf.asVoid [48], ?_, Memory.read_store [48],
      fun x hx => Memory.store_of_outside hx⟩
    rw [itob, if_pos (by simp), @put_of_lt m buf 0 48 hfits]
    rfl
  · have hprint : Decimal.print k = (Decimal.lowFirst k).reverse := by
      rw [Decimal.reverse_lowFirst hk, Decimal.print, if_neg (by omega)]
      rfl
    have hturns : (Decimal.lowFirst k).length ≤ 10 := Decimal.length_lowFirst_le (by omega)
    rw [hprint, List.length_reverse] at hfits ⊢
    refine ⟨_, itob_of_pos hk (by omega) hfits, ?_, fun x hx => ?_⟩
    · have hread := @Memory.read_store m buf.asVoid (Decimal.lowFirst k)
      unfold Memory.read at hread ⊢
      rw [Reverse.map_swaps, hread]
    · rw [Reverse.swaps_of_outside hx (Nat.le_refl _), Memory.store_of_outside hx]

/-- The decimal form of a value of type `int` fits into 11 bytes. -/
lemma length_print_int_le {number : ℤ} (h : 0 ≤ number) (h' : number < 2 ^ 31) :
    (Decimal.print number).length ≤ 11 :=
  Decimal.length_print_le (by omega) (by omega)

/-- **Nothing is written outside the buffer**, if it has 11 bytes. -/
theorem itob_inside (m : Memory) {number : ℤ} (h : number < 2 ^ 31) (hbuf : 11 ≤ buf.len) :
    ∃ m' text, itob m buf number = some (m', text) ∧
      ∀ x, x < buf.asVoid ∨ buf.asVoid + buf.len ≤ x → m' x = m x := by
  rcases lt_or_ge number 0 with hneg | hpos
  · exact ⟨m, _, itob_of_neg m buf hneg, fun _ _ => rfl⟩
  · have hfits := length_print_int_le hpos h
    obtain ⟨m', hitob, -, hframe⟩ := @itob_spec buf m number hpos h (by omega)
    exact ⟨m', _, hitob, fun x hx => hframe x (by omega)⟩

/-- **`btoi` reads back what `itob` prints** exactly when the number is not negative.

**Proof sketch.** Such a number is printed in its decimal form (`itob_spec`), which `btoi` reads
back. Nothing is printed of a negative one (`itob_of_neg`), and nothing is read as 0. -/
theorem itob_ok_iff {number : ℤ} (h : number < 2 ^ 31) (hbuf : 11 ≤ buf.len) :
    ItobOk m buf number (itob m buf number) ↔ 0 ≤ number := by
  constructor
  · rintro ⟨m', text, hitob, -, hread⟩
    by_contra hneg
    rw [itob_of_neg m buf (by omega)] at hitob
    obtain ⟨rfl, rfl⟩ := Prod.mk.inj (Option.some.inj hitob)
    have hempty : btoi [] = 0 := by decide
    rw [Memory.read_zero, hempty] at hread
    omega
  · intro hpos
    have hfits := length_print_int_le hpos h
    obtain ⟨m', hitob, hread, hframe⟩ := @itob_spec buf m number hpos h (by omega)
    refine ⟨m', _, hitob, fun x hx => hframe x (by omega), ?_⟩
    rw [hread, btoi_print (by omega) h]

/-- The largest number is read back. -/
theorem itob_ok_iff_max :
    ItobOk (fun _ => 0) ⟨0, 11⟩ 2147483647 (itob (fun _ => 0) ⟨0, 11⟩ 2147483647) ↔
      (0 : ℤ) ≤ 2147483647 :=
  itob_ok_iff (by decide) (by decide)

/-- Nothing is printed of -1, and it is read back as 0. -/
theorem itob_minus_one :
    itob (fun _ => 0) ⟨0, 11⟩ (-1) = some (fun _ => 0, ⟨0, 0⟩) ∧
      btoi (Memory.read (fun _ => 0) ⟨0, 0⟩) = 0 ∧
      ¬ ItobOk (fun _ => 0) ⟨0, 11⟩ (-1) (itob (fun _ => 0) ⟨0, 11⟩ (-1)) := by
  have hitob : itob (fun _ => 0) ⟨0, 11⟩ (-1) = some (fun _ => 0, ⟨0, 0⟩) :=
    itob_of_neg _ _ (by decide)
  refine ⟨hitob, by decide, ?_⟩
  rw [hitob]
  rintro ⟨m', text, heq, -, hread⟩
  obtain ⟨rfl, rfl⟩ := Prod.mk.inj (Option.some.inj heq)
  exact absurd hread (by decide)

end SleepyText.Server
