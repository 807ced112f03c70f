import Mathlib.Data.List.TakeWhile
import SleepyText.Lib.Decimal

set_option relaxedAutoImplicit false
set_option autoImplicit false

/-!
# Scanning decimal integers

A scanner of integers skips white space, takes a sign if there is one, and then as many digits as
it can. A scan for several integers stops at the first one that is missing.

## Main definitions

* `Scan.number` — the integer at the front of a text, and the rest of the text.
* `Scan.numbers` — the integers that a scan for a given number of them finds.
* `Scan.IsNumeral`, `Scan.Starts`, `Scan.Begins` — texts that begin with integers.

## Main results

* `Scan.number_eq_some_iff` — the scanner finds the integers that a text starts with.
* `Scan.numbers_eq_iff` — a scan is complete exactly on the texts that begin with as many
  integers.
-/

namespace Scan

open Decimal

/-- `isspace`: the blank, and the tabulator to the carriage return. -/
def IsSpace (c : UInt8) : Prop := c = 32 ∨ 9 ≤ c.toNat ∧ c.toNat ≤ 13

instance (c : UInt8) : Decidable (IsSpace c) :=
  inferInstanceAs (Decidable (c = 32 ∨ 9 ≤ c.toNat ∧ c.toNat ≤ 13))

/-- Whether a text starts with a minus sign, and the text behind its sign. -/
def sign : List UInt8 → Bool × List UInt8
  | 45 :: s => (true, s)
  | 43 :: s => (false, s)
  | s => (false, s)

/-- The integer at the front of a text, and the text behind it. -/
def number (s : List UInt8) : Option (ℤ × List UInt8) :=
  let (neg, s) := sign (s.dropWhile (IsSpace ·))
  let ds := s.takeWhile (IsDigit ·)
  if ds = [] then none
  else some (if neg then -value ds else value ds, s.dropWhile (IsDigit ·))

/-- The integers that a scan for `n` of them finds. -/
def numbers : ℕ → List UInt8 → List ℤ
  | 0, _ => []
  | n + 1, s =>
    match number s with
    | none => []
    | some (k, rest) => k :: numbers n rest

/-! ## Texts that begin with integers -/

/-- The forms of an integer: digits, behind a sign or not. -/
inductive IsNumeral : List UInt8 → ℤ → Prop
  | unsigned {ds : List UInt8} (hne : ds ≠ []) (hds : ∀ d ∈ ds, IsDigit d) :
      IsNumeral ds (value ds)
  | plus {ds : List UInt8} (hne : ds ≠ []) (hds : ∀ d ∈ ds, IsDigit d) :
      IsNumeral (43 :: ds) (value ds)
  | minus {ds : List UInt8} (hne : ds ≠ []) (hds : ∀ d ∈ ds, IsDigit d) :
      IsNumeral (45 :: ds) (-value ds)

/-- A text starts with white space and an integer, behind which no digit follows. -/
def Starts (s : List UInt8) (k : ℤ) (rest : List UInt8) : Prop :=
  ∃ ws cs, s = ws ++ (cs ++ rest) ∧ (∀ c ∈ ws, IsSpace c) ∧ IsNumeral cs k ∧
    ∀ c ∈ rest.head?, ¬ IsDigit c

/-- A text begins with the given integers, with white space in front of each. -/
inductive Begins : List UInt8 → List ℤ → Prop
  | nil {s : List UInt8} : Begins s []
  | cons {s rest : List UInt8} {k : ℤ} {ks : List ℤ} (hk : Starts s k rest)
      (hks : Begins rest ks) : Begins s (k :: ks)

/-! ## The scanner -/

/-- The longest front of elements with a property, when the element behind it has it not. -/
private lemma span_exact {p : UInt8 → Prop} [DecidablePred p] {body rest : List UInt8}
    (hbody : ∀ c ∈ body, p c) (hrest : ∀ c ∈ rest.head?, ¬ p c) :
    (body ++ rest).takeWhile (p ·) = body ∧ (body ++ rest).dropWhile (p ·) = rest := by
  have hstop : rest.takeWhile (p ·) = [] ∧ rest.dropWhile (p ·) = rest := by
    cases rest with
    | nil => exact ⟨rfl, rfl⟩
    | cons c rest =>
      have hc : ¬ p c := hrest c rfl
      simp [hc]
  have hbody' : ∀ c ∈ body, decide (p c) = true := fun c hc => decide_eq_true (hbody c hc)
  rw [List.takeWhile_append_of_pos hbody', List.dropWhile_append_of_pos hbody', hstop.1, hstop.2,
    List.append_nil]
  exact ⟨rfl, rfl⟩

/-- A text is its longest front of elements with a property, and a rest that starts otherwise. -/
private lemma span_split (p : UInt8 → Prop) [DecidablePred p] (s : List UInt8) :
    (∀ c ∈ s.takeWhile (p ·), p c) ∧ ∀ c ∈ (s.dropWhile (p ·)).head?, ¬ p c := by
  refine ⟨fun c hc => of_decide_eq_true (List.mem_takeWhile_imp (p := (p ·)) hc), fun c hc => ?_⟩
  have h := List.head?_dropWhile_not (fun c => decide (p c)) s
  rw [Option.mem_def.mp hc] at h
  simpa using h

/-- A text is a sign, or none, and what is behind it. -/
private lemma sign_cases (s : List UInt8) :
    s = 45 :: (sign s).2 ∧ (sign s).1 = true ∨ s = 43 :: (sign s).2 ∧ (sign s).1 = false ∨
      s = (sign s).2 ∧ (sign s).1 = false := by
  rw [sign.eq_def]
  split <;> simp

/-- An integer starts with a digit or a sign. -/
private lemma IsNumeral.head {cs : List UInt8} {k : ℤ} (h : IsNumeral cs k) :
    ∃ c cs', cs = c :: cs' ∧ ¬ IsSpace c := by
  cases h with
  | unsigned hne hds =>
    obtain ⟨d, ds, rfl⟩ := List.exists_cons_of_ne_nil hne
    refine ⟨d, ds, rfl, ?_⟩
    have hd : 48 ≤ d.toNat ∧ d.toNat ≤ 57 := hds d List.mem_cons_self
    rintro (rfl | hspace)
    · exact absurd hd (by decide)
    · omega
  | plus => exact ⟨43, _, rfl, by decide⟩
  | minus => exact ⟨45, _, rfl, by decide⟩

/-- A text in which the scanner finds an integer starts with it. -/
private lemma starts_of_number {s rest : List UInt8} {k : ℤ} (h : number s = some (k, rest)) :
    Starts s k rest := by
  obtain ⟨hws, -⟩ := span_split IsSpace s
  have hsplit := List.takeWhile_append_dropWhile (p := (IsSpace ·)) (l := s)
  unfold number at h
  generalize s.takeWhile (IsSpace ·) = ws at hws hsplit
  generalize s.dropWhile (IsSpace ·) = t at h hsplit
  obtain ⟨hds, hstop⟩ := span_split IsDigit (sign t).2
  have hdigits := List.takeWhile_append_dropWhile (p := (IsDigit ·)) (l := (sign t).2)
  dsimp only at h
  generalize (sign t).2.takeWhile (IsDigit ·) = ds at h hds hdigits
  generalize (sign t).2.dropWhile (IsDigit ·) = u at h hstop hdigits
  split_ifs at h with hne hneg
  · -- a minus sign
    obtain ⟨rfl, rfl⟩ := Prod.mk.inj (Option.some.inj h)
    obtain ⟨ht, -⟩ | ⟨-, hf⟩ | ⟨-, hf⟩ := sign_cases t
    · exact ⟨ws, 45 :: ds, by rw [List.cons_append, hdigits, ← ht, hsplit], hws, .minus hne hds,
        hstop⟩
    · rw [hneg] at hf; exact absurd hf (by decide)
    · rw [hneg] at hf; exact absurd hf (by decide)
  · -- a plus sign or none
    obtain ⟨rfl, rfl⟩ := Prod.mk.inj (Option.some.inj h)
    obtain ⟨-, hf⟩ | ⟨ht, -⟩ | ⟨ht, -⟩ := sign_cases t
    · exact absurd hf hneg
    · exact ⟨ws, 43 :: ds, by rw [List.cons_append, hdigits, ← ht, hsplit], hws, .plus hne hds,
        hstop⟩
    · exact ⟨ws, ds, by rw [hdigits, ← ht, hsplit], hws, .unsigned hne hds, hstop⟩

/-- What `number` does behind the white space and the sign. -/
private lemma number_digits (neg : Bool) {s ds rest : List UInt8}
    (hsign : sign (s.dropWhile (IsSpace ·)) = (neg, ds ++ rest)) (hne : ds ≠ [])
    (hds : ∀ d ∈ ds, IsDigit d) (hrest : ∀ c ∈ rest.head?, ¬ IsDigit c) :
    number s = some (if neg then -(value ds : ℤ) else value ds, rest) := by
  obtain ⟨htake, hdrop⟩ := span_exact hds hrest
  rw [number, hsign]
  dsimp only
  rw [htake, hdrop, if_neg hne]

/-- The scanner finds the integer that a text starts with. -/
private lemma number_of_starts {s rest : List UInt8} {k : ℤ} (h : Starts s k rest) :
    number s = some (k, rest) := by
  obtain ⟨ws, cs, rfl, hws, hk, hrest⟩ := h
  obtain ⟨c, cs', hcs, hc⟩ := hk.head
  have hspace : ∀ c ∈ (cs ++ rest).head?, ¬ IsSpace c := by
    rw [hcs]
    rintro _ ⟨⟩
    exact hc
  have hskip := (span_exact hws hspace).2
  cases hk with
  | unsigned hne hds =>
    refine number_digits false ?_ hne hds hrest
    have hdigit : IsDigit c := hds c (hcs ▸ List.mem_cons_self)
    rw [hskip, hcs, List.cons_append, sign.eq_def]
    split
    · rename_i heq
      rw [(List.cons.inj heq).1] at hdigit
      exact absurd hdigit (by decide)
    · rename_i heq
      rw [(List.cons.inj heq).1] at hdigit
      exact absurd hdigit (by decide)
    · rfl
  | plus hne hds => exact number_digits false (by rw [hskip]; rfl) hne hds hrest
  | minus hne hds => exact number_digits true (by rw [hskip]; rfl) hne hds hrest

/-- **The scanner** finds the integer that a text starts with, and nothing else. -/
theorem number_eq_some_iff {s rest : List UInt8} {k : ℤ} :
    number s = some (k, rest) ↔ Starts s k rest :=
  ⟨starts_of_number, number_of_starts⟩

/-- **A scan for several integers** is complete exactly on the texts that begin with them. -/
theorem numbers_eq_iff {n : ℕ} {s : List UInt8} {ks : List ℤ} (hn : ks.length = n) :
    numbers n s = ks ↔ Begins s ks := by
  induction ks generalizing n s with
  | nil =>
    subst hn
    exact ⟨fun _ => .nil, fun _ => rfl⟩
  | cons k ks ih =>
    subst hn
    rw [List.length_cons, numbers]
    constructor
    · intro h
      cases hnumber : number s with
      | none => rw [hnumber] at h; exact absurd h (by simp)
      | some found =>
        obtain ⟨k', rest⟩ := found
        rw [hnumber] at h
        obtain ⟨rfl, hrest⟩ := List.cons.inj h
        exact .cons (number_eq_some_iff.mp hnumber) ((ih rfl).mp hrest)
    · rintro (_ | ⟨hk, hks⟩)
      rw [number_eq_some_iff.mpr hk]
      exact congrArg (k :: ·) ((ih rfl).mpr hks)

/-- A text begins with given numbers of integers in one way only. -/
lemma Begins.unique {s : List UInt8} {ks ks' : List ℤ} (h : Begins s ks) (h' : Begins s ks')
    (hlen : ks.length = ks'.length) : ks = ks' := by
  rw [← (numbers_eq_iff rfl).mpr h, ← (numbers_eq_iff rfl).mpr h', hlen]

end Scan
