import SleepyText.Server.Bytes

set_option relaxedAutoImplicit false
set_option autoImplicit false

/-!
# What `bfind` finds

The parsing of requests rests on `bfind`, which compares each byte once: after a mismatch it goes
on behind the byte that did not match. It misses the first occurrence of a text when the bytes in
front of it end in a partial match, or when the byte that ended one starts the occurrence.

## Main definitions

* `Finds` — what a search for the first occurrence should return.

## Main results

* `bfind_cases` — the ranges that `bfind` returns.
* `bfind_finds_iff` — `bfind` finds the first occurrence exactly when the bytes in front of it
  consist of failed attempts.
* `bfind_misses` — an occurrence that it does not find.
-/

namespace SleepyText.Server

open Search

variable {m : Memory} {input : Bytes} {what : List UInt8}

/-- **What a search should return**: a range of the length of `what` exactly when `what` occurs in
the input, and then the first occurrence, with the parts of the input in front of it and behind
it. -/
structure Finds (m : Memory) (input : Bytes) (what : List UInt8) (f : Bfound) : Prop where
  found_iff : f.found.len = what.length ↔ what <:+: m.read input
  partition : f.found.len = what.length → f.before.asVoid = input.asVoid ∧
    f.found.asVoid = f.before.asVoid + f.before.len ∧
    f.after.asVoid = f.found.asVoid + f.found.len ∧
    f.before.len + f.found.len + f.after.len = input.len
  found : f.found.len = what.length → m.read f.found = what
  first : f.found.len = what.length → ∀ a b, m.read input = a ++ (what ++ b) →
    f.before.len ≤ a.length

/-- The ranges around a match. -/
lemma bfind_of_some {a b : List UInt8} (hwhat : what ≠ [])
    (h : find what (m.read input) = some (a, b)) :
    bfind m input what = {
      before := ⟨input.asVoid, a.length⟩
      found := ⟨input.asVoid + a.length, what.length⟩
      after := ⟨input.asVoid + a.length + what.length, b.length⟩ } := by
  have hpos := List.length_pos_iff.mpr hwhat
  have hlen := congrArg List.length (eq_append_of_find hwhat h)
  rw [Memory.length_read, List.length_append, List.length_append] at hlen
  rw [bfind, length_of_find hwhat h]
  simp only [Bfound.mk.injEq, Bytes.mk.injEq, true_and, and_true]
  omega

/-- The ranges when nothing is found. -/
lemma bfind_of_none (h : find what (m.read input) = none) :
    bfind m input what = ⟨input, ⟨0, 0⟩, ⟨0, 0⟩⟩ := by
  have hsearch : search what 0 0 (m.read input) = none := by
    rwa [find, Option.map_eq_none_iff] at h
  rw [bfind, hsearch]

/-- **What `bfind` returns**: the whole input as the part in front, if nothing is found, and else
the parts around a match. -/
theorem bfind_cases (hwhat : what ≠ []) (m : Memory) (input : Bytes) :
    find what (m.read input) = none ∧ bfind m input what = ⟨input, ⟨0, 0⟩, ⟨0, 0⟩⟩ ∨
      ∃ a b, find what (m.read input) = some (a, b) ∧ m.read input = a ++ (what ++ b) ∧
        bfind m input what = {
          before := ⟨input.asVoid, a.length⟩
          found := ⟨input.asVoid + a.length, what.length⟩
          after := ⟨input.asVoid + a.length + what.length, b.length⟩ } := by
  cases hfind : find what (m.read input) with
  | none => exact .inl ⟨rfl, bfind_of_none hfind⟩
  | some found =>
    obtain ⟨a, b⟩ := found
    exact .inr ⟨a, b, rfl, eq_append_of_find hwhat hfind, bfind_of_some hwhat hfind⟩

/-- The first occurrence is what a search should return. -/
lemma finds_of_find {a b : List UInt8} (hwhat : what ≠ [])
    (hfind : find what (m.read input) = some (a, b))
    (hfirst : ∀ a' b', m.read input = a' ++ (what ++ b') → a.length ≤ a'.length) :
    Finds m input what (bfind m input what) := by
  have hab := eq_append_of_find hwhat hfind
  have hoccurs : what <:+: m.read input := ⟨a, b, by rw [hab, List.append_assoc]⟩
  have hlen := congrArg List.length hab
  rw [Memory.length_read, List.length_append, List.length_append] at hlen
  rw [bfind_of_some hwhat hfind]
  refine ⟨iff_of_true rfl hoccurs, fun _ => ⟨rfl, rfl, rfl, ?_⟩, fun _ => ?_, fun _ => hfirst⟩
  · dsimp only
    omega
  · exact Memory.read_part hab

/-- Nothing is what a search should return where `what` does not occur. -/
lemma finds_of_not_occurs (hwhat : what ≠ []) (h : ¬ what <:+: m.read input) :
    Finds m input what (bfind m input what) := by
  obtain ⟨-, hnone⟩ | ⟨a, b, -, hab, -⟩ := bfind_cases hwhat m input
  · have hlen : (bfind m input what).found.len ≠ what.length := by
      rw [hnone]
      exact (List.length_pos_iff.mpr hwhat).ne
    exact ⟨iff_of_false hlen h, fun hfound => absurd hfound hlen,
      fun hfound => absurd hfound hlen, fun hfound => absurd hfound hlen⟩
  · exact absurd ⟨a, b, by rw [hab, List.append_assoc]⟩ h

/-- **`bfind` finds the first occurrence** exactly when there is none, or the bytes in front of it
consist of failed attempts: bytes that `what` starts with, and one that it does not go on with.

**Proof sketch.** The occurrence found is the first one exactly when it is reached with nothing
matched (`find_eq_some_iff_append`); what is found occurs (`bfind_cases`). -/
theorem bfind_finds_iff (hwhat : what ≠ []) (m : Memory) (input : Bytes) :
    Finds m input what (bfind m input what) ↔
      ∀ a, FirstAt what (m.read input) a → FailedAttempts what a := by
  constructor
  · rintro hfinds a ⟨⟨b, hab⟩, hfirst⟩
    have hfound := hfinds.found_iff.mpr ⟨a, b, by rw [hab, List.append_assoc]⟩
    have hle := hfinds.first hfound a b hab
    obtain ⟨-, hnone⟩ | ⟨a', b', hfind, hab', hsome⟩ := bfind_cases hwhat m input
    · rw [hnone] at hfound
      exact absurd hfound (List.length_pos_iff.mpr hwhat).ne
    · have hle' := hfirst a' b' hab'
      rw [hsome] at hle
      dsimp only at hle
      obtain ⟨rfl, hrest⟩ := List.append_inj (hab.symm.trans hab') (by omega)
      obtain rfl := List.append_cancel_left hrest
      exact ((find_eq_some_iff_append hwhat).mp hfind).2
  · intro hfailed
    by_cases hoccurs : what <:+: m.read input
    · obtain ⟨a, ⟨b, hab⟩, hfirst⟩ := exists_firstAt hoccurs
      have hfind : find what (m.read input) = some (a, b) :=
        (find_eq_some_iff_append hwhat).mpr ⟨hab, hfailed a ⟨⟨b, hab⟩, hfirst⟩⟩
      exact finds_of_find hwhat hfind hfirst
    · exact finds_of_not_occurs hwhat hoccurs

/-- `bfind` finds the space in `GET /`. -/
theorem bfind_finds_iff_space :
    Finds (fun x => (ascii "GET /").getD x 0) ⟨0, 5⟩ [32]
        (bfind (fun x => (ascii "GET /").getD x 0) ⟨0, 5⟩ [32]) ↔
      ∀ a, FirstAt [32] (Memory.read (fun x => (ascii "GET /").getD x 0) ⟨0, 5⟩) a →
        FailedAttempts [32] a :=
  bfind_finds_iff (by decide) _ _

/-- The end of a request header that is preceded by another carriage return is not found. -/
theorem bfind_misses :
    ¬ Finds (fun x => [13, 13, 10, 13, 10].getD x 0) ⟨0, 5⟩ (ascii "\r\n\r\n")
      (bfind (fun x => [13, 13, 10, 13, 10].getD x 0) ⟨0, 5⟩ (ascii "\r\n\r\n")) := by
  intro hfinds
  have hoccurs : ascii "\r\n\r\n" <:+:
      Memory.read (fun x => [13, 13, 10, 13, 10].getD x 0) ⟨0, 5⟩ := ⟨[13], [], rfl⟩
  exact absurd (hfinds.found_iff.mpr hoccurs) (by decide)

end SleepyText.Server
