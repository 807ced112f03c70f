import SleepyText.Client.Editor

set_option relaxedAutoImplicit false
set_option autoImplicit false

/-!
# Growing branch maps

Histories are not stored but recomputed through the live changes of the ancestors. This module
says what new branches and typing do to the branch objects, and what a history depends on.

## Main definitions

* `Heap.Grows` — every registered branch stays, with at least its changes.
* `Heap.fresh` — the object that `new branch(o)` makes.

## Main results

* `Heap.Rooted.getprecedinghistory_congr` — what a branch inherits depends on its ancestors only.
* `Heap.grows_newbranch`, `Heap.grows_type` — forking and typing make the map grow.
-/

namespace SleepyText.Client.Heap

variable {h h' : Heap}

/-- Every branch registered in `h` is registered in `h'`, forked off where it was and with at
least the changes it had. -/
def Grows (h h' : Heap) : Prop :=
  ∀ id p, h.lookup id = some p →
    ∃ p', h'.lookup id = some p' ∧ p'.toBranchArgs = p.toBranchArgs ∧ p.data <+: p'.data

/-- **What a branch inherits depends on its ancestors only.** Let `P` hold along chains of parents,
and let each parent found along them be found in `h'` too, with the same arguments and the same
changes before the fork point. Then a rooted branch stays rooted and inherits what it inherited.

**Proof sketch.** Induction along the chain of parents. The parent inherits the same by the
induction hypothesis, and the slice of its changes is the same by assumption. -/
theorem Rooted.getprecedinghistory_congr {P : Branch → Prop}
    (hlink : ∀ b p past, P b → b.parent ≠ 0 → h.lookup b.parent = some p →
      h.getprecedinghistory p = some past →
      P p ∧ ∃ p', h'.lookup b.parent = some p' ∧ p'.toBranchArgs = p.toBranchArgs ∧
        slice p'.data 0 (b.pos - past.length) = slice p.data 0 (b.pos - past.length))
    {b b' : Branch} (hb : h.Rooted b) (hP : P b) (hargs : b'.toBranchArgs = b.toBranchArgs) :
    h'.Rooted b' ∧ h'.getprecedinghistory b' = h.getprecedinghistory b := by
  obtain ⟨n, hn⟩ := hb
  induction hn generalizing b' with
  | @root b hroot =>
    have hroot' : b'.parent = 0 := by rw [hargs, hroot]
    exact ⟨.of_parent_eq_zero hroot', by simp [hroot, hroot']⟩
  | @link b p n hne hp hends ih =>
    have hne' : b'.parent ≠ 0 := by rwa [hargs]
    obtain ⟨past, hpast⟩ := Rooted.getprecedinghistory_isSome ⟨n, hends⟩
    obtain ⟨hPp, p', hp', hargs', hdata⟩ := hlink b p past hP hne hp hpast
    rw [← congrArg BranchArgs.parent hargs] at hp'
    obtain ⟨hrooted', heq⟩ := ih hPp hargs'
    refine ⟨.of_parent hne' hp' hrooted', ?_⟩
    rw [getprecedinghistory_of_parent hne' hp' hrooted',
      getprecedinghistory_of_parent hne hp ⟨n, hends⟩, heq, hpast]
    simp only [Option.map_some]
    rw [congrArg BranchArgs.pos hargs, hdata]

/-- When the branch map grows, a rooted branch stays rooted. -/
lemma Grows.rooted (hgrows : Grows h h') {b b' : Branch} (hb : h.Rooted b)
    (hargs : b'.toBranchArgs = b.toBranchArgs) : h'.Rooted b' := by
  obtain ⟨n, hn⟩ := hb
  induction hn generalizing b' with
  | root hroot => exact .of_parent_eq_zero (by rw [hargs, hroot])
  | link hne hp _ ih =>
    obtain ⟨p', hp', hargs', -⟩ := hgrows _ _ hp
    rw [← congrArg BranchArgs.parent hargs] at hp'
    exact .of_parent (by rwa [hargs]) hp' (ih hargs')

/-- The object at a reference is the one found under its id. -/
lemma lookup_of_named (hnamed : ∀ ref b, h.objects[ref]? = some b → h.branches b.id = some ref)
    {ref : ℕ} {b : Branch} (hb : h.objects[ref]? = some b) : h.lookup b.id = some b := by
  rw [lookup, hnamed ref b hb, Option.bind_some, hb]

/-! ## Forking -/

/-- The object that `new branch(o)` makes. -/
abbrev fresh (o : BranchArgs ℤ) : Branch := { o with data := [], render := [] }

/-- The object made stands at the end. -/
@[simp] lemma objects_newbranch (h : Heap) (o : BranchArgs ℤ) :
    (h.newbranch o).objects = h.objects ++ [fresh o] := rfl

/-- The objects made by a list of `new branch` calls stand at the end, in their order. -/
lemma objects_foldl_newbranch (rows : List (BranchArgs ℤ)) (h : Heap) :
    (rows.foldl newbranch h).objects = h.objects ++ rows.map fresh := by
  induction rows generalizing h with
  | nil => simp
  | cons r rows ih => simp [ih]

lemma mem_newbranch {o : BranchArgs ℤ} {b : Branch} :
    b ∈ (h.newbranch o).objects ↔ b ∈ h.objects ∨ b = fresh o := by
  simp

/-- The object made is registered under its id. -/
lemma branches_newbranch (h : Heap) (o : BranchArgs ℤ) (id : ℤ) :
    (h.newbranch o).branches id = if id = o.id then some h.objects.length else h.branches id := by
  simp [newbranch, Function.update_apply]

/-- An object of the new heap is an old one or the one made. -/
lemma getElem?_newbranch {o : BranchArgs ℤ} {ref : ℕ} {b : Branch}
    (hb : (h.newbranch o).objects[ref]? = some b) :
    h.objects[ref]? = some b ∨ ref = h.objects.length ∧ b = fresh o := by
  rw [objects_newbranch, List.getElem?_append] at hb
  split at hb
  · exact .inl hb
  · rename_i hlen
    obtain ⟨hlt, rfl⟩ := List.getElem?_eq_some_iff.mp hb
    simp only [List.length_singleton] at hlt
    exact .inr ⟨by omega, by simp⟩

lemma getElem?_newbranch_old {o : BranchArgs ℤ} {ref : ℕ} {b : Branch}
    (hb : h.objects[ref]? = some b) : (h.newbranch o).objects[ref]? = some b := by
  obtain ⟨hlt, -⟩ := List.getElem?_eq_some_iff.mp hb
  rw [objects_newbranch, List.getElem?_append_left hlt, hb]

lemma registered_newbranch {o : BranchArgs ℤ}
    (hreg : ∀ id ref, h.branches id = some ref → ∃ b, h.objects[ref]? = some b ∧ b.id = id) :
    ∀ id ref, (h.newbranch o).branches id = some ref →
      ∃ b, (h.newbranch o).objects[ref]? = some b ∧ b.id = id := by
  intro id ref hid
  rw [branches_newbranch] at hid
  split at hid
  · rename_i heq
    obtain rfl : h.objects.length = ref := Option.some.inj hid
    exact ⟨fresh o, by simp, heq.symm⟩
  · obtain ⟨b, hb, hbid⟩ := hreg id ref hid
    exact ⟨b, getElem?_newbranch_old hb, hbid⟩

/-- A branch registered under a fresh id hides no other. -/
lemma lookup_newbranch_of_lookup {o : BranchArgs ℤ} (hfresh : h.branches o.id = none) {id : ℤ}
    {p : Branch} (hp : h.lookup id = some p) : (h.newbranch o).lookup id = some p := by
  obtain ⟨ref, href, hobj⟩ := Option.bind_eq_some_iff.mp hp
  have hne : id ≠ o.id := by
    rintro rfl
    rw [hfresh] at href
    exact absurd href (by simp)
  rw [lookup, branches_newbranch, if_neg hne, href, Option.bind_some]
  exact getElem?_newbranch_old hobj

/-- A branch registered under a fresh id makes the map grow. -/
lemma grows_newbranch {o : BranchArgs ℤ} (hfresh : h.branches o.id = none) :
    Grows h (h.newbranch o) :=
  fun _ p hp => ⟨p, lookup_newbranch_of_lookup hfresh hp, rfl, List.prefix_refl _⟩

/-! ## Typing -/

variable {ref : ℕ} {change : Change} {text : JsString}

/-- An object after typing is the old one, or the one typed into. -/
lemma getElem?_type (h : Heap) (ref : ℕ) (change : Change) (text : JsString) (k : ℕ) :
    (h.type ref change text).objects[k]? =
      if ref = k then (h.objects[k]?).map fun b => b.typed change text else h.objects[k]? := by
  simp only [type, List.getElem?_modify]
  split <;> simp

/-- Typing changes neither the arguments of a branch nor the order of its changes. -/
lemma getElem?_type_grows {k : ℕ} {b : Branch} (hb : h.objects[k]? = some b) :
    ∃ b', (h.type ref change text).objects[k]? = some b' ∧
      b'.toBranchArgs = b.toBranchArgs ∧ b.data <+: b'.data := by
  rw [getElem?_type, hb]
  split
  · exact ⟨_, rfl, rfl, List.prefix_append _ _⟩
  · exact ⟨_, rfl, rfl, List.prefix_refl _⟩

/-- An object after typing comes from an object of the same arguments. -/
lemma getElem?_of_type {k : ℕ} {b' : Branch} (hb : (h.type ref change text).objects[k]? = some b') :
    ∃ b, h.objects[k]? = some b ∧ b'.toBranchArgs = b.toBranchArgs ∧
      (b' = b ∨ ref = k ∧ b' = b.typed change text) := by
  rw [getElem?_type] at hb
  split at hb
  · obtain ⟨b, hobj, rfl⟩ := Option.map_eq_some_iff.mp hb
    exact ⟨b, hobj, rfl, .inr ⟨‹_›, rfl⟩⟩
  · exact ⟨b', hb, rfl, .inl rfl⟩

lemma exists_of_mem_type {b' : Branch} (hb' : b' ∈ (h.type ref change text).objects) :
    ∃ b ∈ h.objects, b'.toBranchArgs = b.toBranchArgs := by
  obtain ⟨k, hk⟩ := List.getElem?_of_mem hb'
  obtain ⟨b, hb, hargs, -⟩ := getElem?_of_type hk
  exact ⟨b, List.mem_of_getElem? hb, hargs⟩

/-- Typing makes the map grow. -/
lemma grows_type : Grows h (h.type ref change text) := by
  intro id p hp
  obtain ⟨k, hk, hobj⟩ := Option.bind_eq_some_iff.mp hp
  obtain ⟨p', hp', hargs, hdata⟩ := getElem?_type_grows hobj
  refine ⟨p', ?_, hargs, hdata⟩
  have hbranches : (h.type ref change text).branches = h.branches := rfl
  rw [lookup, hbranches, hk, Option.bind_some, hp']

end SleepyText.Client.Heap
