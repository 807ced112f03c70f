import SleepyText.Lib.Run
import SleepyText.Client.Growth

set_option relaxedAutoImplicit false
set_option autoImplicit false

/-!
# Typing in one branch and the histories of the others

Histories are put together from the live changes of the ancestors, so a change typed into one
branch can show up in the histories of its descendants. This module says exactly when an event of
the client leaves all other histories as they are.

## Main definitions

* `Framed` — an event extends the history of the branch typed in and keeps all others.
* `FreshIds`, `FreshFork` — the ids of new branches, or of forks, are fresh and not `0`.
* `SettledFork` — a fork point at which the next change of the parent cannot be seen.
* `Undisturbed` — all branches forked off the branch typed in are settled.

## Main results

* `framed_iff_undisturbed` — in every run, the events are framed exactly when they are undisturbed.
* `typing_changes_fork` — a run in which typing into a branch changes a fork of it.
-/

namespace SleepyText.Client

open Heap

/-! ## What an event may change -/

/-- The steps of the history of the branch object `ref`. -/
def Heap.steps (h : Heap) (ref : ℕ) : Option (List Change) := do
  let b ← h.objects[ref]?
  let history ← h.gethistory b
  some history.steps

/-- The state and the editor in which `oninput` records its change: after the fork, if it forks. -/
def typing (c : State) : Event → Option (State × EditorView)
  | .oninput _ random =>
    match c.view with
    | .editor e =>
      if e.history.position ≠ e.history.steps.length then branchout c e random else some (c, e)
    | _ => none
  | _ => none

/-- Every history that existed before the event is the same after it, except that of the branch
typed in, and that one is extended by the one change typed. -/
structure Framed (c : State) (event : Event) (c' : State) : Prop where
  others : ∀ ref steps, c.heap.steps ref = some steps →
    (∀ d f, typing c event = some (d, f) → ref ≠ f.branch) → c'.heap.steps ref = some steps
  typed : ∀ d f text random steps, event = .oninput text random →
    typing c event = some (d, f) → d.heap.steps f.branch = some steps →
    c'.heap.steps f.branch = some (steps ++ [diff f.last text])

/-- All branches have distinct ids that are not `0`. -/
structure DistinctIds (h : Heap) : Prop where
  nodup : (h.objects.map fun b => b.id).Nodup
  ne_zero : ∀ b ∈ h.objects, b.id ≠ 0

/-- The id of the branch that an event makes, if it makes one. -/
def newid (c : State) : Event → Option ℤ
  | .oninput _ random =>
    match c.view with
    | .editor e => if e.history.position ≠ e.history.steps.length then some random else none
    | _ => none
  | .branchbtn random => some random
  | .login => some 1
  | _ => none

/-- The ids of new branches are fresh and not `0`. -/
def FreshIds (c : State) (event : Event) : Prop :=
  ∀ id ∈ newid c event, id ≠ 0 ∧ c.heap.branches id = none

instance (c : State) (event : Event) : Decidable (FreshIds c event) :=
  inferInstanceAs (Decidable (∀ id ∈ newid c event, _))

/-- If the event forks, the id it draws is fresh and not `0`. -/
def FreshFork (c : State) : Event → Prop
  | .login => True
  | event => FreshIds c event

instance (c : State) (event : Event) : Decidable (FreshFork c event) :=
  decidable_of_iff (event = .login ∨ FreshIds c event) (by cases event <;> simp [FreshFork])

/-- A branch forked at `pos` off a parent that inherited `inherited` steps and has `own` changes
does not see the next change of its parent: the fork point is among the parent's own changes or
at their end, or so far inside the inherited steps that the slice of the own changes, its end
counted from behind, stays empty. -/
def SettledFork (inherited own : ℕ) (pos : ℤ) : Prop :=
  inherited ≤ pos ∧ pos ≤ inherited + own ∨ pos + own < inherited

instance (inherited own : ℕ) (pos : ℤ) : Decidable (SettledFork inherited own pos) :=
  inferInstanceAs (Decidable (_ ∧ _ ∨ _))

/-- Every branch forked off the one typed in is settled, and entering the editor without a branch
takes the id `1` from no branch with forks that inherited something. -/
def Undisturbed (c : State) : Event → Prop
  | .oninput _ _ => ∀ e ∈ c.view.editor?, e.history.position = e.history.steps.length →
      ∀ p ∈ c.heap.objects[e.branch]?, ∀ past ∈ c.heap.getprecedinghistory p,
        ∀ b ∈ c.heap.objects, b.parent = p.id → SettledFork past.length p.data.length b.pos
  | .login => ∀ b ∈ c.heap.objects, b.parent = 1 →
      ∀ past ∈ c.heap.getprecedinghistory b, past = []
  | _ => True

/-! ## Slices -/

/-- `xs.slice(0, stop)` is a prefix of `xs`. -/
private lemma slice_zero_eq_take {α : Type*} (xs : List α) (stop : ℤ) :
    slice xs 0 stop =
      xs.take (if stop < 0 then max (xs.length + stop) 0 else min stop xs.length).toNat := by
  simp [slice]

/-- **Settled fork points** are those from which one more change of the parent is not seen. -/
lemma slice_concat_eq_iff (data : List Change) (change : Change) (inherited : ℕ) (pos : ℤ) :
    slice (data ++ [change]) 0 (pos - inherited) = slice data 0 (pos - inherited) ↔
      SettledFork inherited data.length pos := by
  rw [slice_zero_eq_take, slice_zero_eq_take, SettledFork, List.length_append,
    List.length_singleton]
  constructor
  · intro heq
    have hlen := congrArg List.length heq
    simp only [List.length_take, List.length_append, List.length_singleton] at hlen
    push_cast at hlen
    split at hlen <;> omega
  · intro hsettled
    push_cast
    rw [List.take_append_of_le_length (by split <;> omega)]
    congr 1
    split <;> omega

/-! ## References and ids -/

namespace Heap

variable {h : Heap}

/-- The map `branches` holds references to objects of the ids, and every id of an object. -/
structure Registered (h : Heap) : Prop where
  registered : ∀ id ref, h.branches id = some ref → ∃ b, h.objects[ref]? = some b ∧ b.id = id
  covered : ∀ b ∈ h.objects, ∃ ref, h.branches b.id = some ref

lemma Registered.newbranch (hreg : h.Registered) (o : BranchArgs ℤ) :
    (h.newbranch o).Registered := by
  refine ⟨registered_newbranch hreg.registered, fun b hb => ?_⟩
  rw [branches_newbranch]
  split
  · exact ⟨_, rfl⟩
  · rename_i hne
    rcases mem_newbranch.mp hb with hb | rfl
    · exact hreg.covered b hb
    · exact absurd rfl hne

lemma Registered.type (hreg : h.Registered) (ref : ℕ) (change : Change) (text : JsString) :
    (h.type ref change text).Registered := by
  refine ⟨fun id k hk => ?_, fun b' hb' => ?_⟩
  · obtain ⟨b, hb, hid⟩ := hreg.registered id k hk
    obtain ⟨b', hb', hargs, -⟩ := getElem?_type_grows hb
    exact ⟨b', hb', by rw [hargs, hid]⟩
  · obtain ⟨k, hk⟩ := List.getElem?_of_mem hb'
    obtain ⟨b, hb, hargs, -⟩ := getElem?_of_type hk
    rw [hargs]
    exact hreg.covered b (List.mem_of_getElem? hb)

/-- With distinct ids every object is the one found under its id. -/
lemma Registered.named (hreg : h.Registered) (hids : DistinctIds h) {ref : ℕ} {b : Branch}
    (hb : h.objects[ref]? = some b) : h.branches b.id = some ref := by
  obtain ⟨k, hk⟩ := hreg.covered b (List.mem_of_getElem? hb)
  obtain ⟨b', hb', hid⟩ := hreg.registered _ _ hk
  have hlt : ref < (h.objects.map fun b => b.id).length := by
    simpa using (List.getElem?_eq_some_iff.mp hb).1
  have hsame : (h.objects.map fun b => b.id)[ref]? = (h.objects.map fun b => b.id)[k]? := by
    simp [hb, hb', hid]
  rw [hk, (List.getElem?_inj hlt hids.nodup).mp hsame]

/-- The steps shown for an object are what it inherits and its own changes. -/
lemma steps_eq_some_iff {ref : ℕ} {steps : List Change} :
    h.steps ref = some steps ↔ ∃ b past, h.objects[ref]? = some b ∧
      h.getprecedinghistory b = some past ∧ steps = past ++ b.data := by
  simp only [Heap.steps, gethistory, Option.bind_eq_bind, Option.bind_eq_some_iff,
    Option.map_eq_some_iff, Option.some.injEq]
  constructor
  · rintro ⟨b, hb, _, ⟨past, hpast, rfl⟩, rfl⟩
    exact ⟨b, past, hb, hpast, rfl⟩
  · rintro ⟨b, past, hb, hpast, rfl⟩
    exact ⟨b, hb, _, ⟨past, hpast, rfl⟩, rfl⟩

/-- An object after typing into another one. -/
lemma getElem?_type_of_ne {ref k : ℕ} (hne : k ≠ ref) (change : Change) (text : JsString) :
    (h.type ref change text).objects[k]? = h.objects[k]? := by
  rw [getElem?_type, if_neg (Ne.symm hne)]

/-- The object typed into, after typing. -/
lemma getElem?_type_self {ref : ℕ} {p : Branch} (hp : h.objects[ref]? = some p)
    (change : Change) (text : JsString) :
    (h.type ref change text).objects[ref]? = some (p.typed change text) := by
  rw [getElem?_type, if_pos rfl, hp, Option.map_some]

/-- What is found under an id after typing. -/
lemma lookup_type (ref : ℕ) (change : Change) (text : JsString) {id : ℤ} {k : ℕ}
    (hk : h.branches id = some k) :
    (h.type ref change text).lookup id = (h.type ref change text).objects[k]? := by
  rw [lookup, show (h.type ref change text).branches id = some k from hk, Option.bind_some]

/-- A branch typed into inherits what it inherited.

**Proof sketch.** All branches of its chain of parents are nearer to the end of the chain than
itself, so none of them is the one typed into. -/
lemma Rooted.getprecedinghistory_typed {ref : ℕ} {p : Branch} (hp : h.objects[ref]? = some p)
    (hrooted : h.Rooted p) (change : Change) (text : JsString) :
    (h.type ref change text).Rooted (p.typed change text) ∧
      (h.type ref change text).getprecedinghistory (p.typed change text) =
        h.getprecedinghistory p := by
  obtain ⟨n, hn⟩ := hrooted
  refine Rooted.getprecedinghistory_congr (P := fun b => ∃ m ≤ n, h.RootedIn m b) ?_ ⟨n, hn⟩
    ⟨n, le_rfl, hn⟩ rfl
  rintro b q past ⟨m, hm, hb⟩ hne hq -
  obtain ⟨k, hk, hobj⟩ := Option.bind_eq_some_iff.mp hq
  cases hb with
  | root hroot => exact absurd hroot hne
  | @link _ q' m _ hq' hends =>
    obtain rfl : q = q' := Option.some.inj (hq.symm.trans hq')
    refine ⟨⟨m, by omega, hends⟩, q, ?_, rfl, rfl⟩
    have hkref : k ≠ ref := by
      rintro rfl
      obtain rfl : q = p := Option.some.inj (hobj.symm.trans hp)
      exact absurd (hends.unique hn) (by omega)
    rw [lookup_type ref change text hk, getElem?_type_of_ne hkref, hobj]

/-! ## Histories after one change of the objects -/

/-- Histories depend on what is found under the ids of the ancestors. -/
lemma steps_of_lookup {h' : Heap} {k : ℕ} {steps : List Change}
    (hlookup : ∀ id p, h.lookup id = some p → h'.lookup id = some p)
    (hobjects : ∀ b, h.objects[k]? = some b → h'.objects[k]? = some b)
    (hsteps : h.steps k = some steps) : h'.steps k = some steps := by
  obtain ⟨b, past, hb, hpast, rfl⟩ := steps_eq_some_iff.mp hsteps
  have hsame := (Rooted.of_getprecedinghistory hpast).getprecedinghistory_congr
    (P := fun _ => True) (fun _ p _ _ _ hp _ => ⟨trivial, p, hlookup _ p hp, rfl, rfl⟩) trivial rfl
  exact steps_eq_some_iff.mpr ⟨b, past, hobjects b hb, hsame.2.trans hpast, rfl⟩

/-- A fork with a fresh id keeps all histories. -/
lemma steps_newbranch {o : BranchArgs ℤ} (hfresh : h.branches o.id = none) {k : ℕ}
    {steps : List Change} (hsteps : h.steps k = some steps) :
    (h.newbranch o).steps k = some steps :=
  steps_of_lookup (fun _ _ hp => lookup_newbranch_of_lookup hfresh hp)
    (fun _ hb => getElem?_newbranch_old hb) hsteps

/-- Typing into the object that was just made keeps all histories that existed before. -/
lemma steps_newbranch_type {o : BranchArgs ℤ}
    (hfresh : h.branches o.id = none) (change : Change) (text : JsString) {k : ℕ}
    {steps : List Change} (hsteps : h.steps k = some steps) :
    ((h.newbranch o).type h.objects.length change text).steps k = some steps := by
  have hold (ref : ℕ) (b : Branch) (hb : h.objects[ref]? = some b) :
      ((h.newbranch o).type h.objects.length change text).objects[ref]? = some b := by
    have hlt := (List.getElem?_eq_some_iff.mp hb).1
    rw [getElem?_type_of_ne hlt.ne, getElem?_newbranch_old hb]
  refine steps_of_lookup (fun id p hp => ?_) (hold k) hsteps
  obtain ⟨ref, href, hobj⟩ := Option.bind_eq_some_iff.mp hp
  have hne : id ≠ o.id := by
    rintro rfl
    rw [hfresh] at href
    exact absurd href (by simp)
  rw [lookup_type _ change text (k := ref) (by rw [branches_newbranch, if_neg hne, href]),
    hold ref p hobj]

/-- The history of the branch typed in is extended by the change. -/
lemma steps_type_self {ref : ℕ} {steps : List Change} (hsteps : h.steps ref = some steps)
    (change : Change) (text : JsString) :
    (h.type ref change text).steps ref = some (steps ++ [change]) := by
  obtain ⟨p, past, hp, hpast, rfl⟩ := steps_eq_some_iff.mp hsteps
  have htyped := (Rooted.of_getprecedinghistory hpast).getprecedinghistory_typed hp change text
  refine steps_eq_some_iff.mpr
    ⟨_, past, getElem?_type_self hp change text, htyped.2.trans hpast, ?_⟩
  rw [Branch.typed, List.append_assoc]

/-- Typing into a branch whose forks are all settled keeps the histories of all others. -/
lemma steps_type_of_settled (hreg : h.Registered) {ref : ℕ}
    (hsettled : ∀ p ∈ h.objects[ref]?, h.branches p.id = some ref →
      ∀ past ∈ h.getprecedinghistory p, ∀ b ∈ h.objects, b.parent = p.id →
        SettledFork past.length p.data.length b.pos)
    (change : Change) (text : JsString) {k : ℕ} (hne : k ≠ ref) {steps : List Change}
    (hsteps : h.steps k = some steps) : (h.type ref change text).steps k = some steps := by
  obtain ⟨b, past, hb, hpast, rfl⟩ := steps_eq_some_iff.mp hsteps
  have hsame : (h.type ref change text).Rooted b ∧
      (h.type ref change text).getprecedinghistory b = h.getprecedinghistory b := by
    refine (Rooted.of_getprecedinghistory hpast).getprecedinghistory_congr
      (P := fun b => b ∈ h.objects) ?_ (List.mem_of_getElem? hb) rfl
    intro b p past hmem _ hp hpast
    obtain ⟨j, hj, hobj⟩ := Option.bind_eq_some_iff.mp hp
    refine ⟨mem_objects_of_lookup hp, ?_⟩
    rw [lookup_type ref change text hj]
    by_cases hjref : j = ref
    · -- the parent is the branch typed into
      subst hjref
      obtain ⟨p', hobj', hid⟩ := hreg.registered _ _ hj
      obtain rfl : p = p' := Option.some.inj (hobj.symm.trans hobj')
      exact ⟨_, getElem?_type_self hobj change text, rfl,
        (slice_concat_eq_iff _ _ _ _).mpr
          (hsettled p hobj (hid ▸ hj) past hpast b hmem hid.symm)⟩
    · exact ⟨p, by rw [getElem?_type_of_ne hjref, hobj], rfl, rfl⟩
  refine steps_eq_some_iff.mpr ⟨b, past, ?_, hsame.2.trans hpast, rfl⟩
  rw [getElem?_type_of_ne hne, hb]

/-- A fork of the branch typed in whose history stays the same is settled. -/
lemma settledFork_of_steps_type {ref : ℕ} {p : Branch} (hp : h.objects[ref]? = some p)
    (hnamed : h.branches p.id = some ref) (hne : p.id ≠ 0) {past : List Change}
    (hpast : h.getprecedinghistory p = some past) {change : Change} {text : JsString}
    (hkeeps : ∀ k steps, h.steps k = some steps → k ≠ ref →
      (h.type ref change text).steps k = some steps)
    {b : Branch} (hb : b ∈ h.objects) (hparent : b.parent = p.id) :
    SettledFork past.length p.data.length b.pos := by
  have hrooted := Rooted.of_getprecedinghistory hpast
  have hlink : h.lookup b.parent = some p := by rw [hparent, lookup, hnamed, Option.bind_some, hp]
  have hb0 : b.parent ≠ 0 := by rwa [hparent]
  obtain ⟨k, hk⟩ := List.getElem?_of_mem hb
  have hkref : k ≠ ref := by
    -- a branch forked off itself has no end of its chain of parents
    rintro rfl
    obtain rfl : b = p := Option.some.inj (hk.symm.trans hp)
    obtain ⟨n, hn⟩ := hrooted
    exact absurd (hn.unique (.link hb0 hlink hn)) (by omega)
  have hbefore := getprecedinghistory_of_parent hb0 hlink hrooted
  rw [hpast, Option.map_some] at hbefore
  obtain ⟨hrooted', htyped⟩ := hrooted.getprecedinghistory_typed hp change text
  have hlink' : (h.type ref change text).lookup b.parent = some (p.typed change text) := by
    rw [hparent, lookup_type ref change text hnamed, getElem?_type_self hp]
  have hafter := getprecedinghistory_of_parent hb0 hlink' hrooted'
  rw [htyped, hpast, Option.map_some] at hafter
  obtain ⟨b', past', hb', hpast', hsteps⟩ := steps_eq_some_iff.mp
    (hkeeps k _ (steps_eq_some_iff.mpr ⟨b, _, hk, hbefore, rfl⟩) hkref)
  rw [getElem?_type_of_ne hkref, hk, Option.some.injEq] at hb'
  subst hb'
  rw [hafter, Option.some.injEq] at hpast'
  subst hpast'
  apply (slice_concat_eq_iff p.data change past.length b.pos).mp
  exact (List.append_cancel_left (List.append_cancel_right hsteps)).symm

/-- Entered without a branch, the editor leaves nothing to inherit from a branch `1`. -/
lemma getprecedinghistory_enter {b : Branch} (hone : b.parent = 1) :
    (h.newbranch ⟨1, 0, 0, 1⟩).Rooted b ∧
      (h.newbranch ⟨1, 0, 0, 1⟩).getprecedinghistory b = some [] := by
  have hne : b.parent ≠ 0 := by rw [hone]; decide
  have hnew : (h.newbranch ⟨1, 0, 0, 1⟩).lookup b.parent = some (fresh ⟨1, 0, 0, 1⟩) := by
    simp [lookup, branches_newbranch, hone]
  have hroot : (h.newbranch ⟨1, 0, 0, 1⟩).Rooted (fresh ⟨1, 0, 0, 1⟩) := .of_parent_eq_zero rfl
  refine ⟨.of_parent hne hnew hroot, ?_⟩
  rw [getprecedinghistory_of_parent hne hnew hroot,
    getprecedinghistory_of_root (b := fresh ⟨1, 0, 0, 1⟩) rfl]
  simp [slice]

/-- **Entering the editor without a branch** keeps a history if no branch of its chain of parents
inherits anything from a branch `1`. -/
lemma steps_enter (hinherits : ∀ b ∈ h.objects, b.parent = 1 →
      ∀ past ∈ h.getprecedinghistory b, past = [])
    {k : ℕ} {steps : List Change} (hsteps : h.steps k = some steps) :
    (h.newbranch ⟨1, 0, 0, 1⟩).steps k = some steps := by
  obtain ⟨b, past, hb, hpast, rfl⟩ := steps_eq_some_iff.mp hsteps
  have hsame (b : Branch) (hmem : b ∈ h.objects) (hrooted : h.Rooted b) :
      (h.newbranch ⟨1, 0, 0, 1⟩).Rooted b ∧
        (h.newbranch ⟨1, 0, 0, 1⟩).getprecedinghistory b = h.getprecedinghistory b := by
    obtain ⟨n, hn⟩ := hrooted
    induction hn with
    | @root b hb => exact ⟨.of_parent_eq_zero hb, by simp [hb]⟩
    | @link b p n hne hp hends ih =>
      by_cases hone : b.parent = 1
      · -- forked off the branch that loses its id
        obtain ⟨past, hpast⟩ := Rooted.getprecedinghistory_isSome (h := h) (b := b)
          ⟨n + 1, .link hne hp hends⟩
        rw [hpast, hinherits b hmem hone past hpast]
        exact getprecedinghistory_enter hone
      · obtain ⟨ref, href, hobj⟩ := Option.bind_eq_some_iff.mp hp
        have hp' : (h.newbranch ⟨1, 0, 0, 1⟩).lookup b.parent = some p := by
          rw [lookup, branches_newbranch, if_neg hone, href, Option.bind_some,
            getElem?_newbranch_old hobj]
        obtain ⟨hrooted', heq⟩ := ih (mem_objects_of_lookup hp)
        refine ⟨.of_parent hne hp' hrooted', ?_⟩
        rw [getprecedinghistory_of_parent hne hp' hrooted',
          getprecedinghistory_of_parent hne hp ⟨n, hends⟩, heq]
  refine steps_eq_some_iff.mpr ⟨b, past, getElem?_newbranch_old hb, ?_, rfl⟩
  rw [(hsame b (List.mem_of_getElem? hb) (Rooted.of_getprecedinghistory hpast)).2, hpast]

/-- A branch forked off a branch `1` whose history is kept inherits nothing. -/
lemma eq_nil_of_steps_enter
    (hkeeps : ∀ k steps, h.steps k = some steps →
      (h.newbranch ⟨1, 0, 0, 1⟩).steps k = some steps)
    {b : Branch} (hb : b ∈ h.objects) (hone : b.parent = 1) {past : List Change}
    (hpast : h.getprecedinghistory b = some past) : past = [] := by
  obtain ⟨k, hk⟩ := List.getElem?_of_mem hb
  obtain ⟨b', past', hb', hpast', hsteps⟩ := steps_eq_some_iff.mp
    (hkeeps k _ (steps_eq_some_iff.mpr ⟨b, past, hk, hpast, rfl⟩))
  rw [getElem?_newbranch_old hk, Option.some.injEq] at hb'
  subst hb'
  rw [(getprecedinghistory_enter hone).2, Option.some.injEq] at hpast'
  rw [List.append_cancel_right hsteps, ← hpast']

end Heap

/-! ## Events -/

/-- The rows loaded are registered. -/
lemma registered_load (rows : List (BranchArgs ℤ)) : (load rows).heap.Registered :=
  load_kept (fun _ o hreg => hreg.newbranch o)
    ⟨by simp [Heap.empty], by simp [Heap.empty]⟩ rows

/-- Every event keeps the objects registered. -/
lemma registered_step (c : State) (event : Event) (c' : State) (hreg : c.heap.Registered)
    (h : step c event = some c') : c'.heap.Registered :=
  step_kept (fun _ o hreg => hreg.newbranch o)
    (fun _ ref change text hreg => hreg.type ref change text) h hreg

/-- The change is recorded in the branch that `typing` gives. -/
lemma framed_oninput_iff {c c' d : State} {f : EditorView} {text : JsString} {random : ℤ}
    (htyping : typing c (.oninput text random) = some (d, f))
    (hheap : c'.heap = d.heap.type f.branch (diff f.last text) text) :
    Framed c (.oninput text random) c' ↔ ∀ ref steps, c.heap.steps ref = some steps →
      ref ≠ f.branch → c'.heap.steps ref = some steps := by
  constructor
  · intro hframed ref steps hsteps hne
    apply hframed.others ref steps hsteps
    intro d' f' h'
    rw [htyping, Option.some.injEq, Prod.mk.injEq] at h'
    exact h'.2 ▸ hne
  · refine fun hothers => ⟨fun ref steps hsteps hne => ?_, ?_⟩
    · exact hothers ref steps hsteps (hne d f htyping)
    · rintro d' f' text' random' steps ⟨⟩ h' hsteps
      rw [htyping, Option.some.injEq, Prod.mk.injEq] at h'
      obtain ⟨rfl, rfl⟩ := h'
      rw [hheap]
      exact steps_type_self hsteps _ _

/-- An event in which nothing is typed is framed when it keeps all histories. -/
lemma framed_iff_of_typing_eq_none {c c' : State} {event : Event}
    (htyping : typing c event = none) :
    Framed c event c' ↔
      ∀ ref steps, c.heap.steps ref = some steps → c'.heap.steps ref = some steps := by
  constructor
  · intro hframed ref steps hsteps
    exact hframed.others ref steps hsteps (by simp [htyping])
  · intro hkeeps
    refine ⟨fun ref steps hsteps _ => hkeeps ref steps hsteps, ?_⟩
    intro d f text random steps _ h
    exact absurd (htyping.symm.trans h) (by simp)

/-- **One event.** With registered objects of distinct ids and a fresh id for the fork, an event is
framed exactly when it is undisturbed. -/
lemma framed_iff_of_registered {c c' : State} {event : Event} (hreg : c.heap.Registered)
    (hids : DistinctIds c.heap) (hfresh : FreshFork c event) (h : step c event = some c') :
    Framed c event c' ↔ Undisturbed c event := by
  have hheap := heapStep_of_step h
  generalize hc' : c'.heap = h' at hheap
  cases hheap with
  | stay hquiet =>
    rw [framed_iff_of_typing_eq_none (by cases event <;> first | rfl | cases hquiet), hc']
    exact iff_of_true (fun _ _ hsteps => hsteps) (by cases event <;> trivial)
  | enter =>
    rw [framed_iff_of_typing_eq_none rfl, hc']
    constructor
    · intro hkeeps b hb hone past hpast
      exact eq_nil_of_steps_enter hkeeps hb hone hpast
    · intro hinherits ref steps hsteps
      exact steps_enter hinherits hsteps
  | @fork e b random hview hb =>
    rw [framed_iff_of_typing_eq_none rfl, hc']
    exact iff_of_true (fun _ _ hsteps => steps_newbranch (hfresh random rfl).2 hsteps) trivial
  | @type e text random hview hend =>
    have htyping : typing c (.oninput text random) = some (c, e) := by simp [typing, hview, hend]
    rw [framed_oninput_iff htyping hc', hc']
    constructor
    · intro hkeeps e' he' _ p hp past hpast b hb hparent
      obtain rfl : e = e' := by simpa [hview, View.editor?] using he'
      exact settledFork_of_steps_type hp (hreg.named hids hp)
        (hids.ne_zero p (List.mem_of_getElem? hp)) hpast hkeeps hb hparent
    · intro hsettled ref steps hsteps hne
      have he : e ∈ c.view.editor? := by simp [hview, View.editor?]
      exact steps_type_of_settled hreg (fun p hp _ => hsettled e he hend p hp) _ _ hne hsteps
  | @forkType e f d b text random hview hend hb hfork =>
    have htyping : typing c (.oninput text random) = some (d, f) := by
      simp [typing, hview, hend, hfork]
    have hnone : c.heap.branches random = none :=
      (hfresh random (by simp [newid, hview, hend])).2
    obtain ⟨b', hb', rfl, hf, -⟩ := branchout_eq_some hfork
    rw [framed_oninput_iff htyping hc', hc', hf]
    refine iff_of_true (fun ref steps hsteps _ => ?_) fun e' he' hend' => ?_
    · exact steps_newbranch_type hnone _ _ hsteps
    · obtain rfl : e = e' := by simpa [hview, View.editor?] using he'
      exact absurd hend' hend

/-- **Typing in one branch and the histories of the others.** Along every run from any rows, the
events taken at distinct ids, with a fresh id for the fork, are framed exactly when they are
undisturbed.

**Proof sketch.** The objects stay registered along the run (`registered_step`). An event keeps
the branch objects, adds one to them or types into one of them (`heapStep_of_step`), and a
history is recomputed along the same chain of parents afterwards. Only the slices of the branch
typed in can differ, and those of its settled forks do not (`slice_concat_eq_iff`). -/
theorem framed_iff_undisturbed (rows : List (BranchArgs ℤ)) (events : List Event) :
    Run.Guarded step (fun c event => DistinctIds c.heap → FreshFork c event →
        ∀ c' ∈ step c event, Framed c event c') (load rows) events ↔
      Run.Guarded step (fun c event => DistinctIds c.heap → FreshFork c event →
        ∀ c' ∈ step c event, Undisturbed c event) (load rows) events := by
  refine Run.guarded_iff_of_invariant (I := fun c => c.heap.Registered) registered_step ?_
    (registered_load rows) events
  intro c event hreg
  exact forall_congr' fun hids => forall_congr' fun hfresh =>
    forall₂_congr fun c' h => framed_iff_of_registered hreg hids hfresh h

/-- Two changes are typed, a branch `5` is forked off their end, a branch `6` is forked off
branch `5` after the first change, and one change is typed into branch `5`. -/
def forkInsideInherited : List Event :=
  [.login, .oninput [97] 0, .oninput [97, 98] 0, .branchbtn 5, .slide 1, .oninput [97, 99] 6,
    .graph, .vertex 1, .oninput [120] 0]

lemma forkInsideInherited_isSome : (Run.run step (load []) forkInsideInherited).isSome := by decide

/-- With the next change typed into branch `5`, its first one becomes a step of branch `6`. -/
theorem typing_changes_fork :
    ∃ c c', Run.run step (load []) forkInsideInherited = some c ∧ DistinctIds c.heap ∧
      FreshFork c (.oninput [120, 121] 0) ∧ step c (.oninput [120, 121] 0) = some c' ∧
      c.heap.steps 2 = some [⟨0, [], [97]⟩, ⟨1, [], [98]⟩, ⟨0, [], [97, 99]⟩] ∧
      c'.heap.steps 2 =
        some [⟨0, [], [97]⟩, ⟨1, [], [98]⟩, ⟨0, [], [120]⟩, ⟨0, [], [97, 99]⟩] ∧
      ¬ Framed c (.oninput [120, 121] 0) c' := by
  refine ⟨Option.get _ forkInsideInherited_isSome, (step (Option.get _ forkInsideInherited_isSome)
    (.oninput [120, 121] 0)).get (by decide), (Option.some_get _).symm, ⟨by decide, by decide⟩,
    of_decide_eq_true (p := FreshIds _ (.oninput [120, 121] 0)) (by decide),
    (Option.some_get _).symm, by decide, by decide, fun hframed => ?_⟩
  have hkept := hframed.others 2 [⟨0, [], [97]⟩, ⟨1, [], [98]⟩, ⟨0, [], [97, 99]⟩] (by decide) ?_
  · exact absurd hkept (by decide)
  · intro d f htyping
    have hbranch : some 1 = (some (d, f)).map fun p => p.2.branch := htyping ▸ rfl
    simp only [Option.map_some, Option.some.injEq] at hbranch
    omega

end SleepyText.Client
