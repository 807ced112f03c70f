import Mathlib.Logic.Function.Basic
import SleepyText.Lib.Interleaving
import SleepyText.Lib.Run

set_option relaxedAutoImplicit false
set_option autoImplicit false

/-!
# Members that share a store

Members of one kind take turns, and each step is one of a member with the store that all of them
share. When every step appends to the store what it appends to the log of its member, the store is
an interleaving of the logs.

## Main definitions

* `Shared.step` — a step of a member.
* `Shared.Guard` — a condition on the steps of each member.
* `Shared.Appends` — a step of a member appends the same to its log and to the store.

## Main results

* `Shared.run_member`, `Shared.run_member_of_guarded` — an invariant of one member.
* `Shared.run_interleaves` — the store is an interleaving of the logs of the members.
-/

namespace Shared

variable {ι σ δ ε : Type*} [DecidableEq ι]

/-- A step of the member `e.1`. -/
def step (member : σ × δ → ε → Option (σ × δ)) (s : (ι → σ) × δ) (e : ι × ε) :
    Option ((ι → σ) × δ) :=
  (member (s.1 e.1, s.2) e.2).map fun t => (Function.update s.1 e.1 t.1, t.2)

/-- The member that takes a step meets its condition. -/
def Guard (G : ι → σ → ε → Prop) (s : (ι → σ) × δ) (e : ι × ε) : Prop := G e.1 (s.1 e.1) e.2

section Member

variable {member : σ × δ → ε → Option (σ × δ)}

/-- A step is one of the member `i`, or leaves it alone. -/
lemma step_member {i : ι} {s t : (ι → σ) × δ} {e : ι × ε}
    (hstep : Shared.step member s e = some t) :
    (e.1 = i ∧ member (s.1 i, s.2) e.2 = some (t.1 i, t.2)) ∨ t.1 i = s.1 i := by
  obtain ⟨⟨m, d⟩, hm, rfl⟩ := Option.map_eq_some_iff.mp hstep
  dsimp only
  by_cases he : i = e.1
  · subst he
    rw [Function.update_self]
    exact .inl ⟨rfl, hm⟩
  · exact .inr (Function.update_of_ne he _ _)

/-- **An invariant of one member**, whatever the others do. -/
lemma run_member {I : σ → Prop} {i : ι}
    (hkept : ∀ s d e t d', I s → member (s, d) e = some (t, d') → I t) {s t : (ι → σ) × δ}
    (hi : I (s.1 i)) {events : List (ι × ε)}
    (hrun : Run.run (Shared.step member) s events = some t) : I (t.1 i) := by
  refine Run.run_invariant (I := fun s : (ι → σ) × δ => I (s.1 i)) ?_ hi hrun
  intro s e t hi hstep
  obtain ⟨-, hm⟩ | hsame := @step_member _ _ _ _ _ _ i _ _ _ hstep
  · exact hkept _ _ _ _ _ hi hm
  · exact hsame ▸ hi

/-- An invariant of one member whose steps meet a condition. -/
lemma run_member_of_guarded {G : ι → σ → ε → Prop} {I : σ → Prop} {i : ι}
    (hkept : ∀ s d e t d', I s → G i s e → member (s, d) e = some (t, d') → I t)
    {s t : (ι → σ) × δ} (hi : I (s.1 i)) {events : List (ι × ε)}
    (hG : Run.Guarded (Shared.step member) (Guard G) s events)
    (hrun : Run.run (Shared.step member) s events = some t) : I (t.1 i) := by
  refine Run.run_invariant_of_guarded (I := fun s : (ι → σ) × δ => I (s.1 i)) ?_ hi hG hrun
  intro s e t hi hG hstep
  obtain ⟨rfl, hm⟩ | hsame := @step_member _ _ _ _ _ _ i _ _ _ hstep
  · exact hkept _ _ _ _ _ hi hG hm
  · exact hsame ▸ hi

/-- A run of one member, while the others wait. -/
lemma run_of_member {i : ι} {s : (ι → σ) × δ} {t : σ × δ} {events : List ε}
    (hrun : Run.run member (s.1 i, s.2) events = some t) :
    Run.run (Shared.step member) s (events.map fun e => (i, e)) =
      some (Function.update s.1 i t.1, t.2) := by
  induction events generalizing s with
  | nil =>
    obtain rfl : (s.1 i, s.2) = t := Option.some.inj hrun
    simp
  | cons e events ih =>
    obtain ⟨u, hu, hrest⟩ := Run.run_cons_eq_some.mp hrun
    have hrest := @ih (Function.update s.1 i u.1, u.2) (by simpa using hrest)
    rw [List.map_cons, Run.run_cons_eq_some]
    refine ⟨_, by rw [Shared.step, hu, Option.map_some], ?_⟩
    simpa using hrest

/-- Its steps meet the condition of the member. -/
lemma guarded_of_member {G : ι → σ → ε → Prop} {i : ι} {s : (ι → σ) × δ} {events : List ε}
    (hG : Run.Guarded member (fun s e => G i s.1 e) (s.1 i, s.2) events) :
    Run.Guarded (Shared.step member) (Guard G) s (events.map fun e => (i, e)) := by
  induction events generalizing s with
  | nil => trivial
  | cons e events ih =>
    refine ⟨hG.1, fun t ht => ih ?_⟩
    obtain ⟨u, hu, rfl⟩ := Option.map_eq_some_iff.mp ht
    simpa using hG.2 u hu

end Member

section Interleaves

variable {α β : Type*} {member : σ × δ → ε → Option (σ × δ)} (I : σ → Prop) (log : σ → List α)
  (read : δ → List β) (bytes : α → List β)

/-- A step of a member with `I` appends the same items to its log and to the store, and keeps
`I`. -/
def Appends (member : σ × δ → ε → Option (σ × δ)) : Prop :=
  ∀ s d e t d', I s → member (s, d) e = some (t, d') → I t ∧
    ∃ items, log t = log s ++ items ∧ read d' = read d ++ items.flatMap bytes

/-- What is in the store, with the member that has appended it. -/
structure Interleaved (start : List β) (s : (ι → σ) × δ) (whole : List (ι × α)) : Prop where
  members : ∀ i, I (s.1 i)
  parts : ∀ i, Interleaving.part whole i = log (s.1 i)
  store : read s.2 = start ++ (Interleaving.items whole).flatMap bytes

variable {I log read bytes}

/-- **A step** of a member. -/
lemma Interleaved.step (happends : Appends I log read bytes member) {start : List β}
    {s t : (ι → σ) × δ} {whole : List (ι × α)} (h : Interleaved I log read bytes start s whole)
    {e : ι × ε} (hstep : Shared.step member s e = some t) :
    ∃ items, Interleaved I log read bytes start t (whole ++ Interleaving.tag e.1 items) := by
  obtain ⟨⟨m, d⟩, hm, rfl⟩ := Option.map_eq_some_iff.mp hstep
  obtain ⟨hkept, items, hlog, hread⟩ := happends _ _ _ _ _ (h.members e.1) hm
  refine ⟨items, fun i => ?_, fun i => ?_, ?_⟩ <;> dsimp only
  · by_cases hi : i = e.1
    · subst hi
      rwa [Function.update_self]
    · rw [Function.update_of_ne hi]
      exact h.members i
  · rw [Interleaving.part_append, h.parts]
    by_cases hi : i = e.1
    · subst hi
      rw [Function.update_self, Interleaving.part_tag_self, hlog]
    · rw [Function.update_of_ne hi, Interleaving.part_tag_of_ne (Ne.symm hi), List.append_nil]
  · rw [Interleaving.items, List.map_append, Interleaving.items_tag, List.flatMap_append,
      ← List.append_assoc, ← h.store, hread]

/-- **The store is an interleaving** of what the members have appended, in every run. -/
theorem run_interleaves (happends : Appends I log read bytes member) {s t : (ι → σ) × δ}
    (hmembers : ∀ i, I (s.1 i)) (hlog : ∀ i, log (s.1 i) = []) {events : List (ι × ε)}
    (hrun : Run.run (Shared.step member) s events = some t) :
    ∃ whole, Interleaved I log read bytes (read s.2) t whole := by
  refine Run.run_invariant (I := fun t => ∃ whole, Interleaved I log read bytes (read s.2) t whole)
    ?_ ?_ hrun
  · rintro t e u ⟨whole, h⟩ hstep
    obtain ⟨items, h'⟩ := h.step happends hstep
    exact ⟨_, h'⟩
  · refine ⟨[], hmembers, fun i => ?_, ?_⟩
    · rw [hlog, Interleaving.part_nil]
    · simp

end Interleaves

end Shared
