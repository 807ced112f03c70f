import Mathlib.Tactic

set_option relaxedAutoImplicit false
set_option autoImplicit false

/-!
# Chains of links

Objects of a finite store each either stand at the end of a chain (`root`) or link to another
object of the store (`next`). A chain that ends visits no object twice, so it is no longer than
the store.

## Main definitions

* `Chain.Ends` — the chain that starts at an object ends after a number of links.

## Main results

* `Chain.Ends.unique` — the number of links is determined.
* `Chain.Ends.length_le` — it is at most the number of objects linked to.
* `Chain.exists_ends_of_acyclic` — on a finite store, chains without cycles end.
-/

namespace Chain

variable {α : Type*}

/-- The chain that starts at an object ends at a root after the given number of links. -/
inductive Ends (root : α → Prop) (next : α → Option α) : ℕ → α → Prop
  | root {a : α} : root a → Ends root next 0 a
  | link {a b : α} {n : ℕ} : ¬ root a → next a = some b → Ends root next n b →
      Ends root next (n + 1) a

variable {root : α → Prop} {next : α → Option α}

/-- The length of a chain is determined by where it starts. -/
lemma Ends.unique {n m : ℕ} {a : α} (hn : Ends root next n a) (hm : Ends root next m a) :
    n = m := by
  induction hn generalizing m with
  | root ha =>
    cases hm with
    | root => rfl
    | link hna _ _ => exact absurd ha hna
  | link hna hb _ ih =>
    cases hm with
    | root ha => exact absurd ha hna
    | link _ hb' hm =>
      obtain rfl := Option.some.inj (hb.symm.trans hb')
      rw [ih hm]

/-- The objects that a chain visits after its start: as many as it has links, no two alike, each
linked to and each nearer to the end. -/
lemma Ends.visited {n : ℕ} {a : α} (h : Ends root next n a) :
    ∃ l : List α, l.length = n ∧ l.Nodup ∧ (∀ b ∈ l, ∃ c, next c = some b) ∧
      ∀ b ∈ l, ∃ m < n, Ends root next m b := by
  induction h with
  | root => exact ⟨[], rfl, List.nodup_nil, by simp, by simp⟩
  | @link a b n hna hb hends ih =>
    obtain ⟨l, hlen, hnodup, hlinked, hnear⟩ := ih
    refine ⟨b :: l, by simp [hlen], List.nodup_cons.mpr ⟨?_, hnodup⟩, ?_, ?_⟩
    · -- `b` is `n` links from the end, everything visited later is nearer
      intro hmem
      obtain ⟨m, hlt, hm⟩ := hnear b hmem
      exact absurd (hm.unique hends) hlt.ne
    · rintro c (_ | ⟨_, hc⟩)
      · exact ⟨a, hb⟩
      · exact hlinked c hc
    · rintro c (_ | ⟨_, hc⟩)
      · exact ⟨n, Nat.lt_succ_self n, hends⟩
      · obtain ⟨m, hlt, hm⟩ := hnear c hc
        exact ⟨m, by omega, hm⟩

/-- **A chain that ends is no longer than the store** of the objects that can be linked to. -/
theorem Ends.length_le {n : ℕ} {a : α} (h : Ends root next n a) {store : List α}
    (hstore : ∀ b c, next b = some c → c ∈ store) : n ≤ store.length := by
  obtain ⟨l, rfl, hnodup, hlinked, -⟩ := h.visited
  refine (hnodup.subperm fun b hb => ?_).length_le
  obtain ⟨c, hc⟩ := hlinked b hb
  exact hstore c b hc

/-- **Chains without cycles end.** If each object of a finite store stands at the end of a chain or
links to an object of the store, and none leads back to itself, every chain ends.

**Proof sketch.** On a finite store a relation without cycles is well-founded, and the chains are
followed by induction on it. -/
theorem exists_ends_of_acyclic {store : List α}
    (hclosed : ∀ a ∈ store, ¬ root a → ∃ b ∈ store, next a = some b)
    (hacyclic : ∀ a ∈ store, ¬ Relation.TransGen (fun a b => next a = some b) a a)
    {a : α} (ha : a ∈ store) : ∃ n, Ends root next n a := by
  let r : {a // a ∈ store} → {a // a ∈ store} → Prop :=
    Relation.TransGen fun b a => next a.1 = some b.1
  have htrans : IsTrans _ r := ⟨fun _ _ _ => Relation.TransGen.trans⟩
  have hirrefl : Std.Irrefl r := by
    refine ⟨fun a hcycle => hacyclic a.1 a.2 ?_⟩
    exact (Relation.transGen_swap.mp hcycle).lift Subtype.val fun _ _ h => h
  have hfinite : Finite {a // a ∈ store} := (List.finite_toSet store).to_subtype
  have hwf : WellFounded r := Finite.wellFounded_of_trans_of_irrefl r
  have hends (a : {a // a ∈ store}) : ∃ n, Ends root next n a.1 := by
    induction a using hwf.induction with
    | _ a ih =>
      by_cases hroot : root a.1
      · exact ⟨0, .root hroot⟩
      · obtain ⟨b, hb, hnext⟩ := hclosed a.1 a.2 hroot
        obtain ⟨n, hn⟩ := ih ⟨b, hb⟩ (.single hnext)
        exact ⟨n + 1, .link hroot hnext hn⟩
  exact hends ⟨a, ha⟩

end Chain
