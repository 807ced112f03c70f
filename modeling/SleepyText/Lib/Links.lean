import Mathlib.Combinatorics.SimpleGraph.Acyclic
import Mathlib.Tactic

set_option relaxedAutoImplicit false
set_option autoImplicit false

/-!
# Graphs of links

Objects that each link to at most one other object (`next`) make an undirected graph. When links
lead downwards, the graph is a forest, and each tree of it has one root.

## Main definitions

* `Links.graph` — the graph of the links.
* `Links.Descends` — links lead downwards.

## Main results

* `Links.isAcyclic_graph` — the graph has no cycles.
* `Links.existsUnique_root` — each object is connected to exactly one that links to nothing.
-/

namespace Links

variable {α : Type*} {next : α → Option α} {rank : α → ℕ}

/-- The graph of the links, where an edge can be followed either way. -/
def graph (next : α → Option α) : SimpleGraph α :=
  SimpleGraph.fromRel fun a b => next a = some b

/-- Links lead from higher ranks to lower ones. -/
def Descends (next : α → Option α) (rank : α → ℕ) : Prop :=
  ∀ a b, next a = some b → rank b < rank a

/-- Following links from `a` leads to `b`. -/
abbrev Leads (next : α → Option α) : α → α → Prop :=
  Relation.ReflTransGen fun a b => next a = some b

/-- Neighbours are linked one way or the other. -/
lemma graph_adj_iff (hdesc : Descends next rank) {a b : α} :
    (graph next).Adj a b ↔ next a = some b ∨ next b = some a := by
  rw [graph, SimpleGraph.fromRel_adj, and_iff_right_iff_imp]
  rintro (h | h) rfl
  · exact lt_irrefl _ (hdesc _ _ h)
  · exact lt_irrefl _ (hdesc _ _ h)

/-- **The graph of descending links has no cycles.**

**Proof sketch.** The two neighbours that a cycle has at an object of the greatest rank are not
above it, so the object links to both, and they are the same. -/
theorem isAcyclic_graph (hdesc : Descends next rank) : (graph next).IsAcyclic := by
  classical
  intro v c hc
  obtain ⟨u, hu, hmax⟩ := Set.exists_max_image {a | a ∈ c.support} rank
    (List.finite_toSet c.support) ⟨v, c.start_mem_support⟩
  have hcycle := hc.rotate hu
  have hlinks (w : α) (hw : w ∈ (c.rotate u hu).support) (hadj : (graph next).Adj u w) :
      next u = some w := by
    have hle := hmax w (by simpa using hw)
    rcases (graph_adj_iff hdesc).mp hadj with h | h
    · exact h
    · exact absurd (hdesc _ _ h) (by omega)
  have hsnd := hlinks _ ((c.rotate u hu).getVert_mem_support 1)
    ((c.rotate u hu).adj_snd hcycle.not_nil)
  have hlast := hlinks _ ((c.rotate u hu).getVert_mem_support _)
    ((c.rotate u hu).adj_penultimate hcycle.not_nil).symm
  rw [hsnd, Option.some.injEq] at hlast
  exact hcycle.snd_ne_penultimate hlast

/-- Following links stays connected. -/
lemma Leads.reachable (hdesc : Descends next rank) {a b : α} (h : Leads next a b) :
    (graph next).Reachable a b := by
  induction h with
  | refl => exact SimpleGraph.Reachable.refl _
  | tail _ hlink ih => exact ih.trans ((graph_adj_iff hdesc).mpr (.inl hlink)).reachable

/-- Links lead to an object that links to nothing. -/
lemma exists_leads (hdesc : Descends next rank) (a : α) : ∃ r, Leads next a r ∧ next r = none := by
  induction hn : rank a using Nat.strong_induction_on generalizing a with
  | _ n ih =>
    cases hnext : next a with
    | none => exact ⟨a, .refl, hnext⟩
    | some b =>
      obtain ⟨r, hr, hroot⟩ := ih (rank b) (hn ▸ hdesc a b hnext) b rfl
      exact ⟨r, .head hnext hr, hroot⟩

/-- All that is connected to a root leads to it. -/
lemma leads_of_reachable (hdesc : Descends next rank) {a r : α} (hroot : next r = none)
    (h : (graph next).Reachable a r) : Leads next a r := by
  obtain ⟨p⟩ := h
  induction p with
  | nil => exact .refl
  | @cons a b r hadj p ih =>
    have hb := ih hroot
    rcases (graph_adj_iff hdesc).mp hadj with h | h
    · exact .head h hb
    · -- the chain from `b` starts with the link back to `a`
      rcases Relation.ReflTransGen.cases_head hb with rfl | ⟨c, hc, hrest⟩
      · rw [hroot] at h
        cases h
      · rw [h, Option.some.injEq] at hc
        rwa [hc]

/-- **Each tree has one root**: every object is connected to exactly one that links to nothing. -/
theorem existsUnique_root (hdesc : Descends next rank) (a : α) :
    ∃! r, (graph next).Reachable a r ∧ next r = none := by
  obtain ⟨r, hr, hroot⟩ := exists_leads hdesc a
  refine ⟨r, ⟨hr.reachable hdesc, hroot⟩, ?_⟩
  rintro r' ⟨hreach, hroot'⟩
  have hleads := leads_of_reachable hdesc hroot
    (hreach.symm.trans (hr.reachable hdesc))
  rcases Relation.ReflTransGen.cases_head hleads with h | ⟨c, hc, -⟩
  · exact h
  · rw [hroot'] at hc
    cases hc

end Links
