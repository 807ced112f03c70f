import Mathlib

set_option relaxedAutoImplicit false
set_option autoImplicit false

/-!
# Footprints

What a computation does to a store, here a function from addresses to values, is bounded by the
set of addresses that it may change.

## Main definitions

* `Footprint.ChangedIn` — two stores are the same outside a set of addresses.

## Main results

* `Footprint.ChangedIn.trans`, `Footprint.ChangedIn.mono` — footprints add up.
* `Footprint.ChangedIn.eqOn` — the addresses outside of the footprint.
-/

namespace Footprint

variable {α β : Type*}

/-- The stores `f` and `g` differ at most at the addresses in `S`. -/
def ChangedIn (S : Set α) (f g : α → β) : Prop := Set.EqOn f g Sᶜ

variable {S T : Set α} {f g h : α → β}

/-- No change. -/
lemma ChangedIn.refl (S : Set α) (f : α → β) : ChangedIn S f f := Set.eqOn_refl f Sᶜ

/-- One change after another, both with the same footprint. -/
lemma ChangedIn.trans (hfg : ChangedIn S f g) (hgh : ChangedIn S g h) : ChangedIn S f h :=
  Set.EqOn.trans hfg hgh

/-- A larger footprint. -/
lemma ChangedIn.mono (hST : S ⊆ T) (hfg : ChangedIn S f g) : ChangedIn T f g :=
  Set.EqOn.mono (Set.compl_subset_compl.mpr hST) hfg

/-- **The frame**: what is outside of the footprint stays. -/
lemma ChangedIn.eqOn (hfg : ChangedIn S f g) (hdisjoint : Disjoint T S) : Set.EqOn f g T :=
  Set.EqOn.mono (Set.disjoint_left.mp hdisjoint) hfg

/-- Nothing outside differs. -/
lemma changedIn_of_forall (hfg : ∀ x, x ∉ S → f x = g x) : ChangedIn S f g := hfg

end Footprint
