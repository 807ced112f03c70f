import SleepyText.Lib.Chain
import SleepyText.Client.History

set_option relaxedAutoImplicit false
set_option autoImplicit false

/-!
# Branches

The branch objects of the client (`branch.js`). A branch stores only the changes typed into it;
its history is put together from the stored changes of its ancestors, cut at the points where
the branches were forked off.

## Main definitions

* `Branch`, `Heap` — the branch objects, and the maps `branches` and `docs` of references to them.
* `Heap.newbranch` — the constructor `new branch(o)`.
* `Heap.getprecedinghistory`, `Heap.gethistory` — `branch.prototype`.
* `Heap.Forest` — every chain of parents ends at parent `0`.

## Main results

* `Heap.Rooted.getprecedinghistory_isSome`, `Heap.Rooted.of_getprecedinghistory` — the recursion
  returns exactly on branches whose chain of parents ends.
* `Heap.getprecedinghistory_eq_take_iff` — a fork inherits the steps before its fork point
  exactly when that point is not inside what the parent itself inherited.
-/

namespace SleepyText.Client

/-- What `new branch` is given, over the numbers `ν`. -/
structure BranchArgs (ν : Type) where
  id : ν
  parent : ν
  pos : ν
  document : ν
  deriving DecidableEq, Repr

/-- A branch object: its arguments, the changes typed into it and the text it shows. -/
structure Branch extends BranchArgs ℤ where
  data : List Change
  render : JsString
  deriving DecidableEq, Repr

/-- The branch objects in the order of their creation, and the global maps. A reference is an
index into `objects`. -/
structure Heap where
  objects : List Branch
  branches : ℤ → Option ℕ
  docs : ℤ → List ℕ

namespace Heap

/-- The client before any branch object exists. -/
def empty : Heap := ⟨[], fun _ => none, fun _ => []⟩

/-- `new branch(o)`: the object, registered in `branches` and `docs`. -/
def newbranch (h : Heap) (o : BranchArgs ℤ) : Heap where
  objects := h.objects ++ [{ o with data := [], render := [] }]
  branches := Function.update h.branches o.id (some h.objects.length)
  docs := Function.update h.docs o.document (h.docs o.document ++ [h.objects.length])

/-- `branches[id]`. -/
def lookup (h : Heap) (id : ℤ) : Option Branch :=
  (h.branches id).bind fun ref => h.objects[ref]?

/-- `getprecedinghistory` with at most `fuel` nested calls: `none` stands for a call on a missing
branch and for a recursion that goes deeper. -/
def precedingFuel (h : Heap) : ℕ → Branch → Option (List Change)
  | 0, b => if b.parent = 0 then some [] else none
  | fuel + 1, b =>
    if b.parent = 0 then some []
    else do
      let parent ← h.lookup b.parent
      let result ← precedingFuel h fuel parent
      some (result ++ slice parent.data 0 (b.pos - result.length))

/-- `b.getprecedinghistory()`. A recursion that goes through more branches than there are meets
one of them twice and does not end. -/
def getprecedinghistory (h : Heap) (b : Branch) : Option (List Change) :=
  h.precedingFuel h.objects.length b

/-- `b.gethistory()`. -/
def gethistory (h : Heap) (b : Branch) : Option History :=
  (h.getprecedinghistory b).map fun past => History.new (past ++ b.data)

/-- The chain of parents of `b` ends at parent `0` after `n` links. -/
abbrev RootedIn (h : Heap) (n : ℕ) (b : Branch) : Prop :=
  Chain.Ends (fun b : Branch => b.parent = 0) (fun b => h.lookup b.parent) n b

/-- The chain of parents of `b` ends at parent `0`. -/
def Rooted (h : Heap) (b : Branch) : Prop := ∃ n, h.RootedIn n b

/-- Every chain of parents ends at parent `0`. -/
def Forest (h : Heap) : Prop := ∀ b ∈ h.objects, h.Rooted b

variable {h : Heap}

lemma mem_objects_of_lookup {id : ℤ} {b : Branch} (hb : h.lookup id = some b) :
    b ∈ h.objects := by
  obtain ⟨ref, -, href⟩ := Option.bind_eq_some_iff.mp hb
  exact List.mem_of_getElem? href

lemma Rooted.of_parent_eq_zero {b : Branch} (hb : b.parent = 0) : h.Rooted b :=
  ⟨0, .root hb⟩

lemma Rooted.of_parent {b p : Branch} (hb : b.parent ≠ 0) (hp : h.lookup b.parent = some p)
    (hrooted : h.Rooted p) : h.Rooted b := by
  obtain ⟨n, hn⟩ := hrooted
  exact ⟨n + 1, .link hb hp hn⟩

/-- A rooted branch is a root, or has a parent object that is rooted. -/
lemma Rooted.parent {b : Branch} (hrooted : h.Rooted b) (hb : b.parent ≠ 0) :
    ∃ p, h.lookup b.parent = some p ∧ h.Rooted p := by
  obtain ⟨n, hn⟩ := hrooted
  cases hn with
  | root hroot => exact absurd hroot hb
  | link _ hp hp' => exact ⟨_, hp, _, hp'⟩

/-- A chain of parents is no longer than the number of branch objects. -/
lemma RootedIn.le_length {n : ℕ} {b : Branch} (hn : h.RootedIn n b) : n ≤ h.objects.length :=
  hn.length_le fun _ _ hc => mem_objects_of_lookup hc

/-- One call of the recursion on a branch with a parent object. -/
lemma precedingFuel_link {b p : Branch} (hb : b.parent ≠ 0) (hp : h.lookup b.parent = some p)
    (fuel : ℕ) : h.precedingFuel (fuel + 1) b = (h.precedingFuel fuel p).map fun result =>
      result ++ slice p.data 0 (b.pos - result.length) := by
  rw [precedingFuel, if_neg hb, hp, Option.map_eq_bind]
  rfl

/-- What `getprecedinghistory` gathers along a chain of `n` links does not depend on the fuel, as
long as it covers the chain. -/
lemma RootedIn.precedingFuel_eq {n : ℕ} {b : Branch} (hn : h.RootedIn n b) {fuel : ℕ}
    (hfuel : n ≤ fuel) : h.precedingFuel fuel b = h.precedingFuel n b := by
  induction hn generalizing fuel with
  | @root b hb => cases fuel <;> simp [precedingFuel, hb]
  | @link b p n hb hp _ ih =>
    obtain ⟨fuel, rfl⟩ : ∃ m, fuel = m + 1 := ⟨fuel - 1, by omega⟩
    rw [precedingFuel_link hb hp, precedingFuel_link hb hp, ih (by omega)]

@[simp] lemma getprecedinghistory_of_root {b : Branch} (hb : b.parent = 0) :
    h.getprecedinghistory b = some [] := by
  cases hlen : h.objects.length <;> simp [getprecedinghistory, precedingFuel, hlen, hb]

/-- **One call of `getprecedinghistory`** on a branch with a rooted parent. -/
theorem getprecedinghistory_of_parent {b p : Branch} (hb : b.parent ≠ 0)
    (hp : h.lookup b.parent = some p) (hrooted : h.Rooted p) :
    h.getprecedinghistory b = (h.getprecedinghistory p).map fun result =>
      result ++ slice p.data 0 (b.pos - result.length) := by
  obtain ⟨n, hn⟩ := hrooted
  have hlink : h.RootedIn (n + 1) b := .link hb hp hn
  rw [getprecedinghistory, getprecedinghistory, hlink.precedingFuel_eq hlink.le_length,
    hn.precedingFuel_eq hn.le_length, precedingFuel_link hb hp]

/-- **On a rooted branch the recursion returns.** -/
theorem Rooted.getprecedinghistory_isSome {b : Branch} (hrooted : h.Rooted b) :
    ∃ past, h.getprecedinghistory b = some past := by
  obtain ⟨n, hn⟩ := hrooted
  induction hn with
  | root hb => exact ⟨[], getprecedinghistory_of_root hb⟩
  | link hb hp hp' ih =>
    obtain ⟨past, hpast⟩ := ih
    rw [getprecedinghistory_of_parent hb hp ⟨_, hp'⟩, hpast]
    exact ⟨_, rfl⟩

/-- The recursion goes through at most as many branches as its fuel. -/
lemma Rooted.of_precedingFuel {fuel : ℕ} {b : Branch} {past : List Change}
    (h' : h.precedingFuel fuel b = some past) : h.Rooted b := by
  induction fuel generalizing b past with
  | zero =>
    by_cases hb : b.parent = 0
    · exact .of_parent_eq_zero hb
    · simp [precedingFuel, hb] at h'
  | succ fuel ih =>
    by_cases hb : b.parent = 0
    · exact .of_parent_eq_zero hb
    · rw [precedingFuel, if_neg hb] at h'
      simp only [Option.bind_eq_bind, Option.bind_eq_some_iff, Option.some.injEq] at h'
      obtain ⟨p, hp, result, hresult, -⟩ := h'
      exact .of_parent hb hp (ih hresult)

/-- **The recursion returns on rooted branches only.** -/
theorem Rooted.of_getprecedinghistory {b : Branch} {past : List Change}
    (h' : h.getprecedinghistory b = some past) : h.Rooted b :=
  .of_precedingFuel h'

/-- A fork point at or after the end of what the parent inherited cuts the parent's own changes
at the right place. -/
lemma append_slice_eq_take {inherited data : List Change} {pos : ℤ}
    (hpos : (inherited.length : ℤ) ≤ pos) :
    inherited ++ slice data 0 (pos - inherited.length) = (inherited ++ data).take pos.toNat := by
  rw [slice_zero_of_nonneg data (by omega), List.take_append,
    List.take_of_length_le (by omega : inherited.length ≤ pos.toNat)]
  congr 2
  omega

/-- **The fork law.** In a forest, a branch forked off `p` at a point of `p`'s history inherits
exactly the steps before that point if and only if the point is not inside the history that `p`
itself inherited.

**Proof sketch.** `getprecedinghistory` returns all that `p` inherited followed by a slice of
`p.data`. When the fork point is behind the inherited part the slice is a prefix of `p.data` of
the missing length. When it is inside, the result is at least as long as the inherited part, so
longer than the fork point. -/
theorem getprecedinghistory_eq_take_iff (hforest : h.Forest) {b p : Branch} (hb : b.parent ≠ 0)
    (hp : h.lookup b.parent = some p) (hpos : 0 ≤ b.pos)
    (hle : ∀ history, h.gethistory p = some history → b.pos ≤ history.steps.length) :
    ∃ inherited history fork, h.getprecedinghistory p = some inherited ∧
      h.gethistory p = some history ∧ h.getprecedinghistory b = some fork ∧
      ((fork = history.steps.take b.pos.toNat ∧ (fork.length : ℤ) = b.pos) ↔
        (inherited.length : ℤ) ≤ b.pos) := by
  have hrooted : h.Rooted p := hforest p (mem_objects_of_lookup hp)
  obtain ⟨inherited, hinherited⟩ := hrooted.getprecedinghistory_isSome
  have hhistory : h.gethistory p = some (History.new (inherited ++ p.data)) := by
    rw [gethistory, hinherited, Option.map_some]
  have hfork := getprecedinghistory_of_parent hb hp hrooted
  rw [hinherited, Option.map_some] at hfork
  refine ⟨inherited, _, _, hinherited, hhistory, hfork, ?_⟩
  have hlen := hle _ hhistory
  simp only [History.new] at hlen ⊢
  constructor
  · rintro ⟨-, hfork⟩
    rw [List.length_append] at hfork
    omega
  · intro hbehind
    refine ⟨append_slice_eq_take hbehind, ?_⟩
    rw [append_slice_eq_take hbehind, List.length_take]
    omega

/-- Four branches of one document: `1` has two changes, `2` is forked off its end, and `3` and `4`
are forked off `2`, at a point that `2` inherited and at its end. -/
def nestedForks : Heap where
  objects := [⟨⟨1, 0, 0, 1⟩, [⟨0, [], [97]⟩, ⟨1, [], [98]⟩], [97, 98]⟩, ⟨⟨2, 1, 2, 1⟩, [], []⟩,
    ⟨⟨3, 2, 1, 1⟩, [], []⟩, ⟨⟨4, 2, 2, 1⟩, [], []⟩]
  branches id := if 1 ≤ id ∧ id ≤ 4 then some (id - 1).toNat else none
  docs doc := if doc = 1 then [0, 1, 2, 3] else []

lemma nestedForks_forest : nestedForks.Forest := by
  have h₁ : nestedForks.Rooted ⟨⟨1, 0, 0, 1⟩, [⟨0, [], [97]⟩, ⟨1, [], [98]⟩], [97, 98]⟩ :=
    .of_parent_eq_zero rfl
  have h₂ : nestedForks.Rooted ⟨⟨2, 1, 2, 1⟩, [], []⟩ := .of_parent (by decide) rfl h₁
  intro b hb
  simp only [nestedForks, List.mem_cons, List.not_mem_nil, or_false] at hb
  rcases hb with rfl | rfl | rfl | rfl
  · exact h₁
  · exact h₂
  · exact .of_parent (by decide) rfl h₂
  · exact .of_parent (by decide) rfl h₂

/-- Branch `3` is forked off `2` at position `1` and inherits two steps. -/
theorem fork_inside_inherited : nestedForks.Forest ∧ ∃ b p history fork,
    b ∈ nestedForks.objects ∧ b.parent ≠ 0 ∧ nestedForks.lookup b.parent = some p ∧
      nestedForks.gethistory p = some history ∧ 0 ≤ b.pos ∧ b.pos ≤ history.steps.length ∧
      nestedForks.getprecedinghistory b = some fork ∧
      fork ≠ history.steps.take b.pos.toNat ∧ (fork.length : ℤ) ≠ b.pos :=
  ⟨nestedForks_forest, ⟨⟨3, 2, 1, 1⟩, [], []⟩, ⟨⟨2, 1, 2, 1⟩, [], []⟩,
    History.new [⟨0, [], [97]⟩, ⟨1, [], [98]⟩], [⟨0, [], [97]⟩, ⟨1, [], [98]⟩],
    by decide, by decide, rfl, by decide, by decide, by decide, by decide, by decide, by decide⟩

/-- The fork law for branch `4`, forked off `2` at its end. -/
theorem fork_behind_inherited :
    ∃ inherited history fork,
      nestedForks.getprecedinghistory ⟨⟨2, 1, 2, 1⟩, [], []⟩ = some inherited ∧
      nestedForks.gethistory ⟨⟨2, 1, 2, 1⟩, [], []⟩ = some history ∧
      nestedForks.getprecedinghistory ⟨⟨4, 2, 2, 1⟩, [], []⟩ = some fork ∧
      ((fork = history.steps.take (2 : ℤ).toNat ∧ (fork.length : ℤ) = 2) ↔
        (inherited.length : ℤ) ≤ 2) :=
  getprecedinghistory_eq_take_iff (b := ⟨⟨4, 2, 2, 1⟩, [], []⟩) nestedForks_forest (by decide) rfl
    (by decide) (by
      intro history hhistory
      obtain rfl : History.new [⟨0, [], [97]⟩, ⟨1, [], [98]⟩] = history :=
        Option.some.inj hhistory
      decide)

end Heap

end SleepyText.Client
