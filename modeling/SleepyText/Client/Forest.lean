import SleepyText.Client.Frame
import SleepyText.Client.Graph

set_option relaxedAutoImplicit false
set_option autoImplicit false

/-!
# The branches of a session form a forest

The ids of branch objects come from the rows of the server, from the constant `1` of each entry
into the editor without a branch, and from random draws. The branch objects stay a forest as long
as each id is fresh and not `0`, and no longer.

## Main definitions

* `ParentClosed` — rows of distinct ids whose parents are rows of the same document.
* `Heap.ForestOk` — the branch objects are a forest, of which all histories and graphs can be made.

## Main results

* `forestOk_iff_freshIds` — in a run from parent-closed rows all states are forests exactly when
  every new id is fresh.
* `handlers_return` — in a forest no handler fails.
* `random_zero_breaks_forest` — the branch button drawing the id `0`.
-/

namespace SleepyText.Client

open Heap

/-- `p` is the row of the parent of `r`. -/
def ParentRow (rows : List (BranchArgs ℤ)) (r p : BranchArgs ℤ) : Prop :=
  p ∈ rows ∧ p.id = r.parent

/-- The rows have distinct ids that are not `0`, their parents are `0` or rows of the same
document, and no row is an ancestor of itself. -/
structure ParentClosed (rows : List (BranchArgs ℤ)) : Prop where
  nodup : (rows.map BranchArgs.id).Nodup
  ne_zero : ∀ r ∈ rows, r.id ≠ 0
  closed : ∀ r ∈ rows, r.parent ≠ 0 → ∃ p, ParentRow rows r p ∧ p.document = r.document
  acyclic : ∀ r ∈ rows, ¬ Relation.TransGen (ParentRow rows) r r

namespace Heap

variable {h : Heap}

/-- The branch objects are a forest: those in `docs` have distinct ids, no id is `0`, parents are
registered in the same document, every chain of parents ends at `0`, every history can be put
together and the graph of every document can be drawn. -/
structure ForestOk (h : Heap) : Prop where
  distinct : ∀ doc doc' i j b b', i ∈ h.docs doc → j ∈ h.docs doc' →
    h.objects[i]? = some b → h.objects[j]? = some b' → b.id = b'.id → i = j
  ne_zero : ∀ b ∈ h.objects, b.id ≠ 0
  parent : ∀ b ∈ h.objects, b.parent ≠ 0 →
    ∃ p, h.lookup b.parent = some p ∧ p.document = b.document
  rooted : ∀ b ∈ h.objects, h.Rooted b
  history : ∀ b ∈ h.objects, ∃ history, h.gethistory b = some history
  graph : ∀ lastbranch doc, ∃ g, h.entergraphview lastbranch doc = some g

/-! ## The documents -/

/-- `docs` lists the references of each document. -/
def Listed (h : Heap) : Prop :=
  ∀ doc ref, ref ∈ h.docs doc ↔ ∃ b, h.objects[ref]? = some b ∧ b.document = doc

lemma Listed.newbranch (hlisted : h.Listed) (o : BranchArgs ℤ) : (h.newbranch o).Listed := by
  intro doc ref
  have hmem : ref ∈ (h.newbranch o).docs doc ↔
      ref ∈ h.docs doc ∨ doc = o.document ∧ ref = h.objects.length := by
    by_cases hdoc : doc = o.document
    · simp [Heap.newbranch, hdoc]
    · simp [Heap.newbranch, hdoc]
  rw [hmem, hlisted]
  constructor
  · rintro (⟨b, hb, hdoc⟩ | ⟨rfl, rfl⟩)
    · exact ⟨b, getElem?_newbranch_old hb, hdoc⟩
    · exact ⟨fresh o, by simp, rfl⟩
  · rintro ⟨b, hb, hdoc⟩
    rcases getElem?_newbranch hb with hb | ⟨rfl, rfl⟩
    · exact .inl ⟨b, hb, hdoc⟩
    · exact .inr ⟨hdoc.symm, rfl⟩

lemma Listed.type (hlisted : h.Listed) (ref : ℕ) (change : Change) (text : JsString) :
    (h.type ref change text).Listed := by
  intro doc k
  rw [show (h.type ref change text).docs = h.docs from rfl, hlisted]
  constructor
  · rintro ⟨b, hb, hdoc⟩
    obtain ⟨b', hb', hargs, -⟩ := getElem?_type_grows hb
    exact ⟨b', hb', by rw [hargs, hdoc]⟩
  · rintro ⟨b', hb', hdoc⟩
    obtain ⟨b, hb, hargs, -⟩ := getElem?_of_type hb'
    exact ⟨b, hb, by rw [← hargs, hdoc]⟩

/-- The branches drawn are those of the document. -/
lemma Listed.mem_drawn (hlisted : h.Listed) {doc : ℤ} {ref : ℕ} {b : Branch} :
    (ref, b) ∈ h.drawn doc ↔ h.objects[ref]? = some b ∧ b.document = doc := by
  simp only [drawn, List.mem_filterMap, Option.map_eq_some_iff, Prod.mk.injEq, hlisted doc]
  constructor
  · rintro ⟨_, ⟨b', hb', hdoc⟩, _, hb, rfl, rfl⟩
    obtain rfl := Option.some.inj (hb.symm.trans hb')
    exact ⟨hb, hdoc⟩
  · rintro ⟨hb, hdoc⟩
    exact ⟨ref, ⟨b, hb, hdoc⟩, b, hb, rfl, rfl⟩

/-! ## The invariant -/

/-- The invariant of a forest of branch objects. -/
structure ForestInv (h : Heap) : Prop where
  registered : h.Registered
  listed : h.Listed
  ids : DistinctIds h
  parent : ∀ b ∈ h.objects, b.parent ≠ 0 →
    ∃ p, h.lookup b.parent = some p ∧ p.document = b.document
  forest : h.Forest

lemma Registered.id_of_lookup (hreg : h.Registered) {id : ℤ} {p : Branch}
    (hp : h.lookup id = some p) : p.id = id := by
  obtain ⟨ref, href, hobj⟩ := Option.bind_eq_some_iff.mp hp
  obtain ⟨b, hb, hid⟩ := hreg.registered id ref href
  obtain rfl := Option.some.inj (hobj.symm.trans hb)
  exact hid

lemma ForestInv.forestOk (hinv : h.ForestInv) : h.ForestOk := by
  refine ⟨?_, hinv.ids.ne_zero, hinv.parent, hinv.forest, fun b hb => ?_, fun lastbranch doc => ?_⟩
  · intro doc doc' i j b b' _ _ hb hb' hid
    have hi := hinv.registered.named hinv.ids hb
    have hj := hinv.registered.named hinv.ids hb'
    rw [hid, hj, Option.some.injEq] at hi
    exact hi.symm
  · obtain ⟨past, hpast⟩ := (hinv.forest b hb).getprecedinghistory_isSome
    exact ⟨_, by rw [gethistory, hpast, Option.map_some]⟩
  · rw [← Option.isSome_iff_exists, entergraphview_isSome_iff]
    rintro ⟨ref, b⟩ hb hne
    obtain ⟨hobj, hdoc⟩ := hinv.listed.mem_drawn.mp hb
    obtain ⟨p, hp, hsame⟩ := hinv.parent b (List.mem_of_getElem? hobj) hne
    obtain ⟨k, hk⟩ := List.getElem?_of_mem (mem_objects_of_lookup hp)
    exact ⟨(k, p), hinv.listed.mem_drawn.mpr ⟨hk, hsame.trans hdoc⟩,
      hinv.registered.id_of_lookup hp⟩

/-- **A fresh branch** over a branch of its document, or over none, keeps the forest. -/
lemma ForestInv.newbranch (hinv : h.ForestInv) {o : BranchArgs ℤ} (hne : o.id ≠ 0)
    (hfresh : h.branches o.id = none)
    (hparent : o.parent ≠ 0 → ∃ p, h.lookup o.parent = some p ∧ p.document = o.document) :
    (h.newbranch o).ForestInv := by
  have hgrows := grows_newbranch (o := o) hfresh
  refine ⟨hinv.registered.newbranch o, hinv.listed.newbranch o, ⟨?_, ?_⟩, ?_, ?_⟩
  · rw [objects_newbranch, List.map_append, List.nodup_append]
    refine ⟨hinv.ids.nodup, by simp, ?_⟩
    intro id hid id' hid' heq
    obtain ⟨b, hb, rfl⟩ := List.mem_map.mp hid
    obtain ⟨ref, href⟩ := hinv.registered.covered b hb
    obtain rfl : id' = o.id := by simpa using hid'
    rw [heq, hfresh] at href
    exact absurd href (by simp)
  · intro b hb
    rcases mem_newbranch.mp hb with hb | rfl
    · exact hinv.ids.ne_zero b hb
    · exact hne
  · intro b hb hlinked
    have hold : ∃ p, h.lookup b.parent = some p ∧ p.document = b.document := by
      rcases mem_newbranch.mp hb with hb | rfl
      · exact hinv.parent b hb hlinked
      · exact hparent hlinked
    obtain ⟨p, hp, hdoc⟩ := hold
    exact ⟨p, lookup_newbranch_of_lookup hfresh hp, hdoc⟩
  · intro b hb
    rcases mem_newbranch.mp hb with hb | rfl
    · exact hgrows.rooted (hinv.forest b hb) rfl
    · by_cases hroot : o.parent = 0
      · exact .of_parent_eq_zero hroot
      · obtain ⟨p, hp, -⟩ := hparent hroot
        have hrooted := hgrows.rooted (hinv.forest p (mem_objects_of_lookup hp)) rfl
        exact .of_parent hroot (lookup_newbranch_of_lookup hfresh hp) hrooted

/-- Typing keeps the forest. -/
lemma ForestInv.type (hinv : h.ForestInv) (ref : ℕ) (change : Change) (text : JsString) :
    (h.type ref change text).ForestInv := by
  have hgrows : Grows h (h.type ref change text) := grows_type
  refine ⟨hinv.registered.type _ _ _, hinv.listed.type _ _ _, ⟨?_, ?_⟩, ?_, ?_⟩
  · have hids : (h.type ref change text).objects.map (fun b => b.id) =
        h.objects.map fun b => b.id := by
      refine List.ext_getElem? fun k => ?_
      rw [List.getElem?_map, List.getElem?_map, getElem?_type]
      split
      · cases h.objects[k]? <;> rfl
      · rfl
    rw [hids]
    exact hinv.ids.nodup
  · intro b' hb'
    obtain ⟨b, hb, hargs⟩ := exists_of_mem_type hb'
    rw [hargs]
    exact hinv.ids.ne_zero b hb
  · intro b' hb' hlinked
    obtain ⟨b, hb, hargs⟩ := exists_of_mem_type hb'
    rw [hargs] at hlinked ⊢
    obtain ⟨p, hp, hdoc⟩ := hinv.parent b hb hlinked
    obtain ⟨p', hp', hargs', -⟩ := hgrows _ p hp
    exact ⟨p', hp', by rw [hargs', hdoc]⟩
  · intro b' hb'
    obtain ⟨b, hb, hargs⟩ := exists_of_mem_type hb'
    exact hgrows.rooted (hinv.forest b hb) hargs

/-- The id of a branch made is fresh and not `0`, if a forest has come of it. -/
lemma ForestOk.fresh {h' : Heap} {id : ℤ} (hok : h'.ForestOk) (hlisted : h'.Listed)
    (hreg : h.Registered)
    (hnew : ∃ b, h'.objects[h.objects.length]? = some b ∧ b.id = id)
    (hold : ∀ (k : ℕ) b, h.objects[k]? = some b → ∃ b', h'.objects[k]? = some b' ∧ b'.id = b.id) :
    id ≠ 0 ∧ h.branches id = none := by
  obtain ⟨b, hb, hid⟩ := hnew
  refine ⟨hid ▸ hok.ne_zero b (List.mem_of_getElem? hb), ?_⟩
  cases hbranches : h.branches id with
  | none => rfl
  | some k =>
    obtain ⟨b₀, hb₀, hid₀⟩ := hreg.registered id k hbranches
    obtain ⟨b', hb', hid'⟩ := hold k b₀ hb₀
    have hlt := (List.getElem?_eq_some_iff.mp hb₀).1
    have hsame : k = h.objects.length :=
      hok.distinct b'.document b.document k _ b' b ((hlisted _ _).mpr ⟨b', hb', rfl⟩)
        ((hlisted _ _).mpr ⟨b, hb, rfl⟩) hb' hb (by rw [hid', hid₀, hid])
    omega

end Heap

/-! ## Events -/

/-- The documents list the rows loaded. -/
lemma listed_load (rows : List (BranchArgs ℤ)) : (load rows).heap.Listed :=
  load_kept (fun _ o hlisted => hlisted.newbranch o) (by simp [Listed, Heap.empty]) rows

/-- The objects loaded are those of the rows. -/
lemma mem_objects_load {rows : List (BranchArgs ℤ)} {b : Branch} :
    b ∈ (load rows).heap.objects ↔ ∃ r ∈ rows, fresh r = b := by
  rw [load, objects_foldl_newbranch]
  simp [Heap.empty]

/-- **Parent-closed rows make a forest.** -/
lemma ParentClosed.forestInv {rows : List (BranchArgs ℤ)} (hrows : ParentClosed rows) :
    (load rows).heap.ForestInv := by
  have hreg := registered_load rows
  have hids : DistinctIds (load rows).heap := by
    refine ⟨?_, fun b hb => ?_⟩
    · rw [load, objects_foldl_newbranch]
      simpa [Heap.empty, Function.comp_def] using hrows.nodup
    · obtain ⟨r, hr, rfl⟩ := mem_objects_load.mp hb
      exact hrows.ne_zero r hr
  have hparent (b : Branch) (hb : b ∈ (load rows).heap.objects) (hne : b.parent ≠ 0) :
      ∃ p, (load rows).heap.lookup b.parent = some p ∧ p.document = b.document := by
    obtain ⟨r, hr, rfl⟩ := mem_objects_load.mp hb
    obtain ⟨p, ⟨hp, hid⟩, hdoc⟩ := hrows.closed r hr hne
    obtain ⟨k, hk⟩ := List.getElem?_of_mem (mem_objects_load.mpr ⟨p, hp, rfl⟩)
    refine ⟨fresh p, ?_, hdoc⟩
    rw [← hid]
    exact lookup_of_named (fun ref b hb => hreg.named hids hb) hk
  have hclosed (b : Branch) (hb : b ∈ (load rows).heap.objects) (hne : ¬ b.parent = 0) :
      ∃ p ∈ (load rows).heap.objects, (load rows).heap.lookup b.parent = some p := by
    obtain ⟨p, hp, -⟩ := hparent b hb hne
    exact ⟨p, mem_objects_of_lookup hp, hp⟩
  have hacyclic (b : Branch) (hb : b ∈ (load rows).heap.objects) :
      ¬ Relation.TransGen (fun b p => (load rows).heap.lookup b.parent = some p) b b := by
    -- a cycle of objects is one of rows
    intro hcycle
    obtain ⟨r, hr, rfl⟩ := mem_objects_load.mp hb
    refine hrows.acyclic r hr (hcycle.lift Branch.toBranchArgs fun a b hlink => ?_)
    obtain ⟨p, hp, rfl⟩ := mem_objects_load.mp (mem_objects_of_lookup hlink)
    exact ⟨hp, hreg.id_of_lookup hlink⟩
  exact ⟨hreg, listed_load rows, hids, hparent,
    fun b hb => Chain.exists_ends_of_acyclic hclosed hacyclic hb⟩

/-- A fork with a fresh id keeps the forest. -/
lemma forestInv_fork {c : State} (hinv : c.heap.ForestInv) {e : EditorView} {b : Branch}
    (hb : c.heap.objects[e.branch]? = some b) {random : ℤ}
    (hfresh : random ≠ 0 ∧ c.heap.branches random = none) :
    (c.heap.newbranch (forkArgs e b random)).ForestInv :=
  hinv.newbranch hfresh.1 hfresh.2 fun _ => ⟨b, lookup_of_named
    (fun _ _ hb => hinv.registered.named hinv.ids hb) hb, rfl⟩

/-- **One event.** With fresh ids every event keeps the forest. -/
lemma forestInv_step (c : State) (event : Event) (c' : State) (hinv : c.heap.ForestInv)
    (hfresh : FreshIds c event) (h : step c event = some c') : c'.heap.ForestInv := by
  have hheap := heapStep_of_step h
  generalize c'.heap = h' at hheap
  cases hheap with
  | stay => exact hinv
  | enter =>
    obtain ⟨hne, hnone⟩ := hfresh 1 rfl
    exact hinv.newbranch hne hnone fun hlinked => absurd rfl hlinked
  | fork _ hb => exact forestInv_fork hinv hb (hfresh _ rfl)
  | type => exact hinv.type _ _ _
  | @forkType e f d b text random hview hend hb hfork =>
    obtain ⟨b', hb', rfl, -⟩ := branchout_eq_some hfork
    exact (forestInv_fork hinv hb' (hfresh random (by simp [newid, hview, hend]))).type _ _ _

/-- The documents list the objects after every event. -/
lemma listed_step (c : State) (event : Event) (c' : State) (hlisted : c.heap.Listed)
    (h : step c event = some c') : c'.heap.Listed :=
  step_kept (fun _ o hlisted => hlisted.newbranch o)
    (fun _ ref change text hlisted => hlisted.type ref change text) h hlisted

/-- **One event, the other way.** An event into a forest has taken a fresh id. -/
lemma freshIds_of_forestOk (c : State) (event : Event) (c' : State)
    (hinv : c.heap.Registered ∧ c.heap.Listed) (h : step c event = some c')
    (hok : c'.heap.ForestOk) : FreshIds c event := by
  obtain ⟨hreg, hlisted⟩ := hinv
  have hlisted' := listed_step c event c' hlisted h
  have hheap := heapStep_of_step h
  generalize c'.heap = h' at hheap hok hlisted'
  cases hheap with
  | stay hquiet => cases event <;> simp_all [FreshIds, newid, Event.quiet]
  | enter =>
    rintro id ⟨⟩
    exact hok.fresh hlisted' hreg ⟨fresh ⟨1, 0, 0, 1⟩, by simp, rfl⟩
      fun k b hb => ⟨b, getElem?_newbranch_old hb, rfl⟩
  | @fork e b random =>
    rintro id ⟨⟩
    exact hok.fresh hlisted' hreg ⟨fresh (forkArgs e b random), by simp, rfl⟩
      fun k b hb => ⟨b, getElem?_newbranch_old hb, rfl⟩
  | type hview hend => simp [FreshIds, newid, hview, hend]
  | @forkType e f d b text random hview hend hb hfork =>
    obtain ⟨b', -, rfl, -⟩ := branchout_eq_some hfork
    intro id hid
    obtain rfl : random = id := by simpa [newid, hview, hend] using hid
    have hmade : (c.heap.newbranch (forkArgs e b' random)).objects[c.heap.objects.length]? =
        some (fresh (forkArgs e b' random)) := by simp
    refine hok.fresh hlisted' hreg ?_ fun k b₀ hb₀ => ?_
    · obtain ⟨b₁, hb₁, hargs, -⟩ := getElem?_type_grows hmade
      exact ⟨b₁, hb₁, by rw [hargs]; rfl⟩
    · have hkept : (c.heap.newbranch (forkArgs e b' random)).objects[k]? = some b₀ :=
        getElem?_newbranch_old hb₀
      obtain ⟨b₁, hb₁, hargs, -⟩ := getElem?_type_grows hkept
      exact ⟨b₁, hb₁, by rw [hargs]⟩

/-! ## Runs -/

/-- **The branch objects form a forest** in every state of a run from parent-closed rows if and
only if every branch made along it gets an id that is fresh and not `0`.

**Proof sketch.** A fresh branch is made without a parent or over a registered branch of its own
document, so no chain of parents changes and the new one ends where that of its parent ends
(`forestInv_step`). An id that is not fresh belongs to two objects of the documents afterwards
(`freshIds_of_forestOk`). -/
theorem forestOk_iff_freshIds {rows : List (BranchArgs ℤ)} (hrows : ParentClosed rows)
    {events : List Event} {c : State} (hrun : Run.run step (load rows) events = some c) :
    (∀ past d, past <+: events → Run.run step (load rows) past = some d → d.heap.ForestOk) ↔
      Run.Guarded step FreshIds (load rows) events := by
  constructor
  · intro hok
    refine Run.guarded_of_prefixes (I := fun c => c.heap.Registered ∧ c.heap.Listed) ?_
      freshIds_of_forestOk ⟨registered_load rows, listed_load rows⟩ hrun hok
    intro c event c' hinv h
    exact ⟨registered_step c event c' hinv.1 h, listed_step c event c' hinv.2 h⟩
  · rintro hfresh past d ⟨rest, rfl⟩ hd
    have hinv : d.heap.ForestInv := Run.run_invariant_of_guarded
      (I := fun c => c.heap.ForestInv) forestInv_step hrows.forestInv hfresh.of_append hd
    exact hinv.forestOk

/-- **In a forest no handler fails**: every branch of a document can be entered, the editor can be
entered without a branch, and a branch with a fresh id can be forked off the one shown. -/
theorem handlers_return {c : State} (hinv : c.heap.ForestInv) :
    (∀ doc, ∀ ref ∈ c.heap.docs doc, (entereditorview c (some ref)).isSome) ∧
      (entereditorview c none).isSome ∧
      ∀ e random, e.branch < c.heap.objects.length → random ≠ 0 →
        c.heap.branches random = none → (branchout c e random).isSome := by
  refine ⟨fun doc ref href => ?_, ?_, fun e random hlt hne hfresh => ?_⟩
  · obtain ⟨b, hb, -⟩ := (hinv.listed doc ref).mp href
    obtain ⟨history, hhistory⟩ := hinv.forestOk.history b (List.mem_of_getElem? hb)
    simp [entereditorview, hb, hhistory]
  · simp [entereditorview, gethistory]
  · have hb : c.heap.objects[e.branch]? = some c.heap.objects[e.branch] := by simp [hlt]
    have hfork := (forestInv_fork hinv hb ⟨hne, hfresh⟩).forestOk
    obtain ⟨history, hhistory⟩ := hfork.history _ (mem_newbranch.mpr (.inr rfl))
    simp only [forkArgs] at hhistory
    simp [branchout, hb, hhistory]

/-- Rows whose parents have smaller ids have no cycles. -/
lemma not_transGen_of_parent_lt {rows : List (BranchArgs ℤ)}
    (hlt : ∀ r ∈ rows, r.parent < r.id) {r : BranchArgs ℤ} (hr : r ∈ rows) :
    ¬ Relation.TransGen (ParentRow rows) r r := by
  have hless (p : BranchArgs ℤ) (hp : Relation.TransGen (ParentRow rows) r p) :
      p ∈ rows ∧ p.id < r.id := by
    induction hp with
    | single h => exact ⟨h.1, h.2 ▸ hlt r hr⟩
    | tail _ h ih => exact ⟨h.1, (h.2 ▸ hlt _ ih.1).trans ih.2⟩
  exact fun hcycle => lt_irrefl _ (hless r hcycle).2

/-- Two branches of a document, typing in one of them and forking it. -/
theorem forestOk_iff_freshIds_two_rows :
    ∃ c, Run.run step (load [⟨3, 2, 0, 7⟩, ⟨2, 0, 0, 7⟩])
        [.opendocument 7, .vertex 0, .oninput [97] 0, .branchbtn 5] = some c ∧
      ((∀ past d, past <+: [.opendocument 7, .vertex 0, .oninput [97] 0, .branchbtn 5] →
        Run.run step (load [⟨3, 2, 0, 7⟩, ⟨2, 0, 0, 7⟩]) past = some d → d.heap.ForestOk) ↔
        Run.Guarded step FreshIds (load [⟨3, 2, 0, 7⟩, ⟨2, 0, 0, 7⟩])
          [.opendocument 7, .vertex 0, .oninput [97] 0, .branchbtn 5]) :=
  have hsome : (Run.run step (load [⟨3, 2, 0, 7⟩, ⟨2, 0, 0, 7⟩])
    [.opendocument 7, .vertex 0, .oninput [97] 0, .branchbtn 5]).isSome := by decide
  ⟨_, (Option.some_get hsome).symm, forestOk_iff_freshIds
    ⟨by decide, by decide, fun r hr hne => ⟨⟨2, 0, 0, 7⟩, by
      simp only [List.mem_cons, List.not_mem_nil, or_false] at hr
      rcases hr with rfl | rfl
      · exact ⟨⟨by decide, rfl⟩, rfl⟩
      · exact absurd rfl hne⟩, fun r => not_transGen_of_parent_lt (by decide)⟩
    (Option.some_get hsome).symm⟩

/-- The branch button draws the id `0`, which stands for no parent. -/
theorem random_zero_breaks_forest :
    ParentClosed [] ∧ ∃ c, Run.run step (load []) [.login, .branchbtn 0] = some c ∧
      ¬ c.heap.ForestOk := by
  have hsome : (Run.run step (load []) [.login, .branchbtn 0]).isSome := by decide
  refine ⟨⟨by simp, by simp, by simp, by simp⟩, _, (Option.some_get hsome).symm, fun hok => ?_⟩
  exact hok.ne_zero ⟨⟨0, 1, 0, 1⟩, [], []⟩ (List.mem_of_getElem? (i := 1) rfl) rfl

end SleepyText.Client
