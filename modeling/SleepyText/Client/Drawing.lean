import SleepyText.Lib.Links
import SleepyText.Client.Forest

set_option relaxedAutoImplicit false
set_option autoImplicit false

/-!
# What the graph view shows

The graph that `entergraphview` makes has a vertex for each branch of the document and a line from
each fork to its parent, entered at both ends. The branches being a forest, so is the graph.

## Main definitions

* `Vertex.of` — the vertex of a branch object, before lines are made.
* `Graph.picture` — the vertices that are joined.
* `Graph.Draws` — the graph shows the given branches, and no others.

## Main results

* `Heap.draws_of_forestInv` — what the graph of a document is.
* `graph_shows_forest` — in every session the graph is a forest with one coloured root in each tree,
  and every vertex leads into its branch.
-/

namespace SleepyText.Client

/-! ## Vertices -/

/-- The vertex of the branch object `ref`, before lines are made. -/
def Vertex.of (ref : ℕ) (b : Branch) : Vertex where
  color := if b.parent = 0 then "#1987D1" else "#64B80B"
  size := if b.data.length < 1 then 1 else b.data.length
  edges := fun _ => none
  branch := some ref

/-- A vertex without its lines. -/
def Vertex.bare (v : Vertex) : Vertex := { v with edges := fun _ => none }

/-- The line joins `a` and `b`. -/
def Line.Joins (ln : Line) (a b : ℤ) : Prop :=
  ln.a = a ∧ ln.b = b ∨ ln.a = b ∧ ln.b = a

namespace Graph

variable {g g' : Graph}

/-- The line to the vertex `b` that is entered at the vertex `a`. -/
def line (g : Graph) (a b : ℤ) : Option Line := (g.vertices a).bind fun v => v.edges b

/-- The vertex of a branch is made at its id. -/
lemma vertices_drawVertex {lastbranch : Option Branch} {ref : ℕ} {b : Branch} :
    (g.drawVertex lastbranch ref b).vertices =
      Function.update g.vertices b.id (some (Vertex.of ref b)) := by
  have hcolor : (if b.parent = 0 then some "#1987D1" else none).getD "#64B80B" =
      if b.parent = 0 then "#1987D1" else "#64B80B" := by
    split_ifs <;> rfl
  ext1 id
  by_cases hid : id = b.id
  · subst hid
    rw [Function.update_self]
    by_cases hlast : lastbranch.map (fun last => last.id) = some b.id <;>
      simp [drawVertex, setBranch, createVertex, Vertex.of, hlast, hcolor]
  · rw [Function.update_of_ne hid]
    by_cases hlast : lastbranch.map (fun last => last.id) = some b.id <;>
      simp [drawVertex, setBranch, createVertex, hlast, hid]

/-- A vertex comes without edges. -/
lemma edges_drawVertex {lastbranch : Option Branch} {ref : ℕ} {b : Branch} :
    (g.drawVertex lastbranch ref b).edges = g.edges := by
  by_cases hlast : lastbranch.map (fun last => last.id) = some b.id <;>
    simp [drawVertex, setBranch, createVertex, hlast]

/-- The vertex of the last branch is the active one. -/
lemma active_drawVertex {lastbranch : Option Branch} {ref : ℕ} {b : Branch} :
    (g.drawVertex lastbranch ref b).active =
      if lastbranch.map (fun last => last.id) = some b.id then some b.id else g.active := by
  by_cases hlast : lastbranch.map (fun last => last.id) = some b.id <;>
    simp [drawVertex, setBranch, createVertex, hlast]

/-- **The first loop** makes the vertices of the branches, whose ids are distinct. -/
lemma vertices_foldl_drawVertex {lastbranch : Option Branch} {l : List (ℕ × Branch)}
    (hids : (l.map fun p => p.2.id).Nodup) :
    (∀ p ∈ l, (l.foldl (fun g p => g.drawVertex lastbranch p.1 p.2) g).vertices p.2.id =
        some (Vertex.of p.1 p.2)) ∧
      ∀ id, id ∉ l.map (fun p => p.2.id) →
        (l.foldl (fun g p => g.drawVertex lastbranch p.1 p.2) g).vertices id = g.vertices id := by
  induction l generalizing g with
  | nil => simp
  | cons p l ih =>
    rw [List.map_cons, List.nodup_cons] at hids
    obtain ⟨hmade, hkept⟩ := @ih (g.drawVertex lastbranch p.1 p.2) hids.2
    rw [List.foldl_cons, List.forall_mem_cons]
    refine ⟨⟨?_, hmade⟩, fun id hid => ?_⟩
    · rw [hkept _ hids.1, vertices_drawVertex, Function.update_self]
    · rw [List.map_cons, List.mem_cons, not_or] at hid
      rw [hkept _ hid.2, vertices_drawVertex, Function.update_of_ne hid.1]

/-- The first loop makes no edges. -/
lemma edges_foldl_drawVertex {lastbranch : Option Branch} (l : List (ℕ × Branch)) :
    (l.foldl (fun g p => g.drawVertex lastbranch p.1 p.2) g).edges = g.edges := by
  induction l generalizing g with
  | nil => rfl
  | cons p l ih => rw [List.foldl_cons, ih, edges_drawVertex]

/-- The active vertex is that of the last branch, if it is drawn. -/
lemma active_foldl_drawVertex {lastbranch : Option Branch} (l : List (ℕ × Branch)) :
    ((∀ p ∈ l, lastbranch.map (fun last => last.id) ≠ some p.2.id) →
        (l.foldl (fun g p => g.drawVertex lastbranch p.1 p.2) g).active = g.active) ∧
      ∀ p ∈ l, lastbranch.map (fun last => last.id) = some p.2.id →
        (l.foldl (fun g p => g.drawVertex lastbranch p.1 p.2) g).active = some p.2.id := by
  induction l generalizing g with
  | nil => simp
  | cons p l ih =>
    obtain ⟨hother, hdrawn⟩ := @ih (g.drawVertex lastbranch p.1 p.2)
    rw [List.foldl_cons, List.forall_mem_cons, List.forall_mem_cons]
    refine ⟨?_, fun hp => ?_, hdrawn⟩
    · rintro ⟨hp, hl⟩
      rw [hother hl, active_drawVertex, if_neg hp]
    · by_cases hl : ∀ q ∈ l, lastbranch.map (fun last => last.id) ≠ some q.2.id
      · rw [hother hl, active_drawVertex, if_pos hp]
      · push Not at hl
        obtain ⟨q, hq, hid⟩ := hl
        rw [hdrawn q hq hid, ← hid, hp]

/-! ## Lines -/

/-- **One entry.** Only the line from `a` to `b` is new, and vertices stay as they are otherwise. -/
lemma setEdge_eq_some {a b : ℤ} {ln : Line} (h : g.setEdge a b ln = some g') :
    (∀ x y, g'.line x y = if x = a ∧ y = b then some ln else g.line x y) ∧
      (∀ id, (g'.vertices id).map Vertex.bare = (g.vertices id).map Vertex.bare) ∧
      g'.edges = g.edges ∧ g'.active = g.active := by
  obtain ⟨v, hv, h⟩ := Option.bind_eq_some_iff.mp h
  obtain rfl := Option.some.inj h
  refine ⟨fun x y => ?_, fun id => ?_, rfl, rfl⟩
  · by_cases hx : x = a
    · subst hx
      by_cases hy : y = b <;> simp [line, hv, hy]
    · simp [line, hx]
  · by_cases hid : id = a
    · subst hid
      simp [hv, Vertex.bare]
    · simp [hid]

/-- The line that the second loop makes for a fork. -/
def forkLine (b : Branch) : Line := ⟨"#86D479", 5, b.parent, b.id⟩

/-- **One line.** It is entered at both of its ends. -/
lemma createEdge_eq_some {a b : ℤ} {color : Option String} {size : Option ℕ}
    (h : g.createEdge a b color size = some g') :
    ∃ ln : Line, ln = ⟨color.getD "#86D479", size.getD 5, a, b⟩ ∧
      (∀ x y, g'.line x y = if (x = b ∧ y = a) ∨ (x = a ∧ y = b) then some ln else g.line x y) ∧
      (∀ id, (g'.vertices id).map Vertex.bare = (g.vertices id).map Vertex.bare) ∧
      g'.edges = g.edges ++ [ln] ∧ g'.active = g.active := by
  refine ⟨_, rfl, ?_⟩
  obtain ⟨g₁, h₁, h⟩ := Option.bind_eq_some_iff.mp h
  obtain ⟨g₂, h₂, h⟩ := Option.bind_eq_some_iff.mp h
  obtain rfl := Option.some.inj h
  obtain ⟨hline₁, hbare₁, hedges₁, hactive₁⟩ := setEdge_eq_some h₁
  obtain ⟨hline₂, hbare₂, hedges₂, hactive₂⟩ := setEdge_eq_some h₂
  refine ⟨fun x y => ?_, fun id => (hbare₂ id).trans (hbare₁ id), by rw [hedges₂, hedges₁],
    hactive₂.trans hactive₁⟩
  have hsame : Graph.line { g₂ with edges := g₂.edges ++
      [(⟨color.getD "#86D479", size.getD 5, a, b⟩ : Line)] } x y = g₂.line x y := rfl
  rw [hsame, hline₂, hline₁]
  by_cases hxy : x = b ∧ y = a
  · rw [if_pos hxy, if_pos (.inl hxy)]
  · rw [if_neg hxy]
    by_cases hxy' : x = a ∧ y = b
    · rw [if_pos hxy', if_pos (.inr hxy')]
    · rw [if_neg hxy', if_neg (by tauto)]

/-- What the second loop has made of `g` for the branches in `l`. -/
structure Joined (g g' : Graph) (l : List (ℕ × Branch)) : Prop where
  edges : g'.edges = g.edges ++ (l.filter fun p => p.2.parent ≠ 0).map fun p => forkLine p.2
  active : g'.active = g.active
  bare : ∀ id, (g'.vertices id).map Vertex.bare = (g.vertices id).map Vertex.bare
  line : ∀ x y ln, g'.line x y = some ln → g.line x y = some ln ∨
    ln.Joins x y ∧ ∃ p ∈ l, p.2.parent ≠ 0 ∧ ln = forkLine p.2
  entered : ∀ p ∈ l, p.2.parent ≠ 0 →
    (g'.line p.2.parent p.2.id).isSome ∧ (g'.line p.2.id p.2.parent).isSome
  kept : ∀ x y, (g.line x y).isSome → (g'.line x y).isSome

/-- **The second loop** makes one line for each fork. -/
lemma joined_foldlM_drawEdge {l : List (ℕ × Branch)}
    (h : l.foldlM (fun g p => drawEdge g p.2) g = some g') : Joined g g' l := by
  induction l generalizing g with
  | nil =>
    obtain rfl := Option.some.inj h
    exact ⟨by simp, rfl, fun _ => rfl, fun _ _ _ h => .inl h, by simp, fun _ _ h => h⟩
  | cons p l ih =>
    rw [List.foldlM_cons] at h
    obtain ⟨g₁, hp, h⟩ := Option.bind_eq_some_iff.mp h
    have hrest := ih h
    by_cases hroot : p.2.parent = 0
    · rw [drawEdge, if_neg (by simpa using hroot)] at hp
      obtain rfl := Option.some.inj hp
      refine ⟨?_, hrest.active, hrest.bare, fun x y ln hln => ?_, ?_, hrest.kept⟩
      · rw [hrest.edges, List.filter_cons_of_neg (by simpa using hroot)]
      · rcases hrest.line x y ln hln with hold | ⟨hjoins, q, hq, hne, heq⟩
        · exact .inl hold
        · exact .inr ⟨hjoins, q, List.mem_cons_of_mem _ hq, hne, heq⟩
      · rw [List.forall_mem_cons]
        exact ⟨fun hne => absurd hroot hne, hrest.entered⟩
    · rw [drawEdge, if_pos hroot] at hp
      obtain ⟨ln₀, hln₀, hline, hbare, hedges, hactive⟩ := createEdge_eq_some hp
      replace hln₀ : ln₀ = forkLine p.2 := hln₀
      refine ⟨?_, hrest.active.trans hactive, fun id => (hrest.bare id).trans (hbare id),
        fun x y ln hln => ?_, ?_, fun x y hxy => hrest.kept x y ?_⟩
      · rw [hrest.edges, hedges, List.filter_cons_of_pos (by simpa using hroot), List.map_cons,
          hln₀, List.append_assoc, List.singleton_append]
      · rcases hrest.line x y ln hln with hold | ⟨hjoins, q, hq, hne, heq⟩
        · rw [hline] at hold
          split_ifs at hold with hxy
          · obtain rfl := Option.some.inj hold
            refine .inr ⟨?_, p, List.mem_cons_self, hroot, hln₀⟩
            rw [hln₀, Line.Joins, forkLine]
            rcases hxy with ⟨rfl, rfl⟩ | ⟨rfl, rfl⟩
            · exact .inr ⟨rfl, rfl⟩
            · exact .inl ⟨rfl, rfl⟩
          · exact .inl hold
        · exact .inr ⟨hjoins, q, List.mem_cons_of_mem _ hq, hne, heq⟩
      · rw [List.forall_mem_cons]
        refine ⟨fun _ => ⟨hrest.kept _ _ ?_, hrest.kept _ _ ?_⟩, hrest.entered⟩
        · simp [hline]
        · simp [hline]
      · rw [hline]
        split_ifs
        · rfl
        · exact hxy

/-! ## The whole graph -/

/-- The vertices that have lines to each other. -/
def picture (g : Graph) : SimpleGraph ℤ := SimpleGraph.fromRel fun a b => (g.line a b).isSome

/-- The graph shows the branch objects in `l` and the forks among them: a vertex for each object, a
line for each fork, which both ends know, and the last branch as the active vertex. -/
structure Draws (g : Graph) (lastbranch : Option Branch) (l : List (ℕ × Branch)) : Prop where
  vertex : ∀ p ∈ l, (g.vertices p.2.id).map Vertex.bare = some (Vertex.of p.1 p.2)
  only : ∀ id, g.Has id → ∃ p ∈ l, p.2.id = id
  edges : g.edges = (l.filter fun p => p.2.parent ≠ 0).map fun p => forkLine p.2
  entered : ∀ ln ∈ g.edges, g.line ln.a ln.b = some ln ∧ g.line ln.b ln.a = some ln
  line : ∀ a b ln, g.line a b = some ln → ln ∈ g.edges ∧ ln.Joins a b
  active : ∀ id, g.active = some id ↔
    lastbranch.map (fun last => last.id) = some id ∧ ∃ p ∈ l, p.2.id = id

/-- The vertices made first have no lines. -/
lemma line_foldl_drawVertex {lastbranch : Option Branch} {l : List (ℕ × Branch)}
    (hids : (l.map fun p => p.2.id).Nodup) (x y : ℤ) :
    (l.foldl (fun g p => g.drawVertex lastbranch p.1 p.2) empty).line x y = none := by
  obtain ⟨hmade, hkept⟩ := @vertices_foldl_drawVertex empty lastbranch l hids
  by_cases hx : x ∈ l.map fun p => p.2.id
  · obtain ⟨p, hp, rfl⟩ := List.mem_map.mp hx
    rw [line, hmade p hp]
    rfl
  · rw [line, hkept x hx]
    rfl

end Graph

namespace Heap

variable {h : Heap}

/-- The parent of the branch of the document. -/
def parentIn (h : Heap) (doc id : ℤ) : Option ℤ :=
  (h.lookup id).bind fun b => if b.document = doc ∧ b.parent ≠ 0 then some b.parent else none

/-- No reference is listed twice. -/
def ListedOnce (h : Heap) : Prop := h.Listed ∧ ∀ doc, (h.docs doc).Nodup

/-- A new branch is listed in its document, which did not have it. -/
lemma ListedOnce.newbranch (hlisted : h.ListedOnce) (o : BranchArgs ℤ) :
    (h.newbranch o).ListedOnce := by
  refine ⟨hlisted.1.newbranch o, fun doc => ?_⟩
  by_cases hdoc : doc = o.document
  · have hnew : h.objects.length ∉ h.docs doc := by
      intro hmem
      obtain ⟨b, hb, -⟩ := (hlisted.1 doc _).mp hmem
      simp at hb
    simp only [Heap.newbranch, hdoc, Function.update_self]
    rw [hdoc] at hnew
    exact List.nodup_append.mpr ⟨hlisted.2 _, List.nodup_singleton _, by
      rintro a ha b hb rfl
      rw [List.mem_singleton] at hb
      exact hnew (hb ▸ ha)⟩
  · simp only [Heap.newbranch, Function.update_of_ne hdoc]
    exact hlisted.2 doc

/-- Typing lists nothing. -/
lemma ListedOnce.type (hlisted : h.ListedOnce) (ref : ℕ) (change : Change) (text : JsString) :
    (h.type ref change text).ListedOnce :=
  ⟨hlisted.1.type ref change text, hlisted.2⟩

/-- The branches drawn have distinct ids. -/
lemma ForestInv.nodup_drawn (hinv : h.ForestInv) {doc : ℤ} (hnodup : (h.docs doc).Nodup) :
    ((h.drawn doc).map fun p => p.2.id).Nodup := by
  rw [drawn, List.map_filterMap]
  refine hnodup.filterMap fun i j id hi hj => ?_
  simp only [Option.mem_def, Option.map_map, Option.map_eq_some_iff, Function.comp_apply] at hi hj
  obtain ⟨b, hb, hbid⟩ := hi
  obtain ⟨b', hb', hbid'⟩ := hj
  have hnamed := hinv.registered.named hinv.ids hb
  rw [hbid, ← hbid', hinv.registered.named hinv.ids hb', Option.some.injEq] at hnamed
  exact hnamed.symm

/-- The parents of the branches drawn. -/
lemma ForestInv.parentIn_eq_some (hinv : h.ForestInv) {doc id q : ℤ} :
    h.parentIn doc id = some q ↔
      ∃ p ∈ h.drawn doc, p.2.parent ≠ 0 ∧ p.2.id = id ∧ p.2.parent = q := by
  constructor
  · intro hq
    obtain ⟨b, hb, hq⟩ := Option.bind_eq_some_iff.mp hq
    split_ifs at hq with hdoc
    obtain ⟨ref, href⟩ := List.getElem?_of_mem (mem_objects_of_lookup hb)
    exact ⟨(ref, b), hinv.listed.mem_drawn.mpr ⟨href, hdoc.1⟩, hdoc.2,
      hinv.registered.id_of_lookup hb, Option.some.inj hq⟩
  · rintro ⟨⟨ref, b⟩, hp, hne, rfl, rfl⟩
    obtain ⟨href, hdoc⟩ := hinv.listed.mem_drawn.mp hp
    have hb : h.lookup b.id = some b :=
      lookup_of_named (fun _ _ hb => hinv.registered.named hinv.ids hb) href
    rw [parentIn, hb, Option.bind_some, if_pos ⟨hdoc, hne⟩]

/-- **Parents are nearer to the roots.** -/
lemma Forest.descends (hforest : h.Forest) (doc : ℤ) :
    ∃ rank, Links.Descends (h.parentIn doc) rank := by
  classical
  refine ⟨fun id => sInf {n | ∃ b, h.lookup id = some b ∧ h.RootedIn n b}, fun id q hq => ?_⟩
  have hrank {id : ℤ} {b : Branch} {n : ℕ} (hb : h.lookup id = some b) (hn : h.RootedIn n b) :
      sInf {n | ∃ b, h.lookup id = some b ∧ h.RootedIn n b} = n := by
    have hset : {n | ∃ b, h.lookup id = some b ∧ h.RootedIn n b} = {n} := by
      ext m
      constructor
      · rintro ⟨b', hb', hm⟩
        obtain rfl := Option.some.inj (hb.symm.trans hb')
        exact hm.unique hn
      · rintro rfl
        exact ⟨b, hb, hn⟩
    rw [hset, csInf_singleton]
  obtain ⟨b, hb, hq⟩ := Option.bind_eq_some_iff.mp hq
  split_ifs at hq with hdoc
  obtain rfl := Option.some.inj hq
  obtain ⟨n, hn⟩ := hforest b (mem_objects_of_lookup hb)
  cases hn with
  | root hroot => exact absurd hroot hdoc.2
  | @link _ p n hne hp hp' =>
    change sInf _ < sInf _
    rw [hrank hp hp', hrank hb (.link hne hp hp')]
    exact Nat.lt_succ_self n

/-- **The graph of a document** shows its branches and its forks. -/
lemma draws_of_forestInv (hinv : h.ForestInv) {doc : ℤ} (hnodup : (h.docs doc).Nodup)
    {lastbranch : Option Branch} {g : Graph} (hg : h.entergraphview lastbranch doc = some g) :
    g.Draws lastbranch (h.drawn doc) := by
  have hids := hinv.nodup_drawn hnodup
  obtain ⟨rank, hrank⟩ := Forest.descends hinv.forest doc
  have hlower (p : ℕ × Branch) (hp : p ∈ h.drawn doc) (hne : p.2.parent ≠ 0) :
      rank p.2.parent < rank p.2.id :=
    hrank _ _ (hinv.parentIn_eq_some.mpr ⟨p, hp, hne, rfl, rfl⟩)
  have hjoined := Graph.joined_foldlM_drawEdge hg
  obtain ⟨hmade, hkept⟩ := @Graph.vertices_foldl_drawVertex Graph.empty lastbranch _ hids
  obtain ⟨hother, hdrawn⟩ := @Graph.active_foldl_drawVertex Graph.empty lastbranch (h.drawn doc)
  have hedges : g.edges =
      ((h.drawn doc).filter fun p => p.2.parent ≠ 0).map fun p => Graph.forkLine p.2 := by
    rw [hjoined.edges, Graph.edges_foldl_drawVertex]
    rfl
  have hline (a b : ℤ) (ln : Line) (hln : g.line a b = some ln) :
      ln.Joins a b ∧ ∃ p ∈ h.drawn doc, p.2.parent ≠ 0 ∧ ln = Graph.forkLine p.2 := by
    rcases hjoined.line a b ln hln with hold | hnew
    · rw [Graph.line_foldl_drawVertex hids] at hold
      cases hold
    · exact hnew
  have hmem (p : ℕ × Branch) (hp : p ∈ h.drawn doc) (hne : p.2.parent ≠ 0) :
      Graph.forkLine p.2 ∈ g.edges := by
    rw [hedges]
    exact List.mem_map.mpr ⟨p, List.mem_filter.mpr ⟨hp, by simpa using hne⟩, rfl⟩
  -- two forks with the same ends are one, since parents are below their forks
  have hsame (p : ℕ × Branch) (hp : p ∈ h.drawn doc) (hne : p.2.parent ≠ 0) (ln : Line) (x y : ℤ)
      (hln : g.line x y = some ln) (hxy : (Graph.forkLine p.2).Joins x y) :
      ln = Graph.forkLine p.2 := by
    obtain ⟨hjoins, q, hq, hneq, rfl⟩ := hline x y ln hln
    have hpq := hlower p hp hne
    have hqp := hlower q hq hneq
    have hid : q.2.id = p.2.id := by
      simp only [Graph.forkLine, Line.Joins] at hjoins hxy
      rcases hjoins with ⟨hqx, hqy⟩ | ⟨hqy, hqx⟩ <;> rcases hxy with ⟨hpx, hpy⟩ | ⟨hpy, hpx⟩
      · rw [hqy, hpy]
      · rw [hqx, hqy] at hqp
        rw [hpx, hpy] at hpq
        omega
      · rw [hqx, hqy] at hqp
        rw [hpx, hpy] at hpq
        omega
      · rw [hqx, hpx]
    rw [List.inj_on_of_nodup_map hids hq hp hid]
  refine ⟨fun p hp => ?_, fun id hid => ?_, hedges, fun ln hln => ?_, fun a b ln hln => ?_,
    fun id => ?_⟩
  · rw [hjoined.bare, hmade p hp]
    rfl
  · by_contra hnone
    have hbare := hjoined.bare id
    rw [hkept id (by simpa using hnone)] at hbare
    have hvertex : g.vertices id = none := by simpa [Graph.empty] using hbare
    simp [Graph.Has, hvertex] at hid
  · rw [hedges] at hln
    obtain ⟨p, hp, rfl⟩ := List.mem_map.mp hln
    obtain ⟨hp, hne⟩ := List.mem_filter.mp hp
    replace hne : p.2.parent ≠ 0 := by simpa using hne
    obtain ⟨hdown, hup⟩ := hjoined.entered p hp hne
    obtain ⟨ln, hln⟩ := Option.isSome_iff_exists.mp hdown
    obtain ⟨ln', hln'⟩ := Option.isSome_iff_exists.mp hup
    refine ⟨hln.trans ?_, hln'.trans ?_⟩
    · rw [hsame p hp hne ln _ _ hln (.inl ⟨rfl, rfl⟩)]
    · rw [hsame p hp hne ln' _ _ hln' (.inr ⟨rfl, rfl⟩)]
  · obtain ⟨hjoins, p, hp, hne, rfl⟩ := hline a b ln hln
    exact ⟨hmem p hp hne, hjoins⟩
  · rw [hjoined.active]
    by_cases hex : ∃ p ∈ h.drawn doc, lastbranch.map (fun last => last.id) = some p.2.id
    · obtain ⟨p, hp, hlast⟩ := hex
      rw [hdrawn p hp hlast, hlast, Option.some.injEq]
      exact ⟨fun heq => ⟨heq, p, hp, heq⟩, fun heq => heq.1⟩
    · push Not at hex
      rw [hother hex]
      constructor
      · rintro ⟨⟩
      · rintro ⟨hlast, p, hp, rfl⟩
        exact absurd hlast (hex p hp)

/-- The vertices joined in the graph are the branches and their parents. -/
lemma picture_eq_graph (hinv : h.ForestInv) {doc : ℤ} {lastbranch : Option Branch} {g : Graph}
    (hdraws : g.Draws lastbranch (h.drawn doc)) : g.picture = Links.graph (h.parentIn doc) := by
  have hiff (a b : ℤ) : (g.line a b).isSome ↔
      h.parentIn doc a = some b ∨ h.parentIn doc b = some a := by
    rw [hinv.parentIn_eq_some, hinv.parentIn_eq_some]
    constructor
    · intro hsome
      obtain ⟨ln, hln⟩ := Option.isSome_iff_exists.mp hsome
      obtain ⟨hmem, hjoins⟩ := hdraws.line a b ln hln
      rw [hdraws.edges] at hmem
      obtain ⟨p, hp, rfl⟩ := List.mem_map.mp hmem
      obtain ⟨hp, hne⟩ := List.mem_filter.mp hp
      replace hne : p.2.parent ≠ 0 := by simpa using hne
      rcases hjoins with ⟨ha, hb⟩ | ⟨hb, ha⟩
      · exact .inr ⟨p, hp, hne, hb, ha⟩
      · exact .inl ⟨p, hp, hne, ha, hb⟩
    · have hentered (p : ℕ × Branch) (hp : p ∈ h.drawn doc) (hne : p.2.parent ≠ 0) :
          (g.line p.2.parent p.2.id).isSome ∧ (g.line p.2.id p.2.parent).isSome := by
        have hmem : Graph.forkLine p.2 ∈ g.edges := by
          rw [hdraws.edges]
          exact List.mem_map.mpr ⟨p, List.mem_filter.mpr ⟨hp, by simpa using hne⟩, rfl⟩
        obtain ⟨hdown, hup⟩ := hdraws.entered _ hmem
        exact ⟨Option.isSome_iff_exists.mpr ⟨_, hdown⟩, Option.isSome_iff_exists.mpr ⟨_, hup⟩⟩
      rintro (⟨p, hp, hne, rfl, rfl⟩ | ⟨p, hp, hne, rfl, rfl⟩)
      · exact (hentered p hp hne).2
      · exact (hentered p hp hne).1
  ext a b
  rw [Graph.picture, Links.graph, SimpleGraph.fromRel_adj, SimpleGraph.fromRel_adj, hiff, hiff]
  tauto

/-- The vertices of the roots of a document have the colour of roots. -/
lemma color_iff (hinv : h.ForestInv) {doc : ℤ} {lastbranch : Option Branch} {g : Graph}
    (hdraws : g.Draws lastbranch (h.drawn doc)) {id : ℤ} (hid : g.Has id) :
    (∃ v, g.vertices id = some v ∧ v.color = "#1987D1") ↔ h.parentIn doc id = none := by
  obtain ⟨p, hp, rfl⟩ := hdraws.only id hid
  obtain ⟨href, hdoc⟩ := hinv.listed.mem_drawn.mp hp
  have hlookup : h.lookup p.2.id = some p.2 :=
    lookup_of_named (fun _ _ hb => hinv.registered.named hinv.ids hb) href
  obtain ⟨v, hv, hbare⟩ := Option.map_eq_some_iff.mp (hdraws.vertex p hp)
  have hcolor : v.color = if p.2.parent = 0 then "#1987D1" else "#64B80B" :=
    congrArg Vertex.color hbare
  have hparent : h.parentIn doc p.2.id = if p.2.parent ≠ 0 then some p.2.parent else none := by
    rw [parentIn, hlookup, Option.bind_some]
    simp only [hdoc, true_and]
  rw [hparent]
  by_cases hroot : p.2.parent = 0
  · simp [hv, hcolor, hroot]
  · simp [hv, hcolor, hroot]

/-- Lines lead to vertices only. -/
lemma has_of_reachable (hinv : h.ForestInv) {doc : ℤ} {lastbranch : Option Branch} {g : Graph}
    (hdraws : g.Draws lastbranch (h.drawn doc)) {id id' : ℤ} (hid : g.Has id)
    (hreach : g.picture.Reachable id id') : g.Has id' := by
  obtain ⟨walk⟩ := hreach
  induction walk with
  | nil => exact hid
  | @cons a b c hadj _ ih =>
    apply ih
    rw [picture_eq_graph hinv hdraws] at hadj
    obtain ⟨rank, hrank⟩ := Forest.descends hinv.forest doc
    obtain ⟨p, hp, hne, hends⟩ : ∃ p ∈ h.drawn doc, p.2.parent ≠ 0 ∧
        (p.2.id = b ∨ p.2.parent = b) := by
      rcases (Links.graph_adj_iff hrank).mp hadj with hlink | hlink
      · obtain ⟨p, hp, hne, -, hb⟩ := hinv.parentIn_eq_some.mp hlink
        exact ⟨p, hp, hne, .inr hb⟩
      · obtain ⟨p, hp, hne, hb, -⟩ := hinv.parentIn_eq_some.mp hlink
        exact ⟨p, hp, hne, .inl hb⟩
    have hmem : Graph.forkLine p.2 ∈ g.edges := by
      rw [hdraws.edges]
      exact List.mem_map.mpr ⟨p, List.mem_filter.mpr ⟨hp, by simpa using hne⟩, rfl⟩
    -- a line is entered at both of its ends
    obtain ⟨hdown, hup⟩ := hdraws.entered _ hmem
    obtain ⟨v, hv, -⟩ := Option.bind_eq_some_iff.mp hdown
    obtain ⟨w, hw, -⟩ := Option.bind_eq_some_iff.mp hup
    rcases hends with rfl | rfl
    · exact Option.isSome_iff_exists.mpr ⟨w, hw⟩
    · exact Option.isSome_iff_exists.mpr ⟨v, hv⟩

/-- Each tree of the graph has one vertex of the colour of roots. -/
lemma existsUnique_coloured (hinv : h.ForestInv) {doc : ℤ} {lastbranch : Option Branch} {g : Graph}
    (hdraws : g.Draws lastbranch (h.drawn doc)) {id : ℤ} (hid : g.Has id) :
    ∃! root, g.picture.Reachable id root ∧
      ∃ v, g.vertices root = some v ∧ v.color = "#1987D1" := by
  obtain ⟨rank, hrank⟩ := Forest.descends hinv.forest doc
  have hiff (root : ℤ) : (g.picture.Reachable id root ∧
      ∃ v, g.vertices root = some v ∧ v.color = "#1987D1") ↔
        (Links.graph (h.parentIn doc)).Reachable id root ∧ h.parentIn doc root = none := by
    rw [← picture_eq_graph hinv hdraws]
    exact and_congr_right fun hreach =>
      color_iff hinv hdraws (has_of_reachable hinv hdraws hid hreach)
  exact (existsUnique_congr hiff).mpr (Links.existsUnique_root hrank id)

end Heap

/-! ## Sessions -/

/-- Every branch is listed once after loading. -/
lemma listedOnce_load (rows : List (BranchArgs ℤ)) : (load rows).heap.ListedOnce :=
  load_kept (fun _ o hlisted => hlisted.newbranch o)
    ⟨by simp [Heap.Listed, Heap.empty], by simp [Heap.empty]⟩ rows

/-- No event lists a branch twice. -/
lemma listedOnce_step (c : State) (event : Event) (c' : State) (hlisted : c.heap.ListedOnce)
    (h : step c event = some c') : c'.heap.ListedOnce :=
  step_kept (fun _ o hlisted => hlisted.newbranch o)
    (fun _ ref change text hlisted => hlisted.type ref change text) h hlisted

/-- **The graph view** of any document can be entered in every state of a session with fresh ids
from parent-closed rows. It shows the branches of the document and a line for each fork, and is a
forest in which each tree has one vertex of the colour of roots. A click on a vertex enters the
editor on the branch of its id.

**Proof sketch.** Along the run the branch objects stay a forest (`forestInv_step`), and each is
listed once (`listedOnce_step`). So the loops make each vertex and each line once
(`Heap.draws_of_forestInv`), and the lines are the links of the parents, which descend
(`Heap.Forest.descends`). -/
theorem graph_shows_forest {rows : List (BranchArgs ℤ)} (hrows : ParentClosed rows)
    {events : List Event} {c : State} (hrun : Run.run step (load rows) events = some c)
    (hfresh : Run.Guarded step FreshIds (load rows) events) (lastbranch : Option Branch) (doc : ℤ) :
    ∃ g, c.heap.entergraphview lastbranch doc = some g ∧
      g.Draws lastbranch (c.heap.drawn doc) ∧ g.picture.IsAcyclic ∧
      (∀ id, g.Has id → ∃! root, g.picture.Reachable id root ∧
        ∃ v, g.vertices root = some v ∧ v.color = "#1987D1") ∧
      ∀ id v, g.vertices id = some v → ∃ ref b c' e, v.branch = some ref ∧
        c.heap.objects[ref]? = some b ∧ b.id = id ∧ b.document = doc ∧
        step { c with view := .graph doc } (.vertex ref) = some c' ∧
        c'.view = .editor e ∧ e.branch = ref ∧ e.value = b.render := by
  have hinv : c.heap.ForestInv := Run.run_invariant_of_guarded
    (I := fun c => c.heap.ForestInv) forestInv_step hrows.forestInv hfresh hrun
  have honce : c.heap.ListedOnce := Run.run_invariant
    (I := fun c => c.heap.ListedOnce) listedOnce_step (listedOnce_load rows) hrun
  obtain ⟨g, hg⟩ := hinv.forestOk.graph lastbranch doc
  have hdraws := Heap.draws_of_forestInv hinv (honce.2 doc) hg
  refine ⟨g, hg, hdraws, ?_, fun id hid => Heap.existsUnique_coloured hinv hdraws hid,
    fun id v hv => ?_⟩
  · obtain ⟨rank, hrank⟩ := Heap.Forest.descends hinv.forest doc
    rw [Heap.picture_eq_graph hinv hdraws]
    exact Links.isAcyclic_graph hrank
  · obtain ⟨⟨ref, b⟩, hp, rfl⟩ := hdraws.only id (Option.isSome_iff_exists.mpr ⟨v, hv⟩)
    obtain ⟨w, hw, hbare⟩ := Option.map_eq_some_iff.mp (hdraws.vertex _ hp)
    obtain rfl := Option.some.inj (hw.symm.trans hv)
    obtain ⟨hobj, hdoc⟩ := hinv.listed.mem_drawn.mp hp
    obtain ⟨history, hhistory⟩ := hinv.forestOk.history b (List.mem_of_getElem? hobj)
    have hlisted : ref ∈ c.heap.docs doc := (hinv.listed doc ref).mpr ⟨b, hobj, hdoc⟩
    let e : EditorView :=
      ⟨ref, { history with position := history.steps.length, render := b.render }, b.render,
        b.render⟩
    refine ⟨ref, b, { c with view := .editor e }, e, congrArg Vertex.branch hbare, hobj, rfl, hdoc,
      ?_, rfl, rfl, rfl⟩
    simp [step, hlisted, entereditorview, hobj, hhistory, e]

/-- The graph of two branches that were loaded and of the fork of one of them. -/
theorem graph_shows_forest_three_branches :
    ∃ c, Run.run step (load [⟨3, 2, 0, 7⟩, ⟨2, 0, 0, 7⟩])
        [.opendocument 7, .vertex 0, .oninput [97] 0, .branchbtn 5] = some c ∧
      ∃ g, c.heap.entergraphview none 7 = some g ∧ g.Draws none (c.heap.drawn 7) ∧
        g.picture.IsAcyclic ∧
        (∀ id, g.Has id → ∃! root, g.picture.Reachable id root ∧
          ∃ v, g.vertices root = some v ∧ v.color = "#1987D1") ∧
        ∀ id v, g.vertices id = some v → ∃ ref b c' e, v.branch = some ref ∧
          c.heap.objects[ref]? = some b ∧ b.id = id ∧ b.document = 7 ∧
          step { c with view := .graph 7 } (.vertex ref) = some c' ∧
          c'.view = .editor e ∧ e.branch = ref ∧ e.value = b.render :=
  have hsome : (Run.run step (load [⟨3, 2, 0, 7⟩, ⟨2, 0, 0, 7⟩])
    [.opendocument 7, .vertex 0, .oninput [97] 0, .branchbtn 5]).isSome := by decide
  ⟨_, (Option.some_get hsome).symm, graph_shows_forest
    ⟨by decide, by decide, fun r hr hne => ⟨⟨2, 0, 0, 7⟩, by
      simp only [List.mem_cons, List.not_mem_nil, or_false] at hr
      rcases hr with rfl | rfl
      · exact ⟨⟨by decide, rfl⟩, rfl⟩
      · exact absurd rfl hne⟩, fun r => not_transGen_of_parent_lt (by decide)⟩
    (Option.some_get hsome).symm (by decide) none 7⟩

end SleepyText.Client
