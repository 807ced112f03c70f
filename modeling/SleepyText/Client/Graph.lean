import SleepyText.Client.Branch

set_option relaxedAutoImplicit false
set_option autoImplicit false

/-!
# The graph of a document

The graph view (`graphview.js`, `graph.js`) makes a vertex for every branch of a document and an
edge from every branch to its parent. The edges are made in the two vertices they join, which have
to be there.

## Main definitions

* `Graph`, `Graph.createVertex`, `Graph.createEdge` — the graph, without its layout.
* `Heap.entergraphview` — the graph of a document.

## Main results

* `Heap.entergraphview_isSome_iff` — the graph can be made exactly when the parent of every branch
  of the document is a branch of the document.
-/

namespace SleepyText.Client

/-- A line between the vertices of the ids `a` and `b`. -/
structure Line where
  color : String
  size : ℕ
  a : ℤ
  b : ℤ
  deriving DecidableEq, Repr

/-- A vertex: its color, the number that its size is the logarithm of, its lines by the id of their
other end, and the branch object it stands for. -/
structure Vertex where
  color : String
  size : ℕ
  edges : ℤ → Option Line
  branch : Option ℕ

/-- The graph: the vertices by their ids, the lines and the active vertex. -/
structure Graph where
  vertices : ℤ → Option Vertex
  edges : List Line
  active : Option ℤ

namespace Graph

/-- `new Graph(…)`. -/
def empty : Graph := ⟨fun _ => none, [], none⟩

/-- `g.createVertex(id, color, size)`. -/
def createVertex (g : Graph) (id : ℤ) (color : Option String) (size : ℕ) : Graph :=
  let vertex : Vertex := ⟨color.getD "#64B80B", size, fun _ => none, none⟩
  { g with vertices := Function.update g.vertices id (some vertex) }

/-- `this.vertices[a].edges[b] = { "dest" : b, "line": line }`, which fails if there is no vertex
of the id `a`. -/
def setEdge (g : Graph) (a b : ℤ) (line : Line) : Option Graph := do
  let v ← g.vertices a
  let vertex := { v with edges := Function.update v.edges b (some line) }
  some { g with vertices := Function.update g.vertices a (some vertex) }

/-- `g.createEdge(a, b, color, size)`. -/
def createEdge (g : Graph) (a b : ℤ) (color : Option String) (size : Option ℕ) : Option Graph := do
  let line : Line := ⟨color.getD "#86D479", size.getD 5, a, b⟩
  let g ← g.setEdge a b line
  let g ← g.setEdge b a line
  some { g with edges := g.edges ++ [line] }

/-- `v.branch = branches[i]`, where `v` is the vertex of the id. -/
def setBranch (g : Graph) (id : ℤ) (ref : ℕ) : Graph :=
  let vertex := (g.vertices id).map fun v => { v with branch := some ref }
  { g with vertices := Function.update g.vertices id vertex }

/-- What the first loop of `entergraphview` does for the branch object `ref`. -/
def drawVertex (lastbranch : Option Branch) (g : Graph) (ref : ℕ) (b : Branch) : Graph :=
  let color := if b.parent = 0 then some "#1987D1" else none
  let s := if b.data.length < 1 then 1 else b.data.length
  let g := g.createVertex b.id color s
  let g := if lastbranch.map (fun last => last.id) = some b.id then { g with active := some b.id }
    else g
  g.setBranch b.id ref

/-- What the second loop of `entergraphview` does for a branch. -/
def drawEdge (g : Graph) (b : Branch) : Option Graph :=
  if b.parent ≠ 0 then g.createEdge b.parent b.id none none else some g

end Graph

/-- The branch objects in `docs[doc]`, with their references. -/
def Heap.drawn (h : Heap) (doc : ℤ) : List (ℕ × Branch) :=
  (h.docs doc).filterMap fun ref => (h.objects[ref]?).map fun b => (ref, b)

/-- `entergraphview(lastbranch, doc)`: the graph it makes. -/
def Heap.entergraphview (h : Heap) (lastbranch : Option Branch) (doc : ℤ) : Option Graph :=
  let g := (h.drawn doc).foldl (fun g p => g.drawVertex lastbranch p.1 p.2) Graph.empty
  (h.drawn doc).foldlM (fun g p => g.drawEdge p.2) g

/-! ## Which graphs can be made -/

namespace Graph

variable {g g' : Graph}

/-- There is a vertex of the id. -/
def Has (g : Graph) (id : ℤ) : Prop := (g.vertices id).isSome

@[simp] lemma not_has_empty (id : ℤ) : ¬ empty.Has id := by
  simp [Has, empty]

@[simp] lemma has_createVertex {id k : ℤ} {color : Option String} {size : ℕ} :
    (g.createVertex id color size).Has k ↔ k = id ∨ g.Has k := by
  by_cases hk : k = id <;> simp [Has, createVertex, hk]

@[simp] lemma has_setBranch {id k : ℤ} {ref : ℕ} : (g.setBranch id ref).Has k ↔ g.Has k := by
  by_cases hk : k = id <;> simp [Has, setBranch, hk]

/-- A branch is drawn as the vertex of its id. -/
@[simp] lemma has_drawVertex {lastbranch : Option Branch} {ref : ℕ} {b : Branch} {id : ℤ} :
    (g.drawVertex lastbranch ref b).Has id ↔ id = b.id ∨ g.Has id := by
  rw [drawVertex, has_setBranch, ← has_createVertex]
  split <;> rfl

/-- The vertices made by the first loop. -/
lemma has_foldl_drawVertex {lastbranch : Option Branch} {id : ℤ} (l : List (ℕ × Branch)) :
    (l.foldl (fun g p => g.drawVertex lastbranch p.1 p.2) g).Has id ↔
      (∃ p ∈ l, p.2.id = id) ∨ g.Has id := by
  induction l generalizing g with
  | nil => simp
  | cons p l ih =>
    rw [List.foldl_cons, ih, has_drawVertex, List.exists_mem_cons_iff, eq_comm (a := id),
      ← or_assoc, or_comm (a := ∃ p ∈ l, _)]

/-- An entry is made at a vertex, and makes no other vertex. -/
lemma setEdge_spec (g : Graph) (a b : ℤ) (line : Line) :
    ((g.setEdge a b line).isSome ↔ g.Has a) ∧
      ∀ g' ∈ g.setEdge a b line, ∀ id, g'.Has id ↔ g.Has id := by
  cases ha : g.vertices a with
  | none => simp [setEdge, Has, ha]
  | some v =>
    refine ⟨by simp [setEdge, Has, ha], fun g' hg' id => ?_⟩
    simp only [setEdge, ha, Option.bind_eq_bind, Option.bind_some, Option.mem_def,
      Option.some.injEq] at hg'
    subst hg'
    by_cases hid : id = a <;> simp [Has, hid, ha]

/-- **An edge** can be made exactly between two vertices, and makes no other vertex. -/
lemma createEdge_spec (g : Graph) (a b : ℤ) (color : Option String) (size : Option ℕ) :
    ((g.createEdge a b color size).isSome ↔ g.Has a ∧ g.Has b) ∧
      ∀ g' ∈ g.createEdge a b color size, ∀ id, g'.Has id ↔ g.Has id := by
  set line : Line := ⟨color.getD "#86D479", size.getD 5, a, b⟩ with hline
  obtain ⟨hfirst, hsame⟩ := g.setEdge_spec a b line
  cases hg : g.setEdge a b line with
  | none =>
    have hnot : ¬ g.Has a := by simpa [hg] using hfirst
    simp [createEdge, ← hline, hg, hnot]
  | some g₁ =>
    have hhas : g.Has a := by simpa [hg] using hfirst
    obtain ⟨hsecond, hsame₁⟩ := g₁.setEdge_spec b a line
    rw [hsame g₁ hg] at hsecond
    refine ⟨?_, fun g' hg' id => ?_⟩
    · cases hg' : g₁.setEdge b a line <;>
        simp [createEdge, ← hline, hg, hg', hhas, ← hsecond]
    · simp only [createEdge, ← hline, hg, Option.bind_eq_bind, Option.bind_some, Option.mem_def,
        Option.bind_eq_some_iff, Option.some.injEq] at hg'
      obtain ⟨g₂, hg₂, rfl⟩ := hg'
      exact (hsame₁ g₂ hg₂ id).trans (hsame g₁ hg id)

/-- The second loop goes through if both ends of every edge are vertices. -/
lemma foldlM_drawEdge_isSome_iff (l : List (ℕ × Branch)) :
    (l.foldlM (fun g p => drawEdge g p.2) g).isSome ↔
      ∀ p ∈ l, p.2.parent ≠ 0 → g.Has p.2.parent ∧ g.Has p.2.id := by
  induction l generalizing g with
  | nil => simp
  | cons p l ih =>
    rw [List.foldlM_cons, List.forall_mem_cons]
    by_cases hroot : p.2.parent = 0
    · have hskip : g.drawEdge p.2 = some g := if_neg (by simpa using hroot)
      rw [hskip, Option.bind_eq_bind, Option.bind_some, ih]
      simp [hroot]
    · have hedge : g.drawEdge p.2 = g.createEdge p.2.parent p.2.id none none := if_pos hroot
      obtain ⟨hsome, hsame⟩ := g.createEdge_spec p.2.parent p.2.id none none
      rw [hedge]
      cases hg : g.createEdge p.2.parent p.2.id none none with
      | none =>
        rw [hg] at hsome
        simp [hroot, ← hsome]
      | some g₁ =>
        rw [hg] at hsome
        rw [Option.bind_eq_bind, Option.bind_some, ih]
        simp [hroot, ← hsome, hsame g₁ hg]

end Graph

/-- **Drawing the graph** of a document succeeds exactly when the parent of every branch of the
document is a branch of the document. -/
theorem Heap.entergraphview_isSome_iff {h : Heap} {lastbranch : Option Branch} {doc : ℤ} :
    (h.entergraphview lastbranch doc).isSome ↔
      ∀ p ∈ h.drawn doc, p.2.parent ≠ 0 → ∃ q ∈ h.drawn doc, q.2.id = p.2.parent := by
  rw [entergraphview, Graph.foldlM_drawEdge_isSome_iff]
  refine forall₂_congr fun p hp => imp_congr_right fun _ => ?_
  rw [Graph.has_foldl_drawVertex, Graph.has_foldl_drawVertex]
  constructor
  · rintro ⟨hparent, -⟩
    simpa using hparent
  · intro hparent
    exact ⟨.inl hparent, .inl ⟨p, hp, rfl⟩⟩

end SleepyText.Client
