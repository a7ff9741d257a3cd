import Spillway.Liveness.Nodes

/-!
# Graphs

An undirected graph without loops over the nodes of a function, as one set of neighbors a node.
-/

namespace Spillway

/-- Nodes and the neighbors of each. -/
structure Graph where
  nodes : Nodes
  adj : Array BitSet
  deriving Repr, Inhabited

namespace Graph

/-- The graph without edges. -/
def empty (u : Nodes) : Graph := ⟨u, Array.replicate u.size .empty⟩

/-- The number of nodes. -/
def size (g : Graph) : Nat := g.adj.size

/-- The neighbors of a node. -/
def neighbors (g : Graph) (a : Nat) : BitSet := g.adj.getD a .empty

/-- Are two nodes joined by an edge? -/
def hasEdge (g : Graph) (a b : Nat) : Bool := (g.neighbors a).contains b

/-- The number of neighbors of a node. -/
def degree (g : Graph) (a : Nat) : Nat := (g.neighbors a).size

/-- Join two nodes, unless they are one. -/
def addEdge (g : Graph) (a b : Nat) : Graph :=
  if a = b then g
  else { g with adj := (g.adj.modify a (·.insert b)).modify b (·.insert a) }

/-- Join the pairs of a list. -/
def addEdges (g : Graph) (pairs : List (Nat × Nat)) : Graph :=
  pairs.foldl (fun g (a, b) => g.addEdge a b) g

/-- Every edge once, the smaller end first, in lexicographic order. -/
def edges (g : Graph) : List (Nat × Nat) :=
  (List.range g.size).flatMap fun a => ((g.neighbors a).toList.filter (a < ·)).map (a, ·)

/-- Are two operands joined? Operands that are no nodes never are. -/
def interfere (g : Graph) (x y : Operand) : Bool :=
  match g.nodes.id? x, g.nodes.id? y with
  | some a, some b => g.hasEdge a b
  | _, _ => false

/-! ## Adding edges -/

@[simp] theorem nodes_addEdge (g : Graph) (a b : Nat) : (g.addEdge a b).nodes = g.nodes := by
  unfold addEdge
  split <;> rfl

@[simp] theorem size_addEdge (g : Graph) (a b : Nat) : (g.addEdge a b).size = g.size := by
  unfold addEdge
  split <;> simp [size]

@[simp] theorem size_empty (u : Nodes) : (empty u).size = u.size := by
  simp [size, empty]

theorem neighbors_empty (u : Nodes) (a : Nat) : (empty u).neighbors a = .empty := by
  simp only [neighbors, empty, Array.getD_eq_getD_getElem?, Array.getElem?_replicate]
  split <;> rfl

@[simp] theorem hasEdge_empty (u : Nodes) (a b : Nat) : (empty u).hasEdge a b = false := by
  simp [hasEdge, neighbors_empty]

/-- Changing the neighbors of one node of a graph. -/
theorem getD_modify (adj : Array BitSet) (f : BitSet → BitSet) {a : Nat} (ha : a < adj.size) (x : Nat) :
    (adj.modify a f).getD x .empty =
      if a = x then f (adj.getD x .empty) else adj.getD x .empty := by
  simp only [Array.getD_eq_getD_getElem?, Array.getElem?_modify]
  by_cases hax : a = x
  · subst hax
    simp [Array.getElem?_eq_getElem ha]
  · simp [hax]

/-- Adding an edge joins its two ends, unless they are one node, and nothing else. -/
theorem hasEdge_addEdge {g : Graph} {a b : Nat} (ha : a < g.size) (hb : b < g.size) (x y : Nat) :
    (g.addEdge a b).hasEdge x y = true ↔
      g.hasEdge x y = true ∨ (x ≠ y ∧ ((x = a ∧ y = b) ∨ (x = b ∧ y = a))) := by
  unfold addEdge
  by_cases hab : a = b
  · subst hab
    rw [if_pos rfl]
    constructor
    · exact .inl
    · rintro (h | ⟨hne, h⟩)
      · exact h
      · exact absurd (by rcases h with ⟨rfl, rfl⟩ | ⟨rfl, rfl⟩ <;> rfl) hne
  · rw [if_neg hab]
    simp only [hasEdge, neighbors]
    rw [getD_modify _ _ (by simpa [size] using hb), getD_modify _ _ ha]
    by_cases hbx : b = x <;> by_cases hax : a = x
    · exact absurd (hax.trans hbx.symm) hab
    · simp only [if_pos hbx, if_neg hax, BitSet.contains_insert, Bool.or_eq_true,
        decide_eq_true_eq]
      grind
    · simp only [if_neg hbx, if_pos hax, BitSet.contains_insert, Bool.or_eq_true,
        decide_eq_true_eq]
      grind
    · simp only [if_neg hbx, if_neg hax]
      grind

@[simp] theorem nodes_addEdges (g : Graph) (pairs : List (Nat × Nat)) :
    (g.addEdges pairs).nodes = g.nodes := by
  induction pairs generalizing g with
  | nil => rfl
  | cons e pairs ih => exact (ih (g.addEdge e.1 e.2)).trans (nodes_addEdge g e.1 e.2)

@[simp] theorem size_addEdges (g : Graph) (pairs : List (Nat × Nat)) :
    (g.addEdges pairs).size = g.size := by
  induction pairs generalizing g with
  | nil => rfl
  | cons e pairs ih => exact (ih (g.addEdge e.1 e.2)).trans (size_addEdge g e.1 e.2)

/-- Adding edges joins the ends of each, and nothing else. -/
theorem hasEdge_addEdges {g : Graph} {pairs : List (Nat × Nat)}
    (h : ∀ e ∈ pairs, e.1 < g.size ∧ e.2 < g.size) (x y : Nat) :
    (g.addEdges pairs).hasEdge x y = true ↔
      g.hasEdge x y = true ∨ (x ≠ y ∧ ((x, y) ∈ pairs ∨ (y, x) ∈ pairs)) := by
  induction pairs generalizing g with
  | nil => simp [addEdges]
  | cons e pairs ih =>
    obtain ⟨a, b⟩ := e
    obtain ⟨ha, hb⟩ := h (a, b) List.mem_cons_self
    have hrest : ∀ e ∈ pairs, e.1 < (g.addEdge a b).size ∧ e.2 < (g.addEdge a b).size := by
      intro e he
      rw [size_addEdge]
      exact h e (List.mem_cons_of_mem _ he)
    show ((g.addEdge a b).addEdges pairs).hasEdge x y = true ↔ _
    rw [ih hrest, hasEdge_addEdge ha hb]
    simp only [List.mem_cons, Prod.mk.injEq]
    grind

end Graph

end Spillway
