import Mathlib.Algebra.BigOperators.Fin
import Mathlib.Combinatorics.SimpleGraph.DegreeSum
import Mathlib.Data.Sym.Sym2.Order
import Spillway.Proofs.Interference.Edges

/-!
# Edges and degrees

A graph keeps every edge twice, in the set of neighbors of either end. Whatever pairs of nodes are
joined, in whatever order and direction, also repeatedly and to themselves, the two sets stay in
step, and all that can be asked of the graph is determined by the pairs (`Graph.JoinedBy`,
`joinedBy_addEdges`).

What one more pair changes is `hasEdge_addEdge`, and what any list of pairs leads to is
`hasEdge_addEdges`. The rest follows from the graph being simple: it is then a `SimpleGraph` on its
nodes (`Simple.toSimpleGraph`), with the same degrees and as many edges, so that the degrees count
every edge twice (`Simple.sum_degree`).
-/

namespace Spillway

namespace Graph

variable {g : Graph} {a b : Nat}

/-! ## The list of edges -/

theorem mem_edges : (a, b) ∈ g.edges ↔ a < g.size ∧ a < b ∧ g.hasEdge a b = true := by
  simp only [edges, List.mem_flatMap, List.mem_range, List.mem_map, List.mem_filter,
    BitSet.mem_toList, decide_eq_true_eq, Prod.mk.injEq]
  constructor
  · rintro ⟨x, hx, y, ⟨hy, hxy⟩, rfl, rfl⟩
    exact ⟨hx, hxy, hy⟩
  · rintro ⟨ha, hab, hedge⟩
    exact ⟨a, ha, b, ⟨hedge, hab⟩, rfl, rfl⟩

/-- Edges are listed by their smaller ends, and those with the same one by their larger ends. -/
theorem pairwise_edges (g : Graph) : g.edges.Pairwise (Prod.Lex (· < ·) (· < ·)) := by
  refine List.pairwise_flatMap.mpr ⟨?_, List.pairwise_lt_range.imp ?_⟩
  · intro a _
    have hrow := (g.neighbors a).pairwise_toList.filter (a < ·)
    exact List.pairwise_map.mpr (hrow.imp fun h => .right a h)
  · intro a a' haa' e he e' he'
    obtain ⟨b, _, rfl⟩ := List.mem_map.mp he
    obtain ⟨b', _, rfl⟩ := List.mem_map.mp he'
    exact .left b b' haa'

/-! ## Unordered pairs -/

/-- The two ends of an unordered pair of nodes, the smaller one first. -/
def ends {n : Nat} (e : Sym2 (Fin n)) : Nat × Nat := (e.inf, e.sup)

theorem ends_mk {n : Nat} {x y : Fin n} (h : x < y) : ends s(x, y) = (x.val, y.val) := by
  rw [ends, Sym2.inf_mk, Sym2.sup_mk, inf_of_le_left h.le, sup_of_le_right h.le]

theorem ends_injective (n : Nat) : Function.Injective (@ends n) := by
  intro e e' h
  have hends : e.inf.val = e'.inf.val ∧ e.sup.val = e'.sup.val := Prod.mk.inj h
  exact Sym2.inf_eq_inf_and_sup_eq_sup.mp ⟨Fin.ext hends.1, Fin.ext hends.2⟩

namespace Simple

/-! ## Degrees -/

/-- The degree of a node counts the nodes that are joined to it. -/
theorem degree_eq (hg : g.Simple) (a : Nat) :
    g.degree a = {b ∈ Finset.range g.size | g.hasEdge a b = true}.card := by
  have hrow : (g.neighbors a).toList.toFinset =
      {b ∈ Finset.range g.size | g.hasEdge a b = true} := by
    ext b
    rw [List.mem_toFinset, BitSet.mem_toList, Finset.mem_filter, Finset.mem_range]
    constructor
    · intro hedge
      exact ⟨hg.size ▸ (hg.lt_of_hasEdge hedge).2, hedge⟩
    · exact And.right
  rw [degree, ← BitSet.length_toList, ← hrow,
    List.toFinset_card_of_nodup (BitSet.nodup_toList _)]

/-! ## Every edge has two ends -/

/-- The graph on its nodes, without its representation. -/
def toSimpleGraph (hg : g.Simple) : SimpleGraph (Fin g.size) where
  Adj a b := g.hasEdge a b = true
  symm := ⟨fun _ _ => hg.symm⟩
  loopless := ⟨fun a => by simp [hg.irrefl]⟩

instance (hg : g.Simple) : DecidableRel hg.toSimpleGraph.Adj :=
  fun a b => inferInstanceAs (Decidable (g.hasEdge a b = true))

theorem degree_toSimpleGraph (hg : g.Simple) (a : Fin g.size) :
    hg.toSimpleGraph.degree a = g.degree a := by
  have hnodes : (hg.toSimpleGraph.neighborFinset a).map Fin.valEmbedding =
      {b ∈ Finset.range g.size | g.hasEdge a b = true} := by
    ext b
    simp only [Finset.mem_map, SimpleGraph.mem_neighborFinset, Fin.valEmbedding_apply,
      Finset.mem_filter, Finset.mem_range]
    constructor
    · rintro ⟨b, hedge, rfl⟩
      exact ⟨b.isLt, hedge⟩
    · rintro ⟨hb, hedge⟩
      exact ⟨⟨b, hb⟩, hedge, rfl⟩
  rw [hg.degree_eq a, ← hnodes, Finset.card_map, SimpleGraph.card_neighborFinset_eq_degree]

/-- The edges that are listed are the unordered pairs of nodes that are joined. -/
theorem image_ends_edgeFinset (hg : g.Simple) :
    hg.toSimpleGraph.edgeFinset.image ends = g.edges.toFinset := by
  ext ⟨a, b⟩
  rw [Finset.mem_image, List.mem_toFinset, mem_edges]
  constructor
  · rintro ⟨e, he, hab⟩
    induction e with
    | _ x y =>
      have hedge : g.hasEdge x y = true := SimpleGraph.mem_edgeFinset.mp he
      -- the pair is listed at its smaller end, whichever of the two that is
      rcases lt_trichotomy x y with hxy | rfl | hyx
      · rw [ends_mk hxy] at hab
        cases hab
        exact ⟨x.isLt, hxy, hedge⟩
      · rw [hg.irrefl] at hedge
        cases hedge
      · rw [Sym2.eq_swap, ends_mk hyx] at hab
        cases hab
        exact ⟨y.isLt, hyx, hg.symm hedge⟩
  · rintro ⟨ha, hab, hedge⟩
    have hb : b < g.size := hg.size ▸ (hg.lt_of_hasEdge hedge).2
    exact ⟨s(⟨a, ha⟩, ⟨b, hb⟩), SimpleGraph.mem_edgeFinset.mpr hedge, ends_mk hab⟩

theorem card_edgeFinset_toSimpleGraph (hg : g.Simple) :
    hg.toSimpleGraph.edgeFinset.card = g.edges.length := by
  rw [← Finset.card_image_of_injective _ (ends_injective g.size), hg.image_ends_edgeFinset,
    List.toFinset_card_of_nodup g.pairwise_edges.nodup]

/-- The degrees of all nodes count every edge twice. -/
theorem sum_degree (hg : g.Simple) :
    ∑ a ∈ Finset.range g.size, g.degree a = 2 * g.edges.length := by
  calc ∑ a ∈ Finset.range g.size, g.degree a
    _ = ∑ a : Fin g.size, g.degree a := Finset.sum_range _
    _ = ∑ a : Fin g.size, hg.toSimpleGraph.degree a :=
        Finset.sum_congr rfl fun a _ => (hg.degree_toSimpleGraph a).symm
    _ = 2 * hg.toSimpleGraph.edgeFinset.card :=
        hg.toSimpleGraph.sum_degrees_eq_twice_card_edges
    _ = 2 * g.edges.length := by rw [hg.card_edgeFinset_toSimpleGraph]

end Simple

/-! ## Graphs of given pairs -/

/-- The edges of the graph are the pairs of `es`, on `n` nodes. -/
structure JoinedBy (g : Graph) (n : Nat) (es : List (Nat × Nat)) : Prop where
  /-- Two nodes are joined if they are different and a pair, in this order or the other. -/
  hasEdge_iff : ∀ a b, g.hasEdge a b = true ↔ a ≠ b ∧ ((a, b) ∈ es ∨ (b, a) ∈ es)
  symm : ∀ a b, g.hasEdge a b = g.hasEdge b a
  irrefl : ∀ a, g.hasEdge a a = false
  /-- The edges that are listed are the pairs of different nodes, the smaller one first. -/
  mem_edges_iff : ∀ a b, (a, b) ∈ g.edges ↔ a < b ∧ ((a, b) ∈ es ∨ (b, a) ∈ es)
  /-- The list increases strictly in lexicographic order, so no edge comes twice. -/
  sorted : g.edges.Pairwise (Prod.Lex (· < ·) (· < ·))
  nodup : g.edges.Nodup
  /-- The degree of a node is the number of nodes that are joined to it. -/
  degree_eq : ∀ a, g.degree a = {b ∈ Finset.range n | g.hasEdge a b = true}.card
  /-- The degrees count every edge twice. -/
  sum_degree : ∑ a ∈ Finset.range n, g.degree a = 2 * g.edges.length

/-- Joining pairs of nodes, in any order and however often, makes the graph of these pairs. -/
theorem joinedBy_addEdges (u : Nodes) {es : List (Nat × Nat)}
    (hes : ∀ e ∈ es, e.1 < u.size ∧ e.2 < u.size) :
    ((empty u).addEdges es).JoinedBy u.size es := by
  have hg := simple_addEdges hes
  have hsize : ((empty u).addEdges es).size = u.size := by rw [size_addEdges, size_empty]
  have hedge := hasEdge_addEdges_empty hes
  refine ⟨hedge, ?_, hg.irrefl, ?_, pairwise_edges _, (pairwise_edges _).nodup, ?_, ?_⟩
  · intro a b
    exact Bool.eq_iff_iff.mpr ⟨hg.symm, hg.symm⟩
  · intro a b
    rw [mem_edges, hedge, hsize]
    constructor
    · rintro ⟨_, hab, _, hmem⟩
      exact ⟨hab, hmem⟩
    · rintro ⟨hab, hmem⟩
      have ha : a < u.size := hmem.elim (fun h => (hes _ h).1) fun h => (hes _ h).2
      exact ⟨ha, hab, Nat.ne_of_lt hab, hmem⟩
  · intro a
    rw [hg.degree_eq a, hsize]
  · rw [← hsize, hg.sum_degree]

/-- Pairs that are repeated, turned around or loops: two edges are left, and the node that both of
them have is joined to two nodes. -/
theorem joinedBy_addEdges_repeated :
    ∃ u g, u = Nodes.mk [.rcx, .rax] [⟨"x"⟩, ⟨"y"⟩] ∧
      g = (empty u).addEdges [(2, 0), (3, 3), (1, 2), (0, 2), (2, 1), (2, 0)] ∧
      g.JoinedBy 4 [(2, 0), (3, 3), (1, 2), (0, 2), (2, 1), (2, 0)] ∧
      g.edges = [(0, 2), (1, 2)] ∧ g.degree 2 = 2 ∧ ∑ a ∈ Finset.range 4, g.degree a = 4 := by
  let u : Nodes := ⟨[.rcx, .rax], [⟨"x"⟩, ⟨"y"⟩]⟩
  have hes : ∀ e ∈ [(2, 0), (3, 3), (1, 2), (0, 2), (2, 1), (2, 0)],
      e.1 < u.size ∧ e.2 < u.size := by decide
  have hjoined := joinedBy_addEdges u hes
  refine ⟨_, _, rfl, rfl, hjoined, by decide +kernel, by decide +kernel, ?_⟩
  exact hjoined.sum_degree.trans (by decide +kernel)

end Graph

end Spillway
