import Spillway.Proofs.Interference.Edges
import Spillway.Proofs.Liveness.Guarded

/-!
# Interference with checked accesses

Building the graph once more, with the rows of the tables and the neighbors of a node read and
written at indices that are checked. For the tables of the function itself, building goes astray
neither at a row nor at an end of an edge, and makes the graph of `Interference.build`
(`Guarded.build_eq`). All there is to know of the edges is that their ends are nodes
(`Interference.bound_edges`).
-/

namespace Spillway

open Checked

namespace Guarded

/-! ## Building -/

/-- Join two nodes, unless they are one. -/
def addEdge (g : Graph) (a b : Nat) : Checked Graph :=
  if a = b then pure g
  else do
    let adj ← setCell g.adj a (← insert (← cell g.adj a) b)
    let adj ← setCell adj b (← insert (← cell adj b) a)
    return { g with adj }

/-- Join the pairs of a list. -/
def addEdges (g : Graph) (es : List (Nat × Nat)) : Checked Graph :=
  es.foldlM (fun g e => addEdge g e.1 e.2) g

/-- Join what one instruction asks for. -/
def join (c : Convention) (u : Nodes) (g : Graph) (i : Instr) (row : Row) : Checked Graph := do
  addEdges g (← done (Interference.instrEdges c u i row))

/-- The interference graph of a function, from the liveness of as many instructions. -/
def build (c : Convention) (f : Func) (live : Liveness) : Checked Interference :=
  let u := live.nodes
  if live.rows.size ≠ f.code.length then
    done (.error (.of (.tableSize live.rows.size f.code.length)))
  else do
    let graph ← addEdges (.empty u) (Interference.pairs (List.range u.regs.length))
    let graph ← f.code.zipIdx.foldlM
      (fun g p => do join c u g p.1 (← cell live.rows p.2)) graph
    return { graph, shiftCoalesced := Interference.coalesced c u f.code }

/-! ## Edges -/

theorem addEdge_eq {g : Graph} {a b : Nat} (ha : a < g.size) (hb : b < g.size) :
    addEdge g a b = pure (g.addEdge a b) := by
  unfold addEdge Graph.addEdge
  split
  · rfl
  · rename_i hab
    have hrow : g.adj[a]? = some g.adj[a] := Array.getElem?_eq_getElem ha
    rw [cell_eq hrow, pure_bind, insert_eq, pure_bind, setCell_eq ha, pure_bind,
      ← modify_eq_setIfInBounds hrow (·.insert b)]
    have hb' : b < (g.adj.modify a (·.insert b)).size := by simpa [Graph.size] using hb
    have hrow' := Array.getElem?_eq_getElem hb'
    rw [cell_eq hrow', pure_bind, insert_eq, pure_bind, setCell_eq hb', pure_bind,
      ← modify_eq_setIfInBounds hrow' (·.insert a)]

-- an end that is no node
example : addEdge (.empty ⟨[.rcx], [⟨"x"⟩]⟩) 0 2 = .stray := rfl

theorem addEdges_eq {g : Graph} {es : List (Nat × Nat)}
    (h : ∀ e ∈ es, e.1 < g.size ∧ e.2 < g.size) : addEdges g es = pure (g.addEdges es) := by
  refine (foldlM_pure (fun g' : Graph => g'.size = g.size) rfl fun g' hsize e he => ?_).1
  obtain ⟨ha, hb⟩ := h e he
  exact ⟨addEdge_eq (hsize ▸ ha) (hsize ▸ hb), (Graph.size_addEdge g' e.1 e.2).trans hsize⟩

theorem addEdges_append (g : Graph) (es es' : List (Nat × Nat)) :
    addEdges g (es ++ es') = addEdges g es >>= fun g => addEdges g es' := List.foldlM_append

/-- Joining the edges of one instruction after the other joins all of them in turn. -/
theorem foldlM_join {c : Convention} {u : Nodes} {ps : List (Instr × Row)}
    {edges : List (List (Nat × Nat))}
    (h : ps.mapM (fun p => Interference.instrEdges c u p.1 p.2) = .ok edges) (g : Graph) :
    ps.foldlM (fun g p => join c u g p.1 p.2) g = addEdges g edges.flatten := by
  rw [mapM_eq_ok] at h
  induction ps generalizing edges g with
  | nil =>
      have hnil : edges = [] := List.map_eq_nil_iff.mp h.symm
      rw [hnil]
      rfl
  | cons p ps ih =>
      cases edges with
      | nil => cases h
      | cons es edges =>
          obtain ⟨hes, hrest⟩ := List.cons.inj h
          have hjoin : join c u g p.1 p.2 = addEdges g es := congrArg (done · >>= addEdges g) hes
          rw [List.foldlM_cons, hjoin, List.flatten_cons, addEdges_append]
          exact bind_congr fun g => ih hrest g

/-! ## Building never goes astray -/

theorem build_eq {c : Convention} {f : Func} {live : Liveness} {g : Interference}
    (hlive : Liveness.Solution c f live) (h : Interference.build c f live = .ok g) :
    build c f live = pure g := by
  rw [Interference.build_eq hlive.size] at h
  obtain ⟨edges, hedges, h⟩ := bind_eq_ok.mp h
  cases h
  have hsize : ¬ live.rows.size ≠ f.code.length := fun hne => hne hlive.size
  have hbound := Interference.bound_edges hlive hedges
  simp only [build, if_neg hsize, foldlM_zipIdx _ hlive.size, foldlM_join hedges]
  rw [← bind_assoc, ← addEdges_append, addEdges_eq (by simpa using hbound), pure_bind]

end Guarded

end Spillway
