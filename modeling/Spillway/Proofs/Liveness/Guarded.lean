import Spillway.Proofs.BitSet.Guarded
import Spillway.Proofs.Liveness.Fixpoint

/-!
# Liveness with checked accesses

The analysis once more, with every row, every list of successors and every word of a set read and
written at an index that is checked. It does not go astray on any function, and has the results of
`Liveness.analyze`, the errors included (`Guarded.analyze_eq`).

The one thing to know is that successors are places of the code (`Guarded.Inside`), which they are
by `Flow.mem_successors`. That no computation of a row changes the number of rows carries it through
a pass and through all passes.
-/

namespace Spillway

open Checked

namespace Guarded

/-! ## The analysis -/

/-- The registers from which a call with so many arguments takes them. -/
def callArgs (c : Convention) (n : Int64) : Checked (List Reg) :=
  slice c.args 0 (min n.toInt.toNat c.args.length)

/-- Registers as operands. -/
def operands (rs : List Reg) : Checked (List Operand) := fill rs fun _ r => return .reg r

/-- The operands whose values an instruction needs. -/
def uses (c : Convention) : Instr → Checked (List Operand)
  | .ret => operands c.exit
  | .call callee args => do return (← operands (← callArgs c args)) ++ [callee]
  | i => return i.uses c

/-- The operands whose values an instruction replaces. -/
def defs (c : Convention) : Instr → Checked (List Operand)
  | .call .. => operands c.callerSave
  | i => return i.defs c

/-- The nodes of operands. -/
def setOf (u : Nodes) (xs : List Operand) : Checked BitSet := ofList (xs.filterMap u.id?)

/-- The row of an instruction before the first pass. -/
def initial (c : Convention) (u : Nodes) (i : Instr) : Checked Row := do
  let gen ← setOf u (← uses c i)
  let kill ← setOf u (← defs c i)
  return { gen, kill, before := .empty, after := .empty }

/-- Resolve every jump of a function. -/
def resolve (f : Func) : Checked Flow := do
  let succ ← fill f.code fun index instr => done (Flow.successors f index instr)
  return { labels := f.labels, succ }

/-- What is live before some instruction of a list of places. -/
def joined (rows : Array Row) (places : List Nat) : Checked BitSet :=
  places.foldlM (fun s i => do union s (← cell rows i).before) .empty

/-- Compute the row of one instruction anew. -/
def update (succ : Array (List Nat)) (rows : Array Row) (i : Nat) : Checked (Array Row) := do
  let after ← joined rows (← cell succ i)
  let row ← cell rows i
  let before ← union (← diff after row.kill) row.gen
  setCell rows i { row with after, before }

/-- Compute all rows anew, the last one first. -/
def pass (succ : Array (List Nat)) (rows : Array Row) : Checked (Array Row) :=
  (List.range rows.size).reverse.foldlM (update succ) rows

/-- Pass over the rows until nothing new is found. -/
def iterate (size : Nat) (succ : Array (List Nat)) (rows : Array Row) (passes : Nat) :
    Checked (Array Row × Nat) := do
  let next ← pass succ rows
  if Liveness.missing size next < Liveness.missing size rows then
    iterate size succ next (passes + 1)
  else return (next, passes + 1)
termination_by Liveness.missing size rows

/-- Analyze a function. -/
def analyze (c : Convention) (f : Func) : Checked Liveness := do
  let flow ← (resolve f).within .controlFlow
  let nodes ← done (Nodes.ofFunc c f)
  let rows ← fill f.code fun _ instr => initial c nodes instr
  let (rows, passes) ← iterate nodes.size flow.succ.toArray rows.toArray 0
  return { nodes, flow, rows, passes }

/-! ## Before the first pass -/

theorem operands_eq (rs : List Reg) : operands rs = pure (rs.map .reg) :=
  fill_pure fun _ _ _ => rfl

theorem callArgs_eq (c : Convention) (n : Int64) : callArgs c n = pure (c.callArgs n) := by
  rw [callArgs, slice_eq (Nat.zero_le _) (Nat.min_le_right _ _), List.drop_zero,
    ← List.take_eq_take_min]
  rfl

theorem uses_eq (c : Convention) (i : Instr) : uses c i = pure (i.uses c) := by
  cases i with
  | ret => exact operands_eq c.exit
  | call callee args =>
      rw [uses, callArgs_eq, pure_bind, operands_eq, pure_bind]
      rfl
  | _ => rfl

theorem defs_eq (c : Convention) (i : Instr) : defs c i = pure (i.defs c) := by
  cases i with
  | call callee args => exact operands_eq c.callerSave
  | _ => rfl

theorem setOf_eq (u : Nodes) (xs : List Operand) : setOf u xs = pure (u.setOf xs) := ofList_eq _

theorem initial_eq (c : Convention) (u : Nodes) (i : Instr) :
    initial c u i = pure (Liveness.initial c u i) := by
  simp only [initial, uses_eq, defs_eq, setOf_eq, pure_bind]
  rfl

theorem resolve_eq (f : Func) : resolve f = .done (Flow.resolve f) := by
  rw [resolve, fill_eq, mapM_done]
  exact done_bind _ fun succ _ => rfl

/-! ## Passes -/

/-- There is a list of successors for every place, and all of them are places. -/
structure Inside (succ : Array (List Nat)) (size : Nat) : Prop where
  size_eq : succ.size = size
  lt : ∀ {i j}, j ∈ succ.getD i [] → j < size

theorem inside_of_resolve {f : Func} {flow : Flow} (h : Flow.resolve f = .ok flow) :
    Inside flow.succ.toArray f.code.length := by
  refine ⟨Flow.length_succ_of_resolve h, ?_⟩
  intro i j hj
  rw [Array.getD_eq_getD_getElem?, List.getElem?_toArray] at hj
  cases hi : f.code[i]? with
  | none =>
      have hnone : flow.succ[i]? = none := by
        rw [List.getElem?_eq_none_iff, Flow.length_succ_of_resolve h]
        exact List.getElem?_eq_none_iff.mp hi
      rw [hnone] at hj
      cases hj
  | some instr =>
      obtain ⟨js, hjs, hsucc⟩ := Flow.succ_of_resolve h hi
      rw [hjs] at hj
      exact ((Flow.mem_successors hsucc).mp hj).2

variable {succ : Array (List Nat)} {rows : Array Row}

theorem joined_eq {places : List Nat} (h : ∀ j ∈ places, j < rows.size) :
    joined rows places = pure (Liveness.joined rows places) := by
  refine foldlM_eq (fun s j hj => ?_) BitSet.empty
  rw [cell_eq_getD (h j hj) default, pure_bind, union_eq]

theorem update_eq (h : Inside succ rows.size) {i : Nat} (hi : i < rows.size) :
    update succ rows i = pure (Liveness.update succ rows i) := by
  have hsucc : i < succ.size := h.size_eq.symm ▸ hi
  have hrow : rows[i]? = some rows[i] := Array.getElem?_eq_getElem hi
  have hjoined : joined rows (succ.getD i []) = pure (Liveness.joined rows (succ.getD i [])) :=
    joined_eq fun j hj => h.lt hj
  simp only [update, cell_eq_getD hsucc [], hjoined, cell_eq hrow, diff_eq, union_eq,
    setCell_eq hi, pure_bind, Liveness.update, modify_eq_setIfInBounds hrow]

theorem pass_eq (h : Inside succ rows.size) :
    pass succ rows = pure (Liveness.pass succ rows) ∧
      (Liveness.pass succ rows).size = rows.size := by
  rw [Liveness.pass, ← List.foldl_reverse]
  refine foldlM_pure (fun rows' : Array Row => rows'.size = rows.size) rfl ?_
  intro rows' hsize i hi
  have hlt : i < rows.size := List.mem_range.mp (List.mem_reverse.mp hi)
  exact ⟨update_eq (hsize ▸ h) (hsize ▸ hlt), (Liveness.size_update succ rows' i).trans hsize⟩

theorem iterate_eq (size : Nat) (h : Inside succ rows.size) (passes : Nat) :
    iterate size succ rows passes = pure (Liveness.iterate size succ rows passes) := by
  induction rows, passes using Liveness.iterate.induct size succ with
  | case1 rows passes next hlt ih =>
      rw [iterate, (pass_eq h).1, pure_bind, if_pos hlt, Liveness.iterate, if_pos hlt]
      exact ih ((pass_eq h).2 ▸ h)
  | case2 rows passes next hlt =>
      rw [iterate, (pass_eq h).1, pure_bind, if_neg hlt, Liveness.iterate, if_neg hlt]

/-! ## The analysis never goes astray -/

theorem analyze_eq (c : Convention) (f : Func) : analyze c f = .done (Liveness.analyze c f) := by
  unfold analyze
  rw [resolve_eq]
  refine done_bind _ fun flow hflow => done_bind _ fun u hu => ?_
  have hinside := inside_of_resolve (inContext_eq_ok.mp hflow)
  rw [fill_pure fun _ i _ => initial_eq c u i, pure_bind, iterate_eq _ (by simpa using hinside),
    pure_bind]
  rfl

end Guarded

end Spillway
