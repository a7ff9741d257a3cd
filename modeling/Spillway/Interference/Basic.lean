import Spillway.Interference.Graph
import Spillway.Liveness.Basic
import Spillway.Ordered

/-!
# Interference

Two nodes interfere when one register cannot hold both. The edges of the interference graph are

* all pairs of registers;
* all pairs of nodes that are live before the same instruction;
* every node that an instruction defines with every node live after it, except that a move does not
  make its two sides interfere;
* every variable that counts a shift with every register of the palette but the one for counts.
-/

namespace Spillway

/-- The interference graph of a function. -/
structure Interference where
  graph : Graph
  /-- The variables that count shifts and that some move relates to a register other than the one
  for counts, in the order of their names. Coloring cannot honor those moves. -/
  shiftCoalesced : List Var
  deriving Repr, Inhabited

namespace Interference

/-- The pairs of members of an ascending list, the smaller one first. -/
def pairs (ids : List Nat) : List (Nat × Nat) :=
  ids.flatMap fun a => (ids.filter (a < ·)).map (a, ·)

/-- The nodes that a move relates: its destination and its source. -/
def move? (u : Nodes) : Instr → Option (Nat × Nat)
  | .mov dst src =>
    match u.id? dst, u.id? src with
    | some d, some s => some (d, s)
    | _, _ => none
  | _ => none

/-- The variable that counts a shift. -/
def shiftVar? : Instr → Option Var
  | .shift _ _ (.var v) => some v
  | _ => none

/-- The edges between what an instruction defines and what is live after it. -/
def defEdges (u : Nodes) (i : Instr) (row : Row) : List (Nat × Nat) :=
  (row.kill.toList.flatMap fun k => row.after.toList.map (k, ·)).filter
    fun e => move? u i != some e

/-- The edges that keep a variable in the register for shift counts. -/
def shiftEdges (c : Convention) (u : Nodes) (v : Var) : Except Error (List (Nat × Nat)) := do
  match u.id? (.var v) with
  | none => throw (.defect (.foreignVar v))
  | some a =>
    (c.palette.filter (· ≠ c.shiftCount)).mapM fun r =>
      match u.id? (.reg r) with
      | none => throw (.defect (.foreignReg r))
      | some b => return (a, b)

/-- The edges that one instruction asks for. -/
def instrEdges (c : Convention) (u : Nodes) (i : Instr) (row : Row) :
    Except Error (List (Nat × Nat)) := do
  let shift ← match shiftVar? i with
    | some v => shiftEdges c u v
    | none => pure []
  return pairs row.before.toList ++ defEdges u i row ++ shift

/-- The variable and the register that a move between nodes relates. -/
def moveRelation? (u : Nodes) (i : Instr) : Option (Var × Reg) :=
  if (move? u i).isSome then
    match i with
    | .mov (.var v) (.reg r) => some (v, r)
    | .mov (.reg r) (.var v) => some (v, r)
    | _ => none
  else none

/-- The variables of a list in the order of their names. -/
def byName (vs : List Var) : List Var := ordered (fun v w => decide (v.name ≤ w.name)) vs

/-- The variables that count shifts and are moved from or to another register. -/
def coalesced (c : Convention) (u : Nodes) (code : List Instr) : List Var :=
  let moves := code.filterMap (moveRelation? u)
  byName <| (code.filterMap shiftVar?).eraseDups.filter fun v =>
    moves.any fun (w, r) => w = v && r ≠ c.shiftCount

/-- The interference graph of a function, from the liveness of as many instructions. -/
def build (c : Convention) (f : Func) (live : Liveness) : Except Error Interference := do
  let rows := live.rows.toList
  if rows.length ≠ f.code.length then
    throw (.of (.tableSize rows.length f.code.length))
  let u := live.nodes
  let edges ← (f.code.zip rows).mapM fun (i, row) => instrEdges c u i row
  let graph := (Graph.empty u).addEdges (pairs (List.range u.regs.length) ++ edges.flatten)
  return { graph, shiftCoalesced := coalesced c u f.code }

end Interference

end Spillway
