import Spillway.Liveness.Effect
import Spillway.Liveness.Flow

/-!
# Liveness

A node is live before an instruction when some way on from there uses it before it is defined anew.
The sets of live nodes are the least solution of

* live after `i` = what is live before some successor of `i`;
* live before `i` = what `i` uses, and what is live after `i` and not defined by `i`.

It is found by passes over the code, from the last instruction to the first, each using what the
pass has found so far, until a pass finds nothing new. A pass only ever adds facts, so it has found
something new exactly if fewer facts are missing after it: that number is what ends the iteration.
-/

namespace Spillway

/-- What is known of one instruction. -/
structure Row where
  gen : BitSet
  kill : BitSet
  before : BitSet
  after : BitSet
  deriving DecidableEq, Repr, Inhabited

/-- The number of nodes, of `size`, that a row does not list as live before the instruction, and
after it. -/
def Row.missing (size : Nat) (row : Row) : Nat :=
  (size - row.before.size) + (size - row.after.size)

/-- Liveness of the instructions of a function. -/
structure Liveness where
  nodes : Nodes
  flow : Flow
  rows : Array Row
  /-- The number of passes, the last one, which found nothing new, included. -/
  passes : Nat
  deriving Repr

namespace Liveness

/-- What is live before some instruction of a list of places. -/
def joined (rows : Array Row) (places : List Nat) : BitSet :=
  places.foldl (fun s i => s.union (rows.getD i default).before) .empty

/-- Compute the row of one instruction anew. -/
def update (succ : Array (List Nat)) (rows : Array Row) (i : Nat) : Array Row :=
  let after := joined rows (succ.getD i [])
  rows.modify i fun row => { row with after, before := (after.diff row.kill).union row.gen }

/-- Compute all rows anew, the last one first. -/
def pass (succ : Array (List Nat)) (rows : Array Row) : Array Row :=
  (List.range rows.size).foldr (fun i rows => update succ rows i) rows

/-- The number of nodes that the rows do not list as live. -/
def missing (size : Nat) (rows : Array Row) : Nat :=
  rows.toList.foldr (fun row n => row.missing size + n) 0

/-- Pass over the rows until nothing new is found; `done` counts the passes. -/
def iterate (size : Nat) (succ : Array (List Nat)) (rows : Array Row) (done : Nat) :
    Array Row × Nat :=
  let next := pass succ rows
  if missing size next < missing size rows then iterate size succ next (done + 1)
  else (next, done + 1)
termination_by missing size rows

/-- The row of an instruction before the first pass. -/
def initial (c : Convention) (u : Nodes) (i : Instr) : Row :=
  let e := Effect.of c u i
  { gen := e.gen, kill := e.kill, before := .empty, after := .empty }

/-- Analyze a function. -/
def analyze (c : Convention) (f : Func) : Except Error Liveness := do
  let flow ← inContext .controlFlow (Flow.resolve f)
  let nodes ← Nodes.ofFunc c f
  let rows := (f.code.map (initial c nodes)).toArray
  let (rows, passes) := iterate nodes.size flow.succ.toArray rows 0
  return { nodes, flow, rows, passes }

end Liveness

end Spillway
