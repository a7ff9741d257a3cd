import Spillway.Interference.Basic

/-!
# Coloring

Every variable of a graph is given a register of the palette that none of its neighbors has, or is
chosen to be spilled.

The nodes are ordered by degree, then by id. With a palette of `k` registers, the first `k` nodes of
this order are set aside. The others choose in order; after them the first `k` choose, the last one
first. A variable takes the first register that no neighbor has been given, and if all are
taken it is spilled. Registers have their own color from the start.
-/

namespace Spillway

/-- Registers for variables. -/
abbrev Assignment := List (Var × Reg)

/-- The result of coloring: a register for every variable, or the variables to spill. -/
inductive Coloring where
  | colored (registers : Assignment)
  | spilled (vars : List Var)
  deriving DecidableEq, Repr

namespace Coloring

/-- The registers, if every variable has one. -/
def registers? : Coloring → Option Assignment
  | colored a => some a
  | spilled _ => none

/-- The variables to spill. -/
def spills : Coloring → List Var
  | colored _ => []
  | spilled vs => vs

/-- May a node with its degree come before another one? -/
def precedes (x y : Nat × Nat) : Bool := x.1 < y.1 || (x.1 == y.1 && x.2 ≤ y.2)

/-- The nodes of a graph by degree, then by id. -/
def order (g : Graph) : List Nat :=
  (ordered precedes ((List.range g.size).map fun a => (g.degree a, a))).map Prod.snd

/-- The nodes in the order in which they choose. -/
def turns (k : Nat) (nodes : List Nat) : List Nat := nodes.drop k ++ (nodes.take k).reverse

/-- Choices made so far: colors by node, and the variables that found none, the last one first. -/
structure Choices where
  colors : Array (Option Nat)
  spills : List Var
  deriving Repr

/-- The choices before the first turn: registers have their own color. -/
def start (c : Convention) (u : Nodes) : Choices :=
  ⟨(u.regs.map c.color? ++ u.vars.map fun _ => none).toArray, []⟩

/-- The colors of the neighbors of a node. -/
def blocked (g : Graph) (ch : Choices) (a : Nat) : BitSet :=
  BitSet.ofList ((g.neighbors a).toList.filterMap fun b => ch.colors.getD b none)

/-- The first of `k` colors that is not blocked. -/
def firstFree? (k : Nat) (taken : BitSet) : Option Nat :=
  (List.range k).find? fun color => !taken.contains color

/-- The turn of one node. Registers have no choice. -/
def choose (k : Nat) (g : Graph) (ch : Choices) (a : Nat) : Choices :=
  match g.nodes.var? a with
  | none => ch
  | some v =>
    let taken := blocked g ch a
    if k ≤ taken.size then { ch with spills := v :: ch.spills }
    else { ch with colors := ch.colors.setIfInBounds a (firstFree? k taken) }

/-- The registers of the colors that the variables have been given. -/
def assignment (c : Convention) (u : Nodes) (ch : Choices) : Assignment :=
  u.vars.zipIdx.filterMap fun (v, i) => do
    let color ← ch.colors.getD (u.regs.length + i) none
    let r ← c.palette[color]?
    return (v, r)

/-- Color a graph. Its registers must be as many as those of the palette. -/
def color (c : Convention) (g : Graph) : Except Error Coloring :=
  let k := c.size
  if g.nodes.regs.length ≠ k then .error (.of (.paletteSize g.nodes.regs.length k))
  else
    let ch := (turns k (order g)).foldl (choose k g) (start c g.nodes)
    .ok <| if ch.spills.isEmpty then colored (assignment c g.nodes ch)
      else spilled (Interference.byName ch.spills)

end Coloring

end Spillway
