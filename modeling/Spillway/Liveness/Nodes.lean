import Spillway.BitSet.Basic
import Spillway.Code.Complete

/-!
# Nodes

The nodes of a function are the registers of the palette, in palette order, then its variables in
the order of their first appearance. A node is known by its place in this list, its *id*, and sets
of nodes are sets of ids. The stack pointer has no id, even if a palette lists it.
-/

namespace Spillway

/-- The nodes of a function: registers, then variables, each without duplicates. -/
structure Nodes where
  regs : List Reg
  vars : List Var
  deriving DecidableEq, Repr, Inhabited

namespace Nodes

/-- The nodes of a function. -/
def ofFunc (c : Convention) (f : Func) : Except Error Nodes := do
  let f ← f.complete
  return ⟨c.palette.eraseDups, f.vars⟩

/-- The number of nodes. -/
def size (u : Nodes) : Nat := u.regs.length + u.vars.length

/-- All nodes by id. -/
def operands (u : Nodes) : List Operand := u.regs.map .reg ++ u.vars.map .var

/-- The operand of an id. -/
def operand? (u : Nodes) (id : Nat) : Option Operand :=
  if id < u.regs.length then u.regs[id]?.map .reg else u.vars[id - u.regs.length]?.map .var

/-- The variable of an id. -/
def var? (u : Nodes) (id : Nat) : Option Var :=
  if id < u.regs.length then none else u.vars[id - u.regs.length]?

theorem operand?_eq (u : Nodes) (id : Nat) : u.operand? id = u.operands[id]? := by
  simp only [operand?, operands]
  split
  · rename_i h
    rw [List.getElem?_append_left (by simpa using h), List.getElem?_map]
  · rename_i h
    rw [List.getElem?_append_right (by simpa using Nat.le_of_not_lt h), List.getElem?_map,
      List.length_map]

/-- Is the number below the ids of the variables? -/
def isReg (u : Nodes) (id : Int) : Bool := id < u.regs.length

/-- The id of an operand. -/
def id? (u : Nodes) : Operand → Option Nat
  | .reg r => if r = Reg.rsp then none else u.regs.idxOf? r
  | .var v => (u.vars.idxOf? v).map (u.regs.length + ·)
  | _ => none

/-- The set of those of the operands that are nodes. -/
def setOf (u : Nodes) (xs : List Operand) : BitSet := BitSet.ofList (xs.filterMap u.id?)

/-- The operands of a set, by id. -/
def members (u : Nodes) (s : BitSet) : List Operand := s.toList.filterMap u.operand?

/-- The written forms of the operands of a set, by id. -/
def names (u : Nodes) (s : BitSet) : List String := (u.members s).map Operand.text

end Nodes

end Spillway
