import Spillway.Liveness.Nodes

/-!
# Effects

What an instruction does to liveness: the operands it uses are live before it, and the operands it
defines are not live before it unless they are used too. A call defines the registers that a callee
may change and uses its arguments; a return uses what is live at the exit of a function.
-/

namespace Spillway

namespace Instr

/-- The operands whose values an instruction needs. -/
def uses (c : Convention) : Instr → List Operand
  | mov _ src => [src]
  | load _ base _ => [base]
  | stackArg .. => []
  | store base _ src => [base, src]
  | cmp _ _ l r => [l, r]
  | arith _ dst src => [dst, src]
  | arithLoad _ dst base _ => [dst, base]
  | memArith _ base _ src => [base, src]
  | shift _ dst src => [dst, src]
  | lea _ base index _ => [base, index]
  | inc dst => [dst]
  | dec dst => [dst]
  | cjump _ l r _ _ => [l, r]
  | goto _ | label _ | hole => []
  | ret => c.exit.map .reg
  | call callee args => (c.callArgs args).map .reg ++ [callee]

/-- The operands whose values an instruction replaces. -/
def defs (c : Convention) : Instr → List Operand
  | mov dst _ => [dst]
  | load dst _ _ => [dst]
  | stackArg dst _ => [dst]
  | cmp dst _ _ _ => [dst]
  | arith _ dst _ => [dst]
  | arithLoad _ dst _ _ => [dst]
  | shift _ dst _ => [dst]
  | lea dst _ _ _ => [dst]
  | inc dst => [dst]
  | dec dst => [dst]
  | store .. | memArith .. | cjump .. | goto _ | label _ | ret | hole => []
  | call .. => c.callerSave.map .reg

end Instr

/-- The nodes that an instruction uses, and those that it defines. -/
structure Effect where
  gen : BitSet
  kill : BitSet
  deriving DecidableEq, Repr, Inhabited

namespace Effect

/-- The effect of an instruction. -/
def of (c : Convention) (u : Nodes) (i : Instr) : Effect := ⟨u.setOf (i.uses c), u.setOf (i.defs c)⟩

/-- The effect of an instruction, unless it is missing. -/
def of? (c : Convention) (u : Nodes) (i : Instr) : Except Error Effect := do
  let i ← i.present
  return of c u i

end Effect

end Spillway
