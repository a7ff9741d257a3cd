import Spillway.Code.Complete
import Spillway.Coloring

/-!
# Assigning registers

Replace the variables of a function by registers, and make sure that none is left.
-/

namespace Spillway

/-- The operand with a variable replaced by its register, if it has one. -/
def Operand.assign (a : Assignment) : Operand → Operand
  | var v => match a.lookup v with
    | some r => reg r
    | none => var v
  | x => x

namespace Func

/-- Look for the first variable of a function. -/
def checkNoVars (f : Func) : Except Error Unit :=
  f.code.zipIdx.forM fun (i, index) => do
    let i ← i.present
    match i.vars with
    | [] => return
    | v :: _ => throw (.of (.residual index i v))

/-- Look for the first variable that has no register. -/
def checkAssigned (f : Func) (a : Assignment) : Except Error Unit :=
  f.code.zipIdx.forM fun (i, index) =>
    match i.vars.find? fun v => (a.lookup v).isNone with
    | none => .ok ()
    | some v => .error (.of (.unassigned index i v))

/-- Replace every variable of a function by its register. -/
def assign (f : Func) (a : Assignment) : Except Error Func := do
  let f ← f.complete
  f.checkAssigned a
  let g := { f with code := f.code.map (Instr.mapOperands (Operand.assign a)) }
  g.checkNoVars
  return g

end Func

end Spillway
