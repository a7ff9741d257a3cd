import Spillway.Error

/-!
# Complete code

What works on the operands of instructions asks first that no instruction is missing; the callers
promise that none is.
-/

namespace Spillway

/-- The instruction, unless it is missing. -/
def Instr.present (i : Instr) : Except Error Instr :=
  if i = .hole then .error (.defect .missingInstr) else .ok i

/-- The function, unless one of its instructions is missing. -/
def Func.complete (f : Func) : Except Error Func :=
  if f.isComplete then .ok f else .error (.defect .missingInstr)

/-- The program, unless one of its instructions is missing. -/
def Program.complete (p : Program) : Except Error Program :=
  if p.isComplete then .ok p else .error (.defect .missingInstr)

end Spillway
