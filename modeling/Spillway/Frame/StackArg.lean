import Spillway.Code.Func

/-!
# Stack arguments

Arguments that a caller leaves on the stack lie above the slots of the function that reads them, at
eight bytes a slot. Once the number of slots is final, reading such an argument is a load relative
to the stack pointer.
-/

namespace Spillway

/-- Read a stack argument as a load past `locals` slots. -/
def Instr.lowerStackArg (locals : Int64) : Instr → Instr
  | stackArg dst off => load dst .rsp (off + 8 * locals)
  | i => i

/-- Read every stack argument of a function as a load. -/
def Func.lowerStackArgs (f : Func) : Func :=
  { f with code := f.code.map (Instr.lowerStackArg f.locals) }

end Spillway
