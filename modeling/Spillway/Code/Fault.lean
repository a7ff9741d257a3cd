import Spillway.Code.Printer
import Spillway.Text.Quoted

/-!
# Faults of instructions
-/

namespace Spillway

/-- The place of an operand in its instruction. -/
inductive Role where
  | dst | src | base | left | right | index | callee
  deriving DecidableEq, Repr

/-- The name of a place. -/
def Role.text : Role → String
  | dst => "dst"
  | src => "src"
  | base => "base"
  | left => "left"
  | right => "right"
  | index => "index"
  | callee => "callee"

/-- What is wrong with an instruction. -/
inductive InstrFault where
  | emptyVar (role : Role)
  | stackPointer (role : Role)
  | badRegister (role : Role) (r : Reg)
  | notWritable (role : Role) (x : Operand)
  | badShiftCount (x : Operand)
  | unknownRuntime (name : String)
  | emptyLabel
  | badComparison (c : Cond)
  | badOperator (op : Op)
  | badScale (n : Int64)
  | negativeArgs (n : Int64)
  | missing
  deriving DecidableEq, Repr

/-- The wording of a fault. -/
def InstrFault.message : InstrFault → String
  | emptyVar role => role.text ++ ": empty variable name"
  | stackPointer role => role.text ++ ": stack pointer is not writable"
  | badRegister role r => role.text ++ ": bad register " ++ Decimal.text r.code
  | notWritable role x => role.text ++ ": want register or variable, got " ++ x.kindName
  | badShiftCount x => "shift count: want number, variable or rcx, got " ++ x.text
  | unknownRuntime name => "callee: unknown runtime function " ++ Text.quoted name
  | emptyLabel => "empty label"
  | badComparison c => "bad comparison " ++ Text.quoted c.symbol
  | badOperator op => "bad operator " ++ Text.quoted op.symbol
  | badScale n => "scale: want 0, 2, 4 or 8, got " ++ Decimal.text64 n
  | negativeArgs n => "negative argument count " ++ Decimal.text64 n
  | missing => "unsupported instruction <nil>"

end Spillway
