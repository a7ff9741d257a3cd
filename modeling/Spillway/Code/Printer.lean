import Spillway.Code.Func

/-!
# Written programs

The text of instructions, functions and programs. A function stands on its own lines, indented by
two blanks and its instructions by four. Missing operands and instructions are shown as `<nil>`.
-/

namespace Spillway

/-- A memory cell. -/
def memText (base : Operand) (off : Int64) : String :=
  "(mem " ++ base.text ++ " " ++ Decimal.text64 off ++ ")"

/-- The text of an instruction. -/
def Instr.text : Instr → String
  | mov dst src => "(" ++ dst.text ++ " <- " ++ src.text ++ ")"
  | load dst base off => "(" ++ dst.text ++ " <- " ++ memText base off ++ ")"
  | stackArg dst off => "(" ++ dst.text ++ " <- (stack-arg " ++ Decimal.text64 off ++ "))"
  | store base off src => "(" ++ memText base off ++ " <- " ++ src.text ++ ")"
  | cmp dst c l r =>
    "(" ++ dst.text ++ " <- " ++ l.text ++ " " ++ c.symbol ++ " " ++ r.text ++ ")"
  | arith op dst src => "(" ++ dst.text ++ " " ++ op.symbol ++ " " ++ src.text ++ ")"
  | arithLoad op dst base off =>
    "(" ++ dst.text ++ " " ++ op.symbol ++ " " ++ memText base off ++ ")"
  | memArith op base off src =>
    "(" ++ memText base off ++ " " ++ op.symbol ++ " " ++ src.text ++ ")"
  | shift op dst src => "(" ++ dst.text ++ " " ++ op.symbol ++ " " ++ src.text ++ ")"
  | lea dst base index scale =>
    "(" ++ dst.text ++ " @ " ++ base.text ++ " " ++ index.text ++ " " ++ Decimal.text64 scale ++ ")"
  | inc dst => "(" ++ dst.text ++ "++)"
  | dec dst => "(" ++ dst.text ++ "--)"
  | cjump c l r yes no =>
    "(cjump " ++ l.text ++ " " ++ c.symbol ++ " " ++ r.text ++ " " ++ yes.text ++ " " ++ no.text ++ ")"
  | goto l => "(goto " ++ l.text ++ ")"
  | label l => l.text
  | ret => "(return)"
  | call callee args => "(call " ++ callee.text ++ " " ++ Decimal.text64 args ++ ")"
  | hole => "<nil>"

/-- The line of an instruction in the text of its function. -/
def Instr.line (i : Instr) : String := "    " ++ i.text ++ "\n"

/-- The text of a function. -/
def Func.text (f : Func) : String :=
  "  (" ++ f.name.text ++ " " ++ Decimal.text64 f.args ++ " " ++ Decimal.text64 f.locals ++ "\n"
    ++ String.join (f.code.map Instr.line) ++ "  )\n"

/-- The text of a program. -/
def Program.text (p : Program) : String :=
  "(" ++ p.entry.text ++ "\n" ++ String.join (p.funcs.map Func.text) ++ ")\n"

end Spillway
