import Spillway.Text.Decimal
import Spillway.Wire

/-!
# Registers and operands

Registers are known by a code. The sixteen machine registers have the codes 0 to 15; any other code
is a register that no machine has, which is written by its code. An operand is a register, a
variable, a number, a code label or a function of the runtime, or a *hole* where an operand is
missing.
-/

namespace Spillway

/-- A register, by its code. -/
structure Reg where
  code : Int
  deriving DecidableEq, Repr, Inhabited

namespace Reg

def rax : Reg := ⟨0⟩
def rbx : Reg := ⟨1⟩
def rcx : Reg := ⟨2⟩
def rdx : Reg := ⟨3⟩
def rsi : Reg := ⟨4⟩
def rdi : Reg := ⟨5⟩
def rbp : Reg := ⟨6⟩
/-- The stack pointer of the machine. -/
def rsp : Reg := ⟨7⟩
def r8 : Reg := ⟨8⟩
def r9 : Reg := ⟨9⟩
def r10 : Reg := ⟨10⟩
def r11 : Reg := ⟨11⟩
def r12 : Reg := ⟨12⟩
def r13 : Reg := ⟨13⟩
def r14 : Reg := ⟨14⟩
def r15 : Reg := ⟨15⟩

/-- The names of the machine registers, in the order of their codes. -/
def machineNames : List String :=
  ["rax", "rbx", "rcx", "rdx", "rsi", "rdi", "rbp", "rsp",
   "r8", "r9", "r10", "r11", "r12", "r13", "r14", "r15"]

/-- Is it one of the sixteen machine registers? -/
def isMachine (r : Reg) : Bool := 0 ≤ r.code && r.code < 16

/-- The written form of a register. -/
def text (r : Reg) : String :=
  match r.code with
  | .ofNat n => machineNames.getD n ("reg(" ++ Decimal.text r.code ++ ")")
  | .negSucc _ => "reg(" ++ Decimal.text r.code ++ ")"

/-- The machine register of a name. -/
def ofName? (s : String) : Option Reg := (machineNames.idxOf? s).map fun n => ⟨n⟩

/-- The bytes in which a register is logged. -/
def wire (r : Reg) : List UInt8 := Wire.text r.text

end Reg

/-- A variable that waits for a register. -/
structure Var where
  name : String
  deriving DecidableEq, Repr, Inhabited

/-- A code label; its name stands without the leading colon. -/
structure Label where
  name : String
  deriving DecidableEq, Repr, Inhabited

/-- The written form of a label. -/
def Label.text (l : Label) : String := ":" ++ l.name

/-- The functions that the runtime provides. -/
def runtimeNames : List String := ["print", "allocate", "array-error"]

/-- What an instruction works on. -/
inductive Operand where
  | reg (r : Reg)
  | var (v : Var)
  | num (n : Int64)
  | label (l : Label)
  | runtime (name : String)
  /-- No operand where one belongs. -/
  | hole
  deriving DecidableEq, Repr, Inhabited

namespace Operand

/-- The stack pointer as an operand. -/
abbrev rsp : Operand := .reg Reg.rsp

/-- The written form of an operand. -/
def text : Operand → String
  | reg r => r.text
  | var v => v.name
  | num n => Decimal.text64 n
  | label l => l.text
  | runtime name => name
  | hole => "<nil>"

/-- The kind of an operand as error messages name it. -/
def kindName : Operand → String
  | reg _ => "l2.Reg"
  | var _ => "l2.Var"
  | num _ => "l2.Num"
  | label _ => "l2.Label"
  | runtime _ => "l2.Runtime"
  | hole => "<nil>"

/-- The variable that an operand is. -/
def var? : Operand → Option Var
  | var v => some v
  | _ => none

/-- The register that an operand is. -/
def reg? : Operand → Option Reg
  | reg r => some r
  | _ => none

/-- Does the operand take part in liveness? Variables do, and registers but the stack pointer. -/
def isNode : Operand → Bool
  | var _ => true
  | reg r => r != Reg.rsp
  | _ => false

end Operand

end Spillway
