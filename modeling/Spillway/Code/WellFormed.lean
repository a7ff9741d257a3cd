import Spillway.Error

/-!
# Well-formed code

`Instr.check` asks whether every operand of an instruction is of a kind that its place supports, and
whether operators, comparisons, scales and argument counts are among those that exist. The first
fault in reading order is reported, except that an operator or a comparison is looked at before the
operands.

Places ask for one of four kinds of operand, each wider than the one before:

* *writable*: a variable or a machine register other than the stack pointer;
* *base*: writable, or the stack pointer;
* *value*: a base or a number;
* *source*: a value or a label.
-/

namespace Spillway

/-- The result of looking for a fault. -/
abbrev Check := Except InstrFault Unit

namespace Check

/-- A variable with a name or a machine register other than the stack pointer. -/
def writable (role : Role) : Operand → Check
  | .var v => if v.name = "" then .error (.emptyVar role) else .ok ()
  | .reg r =>
    if r = Reg.rsp then .error (.stackPointer role)
    else if r.isMachine then .ok ()
    else .error (.badRegister role r)
  | x => .error (.notWritable role x)

/-- A writable operand or the stack pointer. -/
def base (role : Role) (x : Operand) : Check :=
  if x = .rsp then .ok () else writable role x

/-- A label with a name. -/
def label (l : Label) : Check :=
  if l.name = "" then .error .emptyLabel else .ok ()

/-- A base or a number. -/
def value (role : Role) : Operand → Check
  | .num _ => .ok ()
  | x => base role x

/-- A value or a label. -/
def source (role : Role) : Operand → Check
  | .label l => label l
  | x => value role x

/-- A number, a variable or the register that holds shift counts. -/
def shiftCount : Operand → Check
  | .num _ | .var _ => .ok ()
  | .reg r => if r = Reg.rcx then .ok () else .error (.badShiftCount (.reg r))
  | x => .error (.badShiftCount x)

/-- A function of the runtime, a label or a writable operand. -/
def callee : Operand → Check
  | .runtime name => if name ∈ runtimeNames then .ok () else .error (.unknownRuntime name)
  | .label l => label l
  | x => writable .callee x

/-- A comparison that exists. -/
def cond : Cond → Check
  | .unknown s => .error (.badComparison (.unknown s))
  | _ => .ok ()

/-- One of the operators that a form allows. -/
def op (allowed : List Op) (o : Op) : Check :=
  if o ∈ allowed then .ok () else .error (.badOperator o)

/-- A scale that addresses can have. -/
def scale (n : Int64) : Check :=
  if n ∈ [0, 2, 4, 8] then .ok () else .error (.badScale n)

/-- An argument count that is not negative. -/
def args (n : Int64) : Check :=
  if n < 0 then .error (.negativeArgs n) else .ok ()

end Check

/-- Look for the first fault of an instruction. -/
def Instr.check : Instr → Check
  | mov dst src => do
    Check.writable .dst dst
    Check.source .src src
  | load dst base _ => do
    Check.writable .dst dst
    Check.base .base base
  | stackArg dst _ => Check.writable .dst dst
  | store base _ src => do
    Check.base .base base
    Check.source .src src
  | cmp dst c l r => do
    Check.cond c
    Check.writable .dst dst
    Check.value .left l
    Check.value .right r
  | arith op dst src => do
    Check.op [.add, .sub, .mul, .and] op
    Check.writable .dst dst
    Check.value .src src
  | arithLoad op dst base _ => do
    Check.op [.add, .sub] op
    Check.writable .dst dst
    Check.base .base base
  | memArith op base _ src => do
    Check.op [.add, .sub] op
    Check.base .base base
    Check.value .src src
  | shift op dst src => do
    Check.op [.shl, .shr] op
    Check.writable .dst dst
    Check.shiftCount src
  | lea dst base index scale => do
    Check.writable .dst dst
    Check.writable .base base
    Check.writable .index index
    Check.scale scale
  | inc dst => Check.writable .dst dst
  | dec dst => Check.writable .dst dst
  | cjump c l r yes no => do
    Check.cond c
    Check.value .left l
    Check.value .right r
    Check.label yes
    Check.label no
  | goto l => Check.label l
  | label l => Check.label l
  | ret => .ok ()
  | call callee args => do
    Check.callee callee
    Check.args args
  | hole => .error .missing

/-- Look for the first instruction of a function that has a fault. -/
def Func.check (f : Func) : Except Error Unit :=
  f.code.zipIdx.forM fun (instr, index) =>
    instr.check.mapError fun fault => Error.of (.malformedInstr f.name index instr fault)

end Spillway
