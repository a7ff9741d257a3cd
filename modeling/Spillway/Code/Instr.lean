import Spillway.Code.Operand

/-!
# Instructions

The instruction forms of an L2 function. Each form keeps its operands in reading order;
`Instr.slots` lists them, `Instr.mapOperands` replaces them, and `Instr.dest?` is the operand that
an instruction writes as a whole. Jump targets and label definitions are no operands, and the base
of a memory destination is only read.

A *hole* is a place in a function where an instruction is missing. It has no operands.
-/

namespace Spillway

/-- An operator that updates its destination. -/
inductive Op where
  | add | sub | mul | and | shl | shr
  /-- A symbol that is no operator. -/
  | unknown (symbol : String)
  deriving DecidableEq, Repr, Inhabited

namespace Op

/-- The symbol of an operator. -/
def symbol : Op → String
  | add => "+="
  | sub => "-="
  | mul => "*="
  | and => "&="
  | shl => "<<="
  | shr => ">>="
  | unknown s => s

/-- The operator of a symbol. -/
def ofSymbol : String → Op
  | "+=" => add
  | "-=" => sub
  | "*=" => mul
  | "&=" => and
  | "<<=" => shl
  | ">>=" => shr
  | s => unknown s

end Op

/-- A comparison. -/
inductive Cond where
  | lt | le | eq
  /-- A symbol that is no comparison. -/
  | unknown (symbol : String)
  deriving DecidableEq, Repr, Inhabited

namespace Cond

/-- The symbol of a comparison. -/
def symbol : Cond → String
  | lt => "<"
  | le => "<="
  | eq => "="
  | unknown s => s

/-- The comparison of a symbol. -/
def ofSymbol : String → Cond
  | "<" => lt
  | "<=" => le
  | "=" => eq
  | s => unknown s

end Cond

/-- One instruction. -/
inductive Instr where
  /-- `dst` becomes `src`. -/
  | mov (dst src : Operand)
  /-- `dst` becomes the memory cell at `base + off`. -/
  | load (dst base : Operand) (off : Int64)
  /-- `dst` becomes the argument that the caller left on the stack at `off`. -/
  | stackArg (dst : Operand) (off : Int64)
  /-- The memory cell at `base + off` becomes `src`. -/
  | store (base : Operand) (off : Int64) (src : Operand)
  /-- `dst` becomes 1 or 0 as the comparison of `l` and `r` holds or not. -/
  | cmp (dst : Operand) (cond : Cond) (l r : Operand)
  /-- `dst` is updated with `src`. -/
  | arith (op : Op) (dst src : Operand)
  /-- `dst` is updated with the memory cell at `base + off`. -/
  | arithLoad (op : Op) (dst base : Operand) (off : Int64)
  /-- The memory cell at `base + off` is updated with `src`. -/
  | memArith (op : Op) (base : Operand) (off : Int64) (src : Operand)
  /-- `dst` is shifted by `src`. -/
  | shift (op : Op) (dst src : Operand)
  /-- `dst` becomes `base + index * scale`. -/
  | lea (dst base index : Operand) (scale : Int64)
  | inc (dst : Operand)
  | dec (dst : Operand)
  /-- Jump to `yes` or to `no` as the comparison of `l` and `r` holds or not. -/
  | cjump (cond : Cond) (l r : Operand) (yes no : Label)
  | goto (target : Label)
  /-- The place that a label names. -/
  | label (l : Label)
  | ret
  | call (callee : Operand) (args : Int64)
  /-- No instruction where one belongs. -/
  | hole
  deriving DecidableEq, Repr, Inhabited

namespace Instr

/-- Every operand position of an instruction, in reading order. -/
def slots : Instr → List Operand
  | mov dst src => [dst, src]
  | load dst base _ => [dst, base]
  | stackArg dst _ => [dst]
  | store base _ src => [base, src]
  | cmp dst _ l r => [dst, l, r]
  | arith _ dst src => [dst, src]
  | arithLoad _ dst base _ => [dst, base]
  | memArith _ base _ src => [base, src]
  | shift _ dst src => [dst, src]
  | lea dst base index _ => [dst, base, index]
  | inc dst => [dst]
  | dec dst => [dst]
  | cjump _ l r _ _ => [l, r]
  | call callee _ => [callee]
  | goto _ | label _ | ret | hole => []

/-- The instruction with every operand replaced. -/
def mapOperands (f : Operand → Operand) : Instr → Instr
  | mov dst src => mov (f dst) (f src)
  | load dst base off => load (f dst) (f base) off
  | stackArg dst off => stackArg (f dst) off
  | store base off src => store (f base) off (f src)
  | cmp dst c l r => cmp (f dst) c (f l) (f r)
  | arith op dst src => arith op (f dst) (f src)
  | arithLoad op dst base off => arithLoad op (f dst) (f base) off
  | memArith op base off src => memArith op (f base) off (f src)
  | shift op dst src => shift op (f dst) (f src)
  | lea dst base index scale => lea (f dst) (f base) (f index) scale
  | inc dst => inc (f dst)
  | dec dst => dec (f dst)
  | cjump c l r yes no => cjump c (f l) (f r) yes no
  | call callee args => call (f callee) args
  | goto l => goto l
  | label l => label l
  | ret => ret
  | hole => hole

/-- The operands that are there, in reading order. -/
def operands (i : Instr) : List Operand := i.slots.filter (· != .hole)

/-- Does the operand occur in the instruction? -/
def references (i : Instr) (x : Operand) : Bool := i.operands.contains x

/-- The operand that an instruction writes as a whole. -/
def dest? : Instr → Option Operand
  | mov dst _ | load dst _ _ | stackArg dst _ | cmp dst _ _ _ | arith _ dst _ | arithLoad _ dst _ _
  | shift _ dst _ | lea dst _ _ _ | inc dst | dec dst => some dst
  | _ => none

/-- The variables of an instruction, in reading order. -/
def vars (i : Instr) : List Var := i.operands.filterMap Operand.var?

@[simp] theorem slots_mapOperands (f : Operand → Operand) (i : Instr) :
    (i.mapOperands f).slots = i.slots.map f := by
  cases i <;> rfl

@[simp] theorem mapOperands_id (i : Instr) : i.mapOperands (fun x => x) = i := by
  cases i <;> rfl

theorem mapOperands_comp (f g : Operand → Operand) (i : Instr) :
    (i.mapOperands f).mapOperands g = i.mapOperands (fun x => g (f x)) := by
  cases i <;> rfl

theorem dest?_mapOperands (f : Operand → Operand) (i : Instr) :
    (i.mapOperands f).dest? = i.dest?.map f := by
  cases i <;> rfl

/-- The kind of an instruction as error messages name it. -/
def kindName : Instr → String
  | mov .. => "l2.Mov"
  | load .. => "l2.Load"
  | stackArg .. => "l2.StackArg"
  | store .. => "l2.Store"
  | cmp .. => "l2.Cmp"
  | arith .. => "l2.Arith"
  | arithLoad .. => "l2.ArithLoad"
  | memArith .. => "l2.MemArith"
  | shift .. => "l2.Shift"
  | lea .. => "l2.Lea"
  | inc .. => "l2.Inc"
  | dec .. => "l2.Dec"
  | cjump .. => "l2.CJump"
  | goto .. => "l2.Goto"
  | label .. => "l2.LabelDef"
  | ret => "l2.Return"
  | call .. => "l2.Call"
  | hole => "<nil>"

end Instr

end Spillway
