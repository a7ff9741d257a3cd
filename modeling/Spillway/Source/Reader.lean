import Spillway.Error

/-!
# Reading programs

A program is `(:entry function ...)` and a function `(:name args locals instruction ...)`. The whole
text is read into a tree first, then the tree into a program, so that a fault of the parentheses is
reported before any other; after that the first fault in the order of the text is.

Operands are never refused here: a list where an operand belongs is read as a hole, and names that
are neither registers, labels nor numbers are variables.
-/

namespace Spillway

namespace Tree

/-- The operand that a tree is. -/
def operand : Tree → Operand
  | list .. => .hole
  | atom _ t =>
    match Reg.ofName? t with
    | some r => .reg r
    | none =>
      match t.toList with
      | ':' :: name => .label ⟨String.ofList name⟩
      | _ =>
        match Decimal.readInt64? t with
        | some n => .num n
        | none => .var ⟨t⟩

/-- The callee that a tree is: a function of the runtime goes before a variable. -/
def callee (t : Tree) : Operand :=
  match t.text? with
  | some name => if name ∈ runtimeNames then .runtime name else t.operand
  | none => t.operand

end Tree

namespace Source

/-- The report of a fault at an offset. -/
def fault (src : Source) (offset : Nat) (f : SyntaxFault) : Error :=
  Error.of (.badSyntax src.name (Position.ofOffset src.text offset) f)

/-- The only tree of a text; `extra` is the fault of a text that goes on after it. -/
def tree (src : Source) (extra : SyntaxFault) : Except Error Tree :=
  let (tokens, stop) := Token.scan 0 src.text
  match Tree.build stop [] tokens with
  | .error (offset, f) => .error (src.fault offset (.tree f))
  | .ok (t, rest) =>
    match rest, stop.byte? with
    | [], none => .ok t
    | [], some _ => .error (src.fault stop.offset extra)
    | next :: _, _ => .error (src.fault next.offset extra)

/-- A label with a name. -/
def label (src : Source) (t : Tree) : Except Error Label :=
  match t.text?.map String.toList with
  | some (':' :: c :: name) => .ok ⟨String.ofList (c :: name)⟩
  | _ => .error (src.fault t.offset .label)

/-- A 64-bit number. -/
def number (src : Source) : Tree → Except Error Int64
  | .list offset _ => .error (src.fault offset .number)
  | .atom offset t =>
    match Decimal.readInt64? t with
    | some n => .ok n
    | none => .error (src.fault offset (.badNumber t))

/-- A comparison. -/
def cond (src : Source) (t : Tree) : Except Error Cond :=
  match t.text?.map Cond.ofSymbol with
  | some .lt => .ok .lt
  | some .le => .ok .le
  | some .eq => .ok .eq
  | _ => .error (src.fault t.offset .comparison)

/-- A memory cell `(mem base off)`. -/
def mem (src : Source) : Tree → Except Error (Operand × Int64)
  | .list _ [.atom _ "mem", base, off] => do return (base.operand, ← src.number off)
  | t => .error (src.fault t.offset .mem)

/-- An instruction that sets `dst` from a parenthesized source. -/
def moveFrom (src : Source) (dst : Operand) : Tree → Except Error Instr
  | .list _ [.atom _ "stack-arg", off] => do return .stackArg dst (← src.number off)
  | t => do
    let (base, off) ← src.mem t
    return .load dst base off

/-- An instruction that changes a memory cell; `at_` is the offset of its operator. -/
def memUpdate (src : Source) (offset : Nat) (cell : Tree) (at_ : Nat) (op : String)
    (args : List Tree) : Except Error Instr := do
  let (base, off) ← src.mem cell
  match args with
  | [x] =>
    match op with
    | "<-" => return .store base off x.operand
    | "+=" => return .memArith .add base off x.operand
    | "-=" => return .memArith .sub base off x.operand
    | _ => throw (src.fault at_ (.unexpectedOperator op))
  | _ => throw (src.fault offset .memDestination)

/-- An instruction that updates `dst` with an operator. -/
def arith (src : Source) (offset : Nat) (op : Op) (dst : Operand) :
    List Tree → Except Error Instr
  | [.atom o t] => .ok (.arith op dst (Tree.atom o t).operand)
  | [cell] => do
    let (base, off) ← src.mem cell
    return .arithLoad op dst base off
  | _ => .error (src.fault offset (.malformed op.symbol))

/-- An instruction that shifts `dst`. -/
def shift (src : Source) (offset : Nat) (op : Op) (dst : Operand) :
    List Tree → Except Error Instr
  | [x] => .ok (.shift op dst x.operand)
  | _ => .error (src.fault offset (.malformed op.symbol))

/-- An instruction that changes `dst`; `at_` is the offset of its operator. -/
def update (src : Source) (offset : Nat) (dst : Operand) (at_ : Nat) (op : String)
    (args : List Tree) : Except Error Instr :=
  match op with
  | "++" => if args.isEmpty then .ok (.inc dst) else .error (src.fault offset (.takesNoOperands op))
  | "--" => if args.isEmpty then .ok (.dec dst) else .error (src.fault offset (.takesNoOperands op))
  | "<-" =>
    match args with
    | [.atom o t] => .ok (.mov dst (Tree.atom o t).operand)
    | [cell] => src.moveFrom dst cell
    | [l, c, r] => do return .cmp dst (← src.cond c) l.operand r.operand
    | _ => .error (src.fault offset (.malformed op))
  | "@" =>
    match args with
    | [base, index, scale] => do return .lea dst base.operand index.operand (← src.number scale)
    | _ => .error (src.fault offset .lea)
  | "<<=" => src.shift offset .shl dst args
  | ">>=" => src.shift offset .shr dst args
  | "+=" => src.arith offset .add dst args
  | "-=" => src.arith offset .sub dst args
  | "*=" => src.arith offset .mul dst args
  | "&=" => src.arith offset .and dst args
  | _ => .error (src.fault at_ (.unexpectedOperator op))

/-- An instruction that starts with no keyword: a place, an operator and its arguments. -/
def operation (src : Source) (offset : Nat) (head : Tree) :
    List Tree → Except Error Instr
  | .atom at_ op :: args =>
    match head with
    | .list .. => src.memUpdate offset head at_ op args
    | .atom .. => src.update offset head.operand at_ op args
  | _ => .error (src.fault offset .instr)

/-- An instruction in parentheses, by its first item. -/
def form (src : Source) (offset : Nat) (head : Tree) (items : List Tree) : Except Error Instr :=
  match head.text? with
  | some "return" =>
    if items.isEmpty then .ok .ret else .error (src.fault offset .returnOperands)
  | some "goto" =>
    match items with
    | [l] => do return .goto (← src.label l)
    | _ => .error (src.fault offset .goto)
  | some "cjump" =>
    match items with
    | [l, c, r, yes, no] => do
      return .cjump (← src.cond c) l.operand r.operand (← src.label yes) (← src.label no)
    | _ => .error (src.fault offset .cjump)
  | some "call" =>
    match items with
    | [u, n] => do return .call u.callee (← src.number n)
    | _ => .error (src.fault offset .call)
  | _ => src.operation offset head items

/-- An instruction. -/
def instr (src : Source) : Tree → Except Error Instr
  | .list offset [] => .error (src.fault offset .emptyInstr)
  | .list offset (head :: items) => src.form offset head items
  | t => do return .label (← inContext .instruction (src.label t))

/-- A function. -/
def func (src : Source) : Tree → Except Error Func
  | .list _ (name :: args :: locals :: code) => do
    let name ← inContext .functionName (src.label name)
    let args ← inContext (.arguments name) (src.number args)
    let locals ← inContext (.locals name) (src.number locals)
    let code ← code.mapM fun t => inContext (.function name) (src.instr t)
    return { name, args, locals, code }
  | t => .error (src.fault t.offset .function)

/-- A program. -/
def program (src : Source) : Tree → Except Error Program
  | .list _ (entry :: f :: fs) => do
    let entry ← inContext .entry (src.label entry)
    let funcs ← (f :: fs).mapM src.func
    return { entry, funcs }
  | t => .error (src.fault t.offset .program)

end Source

/-- Read a program; faults are reported under `name`. -/
def Program.parse (name : String) (text : Bytes) : Except Error Program := do
  let src : Source := ⟨name, text⟩
  src.program (← src.tree .afterProgram)

/-- Read a function. -/
def Func.parse (text : Bytes) : Except Error Func := do
  let src : Source := ⟨"func", text⟩
  src.func (← src.tree .afterFunction)

end Spillway
