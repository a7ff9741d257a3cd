import Spillway.Liveness.Flow

/-!
# What functions do

A small-step meaning of functions, in the order in which a reader executes one by hand: an
instruction is first turned into an *action* that has no unknowns left (`Instr.action`), and the
action is then carried out (`State.perform`).

The frame and the heap are apart. A memory operand whose base is the stack pointer is a cell of the
frame, known by its signed offset; any other base gives a cell of the heap, known by its address.
Stack arguments are cells of the frame above the slots of the function. All values have 64 bits and
arithmetic wraps around.

Nothing is known of code outside the function: labels and functions of the runtime have some value,
and a call is some function of what it may see (`World`). A call that keeps to a convention sees
only its arguments, the heap and the frame below the stack pointer, and changes only registers that
the caller saves, the heap and the frame below the stack pointer (`Convention.world`).
-/

namespace Spillway

/-- A place in memory. -/
inductive Cell where
  /-- The cell at a signed offset from the stack pointer. -/
  | frame (offset : Int)
  | heap (address : Int64)
  deriving DecidableEq

/-- A moment of an execution. -/
structure State where
  pc : Nat
  regs : Reg → Int64
  vars : Var → Int64
  frame : Int → Int64
  heap : Int64 → Int64

/-! ## Outside the function -/

/-- What a call may see and change; `below n` is the frame cell at offset `-(n + 1)`. -/
structure Scope where
  regs : Reg → Int64
  heap : Int64 → Int64
  below : Nat → Int64

/-- All that a function does not determine itself. A call is given the value of its callee and its
number of arguments. -/
structure World where
  label : Label → Int64
  runtime : String → Int64
  call : Int64 → Int64 → Scope → Scope

/-- Code outside of a function that keeps to a convention. A call is a function of the callee, the
argument registers, the heap and the frame below the stack pointer. -/
structure External where
  label : Label → Int64
  runtime : String → Int64
  call : Int64 → List Int64 → (Int64 → Int64) → (Nat → Int64) → Scope

/-- The world of a convention: of the registers that a call returns only those that the caller saves
count. -/
def Convention.world (c : Convention) (e : External) : World where
  label := e.label
  runtime := e.runtime
  call callee args scope :=
    let out := e.call callee ((c.callArgs args).map scope.regs) scope.heap scope.below
    { out with regs := fun r => if r ∈ c.callerSave then out.regs r else scope.regs r }

/-! ## Arithmetic -/

/-- What an operator makes of the old value and its operand. Shifts count modulo 64. -/
def Op.apply : Op → Int64 → Int64 → Int64
  | add, x, y => x + y
  | sub, x, y => x - y
  | mul, x, y => x * y
  | and, x, y => x &&& y
  | shl, x, y => x <<< y
  | shr, x, y => x >>> y
  | unknown _, x, _ => x

/-- Does a comparison hold of two signed values? -/
def Cond.holds : Cond → Int64 → Int64 → Bool
  | lt, x, y => x < y
  | le, x, y => x ≤ y
  | eq, x, y => x == y
  | unknown _, _, _ => false

/-! ## Reading and changing a state -/

namespace State

/-- The value of an operand. -/
def value (w : World) (s : State) : Operand → Int64
  | .reg r => s.regs r
  | .var v => s.vars v
  | .num n => n
  | .label l => w.label l
  | .runtime name => w.runtime name
  | .hole => 0

/-- The cell of a memory operand. -/
def cell (w : World) (s : State) (base : Operand) (off : Int64) : Cell :=
  if base = .rsp then .frame off.toInt else .heap (s.value w base + off)

def read (s : State) : Cell → Int64
  | .frame m => s.frame m
  | .heap a => s.heap a

def write (s : State) (c : Cell) (x : Int64) : State :=
  match c with
  | .frame m => { s with frame := fun m' => if m' = m then x else s.frame m' }
  | .heap a => { s with heap := fun a' => if a' = a then x else s.heap a' }

/-- Give a register or a variable a value. Other operands cannot be given one. -/
def set (s : State) (dst : Operand) (x : Int64) : State :=
  match dst with
  | .reg r => { s with regs := fun r' => if r' = r then x else s.regs r' }
  | .var v => { s with vars := fun v' => if v' = v then x else s.vars v' }
  | _ => s

/-- Go on to the next instruction. -/
def advance (s : State) : State := { s with pc := s.pc + 1 }

/-- What a call sees of a state. -/
def scope (s : State) : Scope := ⟨s.regs, s.heap, fun n => s.frame (.negSucc n)⟩

/-- The state that a call leaves; variables and the frame from the stack pointer up stay. -/
def withScope (s : State) (out : Scope) : State :=
  { s with
    regs := out.regs
    heap := out.heap
    frame := fun m => match m with
      | .ofNat n => s.frame (.ofNat n)
      | .negSucc n => out.below n }

end State

/-! ## Actions -/

/-- An instruction whose operands have been read. -/
inductive Action where
  /-- Give an operand a value. -/
  | set (dst : Operand) (x : Int64)
  /-- Give a memory cell a value. -/
  | write (c : Cell) (x : Int64)
  | jump (l : Label)
  /-- Go on. -/
  | skip
  | leave
  | call (callee args : Int64)
  /-- There is nothing to do, not even to go on. -/
  | stop

/-- The cell of a stack argument of a function with so many slots. -/
def argumentCell (locals off : Int64) : Int64 := off + 8 * locals

/-- What an instruction does in a state of a function with so many slots. -/
def Instr.action (w : World) (locals : Int64) (s : State) : Instr → Action
  | mov dst src => .set dst (s.value w src)
  | load dst base off => .set dst (s.read (s.cell w base off))
  | stackArg dst off => .set dst (s.read (.frame (argumentCell locals off).toInt))
  | store base off src => .write (s.cell w base off) (s.value w src)
  | cmp dst c l r => .set dst (if c.holds (s.value w l) (s.value w r) then 1 else 0)
  | arith op dst src => .set dst (op.apply (s.value w dst) (s.value w src))
  | arithLoad op dst base off => .set dst (op.apply (s.value w dst) (s.read (s.cell w base off)))
  | memArith op base off src =>
    .write (s.cell w base off) (op.apply (s.read (s.cell w base off)) (s.value w src))
  | shift op dst src => .set dst (op.apply (s.value w dst) (s.value w src))
  | lea dst base index scale => .set dst (s.value w base + s.value w index * scale)
  | inc dst => .set dst (s.value w dst + 1)
  | dec dst => .set dst (s.value w dst - 1)
  | cjump c l r yes no => .jump (if c.holds (s.value w l) (s.value w r) then yes else no)
  | goto l => .jump l
  | label _ => .skip
  | ret => .leave
  | call callee args => .call (s.value w callee) args
  | hole => .stop

/-- What comes of a step: a state to go on from, or the end by a return, by running off the last
instruction or for want of a place to go on. -/
inductive Outcome where
  | running (s : State)
  | returned (s : State)
  | ended (s : State)
  | stuck

/-- Carry out an action. -/
def State.perform (w : World) (f : Func) (s : State) : Action → Outcome
  | .set dst x => .running (s.set dst x).advance
  | .write c x => .running (s.write c x).advance
  | .jump l =>
    match f.labelIndex? l with
    | some i => .running { s with pc := i }
    | none => .stuck
  | .skip => .running s.advance
  | .leave => .returned s
  | .call callee args => .running (s.withScope (w.call callee args s.scope)).advance
  | .stop => .stuck

/-- One step of a function. -/
def Func.step (w : World) (f : Func) (s : State) : Outcome :=
  match f.code[s.pc]? with
  | none => .ended s
  | some i => s.perform w f (i.action w f.locals s)

/-! ## Runs -/

/-- At most `n` steps. -/
def Func.run (w : World) (f : Func) : Nat → State → Outcome
  | 0, s => .running s
  | n + 1, s =>
    match f.step w s with
    | .running s' => f.run w n s'
    | o => o

/-- What can be seen of an execution that has come to its end. -/
inductive Observation where
  /-- A return, with the registers that are live at the exit and the heap. -/
  | returned (exit : List Int64) (heap : Int64 → Int64)
  | ended (heap : Int64 → Int64)

/-- What can be seen of an outcome under a convention. -/
def Outcome.observed (c : Convention) : Outcome → Option Observation
  | running _ => none
  | returned s => some (.returned (c.exit.map s.regs) s.heap)
  | ended s => some (.ended s.heap)
  | stuck => none

/-- The function, started in a state, comes to an end that is seen as `o`. -/
def Observes (c : Convention) (w : World) (f : Func) (s : State) (o : Observation) : Prop :=
  ∃ n, (f.run w n s).observed c = some o

end Spillway
