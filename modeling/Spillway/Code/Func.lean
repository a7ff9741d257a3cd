import Spillway.Code.Instr

/-!
# Functions and programs
-/

namespace Spillway

/-- A function: its name, its number of arguments, its number of stack slots and its code. -/
structure Func where
  name : Label
  args : Int64
  locals : Int64
  code : List Instr
  deriving DecidableEq, Repr, Inhabited

namespace Func

/-- The variables of a function, in the order of their first appearance. -/
def vars (f : Func) : List Var := (f.code.flatMap Instr.vars).eraseDups

/-- Is no instruction of the function missing? -/
def isComplete (f : Func) : Bool := !f.code.contains .hole

end Func

/-- A program: the name of its entry function and its functions. -/
structure Program where
  entry : Label
  funcs : List Func
  deriving DecidableEq, Repr, Inhabited

namespace Program

/-- The first function of a name. -/
def func? (p : Program) (name : Label) : Option Func := p.funcs.find? (·.name = name)

/-- Is the entry function there? -/
def entryDefined (p : Program) : Bool := (p.func? p.entry).isSome

/-- Is no instruction of the program missing? -/
def isComplete (p : Program) : Bool := p.funcs.all Func.isComplete

end Program

end Spillway
