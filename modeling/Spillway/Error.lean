import Spillway.Code.Fault
import Spillway.Convention
import Spillway.Files.Fault
import Spillway.Source.Fault

/-!
# Errors

An error is either a *report* or a *defect*.

A report says what is wrong with the input: a cause, and the contexts in which it arose, outermost
first. `Error.within` puts one more context in front. A defect says that a caller broke a promise,
for example by asking for the variables of a function with a missing instruction; it is passed
through every context unchanged.

All wording stands here and in the `message` functions of the faults that causes carry.
-/

namespace Spillway

/-- What is wrong with a command line. -/
inductive CommandFault where
  | noSuchFlag
  | valueRequired
  | unexpectedArg (arg : String)
  | sourceCount (n : Nat)
  deriving DecidableEq, Repr

/-- The wording of a fault. -/
def CommandFault.message : CommandFault → String
  | noSuchFlag => "no such flag"
  | valueRequired => "flag value is required"
  | unexpectedArg arg => "no args expected, got " ++ arg
  | sourceCount n => "want exactly one source file, got " ++ Decimal.text n

/-- What is wrong with the input. -/
inductive Cause where
  /-- The text is no program. -/
  | badSyntax (source : String) (at_ : Position) (fault : SyntaxFault)
  /-- An instruction is not well formed. -/
  | malformedInstr (func : Label) (index : Nat) (instr : Instr) (fault : InstrFault)
  /-- The program has no function of the name of its entry. -/
  | undefinedEntry (entry : Label)
  /-- A jump goes to a label that no instruction defines. -/
  | unresolvedLabel (index : Nat) (instr : Instr) (target : Label)
  /-- A variable has been given no register. -/
  | unassigned (index : Nat) (instr : Instr) (v : Var)
  /-- A variable is left where none may be. -/
  | residual (index : Nat) (instr : Instr) (v : Var)
  /-- Spilling has gone on for too long. -/
  | noProgress (iteration limit : Nat)
  | badConvention (fault : ConventionFault)
  /-- A graph over `nodes` registers was to be colored with a palette of another size. -/
  | paletteSize (nodes palette : Nat)
  /-- Liveness is known of `rows` instructions, not of the instructions of the function. -/
  | tableSize (rows instrs : Nat)
  | badFile (access : FileAccess) (name : String) (fault : FileFault)
  | badCommand (fault : CommandFault)
  deriving DecidableEq, Repr

/-- The place of an instruction in its function, and the instruction. -/
def instrPlace (index : Nat) (instr : Instr) : String :=
  "instr " ++ Decimal.text index ++ " " ++ instr.text

/-- The same with the kind of the instruction. -/
def instrKindPlace (index : Nat) (instr : Instr) : String :=
  "instr " ++ Decimal.text index ++ " " ++ instr.kindName ++ " " ++ instr.text

/-- The wording of a cause. -/
def Cause.message : Cause → String
  | badSyntax source p fault =>
    source ++ ":" ++ Decimal.text p.line ++ ":" ++ Decimal.text p.column ++ ": "
      ++ fault.message ++ ": syntax error"
  | malformedInstr f index instr fault =>
    "func " ++ f.text ++ ": " ++ instrKindPlace index instr ++ ": " ++ fault.message
      ++ ": malformed instruction"
  | undefinedEntry entry =>
    "entry function " ++ entry.text ++ " is not defined: malformed instruction"
  | unresolvedLabel index instr l =>
    instrKindPlace index instr ++ ": " ++ l.text ++ ": unresolved label"
  | unassigned index instr v =>
    instrPlace index instr ++ ": " ++ v.name ++ " has no register: residual variable"
  | residual index instr v => instrPlace index instr ++ ": " ++ v.name ++ ": residual variable"
  | noProgress iteration limit =>
    "iteration " ++ Decimal.text iteration ++ " exceeds " ++ Decimal.text limit
      ++ ": spilling makes no progress"
  | badConvention fault => fault.message
  | paletteSize nodes palette =>
    "graph has " ++ Decimal.text nodes ++ " registers, palette has " ++ Decimal.text palette
  | tableSize rows instrs =>
    "liveness tables for " ++ Decimal.text rows ++ " instructions, function has "
      ++ Decimal.text instrs
  | badFile access name fault => access.text ++ " " ++ name ++ ": " ++ fault.message
  | badCommand fault => fault.message

/-- What was being done when an error arose. -/
inductive Context where
  | entry
  | functionName
  | arguments (f : Label)
  | locals (f : Label)
  | function (f : Label)
  | instruction
  | controlFlow
  | convention
  | liveness
  | interference
  | coloring
  | allocation (f : Label) (iteration : Nat)
  | programText
  | compilation
  | file
  | reading (name : String)
  | parsing (name : String)
  | compiling (name : String)
  | writing (name : String)
  | command (name : String)
  | flag (arg : String)
  deriving DecidableEq, Repr

/-- The wording of a context. -/
def Context.message : Context → String
  | entry => "entry"
  | functionName => "function name"
  | arguments f => "func " ++ f.text ++ ": arguments"
  | locals f => "func " ++ f.text ++ ": locals"
  | function f => "func " ++ f.text
  | instruction => "instruction"
  | controlFlow => "resolve control flow"
  | convention => "calling convention"
  | liveness => "liveness"
  | interference => "interference"
  | coloring => "coloring"
  | allocation f iteration => "func " ++ f.text ++ ": iter " ++ Decimal.text iteration
  | programText => "parse text"
  | compilation => "compile"
  | file => "read file"
  | reading name => "read " ++ name
  | parsing name => "parse " ++ name
  | compiling name => "compile " ++ name
  | writing name => "write " ++ name
  | command name => name
  | flag arg => "parse flag: " ++ arg

/-- A promise that a caller broke. -/
inductive Defect where
  /-- The operands of a missing instruction were asked for. -/
  | missingInstr
  /-- A variable is no node of the graph it is used in. -/
  | foreignVar (v : Var)
  /-- A register of the palette is no node of the graph it is used in. -/
  | foreignReg (r : Reg)
  /-- An allocation is in no phase that exists. -/
  | unknownPhase
  /-- An allocation is in a phase whose input has not been computed. -/
  | missingInput
  deriving DecidableEq, Repr

/-- The wording of a defect. -/
def Defect.message : Defect → String
  | missingInstr => "panic called with nil argument"
  | foreignVar v => v.name
  | foreignReg r => r.text
  | unknownPhase => "unknown"
  | missingInput => "runtime error: invalid memory address or nil pointer dereference"

/-- A report about the input, or a defect of the caller. -/
inductive Error where
  | report (contexts : List Context) (cause : Cause)
  | defect (d : Defect)
  deriving DecidableEq, Repr

namespace Error

/-- A report without a context. -/
def of (cause : Cause) : Error := report [] cause

/-- Put a context in front of a report. -/
def within (c : Context) : Error → Error
  | report cs cause => report (c :: cs) cause
  | defect d => defect d

/-- The whole text of an error. -/
def message : Error → String
  | report cs cause => String.join (cs.map fun c => c.message ++ ": ") ++ cause.message
  | defect d => d.message

end Error

/-- A result whose error, if any, arose in a context. -/
def inContext (c : Context) (x : Except Error α) : Except Error α := x.mapError (Error.within c)

end Spillway
