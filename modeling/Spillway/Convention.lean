import Spillway.Code.Operand

/-!
# Calling conventions

A convention names the registers that may be given to variables, its *palette*, and the roles that
registers play around calls. The palette is a list: of several free registers the first is taken, so
the index of a register in it is its color.
-/

namespace Spillway

/-- A palette and the roles of registers. -/
structure Convention where
  palette : List Reg
  stackPointer : Reg
  /-- Holds the counts of shifts. -/
  shiftCount : Reg
  /-- Holds the result of a call. -/
  result : Reg
  args : List Reg
  callerSave : List Reg
  calleeSave : List Reg
  deriving DecidableEq, Repr, Inhabited

/-- What is wrong with a convention. -/
inductive ConventionFault where
  | emptyPalette
  | badRegister (r : Reg)
  | duplicate (r : Reg)
  | reservedStackPointer (r : Reg)
  | outsidePalette (role : String) (r : Reg)
  deriving DecidableEq, Repr

/-- The wording of a fault. -/
def ConventionFault.message : ConventionFault → String
  | emptyPalette => "empty palette"
  | badRegister r => "palette: bad register " ++ Decimal.text r.code
  | duplicate r => "palette: duplicate register " ++ r.text
  | reservedStackPointer r => "palette: stack pointer " ++ r.text ++ " is reserved"
  | outsidePalette role r => role ++ " register " ++ r.text ++ " is not in the palette"

namespace Convention

open Reg in
/-- The System V convention for x86-64, with all registers but the stack pointer in the palette. -/
def systemV : Convention where
  palette := [r10, r11, r8, r9, rax, rcx, rdi, rdx, rsi, r12, r13, r14, r15, rbp, rbx]
  stackPointer := rsp
  shiftCount := rcx
  result := rax
  args := [rdi, rsi, rdx, rcx, r8, r9]
  callerSave := [r10, r11, r8, r9, rax, rcx, rdi, rdx, rsi]
  calleeSave := [r12, r13, r14, r15, rbp, rbx]

/-- The number of colors. -/
def size (c : Convention) : Nat := c.palette.length

/-- The first index of a register in the palette. -/
def color? (c : Convention) (r : Reg) : Option Nat := c.palette.idxOf? r

/-- The registers that a call with `n` arguments reads. -/
def callArgs (c : Convention) (n : Int64) : List Reg := c.args.take n.toInt.toNat

/-- The registers that are live when a function returns: its result and what its caller expects to
find unchanged. -/
def exit (c : Convention) : List Reg := c.result :: c.calleeSave

/-- Look for a register of the palette that does not exist or that has come before. -/
def checkPalette (seen : List Reg) : List Reg → Except ConventionFault Unit
  | [] => .ok ()
  | r :: rs =>
    if !r.isMachine then .error (.badRegister r)
    else if r ∈ seen then .error (.duplicate r)
    else checkPalette (r :: seen) rs

/-- Look for a register of a role that is not in the palette. -/
def checkRole (c : Convention) (role : String) (rs : List Reg) : Except ConventionFault Unit :=
  match rs.find? (· ∉ c.palette) with
  | some r => .error (.outsidePalette role r)
  | none => .ok ()

/-- Look for the first fault of a convention. -/
def check (c : Convention) : Except ConventionFault Unit := do
  if c.palette.isEmpty then throw .emptyPalette
  checkPalette [] c.palette
  if c.stackPointer ∈ c.palette then throw (.reservedStackPointer c.stackPointer)
  c.checkRole "shift count" [c.shiftCount]
  c.checkRole "return" [c.result]
  c.checkRole "argument" c.args
  c.checkRole "caller-save" c.callerSave
  c.checkRole "callee-save" c.calleeSave

end Convention

end Spillway
