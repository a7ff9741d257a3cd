import Spillway.Code.Complete

/-!
# Spilling

To spill a variable is to keep it in a stack slot of its own. The new slot is the lowest one, at
the stack pointer itself, so every access to a slot moves up by eight bytes; offsets below the stack
pointer stay.

Each instruction becomes a *window* of one to three instructions. One that does not mention the
variable stays as it is. One that can work on the slot itself does. Any other gets a temporary in
place of the variable, loaded from the slot before if the instruction reads the variable, and
stored to it after if the instruction writes it. Temporaries are named by a stem and a number, and
numbers that would give a name in use are passed over.
-/

namespace Spillway

/-! ## Single instructions -/

/-- The offset of a stack access once there is a new lowest slot. -/
def raised (base : Operand) (off : Int64) : Int64 :=
  if base = .rsp ∧ 0 ≤ off then off + 8 else off

namespace Instr

/-- The instruction with its stack accesses past a new lowest slot. -/
def raiseSlots : Instr → Instr
  | load dst base off => load dst base (raised base off)
  | store base off src => store base (raised base off) src
  | arithLoad op dst base off => arithLoad op dst base (raised base off)
  | memArith op base off src => memArith op base (raised base off) src
  | i => i

/-- The instruction with a variable replaced by the lowest slot, if a single instruction can do
that: moves and additions and subtractions in which the variable is only one of the two sides. -/
def inSlot? (v : Var) : Instr → Option Instr
  | mov dst src =>
    if dst = .var v ∧ src ≠ .var v then some (store .rsp 0 src)
    else if src = .var v ∧ dst ≠ .var v then some (load dst .rsp 0)
    else none
  | arith op dst src =>
    if op ≠ .add ∧ op ≠ .sub then none
    else if dst = .var v ∧ src ≠ .var v then some (memArith op .rsp 0 src)
    else if src = .var v ∧ dst ≠ .var v then some (arithLoad op dst .rsp 0)
    else none
  | _ => none

/-- Does the instruction read the variable? -/
def reads (i : Instr) (v : Var) : Bool :=
  match i with
  | mov _ src => src = .var v
  | load _ base _ => base = .var v
  | stackArg .. => false
  | cmp _ _ l r => l = .var v || r = .var v
  | lea _ base index _ => base = .var v || index = .var v
  | _ => i.references (.var v)

/-- Does the instruction write the variable? -/
def writes (i : Instr) (v : Var) : Bool := i.dest? = some (.var v)

/-- Does the instruction need a temporary when the variable is in a slot? -/
def needsTemp (i : Instr) (v : Var) : Bool := i.references (.var v) && (i.inSlot? v).isNone

end Instr

/-- The operand with one variable replaced by another. -/
def Operand.rename (v t : Var) (x : Operand) : Operand := if x = .var v then .var t else x

namespace Instr

/-- The window of an instruction that works on the variable through a temporary. -/
def throughTemp (v t : Var) (i : Instr) : List Instr :=
  (if i.reads v then [load (.var t) .rsp 0] else [])
    ++ [i.mapOperands (Operand.rename v t)]
    ++ (if i.writes v then [store .rsp 0 (.var t)] else [])

/-- The window of an instruction that needs no temporary. -/
def withoutTemp (v : Var) (i : Instr) : List Instr :=
  if i.references (.var v) then (i.inSlot? v).toList else [i]

end Instr

/-! ## Functions -/

namespace Spill

/-- The temporary of a number. -/
def tempName (stem : String) (n : Nat) : Var := ⟨stem ++ Decimal.text n⟩

/-- The first number from `n` on whose temporary is not in use. A name that has been passed over
cannot come again, so it is dropped. -/
def firstUnused (stem : String) (used : List Var) (n : Nat) : Nat :=
  if tempName stem n ∈ used then firstUnused stem (used.erase (tempName stem n)) (n + 1) else n
termination_by used.length
decreasing_by
  rename_i h
  have hpos : 0 < used.length := List.length_pos_of_mem h
  rw [List.length_erase_of_mem h]
  omega

/-- The windows of the instructions of a code list, and the temporaries in them, from the first
number that may be taken. -/
def windows (v : Var) (stem : String) (used : List Var) :
    Nat → List Instr → List (List Instr) × List Var
  | _, [] => ([], [])
  | next, i :: code =>
    let i := i.raiseSlots
    if i.needsTemp v then
      let n := firstUnused stem used next
      let t := tempName stem n
      let (ws, ts) := windows v stem used (n + 1) code
      (i.throughTemp v t :: ws, t :: ts)
    else
      let (ws, ts) := windows v stem used next code
      (i.withoutTemp v :: ws, ts)

end Spill

/-- Spill a variable of a function. The result is the new function and its temporaries. -/
def Func.spill (f : Func) (v : Var) (stem : String) : Except Error (Func × List Var) := do
  let f ← f.complete
  let (ws, temps) := Spill.windows v stem f.vars 0 f.code
  return ({ f with locals := f.locals + 1, code := ws.flatten }, temps)

end Spillway
