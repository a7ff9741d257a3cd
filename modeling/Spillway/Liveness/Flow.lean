import Spillway.Error

/-!
# Control flow

A function is a list of instructions that run one after the other but for jumps and returns. A label
that is defined several times names its first place. `Flow.resolve` finds the successors of every
instruction, or the first jump whose target is defined nowhere.
-/

namespace Spillway

/-- The label that an instruction defines. -/
def Instr.label? : Instr → Option Label
  | label l => some l
  | _ => none

/-- The place of a label: its first definition. -/
def Func.labelIndex? (f : Func) (l : Label) : Option Nat := f.code.idxOf? (.label l)

/-- The labels of a function and their places, in the order of the places. -/
def Func.labels (f : Func) : List (Label × Nat) :=
  (f.code.filterMap Instr.label?).eraseDups.filterMap fun l => (f.labelIndex? l).map (l, ·)

/-- The places of labels and the successors of each instruction. -/
structure Flow where
  labels : List (Label × Nat)
  succ : List (List Nat)
  deriving DecidableEq, Repr

namespace Flow

/-- The place to which an instruction jumps. -/
def target (f : Func) (index : Nat) (instr : Instr) (l : Label) : Except Error Nat :=
  match f.labelIndex? l with
  | some place => .ok place
  | none => .error (.of (.unresolvedLabel index instr l))

/-- The places that may follow an instruction. Two equal targets are one successor, and nothing
follows the last instruction or a return. -/
def successors (f : Func) (index : Nat) (instr : Instr) : Except Error (List Nat) :=
  match instr with
  | .cjump _ _ _ yes no => do
    let t ← target f index instr yes
    let e ← target f index instr no
    return if t = e then [t] else [t, e]
  | .goto l => do return [← target f index instr l]
  | .ret => .ok []
  | _ => .ok (if index + 1 < f.code.length then [index + 1] else [])

/-- Resolve every jump of a function. -/
def resolve (f : Func) : Except Error Flow := do
  let succ ← f.code.zipIdx.mapM fun (instr, index) => successors f index instr
  return { labels := f.labels, succ }

end Flow

end Spillway
