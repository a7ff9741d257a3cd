import Spillway.Allocator.Machine
import Spillway.Frame.StackArg
import Spillway.Source.Reader

/-!
# Compiling programs

A program is compiled by allocating the registers of each function in turn and then reading its
stack arguments as loads. The result is a program without variables.
-/

namespace Spillway

/-- Compile a program. -/
def Program.compile (c : Convention) (p : Program) : Except Error Program := do
  unless p.entryDefined do throw (.of (.undefinedEntry p.entry))
  let funcs ← p.funcs.mapM fun f => do
    let g ← f.allocate c
    return g.lowerStackArgs
  return { p with funcs }

/-- Compile the text of a program under the System V convention. -/
def compileText (name : String) (text : Bytes) : Except Error String := do
  let p ← inContext .programText (Program.parse name text)
  let q ← inContext .compilation (p.compile .systemV)
  return q.text

end Spillway
