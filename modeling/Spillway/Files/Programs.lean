import Spillway.Compile
import Spillway.Files.Directory

/-!
# Programs in files
-/

namespace Spillway

/-- Read the program in a file. -/
def Program.ofFile (contents : Contents) (name : String) : Except Error Program := do
  let text ← inContext .file (contents name)
  Program.parse name text

/-- Compile the program in a file. -/
def compileFile (contents : Contents) (name : String) : Except Error String := do
  let text ← inContext (.reading name) (contents name)
  compileText name text

end Spillway
