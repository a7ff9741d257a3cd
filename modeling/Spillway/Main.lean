import Spillway.CommandLine

/-!
# The program

Reads the files that a command names, runs the command on them, and carries out its effects.
-/

namespace Spillway.CommandLine

/-- The fault that a failed access to a file shows. -/
def faultOf : IO.Error → FileFault
  | .noFileOrDirectory .. => .notFound
  | .inappropriateType _ code _ => if code = 21 then .isDirectory else .notDirectory
  | .invalidArgument _ code _ => if code = 36 then .nameTooLong else .badName
  | _ => .badName

/-- The bytes of a file, or why it cannot be read. A directory can be opened, but not read. -/
def readFile (name : String) : IO (Except Error Bytes) := do
  try
    let bytes ← IO.FS.readBinFile name
    return .ok bytes.toList
  catch e =>
    let fault := faultOf e
    let access := if fault = .isDirectory then FileAccess.reading else .opening
    return .error (.of (.badFile access name fault))

/-- The contents of the files of some names. -/
def readFiles (names : List String) : IO Contents := do
  let files ← names.mapM fun name => return (name, ← readFile name)
  return fun name => (files.lookup name).getD (.error (.of (.badFile .opening name .notFound)))

/-- Write a file; the result says how that failed. -/
def writeFile (name text : String) : IO (Option Error) := do
  try
    IO.FS.writeFile name text
    return none
  catch e => return some (writeFault name (faultOf e))

/-- Run a command line and return its exit code. -/
def execute (args : List String) : IO UInt32 := do
  let output? ← IO.getEnv outputVariable
  let env := (output?.map fun name => (outputVariable, name)).toList
  let contents ← readFiles args
  let effects := run env contents args
  IO.print effects.stdout
  let failure ← match effects.file? with
    | some (name, text) => writeFile name text
    | none => pure effects.error?
  match failure with
  | some e =>
    IO.eprintln (errorLine e)
    return 1
  | none => return 0

end Spillway.CommandLine

/-- The entry point. -/
def main (args : List String) : IO UInt32 := Spillway.CommandLine.execute args
