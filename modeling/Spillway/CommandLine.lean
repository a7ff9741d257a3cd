import Spillway.Files.Programs

/-!
# The command line

There are two commands. `parse` prints the programs of some files, and `compile` compiles the
program of one file and writes it to a file or, for `-`, to standard output.

Arguments are read from left to right. One that starts with a dash is a flag, but for `-` itself and
for `--`, after which no more flags are looked for. A flag has one or two dashes, a name, and a
value. The value stands after `=` or a space in the same argument, or else it is the next argument. A
command takes its own flags and the general ones.

`Command.run` says what a command prints, writes and reports, given the contents of files. In a
directory of known files, `Effects.settle` says whether the file can be written, and
`Effects.changed?` which file is then new or different. Nothing in this module touches a real file.
-/

namespace Spillway.CommandLine

/-- What a command does. -/
inductive Verb where
  | parse
  | compile
  deriving DecidableEq, Repr

/-- The name of a command. -/
def Verb.text : Verb → String
  | parse => "parse"
  | compile => "compile"

/-- The command of a name. -/
def Verb.ofName? : String → Option Verb
  | "parse" => some parse
  | "compile" => some compile
  | _ => none

/-- What a flag sets. -/
inductive Setting where
  | output
  | verbosity
  deriving DecidableEq, Repr

/-- The flag of a name before any command or after a command. -/
def setting? (verb : Option Verb) (name : String) : Option Setting :=
  if name = "verbose" ∨ name = "v" then some .verbosity
  else if verb = some .compile ∧ (name = "output" ∨ name = "o") then some .output
  else none

/-- Is the argument a flag? -/
def isFlag (arg : String) : Bool := arg ≠ "-" && arg ≠ "--" && arg.toList.head? == some '-'

/-- Does the character end the name of a flag? -/
def endsName (c : Char) : Bool := c == '=' || c == ' '

/-- The name of a flag, and its value if it stands in the same argument. -/
def splitFlag (arg : String) : String × Option String :=
  let body := match arg.toList with
    | '-' :: '-' :: cs => cs
    | '-' :: cs => cs
    | cs => cs
  let name := body.takeWhile (! endsName ·)
  match body.dropWhile (! endsName ·) with
  | [] => (String.ofList name, none)
  | _ :: value => (String.ofList name, some (String.ofList value))

/-- The report of a bad flag. -/
def flagFault (arg : String) (fault : CommandFault) : Error :=
  .report [.flag arg] (.badCommand fault)

/-- Where a command writes to, and the arguments that are no flags. -/
structure Options where
  output : String
  args : List String
  deriving DecidableEq, Repr

/-- Set an option. The verbosity changes no answer. -/
def Options.apply (o : Options) (value : String) : Setting → Options
  | .output => { o with output := value }
  | .verbosity => o

/-- Read the arguments after a command. -/
def Options.read (verb : Verb) (o : Options) : List String → Except Error Options
  | [] => .ok o
  | arg :: rest =>
    if arg = "--" then .ok { o with args := o.args ++ rest }
    else if isFlag arg then
      let (name, value?) := splitFlag arg
      match setting? (some verb) name with
      | none => .error (flagFault arg .noSuchFlag)
      | some setting =>
        match value? with
        | some value => Options.read verb (o.apply value setting) rest
        | none =>
          match rest with
          | [] => .error (flagFault arg .valueRequired)
          | value :: rest => Options.read verb (o.apply value setting) rest
    else Options.read verb { o with args := o.args ++ [arg] } rest

/-- A command and its options; there is none in arguments that hold only general flags. -/
structure Command where
  verb : Verb
  options : Options
  deriving DecidableEq, Repr

/-- The environment variable that names the output of `compile`. -/
def outputVariable : String := "L2C_OUTPUT"

/-- The file that `compile` writes to unless told otherwise. -/
def defaultOutput (env : List (String × String)) : String :=
  match env.lookup outputVariable with
  | none | some "" => "prog.L1"
  | some name => name

/-- Read all arguments. -/
def Command.read? (env : List (String × String)) : List String → Except Error (Option Command)
  | [] => .ok none
  | arg :: rest =>
    if isFlag arg then
      let (name, value?) := splitFlag arg
      match setting? none name with
      | none => .error (flagFault arg .noSuchFlag)
      | some _ =>
        match value? with
        | some _ => Command.read? env rest
        | none =>
          match rest with
          | [] => .error (flagFault arg .valueRequired)
          | _ :: rest => Command.read? env rest
    else
      match Verb.ofName? arg with
      | none => .error (.of (.badCommand (.unexpectedArg arg)))
      | some verb => do
        let options ← inContext (.command arg) (Options.read verb ⟨defaultOutput env, []⟩ rest)
        return some { verb, options }

/-- What a command prints, the file that it writes, and how it fails. -/
structure Effects where
  stdout : String := ""
  file? : Option (String × String) := none
  error? : Option Error := none
  deriving DecidableEq, Repr

/-- Print the programs of files up to the first that cannot be read. -/
def printAll (contents : Contents) : List String → Effects
  | [] => {}
  | name :: names =>
    match inContext (.parsing name) (Program.ofFile contents name) with
    | .error e => { error? := some e }
    | .ok p =>
      let rest := printAll contents names
      { rest with stdout := p.text ++ rest.stdout }

/-- Compile the program of the only source. -/
def compileOne (contents : Contents) (o : Options) : Effects :=
  match o.args with
  | [name] =>
    match inContext (.compiling name) (compileFile contents name) with
    | .error e => { error? := some e }
    | .ok text => if o.output = "-" then { stdout := text } else { file? := some (o.output, text) }
  | args => { error? := some (.of (.badCommand (.sourceCount args.length))) }

/-- Report an error of a command under its name. -/
def Effects.under (verb : Verb) (e : Effects) : Effects :=
  { e with error? := e.error?.map (Error.within (.command verb.text)) }

/-- What a command does, given the contents of files. -/
def Command.run (contents : Contents) (cmd : Command) : Effects :=
  Effects.under cmd.verb <| match cmd.verb with
    | .parse => printAll contents cmd.options.args
    | .compile => compileOne contents cmd.options

/-- What a whole command line does, given the contents of files. -/
def run (env : List (String × String)) (contents : Contents) (args : List String) : Effects :=
  match Command.read? env args with
  | .error e => { error? := some e }
  | .ok none => {}
  | .ok (some cmd) => cmd.run contents

/-- The report that a file could not be written. -/
def writeFault (name : String) (fault : FileFault) : Error :=
  .report [.command Verb.compile.text, .writing name] (.badFile .opening name fault)

/-- The effects in a directory, where writing fails if there is no place for the file. -/
def Effects.settle (files : Files) (e : Effects) : Effects :=
  match e.file? with
  | none => e
  | some (name, _) =>
    match files.target name with
    | .ok _ => e
    | .error fault => { e with file? := none, error? := some (writeFault name fault) }

/-- The file of a directory that is new or changed by the effects, by its path there. -/
def Effects.changed? (files : Files) (e : Effects) : Option (String × String) :=
  match e.file? with
  | none => none
  | some (name, text) =>
    match files.target name with
    | .ok ⟨.working, names⟩ =>
      if files.text? names = some (Bytes.ofString text) then none else some (Path.join names, text)
    | _ => none

/-- The line that reports an error. -/
def errorLine (e : Error) : String := "error: " ++ e.message

/-- The exit code. -/
def Effects.exitCode (e : Effects) : Nat := if e.error?.isSome then 1 else 0

end Spillway.CommandLine
