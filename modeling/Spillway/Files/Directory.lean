import Spillway.Error
import Spillway.Files.Path

/-!
# A directory of files

`Files` is a working directory with its files. A path is followed name by name: each name but the
last must lead to a directory, and the first that does not decides what is wrong with the path.

Outside the working directory only the directories above it, a few that every system has, and the
null device are known. A file may be made there, but that changes none of the `Files`.
-/

namespace Spillway

/-- Files by path. -/
abbrev Files := List (String × Bytes)

/-- The contents of files by name, or why a file cannot be read. -/
abbrev Contents := String → Except Error Bytes

/-- Where the names of a place are looked up from. -/
inductive Base where
  | working
  | above
  | root
  deriving DecidableEq, Repr

/-- Where a path leads. -/
structure Place where
  base : Base
  names : List String
  deriving DecidableEq, Repr

namespace Place

/-- The directory around a directory. The root is its own. -/
def parent (p : Place) : Place :=
  match p.names, p.base with
  | [], .root => p
  | [], _ => ⟨.above, []⟩
  | names, _ => { p with names := names.dropLast }

/-- The place of a name in a directory. -/
def child (p : Place) (name : String) : Place := { p with names := p.names ++ [name] }

end Place

/-- The place that a path begins at. -/
def Path.start (p : Path) : Place := ⟨if p.fromRoot then .root else .working, []⟩

/-- What there is at a place. -/
inductive Entry where
  | dir (place : Place)
  | file (place : Place) (text : Bytes)
  | absent (place : Place)
  deriving DecidableEq, Repr

/-- Directories under the root that every system has, and the root. -/
def systemDirs : List (List String) := [[], ["dev"], ["etc"], ["tmp"], ["usr"]]

/-- The file that is always empty. -/
def nullDevice : List String := ["dev", "null"]

namespace Files

/-- The text of a file. -/
def text? (files : Files) (names : List String) : Option Bytes :=
  (files.find? fun file => Path.namesOf file.1 == names).map Prod.snd

/-- Is it the working directory, or one that holds some file? -/
def isDir (files : Files) (names : List String) : Bool :=
  names.isEmpty || files.any fun file =>
    names.isPrefixOf (Path.namesOf file.1) && names != Path.namesOf file.1

/-- What there is at a place. -/
def entry (files : Files) (p : Place) : Entry :=
  match p.base with
  | .working =>
    if files.isDir p.names then .dir p
    else match files.text? p.names with
      | some text => .file p text
      | none => .absent p
  | .above => if p.names.isEmpty then .dir p else .absent p
  | .root =>
    if systemDirs.contains p.names then .dir p
    else if p.names = nullDevice then .file p []
    else .absent p

/-- Follow one name. -/
def step (files : Files) (e : Entry) (name : String) : Except FileFault Entry :=
  match e with
  | .absent _ => .error .notFound
  | .file .. => .error .notDirectory
  | .dir p =>
    if name = "." then .ok e
    else if name = ".." then .ok (.dir p.parent)
    else if Path.nameLimit < name.utf8ByteSize then .error .nameTooLong
    else .ok (files.entry (p.child name))

/-- Follow names from a directory. -/
def walk (files : Files) (start : Place) (names : List String) : Except FileFault Entry :=
  names.foldlM files.step (.dir start)

/-- What a path leads to. A slash at its end acts like one more name for the same directory. -/
def locate (files : Files) (name : String) : Except FileFault Entry := do
  let p ← Path.parse name
  files.walk p.start (if p.endsInSlash then p.names ++ ["."] else p.names)

/-- The contents of a file. -/
def read (files : Files) : Contents := fun name =>
  match files.locate name with
  | .error fault => .error (.of (.badFile .opening name fault))
  | .ok (.absent _) => .error (.of (.badFile .opening name .notFound))
  | .ok (.dir _) => .error (.of (.badFile .reading name .isDirectory))
  | .ok (.file _ text) => .ok text

/-- The place of a file to write. Only its directory must be there; a path that asks for a directory
names no file, whatever there is. -/
def target (files : Files) (name : String) : Except FileFault Place := do
  let p ← Path.parse name
  if p.asksForDir then
    let _ ← files.walk p.start (p.names.dropLast ++ ["."])
    .error .isDirectory
  else
    match ← files.walk p.start p.names with
    | .dir _ => .error .isDirectory
    | .file place _ | .absent place => .ok place

end Files

end Spillway
