import Spillway.Files.Fault

/-!
# Paths

A path is a text in which slashes divide names. Slashes that stand together divide like one. A slash
at the start makes the path begin at the root, and one at the end asks for a directory.

A path is not simplified before it is followed: `a/../b` leads to `b` only if `a` is a directory.
-/

namespace Spillway

/-- The names along a path, and the slashes at its ends. -/
structure Path where
  fromRoot : Bool
  names : List String
  endsInSlash : Bool
  deriving DecidableEq, Repr

namespace Path

/-- A name has at most this many bytes. -/
def nameLimit : Nat := 255

/-- A path has at most this many bytes. -/
def limit : Nat := 4095

/-- What stands between the slashes of a text. -/
def segments : List Char → List (List Char)
  | [] => [[]]
  | c :: cs =>
    if c = '/' then [] :: segments cs
    else match segments cs with
      | [] => [[c]]
      | s :: ss => (c :: s) :: ss

/-- The names along a path. -/
def namesOf (text : String) : List String :=
  ((segments text.toList).filter (! ·.isEmpty)).map String.ofList

/-- The path that a text spells. -/
def parse (text : String) : Except FileFault Path :=
  if text.toList.contains '\x00' then .error .badName
  else if text = "" then .error .notFound
  else if limit < text.utf8ByteSize then .error .nameTooLong
  else .ok {
    fromRoot := text.toList.head? == some '/'
    names := namesOf text
    endsInSlash := text.toList.getLast? == some '/' }

/-- The text of a path of some names. -/
def join (names : List String) : String := "/".intercalate names

/-- Does the name lead to the same directory or to its parent? -/
def isDots (name : String) : Bool := name == "." || name == ".."

/-- A path that asks for a directory by a slash after a proper name. -/
def asksForDir (p : Path) : Bool := p.endsInSlash && !p.names.getLast?.all isDots

end Path

end Spillway
