/-!
# Source texts

A source text is a sequence of bytes; nothing requires it to be valid UTF-8. Places in it are byte
offsets, shown to readers as a line and a column that both count from one. A column counts bytes.
-/

namespace Spillway

/-- The bytes of a text. -/
abbrev Bytes := List UInt8

namespace Bytes

/-- The UTF-8 bytes of a string. -/
def ofString (s : String) : Bytes := s.toList.flatMap String.utf8EncodeChar

/-- The string of bytes that are ASCII. -/
def toAscii (bs : Bytes) : String := String.ofList (bs.map fun b => Char.ofNat b.toNat)

end Bytes

/-- A line and a column. -/
structure Position where
  line : Nat
  column : Nat
  deriving DecidableEq, Repr

namespace Position

/-- The first place of a text. -/
def start : Position := ⟨1, 1⟩

/-- The place after a byte. -/
def next (p : Position) (b : UInt8) : Position :=
  if b = '\n'.toUInt8 then ⟨p.line + 1, 1⟩ else ⟨p.line, p.column + 1⟩

/-- The place of a byte offset. -/
def ofOffset (text : Bytes) (offset : Nat) : Position := (text.take offset).foldl next start

end Position

/-- A text and the name under which faults in it are reported. -/
structure Source where
  name : String
  text : Bytes
  deriving DecidableEq, Repr

end Spillway
