import Spillway.Text.Printable

/-!
# Quoted text

Text between two quote marks. The mark and the backslash are escaped, printable characters stand as
they are, the usual controls have a letter, and every other character is written by its code in
hexadecimal: two digits below U+0020 and for U+007F, else four, else eight.
-/

namespace Spillway.Text

/-- The hexadecimal digits of a number, at least `width` of them. -/
def hexDigits (width n : Nat) : List Char :=
  let digits := Nat.toDigits 16 n
  List.replicate (width - digits.length) '0' ++ digits

/-- The letter that stands for a control character after a backslash. -/
def controlLetter? (c : Char) : Option Char :=
  match c.toNat with
  | 7 => some 'a'
  | 8 => some 'b'
  | 9 => some 't'
  | 10 => some 'n'
  | 11 => some 'v'
  | 12 => some 'f'
  | 13 => some 'r'
  | _ => none

/-- One character of a quoted text whose quote mark is `mark`. -/
def escape (mark c : Char) : List Char :=
  if c = mark ∨ c = '\\' then ['\\', c]
  else if isPrintable c then [c]
  else match controlLetter? c with
    | some l => ['\\', l]
    | none =>
      if c.toNat < 0x20 ∨ c.toNat = 0x7f then '\\' :: 'x' :: hexDigits 2 c.toNat
      else if c.toNat < 0x10000 then '\\' :: 'u' :: hexDigits 4 c.toNat
      else '\\' :: 'U' :: hexDigits 8 c.toNat

/-- The characters between two quote marks. -/
def quotedWith (mark : Char) (cs : List Char) : String :=
  String.ofList (mark :: cs.flatMap (escape mark) ++ [mark])

/-- A text in double quotes. -/
def quoted (s : String) : String := quotedWith '"' s.toList

/-- The character whose code is a byte, in single quotes. -/
def quotedByte (b : UInt8) : String := quotedWith '\'' [Char.ofNat b.toNat]

end Spillway.Text
