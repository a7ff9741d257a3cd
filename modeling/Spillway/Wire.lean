/-!
# Wire form

The bytes in which sets and names are logged. An item starts with a head: three bits of kind and
either a number below 24 or the width of the big-endian number that follows. A list of unknown
length is closed by a break byte.
-/

namespace Spillway.Wire

/-- The big-endian bytes of a number, `width` of them. -/
def bigEndian : Nat → Nat → List UInt8
  | 0, _ => []
  | width + 1, n => bigEndian width (n / 256) ++ [UInt8.ofNat n]

/-- The head of an item: kind bits `kind` and the number `n`. -/
def head (kind : UInt8) (n : Nat) : List UInt8 :=
  if n < 24 then [kind ||| UInt8.ofNat n]
  else if n ≤ 0xff then (kind ||| 24) :: bigEndian 1 n
  else if n ≤ 0xffff then (kind ||| 25) :: bigEndian 2 n
  else if n ≤ 0xffffffff then (kind ||| 26) :: bigEndian 4 n
  else (kind ||| 27) :: bigEndian 8 n

/-- The absent value. -/
def absent : List UInt8 := [0xf6]

/-- A natural number. -/
def nat (n : Nat) : List UInt8 := head 0x00 n

/-- A text. -/
def text (s : String) : List UInt8 := head 0x60 s.utf8ByteSize ++ s.toList.flatMap String.utf8EncodeChar

/-- A list of items, closed by a break. -/
def list (items : List (List UInt8)) : List UInt8 := 0x9f :: items.flatten ++ [0xff]

end Spillway.Wire
