import Spillway.Source.Bytes

/-!
# Tokens

A text is cut into parentheses and atoms. Blanks, and comments from `;` to the end of the line, only
separate tokens. An atom is

* an identifier, perhaps after a colon: letters, digits and underscores, and hyphens that are
  followed by a letter or an underscore;
* a sign with digits;
* or one of a few operators, of which the first that fits is taken.

`Token.scan` cuts until the text ends or no token starts, and tells which. What it skips never
matters, so that texts with the same tokens are read alike.
-/

namespace Spillway

/-- A letter or an underscore. -/
def isLetterByte (b : UInt8) : Bool :=
  ('a'.toUInt8 ≤ b && b ≤ 'z'.toUInt8) || ('A'.toUInt8 ≤ b && b ≤ 'Z'.toUInt8) || b == '_'.toUInt8

/-- A decimal digit. -/
def isDigitByte (b : UInt8) : Bool := '0'.toUInt8 ≤ b && b ≤ '9'.toUInt8

/-- A byte that identifiers are made of. -/
def isIdentByte (b : UInt8) : Bool := isLetterByte b || isDigitByte b

/-- A byte that separates tokens. -/
def isBlankByte (b : UInt8) : Bool :=
  b == ' '.toUInt8 || b == '\t'.toUInt8 || b == '\n'.toUInt8 || b == '\r'.toUInt8

namespace Token

/-- The operators, in the order in which they are tried. -/
def operators : List Bytes :=
  ["<<=", ">>=", "<-", "<=", "+=", "-=", "*=", "&=", "++", "--", "<", "=", "@"].map Bytes.ofString

/-- The number of bytes that continue an identifier. -/
def identLength : Bytes → Nat
  | [] => 0
  | [b] => if isIdentByte b then 1 else 0
  | b :: c :: rest =>
    if isIdentByte b then identLength (c :: rest) + 1
    else if b == '-'.toUInt8 && isLetterByte c then identLength rest + 2
    else 0

/-- The number of bytes of the atom at the head of a text; zero if none starts there. -/
def atomLength : Bytes → Nat
  | [] => 0
  | b :: rest =>
    if b == ':'.toUInt8 || isIdentByte b then identLength rest + 1
    else if (b == '-'.toUInt8 || b == '+'.toUInt8) && rest.head?.any isDigitByte then
      (rest.takeWhile isDigitByte).length + 1
    else match operators.find? (·.isPrefixOf (b :: rest)) with
      | some op => op.length
      | none => 0

/-- The offset and the text after blanks and comments, from inside a comment or outside one. -/
def skipBlanks (comment : Bool) (offset : Nat) : Bytes → Nat × Bytes
  | [] => (offset, [])
  | b :: rest =>
    if comment then skipBlanks (b != '\n'.toUInt8) (offset + 1) rest
    else if isBlankByte b then skipBlanks false (offset + 1) rest
    else if b == ';'.toUInt8 then skipBlanks true (offset + 1) rest
    else (offset, b :: rest)

theorem length_skipBlanks_le (comment : Bool) (offset : Nat) (text : Bytes) :
    (skipBlanks comment offset text).2.length ≤ text.length := by
  induction text generalizing comment offset with
  | nil => simp [skipBlanks]
  | cons b rest ih =>
    unfold skipBlanks
    split
    · exact Nat.le_succ_of_le (ih _ _)
    · split
      · exact Nat.le_succ_of_le (ih _ _)
      · split
        · exact Nat.le_succ_of_le (ih _ _)
        · exact Nat.le_refl _

end Token

/-- What a token is. -/
inductive Lexeme where
  | opening
  | closing
  | atom (text : String)
  deriving DecidableEq, Repr

/-- A token and the offset of its first byte. -/
structure Token where
  offset : Nat
  lexeme : Lexeme
  deriving DecidableEq, Repr

namespace Token

/-- Where cutting ended, and at which byte if not at the end of the text. -/
structure Stop where
  offset : Nat
  byte? : Option UInt8
  deriving DecidableEq, Repr

/-- The tokens of a text that starts at an offset. -/
def scan (offset : Nat) (text : Bytes) : List Token × Stop :=
  match _h : skipBlanks false offset text with
  | (start, []) => ([], ⟨start, none⟩)
  | (start, b :: rest) =>
    if b == '('.toUInt8 then
      let (tokens, stop) := scan (start + 1) rest
      (⟨start, .opening⟩ :: tokens, stop)
    else if b == ')'.toUInt8 then
      let (tokens, stop) := scan (start + 1) rest
      (⟨start, .closing⟩ :: tokens, stop)
    else match atomLength (b :: rest) with
      | 0 => ([], ⟨start, some b⟩)
      | n + 1 =>
        let (tokens, stop) := scan (start + n + 1) (rest.drop n)
        (⟨start, .atom (Bytes.toAscii (b :: rest.take n))⟩ :: tokens, stop)
termination_by text.length
decreasing_by
  all_goals
    have hle := length_skipBlanks_le false offset text
    simp only [_h, List.length_cons, List.length_drop] at hle ⊢
    omega

end Token

end Spillway
