import Spillway.Source.Token

/-!
# Trees

A tree is an atom or a parenthesized list of trees, and keeps the offset at which it starts.
`Tree.build` reads the first tree of a token list and returns the tokens after it. The lists that
are still open are kept on a stack, so nesting may be as deep as it likes.
-/

namespace Spillway

/-- An atom or a list. -/
inductive Tree where
  | atom (offset : Nat) (text : String)
  | list (offset : Nat) (items : List Tree)
  deriving Repr, Inhabited

/-- Why no tree could be read. -/
inductive TreeFault where
  | endOfInput
  | strayClosing
  | unclosed
  | unexpectedByte (b : UInt8)
  deriving DecidableEq, Repr

namespace Tree

/-- Where the tree starts. -/
def offset : Tree → Nat
  | atom o _ => o
  | list o _ => o

/-- The text of an atom. -/
def text? : Tree → Option String
  | atom _ t => some t
  | list .. => none

/-- A list that is not closed yet: where it starts and its items so far, the last one first. -/
structure Open where
  offset : Nat
  items : List Tree

/-- The fault of tokens that end inside these open lists. -/
def truncated (stop : Token.Stop) (opened : List Open) : Nat × TreeFault :=
  match stop.byte?, opened with
  | some b, _ => (stop.offset, .unexpectedByte b)
  | none, inner :: _ => (inner.offset, .unclosed)
  | none, [] => (stop.offset, .endOfInput)

/-- Read on inside open lists, the innermost first, up to the end of the outermost tree. -/
def build (stop : Token.Stop) (opened : List Open) :
    List Token → Except (Nat × TreeFault) (Tree × List Token)
  | [] => .error (truncated stop opened)
  | ⟨o, .opening⟩ :: tokens => build stop (⟨o, []⟩ :: opened) tokens
  | ⟨o, .closing⟩ :: tokens =>
    match opened with
    | [] => .error (o, .strayClosing)
    | [inner] => .ok (.list inner.offset inner.items.reverse, tokens)
    | inner :: outer :: rest =>
      let tree := .list inner.offset inner.items.reverse
      build stop (⟨outer.offset, tree :: outer.items⟩ :: rest) tokens
  | ⟨o, .atom t⟩ :: tokens =>
    match opened with
    | [] => .ok (.atom o t, tokens)
    | inner :: rest => build stop (⟨inner.offset, .atom o t :: inner.items⟩ :: rest) tokens

end Tree

end Spillway
