import Spillway.Source.Tree
import Spillway.Text.Quoted

/-!
# Faults of program texts
-/

namespace Spillway

/-- The wording of a fault. -/
def TreeFault.message : TreeFault → String
  | endOfInput => "unexpected end of input"
  | strayClosing => "unexpected )"
  | unclosed => "unclosed ("
  | unexpectedByte b => "unexpected character " ++ Text.quotedByte b

/-- What is wrong with the shape of a program text. -/
inductive SyntaxFault where
  | tree (fault : TreeFault)
  | afterProgram
  | afterFunction
  | program
  | function
  | emptyInstr
  | returnOperands
  | goto
  | cjump
  | call
  | instr
  | memDestination
  | unexpectedOperator (op : String)
  | takesNoOperands (op : String)
  | lea
  | malformed (op : String)
  | mem
  | label
  | number
  | badNumber (text : String)
  | comparison
  deriving DecidableEq, Repr

/-- The wording of a fault. -/
def SyntaxFault.message : SyntaxFault → String
  | tree fault => fault.message
  | afterProgram => "unexpected text after program"
  | afterFunction => "unexpected text after function"
  | program => "program: want (:entry functions...)"
  | function => "function: want (:name args locals instructions...)"
  | emptyInstr => "empty instruction"
  | returnOperands => "return takes no operands"
  | goto => "goto: want (goto :label)"
  | cjump => "cjump: want (cjump t cmp t :label :label)"
  | call => "call: want (call u N)"
  | instr => "malformed instruction"
  | memDestination => "memory destination: want ((mem x M) op s)"
  | unexpectedOperator op => "unexpected operator " ++ Text.quoted op
  | takesNoOperands op => op ++ " takes no operands"
  | lea => "@: want (w @ w w E)"
  | malformed op => "malformed " ++ Text.quoted op ++ " instruction"
  | mem => "want (mem x M)"
  | label => "want label"
  | number => "want number"
  | badNumber text => "want number: " ++ Text.quoted text
  | comparison => "want comparison"

end Spillway
