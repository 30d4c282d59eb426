import MipsAssembly.Resolution
import MipsAssembly.Statement.Error
import MipsAssembly.Token.Lexer

/-!
# Errors of a source text

A source text is refused for a spelling, for its syntax, or for a label that is declared
twice.  Every `Error` has a position and a message.
-/

namespace MipsAssembly

/-- Why a source text makes no program. -/
inductive Error where
  | lexical (error : LexicalError)
  | syntactic (error : SyntaxError)
  | duplicateLabel (error : DuplicateLabel)
  deriving DecidableEq

namespace Error

def position : Error → Position
  | lexical e => e.position
  | syntactic e => e.position
  | duplicateLabel e => e.position

def message : Error → String
  | lexical e => e.fault.message
  | syntactic e => e.message
  | duplicateLabel e => e.message

def text (e : Error) : String :=
  e.position.text ++ ": " ++ e.message

end Error

end MipsAssembly
