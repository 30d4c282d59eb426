import MipsAssembly.Token

/-!
# Syntax errors

A `SyntaxError` tells what was expected and what was found instead, or names a directive that
does not exist.  An error at the end of the input has the position of the last token before
it.
-/

namespace MipsAssembly

/-- Why a list of tokens makes no statements. -/
inductive SyntaxError where
  /-- A token stands where something else is expected. -/
  | unexpectedToken (expected : String) (found : TokenKind) (position : Position)
  | unexpectedEnd (expected : String) (position : Position)
  /-- There is no directive of this name. -/
  | unknownDirective (name : String) (position : Position)
  deriving DecidableEq

namespace SyntaxError

def position : SyntaxError → Position
  | unexpectedToken _ _ position => position
  | unexpectedEnd _ position => position
  | unknownDirective _ position => position

def message : SyntaxError → String
  | unexpectedToken expected found _ => "Expected " ++ expected ++ ", found " ++ found.describe
  | unexpectedEnd expected _ => "Expected " ++ expected ++ ", found end of input"
  | unknownDirective name _ => "Unknown directive: `" ++ name ++ "`"

/-- The error of expecting something where the given tokens are left and the given position
is that of the last token before them. -/
def atNext (expected : String) (last : Position) : List Token → SyntaxError
  | [] => unexpectedEnd expected last
  | token :: _ => unexpectedToken expected token.kind token.position

end SyntaxError

end MipsAssembly
