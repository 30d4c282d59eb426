import MipsAssembly.Number
import MipsAssembly.Position
import MipsAssembly.Text.Quoted

/-!
# Tokens

A `Token` is a kind with the position where its spelling starts.  A `TokenKind` carries what
the spelling stands for: names keep their leading dollar sign or dot, numerals and texts are
already read.  Every source line ends with a token of kind `lineEnd`.

`TokenKind.describe` names a kind in messages.
-/

namespace MipsAssembly

/-- What a token stands for. -/
inductive TokenKind where
  | colon
  | comma
  | plus
  | minus
  | star
  | slash
  | percent
  | openParen
  | closeParen
  /-- A name: of an instruction, a label or a constant. -/
  | identifier (name : String)
  /-- A register, with its dollar sign. -/
  | register (name : String)
  /-- A directive, with its dot. -/
  | directive (name : String)
  | number (radix : Radix) (value : Number)
  | text (content : String)
  | lineEnd
  deriving DecidableEq

namespace TokenKind

/-- The kind that a single character makes on its own. -/
def ofPunctuation? : Char → Option TokenKind
  | ':' => some colon
  | ',' => some comma
  | '+' => some plus
  | '-' => some minus
  | '*' => some star
  | '/' => some slash
  | '%' => some percent
  | '(' => some openParen
  | ')' => some closeParen
  | _ => none

/-- A kind as messages name it. -/
def describe : TokenKind → String
  | colon => "`:`"
  | comma => "`,`"
  | plus => "`+`"
  | minus => "`-`"
  | star => "`*`"
  | slash => "`/`"
  | percent => "`%`"
  | openParen => "`(`"
  | closeParen => "`)`"
  | identifier name => "identifier `" ++ name ++ "`"
  | register name => "register `" ++ name ++ "`"
  | directive name => "directive `" ++ name ++ "`"
  | number _ value => "number `" ++ String.ofList value.chars ++ "`"
  | text content => "string " ++ String.ofList (quoteForMessage content.toList)
  | lineEnd => "end of line"

end TokenKind

structure Token where
  kind : TokenKind
  /-- Where its spelling starts. -/
  position : Position
  deriving DecidableEq

end MipsAssembly
