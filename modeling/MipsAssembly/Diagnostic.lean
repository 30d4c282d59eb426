import MipsAssembly.Error
import MipsAssembly.Text.Padding
import MipsAssembly.Text.Style

/-!
# Diagnostics

A diagnostic shows an error with the line of the source text that it is in, and a caret under
the character that it is about.  A line that the source text does not have is shown empty.
-/

namespace MipsAssembly

namespace Error

def sourceLine (e : Error) (source : String) : List Char :=
  ((sourceLines source)[e.position.line - 1]?).getD []

/-- The margin beside the source line, with something in front of its bar. -/
def margin (inFront : List Char) : List Char :=
  Style.blue.paint (inFront ++ ['|'])

def diagnosticLines (e : Error) (source : String) : List (List Char) :=
  let heading := Style.red.on ++ Style.bold.on ++ "error".toList ++ Style.red.off ++ Style.bold.off
  let caret := Style.red.on ++ Style.bold.on ++ ['^'] ++ Style.red.off ++ Style.bold.off
  let lineNumber := padLeft 4 ' ' (Numeral.decimal e.position.line)
  let indent := List.replicate (e.position.column - 1) ' '
  [heading ++ ": ".toList ++ e.message.toList,
   "     ".toList ++ Style.blue.paint "-->".toList ++ ' ' ::
     Style.underline.paint e.position.text.toList,
   "      ".toList ++ margin [],
   ' ' :: margin (lineNumber ++ [' ']) ++ ' ' :: e.sourceLine source,
   "      ".toList ++ margin [] ++ ' ' :: indent ++ caret]

/-- The diagnostic of an error in a source text. -/
def diagnostic (e : Error) (source : String) : String :=
  String.ofList (joinLines (e.diagnosticLines source))

end Error

end MipsAssembly
