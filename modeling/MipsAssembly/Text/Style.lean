/-!
# Styled text

On a terminal a `Style` is switched on and off by control sequences.  All colours are switched
off by one and the same sequence, and a colour also ends where another one begins.
-/

namespace MipsAssembly

/-- How text looks. -/
inductive Style where
  | red
  | green
  | yellow
  | blue
  | cyan
  | bold
  | underline
  deriving DecidableEq

namespace Style

/-- A control sequence with a parameter. -/
def sequence (parameter : List Char) : List Char :=
  '\x1b' :: '[' :: (parameter ++ ['m'])

def on : Style → List Char
  | red => sequence ['3', '1']
  | green => sequence ['3', '2']
  | yellow => sequence ['3', '3']
  | blue => sequence ['3', '4']
  | cyan => sequence ['3', '6']
  | bold => sequence ['1']
  | underline => sequence ['4']

def off : Style → List Char
  | bold => sequence ['2', '2']
  | underline => sequence ['2', '4']
  | _ => sequence ['3', '9']

def paint (style : Style) (text : List Char) : List Char :=
  style.on ++ text ++ style.off

end Style

end MipsAssembly
