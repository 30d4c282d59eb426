/-!
# Positions in a source text

A `Position` is the line and the column of a character.  Both count from one in a source
text, and a column counts characters, so the position just behind a line of `n` characters
has column `n + 1`.  The position `0:0` stands for "nothing read yet".
-/

namespace MipsAssembly

structure Position where
  /-- The line, counted from one. -/
  line : Nat := 0
  /-- The column in characters, counted from one. -/
  column : Nat := 0
  deriving DecidableEq, Inhabited, Repr

namespace Position

/-- A position is written as its line, a colon and its column. -/
def text (p : Position) : String :=
  toString p.line ++ ":" ++ toString p.column

end Position

end MipsAssembly
