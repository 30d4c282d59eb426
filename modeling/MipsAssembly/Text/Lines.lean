/-!
# Lines of a text

A text is cut at its line feeds.  One carriage return directly before a line feed belongs to
the line end; every other carriage return is a character of its line.  A final line feed
starts no further line, and the empty text has no line.

## Main definitions

- `splitLines` cuts a list of characters into its lines.
- `sourceLines` does the same with a string.
- `joinLines` puts line feeds between lines.
-/

namespace MipsAssembly

/-- The lines of a text, without their line ends. -/
def splitLines : List Char → List (List Char)
  | [] => []
  | '\r' :: '\n' :: rest => [] :: splitLines rest
  | '\n' :: rest => [] :: splitLines rest
  | c :: rest =>
    match splitLines rest with
    | [] => [[c]]
    | line :: lines => (c :: line) :: lines

def sourceLines (source : String) : List (List Char) :=
  splitLines source.toList

/-- Texts with line feeds between them. -/
def joinLines : List (List Char) → List Char
  | [] => []
  | [line] => line
  | line :: lines => line ++ '\n' :: joinLines lines

end MipsAssembly
