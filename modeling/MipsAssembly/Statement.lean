import MipsAssembly.Entry
import MipsAssembly.Position

/-!
# Statements

A `Statement` is what a line of source text says, one part at a time and in source order: a
switch to a segment, the declaration of a label, or an entry for the current segment.
-/

namespace MipsAssembly

/-- The name of the segment of instructions, which is current at the start. -/
def textSegment : String := ".text"

/-- The name of the segment of data. -/
def dataSegment : String := ".data"

/-- What a line of source text says. -/
inductive Statement where
  /-- What follows belongs to the segment with this name. -/
  | segment (name : String)
  /-- A label is declared here. -/
  | label (name : String) (position : Position)
  | entry (entry : Entry)
  deriving DecidableEq

end MipsAssembly
