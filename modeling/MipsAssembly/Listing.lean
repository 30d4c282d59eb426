import MipsAssembly.Program
import MipsAssembly.Render
import MipsAssembly.Text.Lines
import MipsAssembly.Text.Padding
import MipsAssembly.Text.Style

/-!
# Listings

A listing shows the segments of a program one after the other: a heading with the name, then
each address with the labels that stand for it and the entry that is there.  The address
behind the last entry is listed too, for the labels that stand for it.
-/

namespace MipsAssembly

namespace Listing

/-- The heading of a segment.  The dashes behind the name make up for its length in bytes. -/
def heading (name : String) : List Char :=
  List.replicate 7 '-' ++ "+------[".toList ++ name.toList ++ ']' ::
    List.replicate (40 - name.utf8ByteSize) '-'

def labelLine (name : String) : List Char :=
  "       | ".toList ++ Style.green.paint (name.toList ++ [':'])

/-- A name in one colour, padded to eight characters, and operands in another. -/
def coloured (nameStyle operandStyle : Style) (name : List Char) (operands : List Operand) :
    List Char :=
  nameStyle.on ++ padRight 8 ' ' name
    ++ operandStyle.paint (commaSeparated (operands.map Operand.chars))

/-- The colours of an entry: red and blue for instructions, cyan and yellow for data. -/
def entryText : Entry → List Char
  | .instruction i => coloured .red .blue i.opcode.toList i.operands
  | .data d => coloured .cyan .yellow d.mode.name.toList d.value.values

def entryLine (address : Nat) (entry : Entry) : List Char :=
  '[' :: padLeft 4 '0' (Numeral.decimal address) ++ "] |   ".toList ++ entryText entry

/-- The lines of an address: its labels and its entry. -/
def addressLines (labels : List String) (address : Nat) (entry : Option Entry) :
    List (List Char) :=
  labels.map labelLine ++ entry.toList.map (entryLine address)

/-- The lines of a segment, given the labels by their places. -/
def segmentLines (groups : List (Label × List String)) (name : String) (segment : Segment) :
    List (List Char) :=
  heading name :: (List.range (segment.length + 1)).flatMap fun address =>
    addressLines ((groups.lookup ⟨address, name⟩).getD []) address (segment.get? address)

end Listing

def Program.listingLines (p : Program) : List (List Char) :=
  let groups := p.labelsByAddress
  p.segments.entries.flatMap fun (name, segment) => Listing.segmentLines groups name segment

def Program.listing (p : Program) : String :=
  String.ofList (joinLines p.listingLines)

end MipsAssembly
