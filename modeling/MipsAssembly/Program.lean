import MipsAssembly.Entry
import MipsAssembly.OrderedMap

/-!
# Programs

A `Program` has segments with their entries, labels, and the record of the switches between
segments.  The place of an entry in its segment is its address.

## Main definitions

- `Program.openSegment`, `Program.append`, `Program.bind`, `Program.recordSwitch` — build a
  program piece by piece.
- `Program.labelEntry?` — the entry that a label points at.
- `Program.labelsByAddress` — the labels of each place.
- `Program.sameValue` — equality with floating-point numbers compared by value and the order
  of segments and labels left aside.
-/

namespace MipsAssembly

structure Segment where
  entries : List Entry := []
  deriving DecidableEq, Inhabited

namespace Segment

def length (s : Segment) : Nat :=
  s.entries.length

def isEmpty (s : Segment) : Bool :=
  s.entries.isEmpty

def get? (s : Segment) (address : Nat) : Option Entry :=
  s.entries[address]?

/-- Equality with floating-point numbers compared by value. -/
def sameValue (s t : Segment) : Bool :=
  s.length = t.length && (s.entries.zip t.entries).all fun (e, f) => e.sameValue f

end Segment

/-- What a label stands for. -/
structure Label where
  /-- The address, which is the length of the segment for a label behind the last entry. -/
  address : Nat
  segment : String
  deriving DecidableEq

/-- Segments, labels and the record of the switches between segments. -/
structure Program where
  /-- The segments, in the order in which they were first opened. -/
  segments : OrderedMap Segment := .empty
  /-- The labels, in the order in which they were bound. -/
  labels : OrderedMap Label := .empty
  /-- The names of the segments that were switched to, one for each switch. -/
  switches : List String := []
  deriving DecidableEq, Inhabited

namespace Program

/-! ## Building -/

/-- A segment, without entries if it does not exist. -/
def segmentD (p : Program) (name : String) : Segment :=
  (p.segments.get? name).getD {}

/-- The length of a segment, zero if it does not exist. -/
def segmentLength (p : Program) (name : String) : Nat :=
  (p.segmentD name).length

/-- Make sure that a segment exists. -/
def openSegment (p : Program) (name : String) : Program :=
  { p with segments := p.segments.insert name (p.segmentD name) }

/-- Put an entry behind the others of a segment. -/
def append (p : Program) (name : String) (entry : Entry) : Program :=
  { p with segments := p.segments.insert name ⟨(p.segmentD name).entries ++ [entry]⟩ }

def bind (p : Program) (label segment : String) (address : Nat) : Program :=
  { p with labels := p.labels.insert label ⟨address, segment⟩ }

/-- Record a switch to a segment. -/
def recordSwitch (p : Program) (name : String) : Program :=
  { p with switches := p.switches ++ [name] }

/-! ## Looking up -/

def segment? (p : Program) (name : String) : Option Segment :=
  p.segments.get? name

def label? (p : Program) (name : String) : Option Label :=
  p.labels.get? name

/-- The entry that a label points at; a label behind the last entry points at none. -/
def labelEntry? (p : Program) (name : String) : Option Entry :=
  (p.label? name).bind fun label => (p.segment? label.segment).bind (·.get? label.address)

/-- Add a label to the group of its place. -/
def addToGroup (place : Label) (name : String) :
    List (Label × List String) → List (Label × List String)
  | [] => [(place, [name])]
  | (key, names) :: rest =>
    if key = place then (key, names ++ [name]) :: rest
    else (key, names) :: addToGroup place name rest

/-- The labels grouped by their places, each group in the order of the labels. -/
def labelsByAddress (p : Program) : List (Label × List String) :=
  p.labels.entries.foldl (fun groups (name, place) => addToGroup place name groups) []

/-! ## Comparing -/

/-- Equality with floating-point numbers compared by value and the order of segments and
labels left aside. -/
def sameValue (p q : Program) : Bool :=
  p.segments.equalBy Segment.sameValue q.segments
    && p.labels.equalBy (fun l m => l = m) q.labels
    && p.switches = q.switches

end Program

end MipsAssembly
