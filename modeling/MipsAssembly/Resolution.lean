import MipsAssembly.Program
import MipsAssembly.Statement

/-!
# From statements to a program

Statements are taken in order.  Entries are put behind the others of the current segment, and
a label stands for the place of the next entry of the segment that is current where it is
declared.

The labels that were declared since the last entry or switch wait until the next entry, the
next switch or the end of the statements, and are bound then.  Nothing is put into a segment
while labels wait, so they are bound to the place that they saw.

## Main definitions

- `Layout` — the program so far, the current segment and the labels that wait.
- `Layout.step` — the effect of one statement.
- `Layout.advance` — the same, where a statement that is refused has no effect.
- `Layout.run` — the effect of statements up to the first error.
- `resolve` — the program of a list of statements.
-/

namespace MipsAssembly

/-- A label that is declared a second time. -/
structure DuplicateLabel where
  name : String
  /-- Where it is declared again. -/
  position : Position
  /-- Where it was declared first. -/
  first : Position
  deriving DecidableEq

def DuplicateLabel.message (e : DuplicateLabel) : String :=
  "Re-defined label: `" ++ e.name ++ "` (first defined at " ++ e.first.text ++ ")"

/-- What happens while statements are taken. -/
inductive LayoutEvent where
  | switched (segment : String)
  | bound (label segment : String) (address : Nat)
  | appended (segment : String) (address : Nat)
  deriving DecidableEq

/-- A program in the making. -/
structure Layout where
  program : Program := {}
  current : String := textSegment
  /-- The labels that wait for a place, in order of declaration. -/
  waiting : List String := []
  /-- The labels declared so far and where. -/
  declared : List (String × Position) := []
  events : List LayoutEvent := []
  deriving DecidableEq

namespace Layout

def note (l : Layout) (event : LayoutEvent) : Layout :=
  { l with events := l.events ++ [event] }

/-- Bind labels to the end of the current segment. -/
def bindAll (l : Layout) (address : Nat) (names : List String) : Layout :=
  names.foldl
    (fun l name => { l with program := l.program.bind name l.current address }.note
      (.bound name l.current address)) l

/-- Bind the labels that wait.  Their segment exists from then on, even if nothing follows. -/
def flush (l : Layout) : Layout :=
  if l.waiting.isEmpty then l
  else
    let program := l.program.openSegment l.current
    { { l with program := program }.bindAll (program.segmentLength l.current) l.waiting with
      waiting := [] }

def switchTo (l : Layout) (name : String) : Layout :=
  let l := l.flush.note (.switched name)
  { l with program := (l.program.openSegment name).recordSwitch name, current := name }

def append (l : Layout) (entry : Entry) : Layout :=
  let l := l.flush
  let address := l.program.segmentLength l.current
  { l with program := l.program.append l.current entry }.note (.appended l.current address)

/-- Declare a label, which then waits for its place. -/
def declare (l : Layout) (name : String) (position : Position) : Layout :=
  { l with waiting := l.waiting ++ [name], declared := (name, position) :: l.declared }

/-- Take a statement.  A label that is declared already is refused. -/
def step (l : Layout) : Statement → Except DuplicateLabel Layout
  | .segment name => .ok (l.switchTo name)
  | .entry entry => .ok (l.append entry)
  | .label name position =>
    match l.declared.lookup name with
    | some first => .error ⟨name, position, first⟩
    | none => .ok (l.declare name position)

/-- Take a statement, or pass over it if it is refused. -/
def advance (l : Layout) (statement : Statement) : Layout :=
  match l.step statement with
  | .ok next => next
  | .error _ => l

/-- The program when no statement is left. -/
def finish (l : Layout) : Program :=
  l.flush.program

/-- Take statements up to the first one that is refused, if there is one. -/
def run (l : Layout) : List Statement → Layout × Option DuplicateLabel
  | [] => (l.flush, none)
  | statement :: rest =>
    match l.step statement with
    | .ok l => l.run rest
    | .error e => (l, some e)

end Layout

/-- The program of a list of statements. -/
def resolve (statements : List Statement) : Except DuplicateLabel Program :=
  match Layout.run {} statements with
  | (l, none) => .ok l.program
  | (_, some e) => .error e

end MipsAssembly
