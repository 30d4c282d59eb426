import MipsAssembly.Program

/-!
# Building programs

Whoever builds a program makes one call after the other.  Each call is answered and leaves the
program at some stage, which the next call goes on with.

## Main definitions

- `Program.Call`, `Program.Answer` — the calls and their answers.
- `Program.call` — the effect of one call.
- `Program.callAll` — the effect of calls one after the other.
-/

namespace MipsAssembly

namespace Program

/-- What may be asked of a program in the making. -/
inductive Call where
  | openSegment (name : String)
  | length (name : String)
  | append (segment : String) (entry : Entry)
  | bind (label segment : String) (address : Nat)
  | recordSwitch (name : String)

/-- What a program in the making answers. -/
inductive Answer where
  | opened (segment : Segment)
  | measured (length : Nat)
  /-- The address that an entry is given. -/
  | placed (address : Nat)
  /-- What the label stood for before, if it was bound. -/
  | replaced (label : Option Label)
  | recorded
  deriving DecidableEq

/-- The answer to a call, and the program behind it. -/
def call (p : Program) : Call → Answer × Program
  | .openSegment name =>
    let p := p.openSegment name
    (.opened (p.segmentD name), p)
  | .length name => (.measured (p.segmentLength name), p)
  | .append segment entry =>
    let p := p.append segment entry
    (.placed (p.segmentLength segment - 1), p)
  | .bind label segment address =>
    (.replaced (p.label? label), p.bind label segment address)
  | .recordSwitch name => (.recorded, p.recordSwitch name)

/-- The answers to calls one after the other, and the program behind them. -/
def callAll (p : Program) : List Call → List Answer × Program
  | [] => ([], p)
  | call :: calls =>
    let (answer, p) := p.call call
    let (answers, p) := p.callAll calls
    (answer :: answers, p)

end Program

end MipsAssembly
