import MipsAssembly.Error
import MipsAssembly.Statement.Cursor

/-!
# From source text to a program

The work has three stages, each of which may refuse the source text: tokens, statements and
the program.  The first error decides, and then there is no program at all.

## Main definitions

- `statementsOf` — the statements of a source text.
- `parse` — the program of a source text.
- `LogRecord`, `parseLog` — what is worth noting on the way.
-/

namespace MipsAssembly

/-- The statements of a source text. -/
def statementsOf (source : String) : Except Error (List Statement) :=
  match lex source with
  | .error e => .error (.lexical e)
  | .ok tokens => (parseStatements tokens).mapError .syntactic

/-- The program of a source text. -/
def parse (source : String) : Except Error Program :=
  match statementsOf source with
  | .error e => .error e
  | .ok statements => (resolve statements).mapError .duplicateLabel

/-- Do two source texts make equal programs, or the same error? -/
def sameOutcome (source other : String) : Bool :=
  match parse source, parse other with
  | .ok p, .ok q => p.sameValue q
  | .error e, .error f => e = f
  | _, _ => false

/-- Something worth noting. -/
inductive LogRecord where
  | lexed (tokens : Nat)
  | parsed (statements : Nat)
  | layout (event : LayoutEvent)
  | resolved (segments labels : Nat)
  deriving DecidableEq

namespace LayoutEvent

/-- A place as log records write it. -/
def place (segment : String) (address : Nat) : String :=
  segment ++ "[" ++ toString address ++ "]"

def text : LayoutEvent → String
  | switched segment => "switch to segment " ++ segment
  | bound label segment address => "label " ++ label ++ " = " ++ place segment address
  | appended segment address => place segment address ++ " appended"

end LayoutEvent

namespace LogRecord

def level : LogRecord → String
  | layout _ => "TRACE"
  | _ => "DEBUG"

def text : LogRecord → String
  | lexed tokens => "lexed " ++ toString tokens ++ " tokens"
  | parsed statements => "parsed " ++ toString statements ++ " statements"
  | layout event => event.text
  | resolved segments labels =>
    "resolved " ++ toString segments ++ " segments, " ++ toString labels ++ " labels"

end LogRecord

/-- The records of taking statements. -/
def resolutionLog (statements : List Statement) : List LogRecord :=
  match Layout.run {} statements with
  | (l, some _) => l.events.map .layout
  | (l, none) =>
    l.events.map .layout ++ [.resolved l.program.segments.size l.program.labels.size]

/-- The records of reading a source text, up to the stage that refuses it. -/
def parseLog (source : String) : List LogRecord :=
  match lex source with
  | .error _ => []
  | .ok tokens =>
    .lexed tokens.length ::
      match parseStatements tokens with
      | .error _ => []
      | .ok statements => .parsed statements.length :: resolutionLog statements

end MipsAssembly
