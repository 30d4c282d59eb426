import MipsAssembly.Statement.Cursor

/-!
# Calls to a cursor

Whoever reads tokens makes one call after the other to a cursor.  Each call is answered and leaves
the cursor at some place, which is where the next call is made.

## Main definitions

- `Cursor.Call`, `Cursor.Answer` — the calls and their answers.
- `Cursor.call` — the effect of one call.
- `Cursor.callAll` — the effect of calls one after the other.
-/

namespace MipsAssembly

namespace Cursor

/-- What may be asked of a cursor. -/
inductive Call where
  | peek
  | next
  | check (wanted : Token → Bool)
  | consume (wanted : Token → Bool)
  | expect (wanted : Token → Bool) (expected : String)
  | unexpected (expected : String)
  | enter
  | leave

/-- What a cursor answers. -/
inductive Answer where
  /-- The next token, which stays unread. -/
  | seen (token : Option Token)
  /-- The token that is taken, if any. -/
  | taken (token : Option Token)
  | checked (holds : Bool)
  | expected (result : Except SyntaxError Token)
  | blamed (e : SyntaxError)
  | entered (result : Except SyntaxError Unit)
  | left

/-- The answer to a call, and the cursor behind it. -/
def call (c : Cursor) : Call → Answer × Cursor
  | .peek => (.seen c.peek?, c)
  | .next =>
    let (token, c) := c.next?
    (.taken token, c)
  | .check wanted => (.checked (c.checkIf wanted), c)
  | .consume wanted =>
    let (token, c) := c.consumeIf? wanted
    (.taken token, c)
  | .expect wanted expected =>
    let (result, c) := c.expectIf wanted expected
    (.expected result, c)
  | .unexpected expected => (.blamed (c.unexpected expected), c)
  | .enter =>
    match c.enter with
    | .ok inside => (.entered (.ok ()), inside)
    | .error e => (.entered (.error e), c)
  | .leave => (.left, c.leave)

/-- The answers to calls one after the other, and the cursor behind them. -/
def callAll (c : Cursor) : List Call → List Answer × Cursor
  | [] => ([], c)
  | call :: calls =>
    let (answer, c) := c.call call
    let (answers, c) := c.callAll calls
    (answer :: answers, c)

end Cursor

end MipsAssembly
