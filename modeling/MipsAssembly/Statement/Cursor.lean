import MipsAssembly.Statement.Phase

/-!
# Cursors over tokens

A `Cursor` is a place in a list of tokens: the tokens that are left, the position of the last
token before them, and the number of groups that are open there.  It looks at the next token,
takes it if it is wanted, and makes the error that belongs to its place.

What is wanted is a condition on the token.  Where only its kind matters, `check`, `consume?` and
`expect` take a condition on kinds.

Statements are read from a cursor phase by phase.  It enters each group at the parenthesis that
opens it and leaves it behind the one that closes it, so that no more than `maxDepth` groups are
ever open.

## Main definitions

- `Cursor.next?`, `Cursor.checkIf`, `Cursor.consumeIf?`, `Cursor.expectIf` — look at the next token
  and take it.
- `Cursor.enter`, `Cursor.leave` — open and close a group.
- `Cursor.move` — open or close a group at the next token, if it does so.
- `Cursor.parse` — the statements of the tokens that are left.
- `parseStatements` — the statements of a list of tokens.
-/

namespace MipsAssembly

/-- How many groups may be open at once. -/
def maxDepth : Nat := 256

/-- A place in a list of tokens. -/
structure Cursor where
  unread : List Token
  /-- The position of the last token taken, `0:0` if there is none. -/
  last : Position := {}
  /-- The number of open groups. -/
  depth : Nat := 0
  deriving DecidableEq

namespace Cursor

def ofTokens (tokens : List Token) : Cursor :=
  { unread := tokens }

/-- The next token, which stays unread. -/
def peek? (c : Cursor) : Option Token :=
  c.unread.head?

def next? (c : Cursor) : Option Token × Cursor :=
  match c.unread with
  | [] => (none, c)
  | token :: rest => (some token, { c with unread := rest, last := token.position })

/-- Is there a next token, and is it wanted? -/
def checkIf (wanted : Token → Bool) (c : Cursor) : Bool :=
  c.peek?.any wanted

/-- Take the next token if it is wanted. -/
def consumeIf? (wanted : Token → Bool) (c : Cursor) : Option Token × Cursor :=
  if c.checkIf wanted then c.next? else (none, c)

/-- The error of expecting something at this place. -/
def unexpected (expected : String) (c : Cursor) : SyntaxError :=
  .atNext expected c.last c.unread

/-- Take the next token, which has to be wanted. -/
def expectIf (wanted : Token → Bool) (expected : String) (c : Cursor) :
    Except SyntaxError Token × Cursor :=
  match c.consumeIf? wanted with
  | (some token, c) => (.ok token, c)
  | (none, c) => (.error (c.unexpected expected), c)

def check (wanted : TokenKind → Bool) (c : Cursor) : Bool :=
  c.checkIf fun token => wanted token.kind

def consume? (wanted : TokenKind → Bool) (c : Cursor) : Option Token × Cursor :=
  c.consumeIf? fun token => wanted token.kind

def expect (wanted : TokenKind → Bool) (expected : String) (c : Cursor) :
    Except SyntaxError Token × Cursor :=
  c.expectIf (fun token => wanted token.kind) expected

/-- Open a group at the next token, unless too many are open. -/
def enter (c : Cursor) : Except SyntaxError Cursor :=
  if c.depth < maxDepth then .ok { c with depth := c.depth + 1 }
  else .error (c.unexpected "shallower expression")

/-- Close a group, if one is open. -/
def leave (c : Cursor) : Cursor :=
  { c with depth := c.depth - 1 }

/-- Go with the next token, which is of the given kind, into the group that it opens or out of the
one that it closes. -/
def move (c : Cursor) (phase : Phase) (kind : TokenKind) : Except SyntaxError Cursor :=
  if phase.opensGroup kind then c.enter
  else if phase.closesGroup kind then .ok c.leave
  else .ok c

/-- The effect of the next token: the phase that it leads to, the depth there, and the statements
that it completes. -/
def step (c : Cursor) (phase : Phase) (token : Token) :
    Except SyntaxError (Phase × Nat × List Statement) :=
  match c.move phase token.kind with
  | .error e => .error e
  | .ok inside => (phase.next none token).map fun (next, done) => (next, inside.depth, done)

/-- The statements of tokens, from a phase on.  The depth and the position are those of the cursor
in front of them. -/
def readFrom : Phase → (depth : Nat) → (last : Position) → List Token →
    Except SyntaxError (List Statement)
  | phase, depth, last, [] =>
    match phase.finish? with
    | some statements => .ok statements
    | none => .error (unexpected phase.expected { unread := [], last := last, depth := depth })
  | phase, depth, last, token :: tokens =>
    match step { unread := token :: tokens, last := last, depth := depth } phase token with
    | .error e => .error e
    | .ok (next, behind, done) => (readFrom next behind token.position tokens).map (done ++ ·)

/-- The statements of the tokens that are left.  The groups that are open stay open, so that
fewer can be opened. -/
def parse (c : Cursor) : Except SyntaxError (List Statement) :=
  readFrom .lineStart c.depth c.last c.unread

end Cursor

def parseStatements (tokens : List Token) : Except SyntaxError (List Statement) :=
  (Cursor.ofTokens tokens).parse

end MipsAssembly
