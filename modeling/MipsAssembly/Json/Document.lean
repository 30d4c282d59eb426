import MipsAssembly.Json.Token

/-!
# Documents: JSON texts read as far as they go

A `Document` is what can be read of a JSON text, whether or not the text is JSON to its end.
A list or an object that is not closed carries the fault that stands in the place of its
closing bracket, and where a value cannot be read the fault stands for the value.  So a
document can be walked in the order of its text, and the first thing that is wrong with it is
found first, be it a fault of the text or of what the text stands for.

Documents are read token by token.  The lists and objects that are open make a stack, and a
`Slot` tells what may come next in the innermost of them.

## Main definitions

- `Document` — a JSON text as far as it can be read.
- `Document.ofText` — read a text.
- `Document.value` — the JSON value of a document, if there is no fault in it.
- `Document.skip` — the first fault of a document whose value is not asked for.
-/

namespace MipsAssembly

/-- A JSON text as far as it can be read. -/
inductive Document where
  /-- One of the words `null`, `true` and `false`. -/
  | word (value : Except JsonFault (Option Bool))
  | number (value : Except JsonFault Number)
  | text (content : Except JsonFault String)
  /-- A list, and the fault in the place of its closing bracket if there is one. -/
  | array (items : List Document) (fault : Option JsonFault)
  /-- An object, and the fault in the place of its closing brace if there is one. -/
  | object (fields : List (Except JsonFault String × Document)) (fault : Option JsonFault)
  /-- A fault in the place of a value. -/
  | missing (fault : JsonFault)

namespace Document

/-- A field of an object: its name, which may be faulty, and its value. -/
abbrev Field := Except JsonFault String × Document

/-! ## Reading -/

/-- A list or an object that is open. -/
inductive Container where
  /-- A list and its items so far. -/
  | array (items : List Document)
  /-- An object, its fields so far, and the name of the next field if it has been read. -/
  | object (fields : List Field) (key : Option (Except JsonFault String))

/-- What may come next. -/
inductive Slot where
  | value
  /-- The first item or field of the innermost container, or its end. -/
  | first
  | key
  /-- The colon behind the name of a field. -/
  | colon
  /-- A comma, or the end of the innermost container. -/
  | separator
  deriving DecidableEq

/-- The effect of a token. -/
inductive Step where
  | go (stack : List Container) (slot : Slot)
  | done (document : Document)
  | fail (fault : JsonFault)

/-- The effect of a value in its place. -/
def complete (document : Document) : List Container → Step
  | [] => .done document
  | .array items :: stack => .go (.array (items ++ [document]) :: stack) .separator
  | .object fields (some key) :: stack =>
    .go (.object (fields ++ [(key, document)]) none :: stack) .separator
  | .object _ none :: _ => .fail .malformed

/-- May a value come next? -/
def wantsValue : List Container → Slot → Bool
  | _, .value => true
  | .array _ :: _, .first => true
  | _, _ => false

/-- The effect of a token. -/
def next (stack : List Container) (slot : Slot) : JsonToken → Step
  | .stop f => .fail f
  | .word value => if wantsValue stack slot then complete (word value) stack else .fail .malformed
  | .number value =>
    if wantsValue stack slot then complete (number value) stack else .fail .malformed
  | .text content =>
    if wantsValue stack slot then complete (text content) stack
    else
      match slot, stack with
      | .first, .object fields none :: stack | .key, .object fields none :: stack =>
        .go (.object fields (some content) :: stack) .colon
      | _, _ => .fail .malformed
  | .openBracket =>
    if wantsValue stack slot then .go (.array [] :: stack) .first else .fail .malformed
  | .openBrace =>
    if wantsValue stack slot then .go (.object [] none :: stack) .first else .fail .malformed
  | .closeBracket =>
    match slot, stack with
    | .first, .array items :: stack | .separator, .array items :: stack =>
      complete (array items none) stack
    | _, _ => .fail .malformed
  | .closeBrace =>
    match slot, stack with
    | .first, .object fields none :: stack | .separator, .object fields none :: stack =>
      complete (object fields none) stack
    | _, _ => .fail .malformed
  | .comma =>
    match slot, stack with
    | .separator, .array items :: stack => .go (.array items :: stack) .value
    | .separator, .object fields none :: stack => .go (.object fields none :: stack) .key
    | _, _ => .fail .malformed
  | .colon =>
    match slot with
    | .colon => .go stack .value
    | _ => .fail .malformed

/-- The document that is left when reading stops behind a document in the innermost
container. -/
def wrap (fault : JsonFault) (document : Document) : List Container → Document
  | [] => document
  | .array items :: stack => wrap fault (array (items ++ [document]) (some fault)) stack
  | .object fields (some key) :: stack =>
    wrap fault (object (fields ++ [(key, document)]) (some fault)) stack
  | .object fields none :: stack => wrap fault (object fields (some fault)) stack

/-- The document that is left when reading stops. -/
def abandon (fault : JsonFault) : List Container → Slot → Document
  | .array items :: stack, .first | .array items :: stack, .separator =>
    wrap fault (array items (some fault)) stack
  | .object fields none :: stack, _ => wrap fault (object fields (some fault)) stack
  | stack, _ => wrap fault (missing fault) stack

/-- Read tokens with some containers open.  The answer is the document, and whether tokens
are left behind it. -/
def read : List Container → Slot → List JsonToken → Document × Bool
  | stack, slot, [] => (abandon .truncated stack slot, false)
  | stack, slot, token :: tokens =>
    match next stack slot token with
    | .go stack slot => read stack slot tokens
    | .done document => (document, !tokens.isEmpty)
    | .fail f => (abandon f stack slot, false)

/-- Read a text.  The answer is the document, and whether anything is left behind it. -/
def ofText (source : String) : Document × Bool :=
  read [] .value (jsonTokens source)

/-! ## Walking -/

/-- The answer, unless there is a fault in the place of the closing bracket. -/
def closeWith {α : Type} (fault : Option JsonFault) (answer : α) : Except JsonFault α :=
  match fault with
  | none => .ok answer
  | some f => .error f

mutual

/-- The JSON value of a document, in which lists and objects may be nested so many times. -/
def value (room : Nat) : Document → Except JsonFault JsonValue
  | word w => w.map JsonValue.ofWord
  | number n => n.map .number
  | text s => s.map .text
  | missing f => .error f
  | array items fault =>
    if room = 0 then .error .malformed
    else do
      let items ← itemValues (room - 1) items
      closeWith fault (.array items)
  | object fields fault =>
    if room = 0 then .error .malformed
    else do
      let fields ← fieldValues (room - 1) fields
      closeWith fault (.object fields)

def itemValues (room : Nat) : List Document → Except JsonFault (List JsonValue)
  | [] => .ok []
  | item :: items => do
    let item ← item.value room
    let items ← itemValues room items
    return item :: items

def fieldValues (room : Nat) : List Field → Except JsonFault (List (String × JsonValue))
  | [] => .ok []
  | (key, field) :: fields => do
    let key ← key
    let field ← field.value room
    let fields ← fieldValues room fields
    return (key, field) :: fields

end

mutual

/-- The first fault of a document whose value is not asked for.  Numbers may be out of range,
texts may hold half a surrogate pair, and lists and objects may be nested without limit. -/
def skip : Document → Except JsonFault Unit
  | word _ | number _ | text _ => .ok ()
  | missing f => .error f
  | array items fault => do
    skipItems items
    closeWith fault ()
  | object fields fault => do
    skipFields fields
    closeWith fault ()

def skipItems : List Document → Except JsonFault Unit
  | [] => .ok ()
  | item :: items => do
    item.skip
    skipItems items

def skipFields : List Field → Except JsonFault Unit
  | [] => .ok ()
  | (_, field) :: fields => do
    field.skip
    skipFields fields

end

/-- The fault of a document that does not stand for what is asked for.  A fault of the text
comes first. -/
def mismatch : Document → JsonFault
  | missing f | word (.error f) | number (.error f) | text (.error f) => f
  | _ => .mismatched

def asText : Document → Except JsonFault String
  | text (.ok content) => .ok content
  | d => .error d.mismatch

/-- A natural number below the given bound. -/
def asNatural (bound : Nat) : Document → Except JsonFault Nat
  | number (.ok (.integer i)) =>
    if 0 ≤ i ∧ i < bound then .ok i.toNat else .error .mismatched
  | d => .error d.mismatch

/-- The items of a list, each read by the given function. -/
def asList {α : Type} (read : Document → Except JsonFault α) :
    Document → Except JsonFault (List α)
  | array items fault => do
    let items ← items.mapM read
    closeWith fault items
  | d => .error d.mismatch

/-- The fields of an object, each value read by the given function. -/
def asFields {α : Type} (read : Document → Except JsonFault α) :
    Document → Except JsonFault (List (String × α))
  | object fields fault => do
    let fields ← fields.mapM fun (key, field) => do
      let key ← key
      let field ← read field
      return (key, field)
    closeWith fault fields
  | d => .error d.mismatch

/-- Take fields one by one, up to the closing bracket. -/
def foldFields {σ : Type} (take : σ → String → Document → Except JsonFault σ) (start : σ)
    (fields : List Field) (fault : Option JsonFault) : Except JsonFault σ := do
  let parts ← fields.foldlM (fun parts (key, field) => do take parts (← key) field) start
  closeWith fault parts

/-- The items of a list as the fields whose names stand in the same places. -/
def named (names : List String) (items : List Document) : List Field :=
  (names.map .ok).zip items

/-- Take the fields of a record one by one.  A record is an object, or a list of the values of the
named fields in their order.  Behind the last of them the list has to be closed. -/
def foldRecord {σ : Type} (names : List String)
    (take : σ → String → Document → Except JsonFault σ) (start : σ) :
    Document → Except JsonFault σ
  | object fields fault => foldFields take start fields fault
  | array items fault =>
    foldFields take start (named names items)
      (if names.length < items.length then some .malformed else fault)
  | d => .error d.mismatch

end Document

end MipsAssembly
