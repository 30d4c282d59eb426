import MipsAssembly.Number

/-!
# JSON values

A `JsonValue` is a value of the JSON data format.  The fields of an object keep their order,
and a name may come twice.  Integers and floating-point numbers are told apart.

A `JsonFault` is what can be wrong with a JSON text that is to stand for something.
-/

namespace MipsAssembly

/-- A value of the JSON data format. -/
inductive JsonValue where
  | null
  | bool (value : Bool)
  | number (value : Number)
  | text (content : String)
  | array (items : List JsonValue)
  | object (fields : List (String × JsonValue))

instance : Inhabited JsonValue := ⟨.null⟩

/-- The value of a word: no truth value, or one. -/
def JsonValue.ofWord : Option Bool → JsonValue
  | none => null
  | some value => bool value

/-- What can be wrong with a JSON text. -/
inductive JsonFault where
  /-- The text is not JSON. -/
  | malformed
  /-- The text ends too early. -/
  | truncated
  /-- The text is JSON so far, but does not stand for what it is to stand for. -/
  | mismatched
  deriving DecidableEq, Repr

end MipsAssembly
