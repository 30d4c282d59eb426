import MipsAssembly.Program.Import
import MipsAssembly.Proofs.Json.FieldOrder

/-!
# Edits of the text of a program

The order of fields and fields that mean nothing are to make no difference to the program that a
text stands for.  What can be edited depends on the place: a `Place` tells what stands there, which
fields a record uses there, and in which of them records stand again.  The names in the map of
segments and in that of labels belong to the program, so these maps are no records; only what they
hold is.  A record may also be a list of the values of the fields that it uses, in the order in
which these are given here.

## Main definitions

- `Place` — what stands in a place of the text of a program.
- `Entry.usage?`, `Operand.usage?` — the fields that entries and operands use.
- `Place.Uses` — the fields that a record uses in a place.
- `Edit` — an edit of one record in a place or inside it.
-/

namespace MipsAssembly

open Document JsonRecord

/-- What stands in a place of the text of a program. -/
inductive Place where
  | program
  /-- The segments under their names. -/
  | segments
  | segment
  | entries
  | entry
  /-- The labels under their names. -/
  | labels
  | label
  | switches
  | switch
  /-- An operand, in which lists and objects may be nested so many times. -/
  | operand (room : Nat)
  /-- A list of operands, or an operand on its own. -/
  | operands (room : Nat)

namespace Place

/-- How many times lists and objects may be nested in a place. -/
def room : Place → Nat
  | program => maxNesting
  | segments | labels | switches => maxNesting - 1
  | segment | label | switch => maxNesting - 2
  | entries => maxNesting - 3
  | entry => maxNesting - 4
  | operand room | operands room => room

/-- What the items of a list stand for. -/
def item? : Place → Option Place
  | entries => some entry
  | switches => some switch
  | operands room => some (operand (room - 1))
  | _ => none

/-- What the values of an object stand for that are found under names of the program. -/
def member? : Place → Option Place
  | segments => some segment
  | labels => some label
  | _ => none

end Place

/-- The fields that an entry with a tag uses. -/
def Entry.usage? : (tag : String) → Option (Usage Place)
  | "Instruction" =>
    some [("type", none), ("opcode", none), ("operands", some (.operands (maxNesting - 5)))]
  | "Data" => some [("type", none), ("mode", none), ("value", some (.operands (maxNesting - 5)))]
  | _ => none

/-- The fields that an operand with a tag uses, in the values of which lists and objects may be
nested so many times. -/
def Operand.usage? (room : Nat) : (tag : String) → Option (Usage Place)
  | "Register" => some [("type", none), ("value", none), ("kind", none)]
  | "Number" => some [("type", none), ("kind", none), ("value", none)]
  | "Identifier" | "String" => some [("type", none), ("value", none)]
  | "Binary" =>
    some [("type", none), ("operator", none), ("left", some (.operand room)),
      ("right", some (.operand room))]
  | "Indexed" =>
    some [("type", none), ("offset", some (.operand room)), ("base", some (.operand room))]
  | _ => none

/-- A record has a tag among its fields. -/
def HasTag (tag? : JsonValue → Option String) (tag : String) (fields : List Field) : Prop :=
  ∃ t, tag? t = some tag ∧ (.ok "type", ofJson t) ∈ fields

/-- The fields that a record uses in a place.  In some places the tag decides. -/
inductive Place.Uses : Place → List Field → Usage Place → Prop where
  | program (fields : List Field) :
    Uses program fields
      [("segments", some segments), ("labels", some labels), ("directives", some switches)]
  | segment (fields : List Field) : Uses segment fields [("instructions", some entries)]
  | label (fields : List Field) : Uses label fields [("address", none), ("segment", none)]
  | switch {fields : List Field} (htag : HasTag JsonValue.asText? "Segment" fields) :
    Uses switch fields [("type", none), ("value", none)]
  | entry {tag : String} {fields : List Field} {used : Usage Place}
      (htag : HasTag JsonValue.asText? tag fields) (h : Entry.usage? tag = some used) :
    Uses entry fields used
  | operand {room : Nat} {tag : String} {fields : List Field} {used : Usage Place}
      (htag : HasTag Operand.kindOf? tag fields) (h : Operand.usage? (room - 1) tag = some used) :
    Uses (operand room) fields used

/-- A list is none of the values of a record.  Where a single operand may stand, it is one if it
starts with a tag. -/
def Place.Lists : Place → List Document → Prop
  | operands _, text _ :: _ | operands _, number _ :: _ => False
  | _, _ => True

/-- An edit of a document in a place.  One record is edited, there or in a place inside it: its
fields are put in another order, or a field that it does not use is inserted.  A record that is a
list of values has no fields, but there may be records inside it. -/
inductive Edit : Place → Document → Document → Prop where
  | permute {place : Place} {fields fields' : List Field} {used : Usage Place}
      (huses : place.Uses fields used) (h : fields.Perm fields') :
    Edit place (object fields none) (object fields' none)
  | insert {place : Place} (front behind : List Field) {used : Usage Place} {name : String}
      {value : JsonValue} (huses : place.Uses (front ++ behind) used)
      (hname : used.lookup name = none) (hroom : value.nesting < place.room) :
    Edit place (object (front ++ behind) none)
      (object (front ++ (.ok name, ofJson value) :: behind) none)
  | field {place inner : Place} (front behind : List Field) {used : Usage Place} {name : String}
      {d d' : Document} (huses : place.Uses (front ++ (.ok name, d) :: behind) used)
      (hname : used.lookup name = some (some inner)) (h : Edit inner d d') :
    Edit place (object (front ++ (.ok name, d) :: behind) none)
      (object (front ++ (.ok name, d') :: behind) none)
  | part {place inner : Place} (front behind : List Document) {used : Usage Place} {name : String}
      {d d' : Document}
      (huses : place.Uses (named (used.map Prod.fst) (front ++ d :: behind)) used)
      (hname : used[front.length]? = some (name, some inner)) (h : Edit inner d d') :
    Edit place (array (front ++ d :: behind) none) (array (front ++ d' :: behind) none)
  | item {place inner : Place} (front behind : List Document) {d d' : Document}
      (hlist : place.Lists (front ++ d :: behind)) (hitem : place.item? = some inner)
      (h : Edit inner d d') :
    Edit place (array (front ++ d :: behind) none) (array (front ++ d' :: behind) none)
  | member {place inner : Place} (front behind : List Field) {key : Except JsonFault String}
      {d d' : Document} (hmember : place.member? = some inner) (h : Edit inner d d') :
    Edit place (object (front ++ (key, d) :: behind) none)
      (object (front ++ (key, d') :: behind) none)
  | single {room : Nat} {d d' : Document} (h : Edit (.operand room) d d') :
    Edit (.operands room) d d'

end MipsAssembly
