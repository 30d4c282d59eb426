import MipsAssembly.Proofs.Program.Edit

/-!
# Edited entries and operands

Entries, switches and operands are kept as JSON values until their objects are closed, so what they
stand for is a matter of the values of the fields that they use.  Where these are the same as
before, or edited in a way that keeps what is read in them, the same is read of the whole.

## Main definitions

- `StillRead`, `SameReading` — what is read stays as it was.
- `Place.Same` — what values that are kept stand for in a place.
- `KeptKind` — how the records of a kind are read, as objects and as lists of values.
- `Operand.keptKind`, `Entry.keptKind`, `switch_keptKind` — operands, entries and switches are read
  so.
- `Entry.ofDocument_eq_ok_iff`, `switchOfDocument_eq_ok_iff` — entries and switches are read as what
  their values stand for.
-/

namespace MipsAssembly

open Document JsonRecord

/-! ## Values that are kept -/

/-- What is read stays as it was. -/
def StillRead {α : Type} (before after : Option α) : Prop :=
  ∀ a, before = some a → after = some a

namespace StillRead

variable {α β : Type} {before after : Option α}

theorem refl (o : Option α) : StillRead o o :=
  fun _ h => h

theorem bind (h : StillRead before after) {f g : α → Option β}
    (hnext : ∀ a, StillRead (f a) (g a)) : StillRead (before >>= f) (after >>= g) := by
  intro b hb
  obtain ⟨a, ha, hb⟩ := Option.bind_eq_some_iff.mp hb
  exact Option.bind_eq_some_iff.mpr ⟨a, h a ha, hnext a b hb⟩

/-- Reading goes on from the only answer that there can be. -/
theorem bind_only (h : StillRead before after) {a : α} (honly : ∀ b, before = some b → b = a)
    {f g : α → Option β} (hnext : StillRead (f a) (g a)) :
    StillRead (before >>= f) (after >>= g) := by
  intro b hb
  obtain ⟨a', ha, hb⟩ := Option.bind_eq_some_iff.mp hb
  obtain rfl := honly a' ha
  exact Option.bind_eq_some_iff.mpr ⟨a', h a' ha, hnext b hb⟩

theorem map (h : StillRead before after) (f : α → β) : StillRead (before.map f) (after.map f) := by
  intro b hb
  obtain ⟨a, ha, hb⟩ := Option.map_eq_some_iff.mp hb
  exact Option.map_eq_some_iff.mpr ⟨a, h a ha, hb⟩

/-- One of many values is another one, from which the same is read. -/
theorem mapM_item {read : β → Option α} {b b' : β} (h : StillRead (read b) (read b'))
    (front behind : List β) :
    StillRead ((front ++ b :: behind).mapM read) ((front ++ b' :: behind).mapM read) := by
  rw [List.mapM_append, List.mapM_append, List.mapM_cons, List.mapM_cons]
  exact (refl _).bind fun _ => (h.bind fun _ => refl _).bind fun _ => refl _

end StillRead

/-- Values that are the same, or both lists, or both objects. -/
inductive JsonValue.SameShape : JsonValue → JsonValue → Prop where
  | refl (value : JsonValue) : SameShape value value
  | array (items items' : List JsonValue) : SameShape (.array items) (.array items')
  | object (fields fields' : List (String × JsonValue)) :
    SameShape (.object fields) (.object fields')

/-- What a value stands for stays as it was. -/
structure SameReading {α : Type} (read : JsonValue → Option α) (value value' : JsonValue) :
    Prop where
  shape : value.SameShape value'
  read : StillRead (read value) (read value')

theorem SameReading.refl {α : Type} (read : JsonValue → Option α) (value : JsonValue) :
    SameReading read value value :=
  ⟨.refl value, .refl (read value)⟩

/-- What values stand for in a place that are kept until more is known. -/
def Place.Same : Place → JsonValue → JsonValue → Prop
  | operand _ => SameReading Operand.ofJson?
  | operands _ => SameReading DataValue.ofJson?
  | _ => Eq

theorem Place.Same.refl (place : Place) (value : JsonValue) : place.Same value value := by
  cases place with
  | operand | operands => exact SameReading.refl _ value
  | _ => rfl

namespace JsonRecord.Agree

variable {β : Type} {used : Usage Place} {fields fields' : List (String × JsonValue)}
  {name : String} {inner : Place}

/-- A field that has to be there is read as before. -/
theorem required (h : Agree used Place.Same fields fields') (hname : used.lookup name = some none)
    (f : JsonValue → Option β) :
    StillRead ((required? name fields).bind f) ((required? name fields').bind f) := by
  intro b hb
  obtain ⟨v, hv, hb⟩ := Option.bind_eq_some_iff.mp hb
  have hv' := required?_eq_some_iff.mpr (h.plain hname (required?_eq_some_iff.mp hv))
  exact Option.bind_eq_some_iff.mpr ⟨v, hv', hb⟩

/-- A field that has to be there and whose value may be edited is read as before. -/
theorem required_inner (h : Agree used Place.Same fields fields')
    (hname : used.lookup name = some (some inner)) {f : JsonValue → Option β}
    (hf : ∀ {v v'}, inner.Same v v' → StillRead (f v) (f v')) :
    StillRead ((required? name fields).bind f) ((required? name fields').bind f) := by
  intro b hb
  obtain ⟨v, hv, hb⟩ := Option.bind_eq_some_iff.mp hb
  obtain ⟨v', hv', hsame⟩ := h.inner hname (required?_eq_some_iff.mp hv)
  exact Option.bind_eq_some_iff.mpr ⟨v', required?_eq_some_iff.mpr hv', hf hsame b hb⟩

/-- A field that may be absent and whose value may be edited is read as before. -/
theorem optional_inner (h : Agree used Place.Same fields fields')
    (hname : used.lookup name = some (some inner)) {f : Option JsonValue → Option β}
    (hf : ∀ {v v'}, inner.Same v v' → StillRead (f (some v)) (f (some v'))) :
    StillRead ((optional? name fields).bind f) ((optional? name fields').bind f) := by
  intro b hb
  obtain ⟨o, ho, hb⟩ := Option.bind_eq_some_iff.mp hb
  unfold optional? at ho
  split at ho
  · next hv =>
    obtain rfl := Option.some.inj ho
    rw [optional?, h.absent hname hv]
    exact hb
  · next v hv =>
    obtain rfl := Option.some.inj ho
    obtain ⟨v', hv', hsame⟩ := h.inner hname hv
    rw [optional?, hv']
    exact hf hsame b hb
  · cases ho

end JsonRecord.Agree

/-! ## Tags -/

section

variable {name tag : String} {fields : List (String × JsonValue)}

theorem text_eq_some_iff :
    (required? name fields).bind (·.asText?) = some tag ↔ valuesOf name fields = [.text tag] := by
  rw [Option.bind_eq_some_iff]
  constructor
  · rintro ⟨v, hv, htag⟩
    cases v with
    | text content =>
      obtain rfl := Option.some.inj htag
      exact required?_eq_some_iff.mp hv
    | _ => cases htag
  · intro h
    exact ⟨_, required?_eq_some_iff.mpr h, rfl⟩

/-- The tag that is read is one that is there. -/
theorem eq_tag_of_mem {tag? : JsonValue → Option String} {t : JsonValue} {other : String}
    (h : ("type", t) ∈ fields) (ht : tag? t = some tag)
    (hread : (required? "type" fields).bind tag? = some other) : other = tag := by
  obtain ⟨v, hv, hother⟩ := Option.bind_eq_some_iff.mp hread
  have hmem := mem_valuesOf h
  rw [required?_eq_some_iff.mp hv, List.mem_singleton] at hmem
  subst hmem
  exact Option.some.inj (hother.symm.trans ht)

end

/-! ## Kinds of records -/

/-- How the records of a kind are read that have a tag and are kept until they are closed.  What an
object stands for is told by the fields that are used, and a list of their values stands for the
object that it makes up. -/
structure KeptKind {α : Type} (parse : JsonValue → Option α) (tag? : JsonValue → Option String)
    (tag : String) (used : Usage Place) : Prop where
  first : ∃ others, used = ("type", none) :: others
  nodup : (used.map Prod.fst).Nodup
  object : ∀ {t fields fields'}, tag? t = some tag → ("type", t) ∈ fields →
    Agree used Place.Same fields fields' →
      StillRead (parse (.object fields)) (parse (.object fields'))
  list : ∀ {t values}, tag? t = some tag → parse (.array (t :: values)) =
    if values.length < used.length then parse (.object ((used.map Prod.fst).zip (t :: values)))
    else none

section

variable {α : Type} {parse : JsonValue → Option α} {tag? : JsonValue → Option String}
  {tag name : String} {used : Usage Place} {inner : Place}

theorem KeptKind.of_kinds {kinds : Kinds} {others : Usage Place}
    (hlist : ∀ items, parse (.array items) =
      (listed? kinds tag? items).bind fun fields => parse (.object fields))
    (hnames : kinds.lookup tag = some (others.map Prod.fst))
    (hnodup : ((("type", none) :: others).map Prod.fst).Nodup)
    (hobject : ∀ {t fields fields'}, tag? t = some tag → ("type", t) ∈ fields →
      Agree (("type", none) :: others) Place.Same fields fields' →
        StillRead (parse (.object fields)) (parse (.object fields'))) :
    KeptKind parse tag? tag (("type", none) :: others) where
  first := ⟨others, rfl⟩
  nodup := hnodup
  object := hobject
  list {t values} ht := by
    simp only [hlist, listed?, ht, hnames, named?, List.length_map, List.length_cons,
      Nat.lt_succ_iff, Option.bind_eq_bind, Option.bind_some]
    split <;> rfl

/-- One value of a list is edited that is not its tag. -/
theorem KeptKind.stillRead_list (hkind : KeptKind parse tag? tag used) {t v v' : JsonValue}
    (ht : tag? t = some tag) {front : List JsonValue}
    (hname : used[(t :: front).length]? = some (name, some inner)) (hsame : inner.Same v v')
    (behind : List JsonValue) :
    StillRead (parse (.array (t :: (front ++ v :: behind))))
      (parse (.array (t :: (front ++ v' :: behind)))) := by
  have hplace : (used.map Prod.fst)[(t :: front).length]? = some name := by
    rw [List.getElem?_map, hname]
    rfl
  have hlookup := OrderedMap.lookup_of_mem hkind.nodup (List.mem_of_getElem? hname)
  obtain ⟨others, rfl⟩ := hkind.first
  rw [hkind.list ht, hkind.list ht]
  simp only [List.length_append, List.length_cons]
  split
  · rw [← List.cons_append, ← List.cons_append, zip_append_cons hplace, zip_append_cons hplace]
    exact hkind.object ht List.mem_cons_self (.change Place.Same.refl hlookup hsame _ _)
  · exact .refl none

end

/-! ## Operands -/

theorem JsonRecord.listed?_map {α β : Type} (kinds : Kinds) (tag? : β → Option String) (f : α → β)
    (items : List α) : listed? kinds tag? (items.map f) =
      (listed? kinds (tag? ∘ f) items).map (List.map (Prod.map id f)) := by
  cases items with
  | nil => rfl
  | cons first values =>
    simp only [List.map_cons, listed?, Function.comp_apply]
    cases tag? (f first) with
    | none => rfl
    | some tag =>
      simp only [Option.bind_eq_bind, Option.bind_some]
      cases kinds.lookup tag with
      | none => rfl
      | some names =>
        simp only [named?, List.length_map, Option.bind_some]
        split
        · simp [List.zip_map_right]
        · rfl

namespace Operand

variable {room : Nat} {tag name : String} {used : Usage Place}
  {fields fields' : List (String × JsonValue)}

/-- A JSON value with the operand that it stands for. -/
def reading (value : JsonValue) : Reading :=
  ⟨value, ofJson? value⟩

theorem fieldReadings_eq_map (fields : List (String × JsonValue)) :
    fieldReadings fields = fields.map (Prod.map id reading) := by
  induction fields with
  | nil => rfl
  | cons field fields ih => rw [fieldReadings, ih, List.map_cons]; rfl

theorem itemReadings_eq_map (items : List JsonValue) : itemReadings items = items.map reading := by
  induction items with
  | nil => rfl
  | cons item items ih => rw [itemReadings, ih, List.map_cons]; rfl

/-- A list of values stands for what the record of these values stands for. -/
theorem ofJson?_array (items : List JsonValue) : ofJson? (.array items) =
    (listed? kinds kindOf? items).bind fun fields => ofJson? (.object fields) := by
  simp only [ofJson?, itemReadings_eq_map, listed?_map, Option.bind_map, fieldReadings_eq_map]
  rfl

theorem valuesOf_readings (name : String) (fields : List (String × JsonValue)) :
    valuesOf name (fieldReadings fields) = (valuesOf name fields).map reading := by
  simp [fieldReadings_eq_map, valuesOf, List.filter_map, Function.comp_def]

theorem required?_readings (name : String) (fields : List (String × JsonValue)) :
    required? name (fieldReadings fields) = (required? name fields).map reading := by
  unfold required?
  rw [valuesOf_readings]
  rcases valuesOf name fields with _ | ⟨v, _ | ⟨w, vs⟩⟩ <;> rfl

theorem optional?_readings (name : String) (fields : List (String × JsonValue)) :
    optional? name (fieldReadings fields) =
      (optional? name fields).map fun o => o.map reading := by
  unfold optional?
  rw [valuesOf_readings]
  rcases valuesOf name fields with _ | ⟨v, _ | ⟨w, vs⟩⟩ <;> rfl

/-- What is read in a field without asking for an operand. -/
theorem stillRead_value {β : Type} (h : Agree used Place.Same fields fields')
    (hname : used.lookup name = some none) (f : JsonValue → Option β) :
    StillRead ((required? name (fieldReadings fields)).bind fun r => f r.value)
      ((required? name (fieldReadings fields')).bind fun r => f r.value) := by
  rw [required?_readings, required?_readings, Option.bind_map, Option.bind_map]
  exact h.required hname f

theorem stillRead_operand (h : Agree used Place.Same fields fields')
    (hname : used.lookup name = some (some (.operand room))) :
    StillRead (operandField? name (fieldReadings fields))
      (operandField? name (fieldReadings fields')) := by
  rw [operandField?, operandField?, required?_readings, required?_readings, Option.bind_map,
    Option.bind_map]
  exact h.required_inner hname fun hsame => hsame.read

theorem exists_others_of_usage? (h : usage? room tag = some used) :
    ∃ others, used = ("type", none) :: others ∧ kinds.lookup tag = some (others.map Prod.fst) ∧
      (used.map Prod.fst).Nodup := by
  unfold usage? at h
  split at h <;> cases h <;> exact ⟨_, rfl, rfl, by simp⟩

theorem lookup_type (h : usage? room tag = some used) : used.lookup "type" = some none := by
  obtain ⟨others, rfl, -⟩ := exists_others_of_usage? h
  rfl

/-- Records with the same tag that have the same values in the fields that are used stand for the
same operand. -/
theorem stillRead_ofJson? (h : usage? room tag = some used) {t : JsonValue}
    (ht : kindOf? t = some tag) (htag : ("type", t) ∈ fields)
    (h' : Agree used Place.Same fields fields') :
    StillRead (ofJson? (.object fields)) (ofJson? (.object fields')) := by
  have hvalue {β : Type} {name : String} {f : JsonValue → Option β}
      (hname : used.lookup name = some none) :
      StillRead ((required? name (fieldReadings fields)).bind fun r => f r.value)
        ((required? name (fieldReadings fields')).bind fun r => f r.value) :=
    stillRead_value h' hname f
  have hoperand {name : String} (hname : used.lookup name = some (some (.operand room))) :
      StillRead (operandField? name (fieldReadings fields))
        (operandField? name (fieldReadings fields')) :=
    stillRead_operand h' hname
  have honly (other : String) (hother : (required? "type" (fieldReadings fields)).bind
      (fun r => kindOf? r.value) = some other) : other = tag := by
    rw [required?_readings, Option.bind_map] at hother
    exact eq_tag_of_mem htag ht hother
  rw [ofJson?, ofJson?, ofReadings?, ofReadings?]
  refine (hvalue (lookup_type h)).bind_only honly ?_
  unfold usage? at h
  -- There is a case for each tag, in the order of `usage?`.
  split at h <;> cases h <;> simp only [Option.bind_eq_bind]
  case h_1 =>
    exact (hvalue rfl).bind fun _ => ((hvalue rfl).bind fun _ => .refl _).bind fun _ => .refl _
  case h_2 =>
    exact ((hvalue rfl).bind fun _ => .refl _).bind fun radix => (hvalue rfl).bind fun _ => .refl _
  case h_3 => exact (hvalue rfl).bind fun _ => .refl _
  case h_4 => exact (hvalue rfl).bind fun _ => .refl _
  case h_5 =>
    exact ((hvalue rfl).bind fun _ => .refl _).bind fun _ => (hoperand rfl).bind fun _ =>
      (hoperand rfl).bind fun _ => .refl _
  case h_6 =>
    refine (hoperand rfl).bind fun base => ?_
    simp only [optional?_readings, Option.bind_map]
    refine h'.optional_inner rfl fun {v v'} hsame => ?_
    -- An edited offset is not taken for an absent one.
    obtain ⟨hshape, hread⟩ := hsame
    cases hshape with
    | refl => exact .refl _
    | array | object => exact hread.bind fun _ => .refl _

theorem keptKind (h : usage? room tag = some used) : KeptKind ofJson? kindOf? tag used := by
  obtain ⟨others, rfl, hnames, hnodup⟩ := exists_others_of_usage? h
  exact .of_kinds ofJson?_array hnames hnodup (stillRead_ofJson? h)

/-- A list that is an operand starts with a tag. -/
theorem exists_first_of_ofJson? {items : List JsonValue} {operand : Operand}
    (h : ofJson? (.array items) = some operand) :
    ∃ first rest tag, items = first :: rest ∧ kindOf? first = some tag := by
  rw [ofJson?_array] at h
  obtain ⟨fields, hfields, -⟩ := Option.bind_eq_some_iff.mp h
  obtain ⟨first, rest, tag, -, hitems, htag, -⟩ := listed?_eq_some_iff.mp hfields
  exact ⟨first, rest, tag, hitems, htag⟩

/-- A list that starts with a tag is no list of operands. -/
theorem listOfJson?_eq_none {first : JsonValue} {tag : String}
    (h : kindOf? first = some tag) (rest : List JsonValue) :
    listOfJson? (.array (first :: rest)) = none := by
  have hfirst : ofJson? first = none := by
    cases first with
    | text | number => simp [ofJson?]
    | _ => cases h
  rw [listOfJson?, List.mapM_cons, hfirst]
  rfl

/-- No value is both an operand and a list of operands. -/
theorem listOfJson?_of_ofJson? {v : JsonValue} {operand : Operand}
    (h : ofJson? v = some operand) : listOfJson? v = none := by
  cases v with
  | array items =>
    obtain ⟨first, rest, tag, rfl, htag⟩ := exists_first_of_ofJson? h
    exact listOfJson?_eq_none htag rest
  | _ => rfl

/-- A list of operands is a value of a data directive. -/
theorem listOfJson?_eq_some_iff {v : JsonValue} {operands : List Operand} :
    listOfJson? v = some operands ↔ DataValue.ofJson? v = some (.list operands) := by
  simp [DataValue.ofJson?]

end Operand

/-! ## Records with a tag -/

section Tagged

variable {α : Type} {kinds : Kinds} {room : Nat} {d : Document} {tag : String}
  {ofFields? : List (String × JsonValue) → (tag : String) → Option α}
  {fields fields' : List (String × JsonValue)}

/-- What a JSON value stands for as a record with a known tag. -/
def ofTagged? (kinds : Kinds) (ofFields? : List (String × JsonValue) → String → Option α)
    (value : JsonValue) : Option α := do
  let fields ← recordFields? kinds value
  let tag ← (required? "type" fields).bind (·.asText?)
  if (kinds.lookup tag).isSome then ofFields? fields tag else none

/-- A record with a tag is read as what its value stands for. -/
theorem tagged_bind_eq_ok_iff {a : α} (hkinds : ∀ kind ∈ kinds, "type" ∉ kind.2)
    (hothers : ∀ fields tag,
      ofFields? (fields.filter fun field => field.1 ≠ "type") tag = ofFields? fields tag) :
    (d.tagged kinds room >>= fun (tag, fields) => orMismatched (ofFields? fields tag)) = .ok a ↔
      ∃ v, d.value (room + 1) = .ok v ∧ ofTagged? kinds ofFields? v = some a := by
  constructor
  · intro h
    obtain ⟨⟨tag, others⟩, htagged, h⟩ := exists_of_bind_eq_ok h
    obtain ⟨hknown, v, fields, hvalue, hfields, htag, rfl⟩ := (tagged_eq_ok_iff hkinds).mp htagged
    have hread := orMismatched_eq_ok_iff.mp h
    rw [hothers] at hread
    refine ⟨v, hvalue, ?_⟩
    rw [ofTagged?, hfields, Option.bind_eq_bind, Option.bind_some, text_eq_some_iff.mpr htag]
    exact (if_pos hknown).trans hread
  · rintro ⟨v, hvalue, h⟩
    obtain ⟨fields, hfields, h⟩ := Option.bind_eq_some_iff.mp h
    obtain ⟨tag, htag, h⟩ := Option.bind_eq_some_iff.mp h
    split at h
    · next hknown =>
      refine bind_eq_ok ((tagged_eq_ok_iff hkinds).mpr
        ⟨hknown, v, fields, hvalue, hfields, text_eq_some_iff.mp htag, rfl⟩) ?_
      refine orMismatched_eq_ok_iff.mpr ?_
      rw [hothers]
      exact h
    · cases h

theorem stillRead_ofTagged? {used : Usage Place} {t : JsonValue}
    (htype : used.lookup "type" = some none) (ht : t.asText? = some tag)
    (htag : ("type", t) ∈ fields) (hagree : Agree used Place.Same fields fields')
    (h : StillRead (ofFields? fields tag) (ofFields? fields' tag)) :
    StillRead (ofTagged? kinds ofFields? (.object fields))
      (ofTagged? kinds ofFields? (.object fields')) := by
  refine (hagree.required htype _).bind_only (fun other hother => eq_tag_of_mem htag ht hother) ?_
  by_cases hknown : (kinds.lookup tag).isSome
  · rw [if_pos hknown, if_pos hknown]
    exact h
  · rw [if_neg hknown]
    rintro a ⟨⟩

theorem required?_filter_ne {name other : String} (h : name ≠ other)
    (fields : List (String × JsonValue)) :
    required? name (fields.filter fun field => field.1 ≠ other) = required? name fields := by
  rw [required?, required?, valuesOf_filter_ne h]

theorem optional?_filter_ne {name other : String} (h : name ≠ other)
    (fields : List (String × JsonValue)) :
    optional? name (fields.filter fun field => field.1 ≠ other) = optional? name fields := by
  rw [optional?, optional?, valuesOf_filter_ne h]

end Tagged

namespace Entry

variable {tag : String} {used : Usage Place} {fields fields' : List (String × JsonValue)}

/-- The entry that a JSON value stands for. -/
def ofJson? : JsonValue → Option Entry :=
  ofTagged? kinds ofFields?

theorem ofFields?_others (fields : List (String × JsonValue)) (tag : String) :
    ofFields? (fields.filter fun field => field.1 ≠ "type") tag = ofFields? fields tag := by
  unfold ofFields?
  split
  · rw [Instruction.ofFields?, Instruction.ofFields?, required?_filter_ne (by simp),
      optional?_filter_ne (by simp)]
  · rw [Data.ofFields?, Data.ofFields?, required?_filter_ne (by simp),
      required?_filter_ne (by simp)]
  · rfl

/-- An entry is read as what its value stands for. -/
theorem ofDocument_eq_ok_iff {d : Document} {entry : Entry} : ofDocument d = .ok entry ↔
    ∃ v, d.value (maxNesting - 4) = .ok v ∧ ofJson? v = some entry :=
  tagged_bind_eq_ok_iff (by decide) ofFields?_others

theorem stillRead_instruction {room : Nat} (h : Agree
      [("type", none), ("opcode", none), ("operands", some (.operands room))] Place.Same
      fields fields') :
    StillRead (Instruction.ofFields? fields) (Instruction.ofFields? fields') := by
  refine (h.required rfl _).bind fun opcode => h.optional_inner rfl fun hsame => ?_
  obtain ⟨hshape, hread⟩ := hsame
  have hlist : StillRead (Operand.listOfJson? _) (Operand.listOfJson? _) := fun _ hoperands =>
    Operand.listOfJson?_eq_some_iff.mpr (hread _ (Operand.listOfJson?_eq_some_iff.mp hoperands))
  -- An edited list is not taken for an absent one.
  cases hshape with
  | refl => exact .refl _
  | array | object => exact hlist.bind fun _ => .refl _

theorem stillRead_data {room : Nat} (h : Agree
      [("type", none), ("mode", none), ("value", some (.operands room))] Place.Same
      fields fields') :
    StillRead (Data.ofFields? fields) (Data.ofFields? fields') := by
  refine (h.required rfl _).bind fun name => h.required_inner rfl fun {v v'} hsame => ?_
  have hread : StillRead (DataValue.ofJson? v) (DataValue.ofJson? v') := hsame.read
  exact (StillRead.refl _).bind fun _ => hread.bind fun _ => .refl _

/-- Records with the same tag that have the same values in the fields that are used stand for the
same entry. -/
theorem stillRead_ofJson? (h : usage? tag = some used) {t : JsonValue} (ht : t.asText? = some tag)
    (htag : ("type", t) ∈ fields) (h' : Agree used Place.Same fields fields') :
    StillRead (ofJson? (.object fields)) (ofJson? (.object fields')) := by
  unfold usage? at h
  split at h <;> cases h
  · exact stillRead_ofTagged? rfl ht htag h' ((stillRead_instruction h').map _)
  · exact stillRead_ofTagged? rfl ht htag h' ((stillRead_data h').map _)

theorem keptKind (h : usage? tag = some used) :
    KeptKind ofJson? JsonValue.asText? tag used := by
  have hobject {t : JsonValue} {fields fields' : List (String × JsonValue)} :=
    @stillRead_ofJson? tag used fields fields' h t
  unfold usage? at h
  split at h <;> cases h <;> exact .of_kinds (fun _ => rfl) rfl (by decide) hobject

end Entry

/-- The segment that a JSON value switches to. -/
def switchOfJson? : JsonValue → Option String :=
  ofTagged? switchKinds switchOfFields?

theorem switchOfDocument_eq_ok_iff {d : Document} {segment : String} :
    switchOfDocument d = .ok segment ↔
      ∃ v, d.value (maxNesting - 2) = .ok v ∧ switchOfJson? v = some segment := by
  have hothers (fields : List (String × JsonValue)) (tag : String) :
      switchOfFields? (fields.filter fun field => field.1 ≠ "type") tag =
        switchOfFields? fields tag := by
    rw [switchOfFields?, switchOfFields?, required?_filter_ne (by simp)]
  exact tagged_bind_eq_ok_iff (by decide) hothers

theorem stillRead_switchOfJson? {fields fields' : List (String × JsonValue)} {t : JsonValue}
    (ht : t.asText? = some "Segment") (htag : ("type", t) ∈ fields)
    (h : Agree [("type", none), ("value", none)] Place.Same fields fields') :
    StillRead (switchOfJson? (.object fields)) (switchOfJson? (.object fields')) :=
  stillRead_ofTagged? rfl ht htag h (h.required rfl _)

theorem switch_keptKind :
    KeptKind switchOfJson? JsonValue.asText? "Segment" [("type", none), ("value", none)] :=
  .of_kinds (fun _ => rfl) rfl (by decide) stillRead_switchOfJson?

end MipsAssembly
