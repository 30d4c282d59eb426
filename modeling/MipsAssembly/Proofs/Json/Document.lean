import MipsAssembly.Json.Record
import MipsAssembly.Proofs.Except
import MipsAssembly.Proofs.Json.Token

/-!
# Documents of JSON values

The tokens of a value are read as the document of that value, in which nothing is faulty.  Lists,
objects and records of such a document are walked without a fault if their items and fields are.

## Main definitions

- `Document.ofJson` — the document of a value.
- `Document.ofText_write` — reading what is written gives the document of a value.
- `Document.value_ofJson` — the value of its document.
- `Document.asList_ofJson`, `Document.asFields_ofJson` — walking lists and objects.
- `Document.foldRecord_ofJson`, `Document.tagged_ofJson` — walking records that are objects.
-/

namespace MipsAssembly

namespace Document

mutual

/-- The document of a value. -/
def ofJson : JsonValue → Document
  | .null => word (.ok none)
  | .bool value => word (.ok (some value))
  | .number value => number (.ok value)
  | .text content => text (.ok content)
  | .array items => array (ofItems items) none
  | .object fields => object (ofFields fields) none

def ofItems : List JsonValue → List Document
  | [] => []
  | item :: items => ofJson item :: ofItems items

def ofFields : List (String × JsonValue) → List Field
  | [] => []
  | (key, value) :: fields => (.ok key, ofJson value) :: ofFields fields

end

theorem ofItems_eq_map (items : List JsonValue) : ofItems items = items.map ofJson := by
  induction items with
  | nil => rfl
  | cons item items ih => rw [ofItems, ih, List.map_cons]

theorem ofFields_eq_map (fields : List (String × JsonValue)) :
    ofFields fields = fields.map fun (key, value) => (.ok key, ofJson value) := by
  induction fields with
  | nil => rfl
  | cons field fields ih => rw [ofFields, ih, List.map_cons]

/-! ## Reading tokens -/

/-- A value comes next: at the start, as an item, or behind the name of a field. -/
inductive Awaits : List Container → Slot → Prop where
  | top : Awaits [] .value
  | item (items : List Document) (stack : List Container) {slot : Slot}
      (h : slot = .first ∨ slot = .value) : Awaits (.array items :: stack) slot
  | field (fields : List Field) (key : Except JsonFault String) (stack : List Container) :
      Awaits (.object fields (some key) :: stack) .value

/-- Reading goes on with tokens behind the effect of a token. -/
def Step.resume (tokens : List JsonToken) : Step → Document × Bool
  | .go stack slot => read stack slot tokens
  | .done document => (document, !tokens.isEmpty)
  | .fail f => (missing f, false)

variable {stack stack' : List Container} {slot slot' : Slot} {token : JsonToken}
  {tokens rest : List JsonToken}

theorem Awaits.wantsValue (h : Awaits stack slot) : wantsValue stack slot = true := by
  cases h with
  | top => rfl
  | item items stack h => rcases h with rfl | rfl <;> rfl
  | field fields key stack => rfl

theorem read_of_go (h : next stack slot token = .go stack' slot') :
    read stack slot (token :: tokens) = read stack' slot' tokens := by
  rw [read, h]

/-- A token that completes a document where a value comes next. -/
theorem read_of_complete {document : Document} (hawaits : Awaits stack slot)
    (h : next stack' slot' token = complete document stack) :
    read stack' slot' (token :: tokens) = (complete document stack).resume tokens := by
  rw [read, h]
  cases hawaits <;> rfl

/-- The tokens of a value are read as its document wherever a value comes next. -/
def ReadsBack (value : JsonValue) : Prop :=
  ∀ stack slot rest, Awaits stack slot →
    read stack slot (value.tokens ++ rest) = (complete (ofJson value) stack).resume rest

theorem read_itemTokens {items : List JsonValue} (h : ∀ item ∈ items, ReadsBack item)
    (hne : items ≠ []) (hslot : slot = .first ∨ slot = .value) (before : List Document) :
    read (.array before :: stack) slot (JsonValue.itemTokens items ++ rest) =
      read (.array (before ++ ofItems items) :: stack) .separator rest := by
  induction items generalizing before slot with
  | nil => exact absurd rfl hne
  | cons item items ih =>
    obtain ⟨hitem, hitems⟩ := List.forall_mem_cons.mp h
    have hread (rest : List JsonToken) : read (.array before :: stack) slot (item.tokens ++ rest) =
        read (.array (before ++ [ofJson item]) :: stack) .separator rest :=
      hitem _ _ rest (.item before stack hslot)
    cases items with
    | nil => exact hread rest
    | cons next items =>
      rw [JsonValue.itemTokens_cons, List.append_assoc, hread, List.cons_append, read_of_go rfl,
        ih hitems (List.cons_ne_nil next items) (.inr rfl), List.append_assoc]
      rfl

theorem read_fieldTokens {fields : List (String × JsonValue)}
    (h : ∀ field ∈ fields, ReadsBack field.2) (hne : fields ≠ [])
    (hslot : slot = .first ∨ slot = .key) (before : List Field) :
    read (.object before none :: stack) slot (JsonValue.fieldTokens fields ++ rest) =
      read (.object (before ++ ofFields fields) none :: stack) .separator rest := by
  induction fields generalizing before slot with
  | nil => exact absurd rfl hne
  | cons field fields ih =>
    obtain ⟨key, value⟩ := field
    obtain ⟨hvalue, hfields⟩ := List.forall_mem_cons.mp h
    have hkey : next (.object before none :: stack) slot (.text (.ok key)) =
        .go (.object before (some (.ok key)) :: stack) .colon := by
      rcases hslot with rfl | rfl <;> rfl
    have hread (rest : List JsonToken) : read (.object before none :: stack) slot
        (.text (.ok key) :: .colon :: (value.tokens ++ rest)) =
        read (.object (before ++ [(.ok key, ofJson value)]) none :: stack) .separator rest := by
      rw [read_of_go hkey, read_of_go rfl]
      exact hvalue _ _ rest (.field before (.ok key) stack)
    cases fields with
    | nil => exact hread rest
    | cons next fields =>
      rw [JsonValue.fieldTokens_cons, List.cons_append, List.cons_append, List.append_assoc, hread,
        List.cons_append, read_of_go rfl, ih hfields (List.cons_ne_nil next fields) (.inr rfl),
        List.append_assoc]
      rfl

/-- The tokens of every value are read as its document. -/
theorem read_tokens (value : JsonValue) : ReadsBack value := by
  induction value using JsonValue.induction with
  | null =>
    intro stack slot rest h
    exact read_of_complete h (if_pos h.wantsValue)
  | bool value =>
    intro stack slot rest h
    exact read_of_complete h (if_pos h.wantsValue)
  | number value =>
    intro stack slot rest h
    exact read_of_complete h (if_pos h.wantsValue)
  | text content =>
    intro stack slot rest h
    exact read_of_complete h (if_pos h.wantsValue)
  | array items ih =>
    intro stack slot rest h
    have hopen : next stack slot .openBracket = .go (.array [] :: stack) .first :=
      if_pos h.wantsValue
    rw [JsonValue.tokens, List.cons_append, read_of_go hopen, List.append_assoc]
    cases items with
    | nil => exact read_of_complete h rfl
    | cons item items =>
      rw [read_itemTokens ih (List.cons_ne_nil item items) (.inl rfl)]
      exact read_of_complete h rfl
  | object fields ih =>
    intro stack slot rest h
    have hopen : next stack slot .openBrace = .go (.object [] none :: stack) .first :=
      if_pos h.wantsValue
    rw [JsonValue.tokens, List.cons_append, read_of_go hopen, List.append_assoc]
    cases fields with
    | nil => exact read_of_complete h rfl
    | cons field fields =>
      rw [read_fieldTokens ih (List.cons_ne_nil field fields) (.inl rfl)]
      exact read_of_complete h rfl

/-- Reading what is written gives the document of a value, with nothing behind it. -/
theorem ofText_write {value : JsonValue} (h : value.NumbersFit) :
    ofText value.write = (ofJson value, false) := by
  have hread := read_tokens value [] .value [] .top
  rw [List.append_nil] at hread
  rw [ofText, JsonToken.jsonTokens_write h, hread]
  rfl

/-! ## Walking -/

theorem itemValues_ofItems {items : List JsonValue} {room : Nat}
    (h : ∀ item ∈ items, (ofJson item).value room = .ok item) :
    itemValues room (ofItems items) = .ok items := by
  induction items with
  | nil => rfl
  | cons item items ih =>
    obtain ⟨hitem, hitems⟩ := List.forall_mem_cons.mp h
    rw [ofItems, itemValues, hitem, ih hitems]
    rfl

theorem fieldValues_ofFields {fields : List (String × JsonValue)} {room : Nat}
    (h : ∀ field ∈ fields, (ofJson field.2).value room = .ok field.2) :
    fieldValues room (ofFields fields) = .ok fields := by
  induction fields with
  | nil => rfl
  | cons field fields ih =>
    obtain ⟨key, value⟩ := field
    obtain ⟨hvalue, hfields⟩ := List.forall_mem_cons.mp h
    rw [ofFields, fieldValues, hvalue, ih hfields]
    rfl

/-- The value of its document, if it is not nested too deep. -/
theorem value_ofJson {value : JsonValue} {room : Nat} (h : value.nesting ≤ room) :
    (ofJson value).value room = .ok value := by
  induction value using JsonValue.induction generalizing room with
  | null => rfl
  | bool value => rfl
  | number value => rfl
  | text content => rfl
  | array items ih =>
    cases room with
    | zero => exact absurd h (Nat.not_succ_le_zero _)
    | succ room =>
      have hitems := JsonValue.nesting_array_le_iff.mp h
      rw [ofJson, Document.value, if_neg (Nat.succ_ne_zero room), Nat.add_sub_cancel,
        itemValues_ofItems fun item hitem => ih item hitem (hitems item hitem)]
      rfl
  | object fields ih =>
    cases room with
    | zero => exact absurd h (Nat.not_succ_le_zero _)
    | succ room =>
      have hfields := JsonValue.nesting_object_le_iff.mp h
      rw [ofJson, Document.value, if_neg (Nat.succ_ne_zero room), Nat.add_sub_cancel,
        fieldValues_ofFields fun field hfield => ih field hfield (hfields field hfield)]
      rfl

/-- A natural number below the bound that is asked for. -/
theorem asNatural_ofJson {bound n : Nat} (h : n < bound) :
    (ofJson (.number (.integer n))).asNatural bound = .ok n := by
  rw [ofJson, asNatural, if_pos ⟨Int.natCast_nonneg n, Int.ofNat_lt.mpr h⟩, Int.toNat_natCast]

variable {α β : Type} {toJson : α → JsonValue} {read : Document → Except JsonFault β} {f : α → β}

/-- A list is walked item by item. -/
theorem asList_ofJson {as : List α} (h : ∀ a ∈ as, read (ofJson (toJson a)) = .ok (f a)) :
    (ofJson (.array (as.map toJson))).asList read = .ok (as.map f) := by
  have hitems : (as.map (ofJson ∘ toJson)).mapM read = .ok (as.map f) := mapM_map_eq_ok h
  rw [ofJson, asList, ofItems_eq_map, List.map_map, hitems]
  rfl

/-- An object is walked field by field. -/
theorem asFields_ofJson {entries : List (String × α)}
    (h : ∀ entry ∈ entries, read (ofJson (toJson entry.2)) = .ok (f entry.2)) :
    (ofJson (.object (entries.map fun (key, a) => (key, toJson a)))).asFields read =
      .ok (entries.map fun (key, a) => (key, f a)) := by
  rw [ofJson, asFields, ofFields_eq_map, List.map_map, mapM_map_eq_ok]
  · rfl
  · intro entry hentry
    simp only [Function.comp_apply]
    rw [h entry hentry]
    rfl

variable {σ : Type}

/-- The fields of a record are taken one by one. -/
theorem foldFields_ofFields (take : σ → String → Document → Except JsonFault σ) (start : σ)
    (fields : List (String × JsonValue)) :
    foldFields take start (ofFields fields) none =
      fields.foldlM (fun parts field => take parts field.1 (ofJson field.2)) start := by
  rw [foldFields, ofFields_eq_map, List.foldlM_map]
  -- Nothing is faulty, neither a name nor the closing brace.
  show (fields.foldlM (fun parts field => take parts field.1 (ofJson field.2)) start >>=
    fun parts => .ok parts) = _
  cases fields.foldlM (fun parts field => take parts field.1 (ofJson field.2)) start <;> rfl

theorem foldRecord_ofJson (names : List String)
    (take : σ → String → Document → Except JsonFault σ) (start : σ)
    (fields : List (String × JsonValue)) :
    (ofJson (.object fields)).foldRecord names take start =
      fields.foldlM (fun parts field => take parts field.1 (ofJson field.2)) start :=
  foldFields_ofFields take start fields

/-- Behind a field that is taken the others are taken from the state that it leads to. -/
theorem foldlM_field_cons {take : σ → String → Document → Except JsonFault σ} {start next : σ}
    {key : String} {value : JsonValue} (h : take start key (ofJson value) = .ok next)
    (fields : List (String × JsonValue)) :
    ((key, value) :: fields).foldlM (fun parts field => take parts field.1 (ofJson field.2)) start =
      fields.foldlM (fun parts field => take parts field.1 (ofJson field.2)) next := by
  rw [List.foldlM_cons, h]
  rfl

theorem foldlM_take {kinds : JsonRecord.Kinds} {room : Nat} {tag : String}
    {fields before : List (String × JsonValue)}
    (h : ∀ field ∈ fields, field.1 ≠ "type" ∧ field.2.nesting ≤ room) :
    fields.foldlM (fun parts field => Tagged.take kinds room parts field.1 (ofJson field.2))
      ⟨some tag, before⟩ = .ok ⟨some tag, before ++ fields⟩ := by
  induction fields generalizing before with
  | nil => rw [List.append_nil]; rfl
  | cons field fields ih =>
    obtain ⟨⟨hname, hroom⟩, hfields⟩ := List.forall_mem_cons.mp h
    have htake : Tagged.take kinds room ⟨some tag, before⟩ field.1 (ofJson field.2) =
        .ok ⟨some tag, before ++ [field]⟩ := by
      rw [Tagged.take, if_neg hname, value_ofJson hroom]
      rfl
    rw [foldlM_field_cons htake, List.append_cons before field fields]
    exact ih hfields

variable {kinds : JsonRecord.Kinds} {tag : String} {names : List String}

/-- A known tag is taken first. -/
theorem take_tag (htag : kinds.lookup tag = some names) (room : Nat) :
    Tagged.take kinds room {} "type" (ofJson (.text tag)) = .ok ⟨some tag, []⟩ := by
  show (orMismatched (kinds.lookup tag) >>= fun _ => Except.ok (⟨some tag, []⟩ : Tagged)) = _
  rw [htag]
  rfl

/-- A record with its tag in front is taken apart into the tag and the other fields. -/
theorem tagged_ofJson {room : Nat} {fields : List (String × JsonValue)}
    (htag : kinds.lookup tag = some names)
    (h : ∀ field ∈ fields, field.1 ≠ "type" ∧ field.2.nesting ≤ room) :
    (ofJson (.object (("type", .text tag) :: fields))).tagged kinds room = .ok (tag, fields) := by
  rw [ofJson, tagged, foldFields_ofFields, foldlM_field_cons (take_tag htag room), foldlM_take h]
  rfl

end Document

end MipsAssembly
