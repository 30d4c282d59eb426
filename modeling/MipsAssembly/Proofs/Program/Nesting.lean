import MipsAssembly.Proofs.Json.Nesting
import MipsAssembly.Proofs.Program.RoundTrip

/-!
# Programs that are too deep for their JSON text

Every node of an operand is an object of the JSON value, inside the object of the node above.  So
the height of the operands decides whether the text of a program is read again: the text of a
program whose operands are too high is refused as if it were no JSON text, whatever else is in it.

## Main definitions

- `Operand.height` — how many nodes lie above each other in an operand.
- `Program.Shallow` — no operand of a program is too high.
- `Program.shallow_iff` — these are the programs whose texts are not nested too deep.
- `Program.Exportable.importProgram_eq` — what the text of such a program is read as.
- `importProgram_of_not_shallow` — the texts of all others are refused.
-/

namespace MipsAssembly

open Document

/-- How many nodes lie above each other in an operand. -/
def Operand.height : Operand → Nat
  | register _ _ | number _ _ | identifier _ | text _ => 1
  | binary _ left right => max left.height right.height + 1
  | indirect base => base.height + 1
  | indexed offset base => max offset.height base.height + 1

/-- How high the operands of an entry may be.  A list makes one more level around its operands. -/
def Entry.room : Entry → Nat
  | data ⟨_, .scalar _⟩ => maxNesting - 5
  | data ⟨_, .list _⟩ | instruction _ => maxNesting - 6

/-- No operand of a program is higher than its text may be nested. -/
def Program.Shallow (p : Program) : Prop :=
  ∀ segment ∈ p.segments.entries, ∀ entry ∈ segment.2.entries, ∀ e ∈ entry.operands,
    e.height ≤ entry.room

instance (p : Program) : Decidable p.Shallow :=
  inferInstanceAs (Decidable (∀ segment ∈ p.segments.entries, ∀ entry ∈ segment.2.entries,
    ∀ e ∈ entry.operands, e.height ≤ entry.room))

/-! ## Levels of JSON values -/

theorem Operand.nesting_toJson (e : Operand) : e.toJson.nesting = e.height := by
  induction e with
  | register | number | identifier | text => rfl
  | binary op left right ihleft ihright =>
    simp [toJson, JsonValue.nesting, JsonValue.nestingOfFields, height, ihleft, ihright]
  | indirect base ih =>
    simp [toJson, JsonValue.nesting, JsonValue.nestingOfFields, height, ih]
  | indexed offset base ihoffset ihbase =>
    simp [toJson, JsonValue.nesting, JsonValue.nestingOfFields, height, ihoffset, ihbase]

theorem Operand.nesting_list_le_iff {es : List Operand} {room : Nat} :
    (JsonValue.array (es.map toJson)).nesting ≤ room + 1 ↔ ∀ e ∈ es, e.height ≤ room := by
  simp only [JsonValue.nesting_array_le_iff, List.forall_mem_map, nesting_toJson]

theorem Instruction.nesting_toJson_le_iff {i : Instruction} {room : Nat} :
    (Entry.instruction i).toJson.nesting ≤ room + 2 ↔ ∀ e ∈ i.operands, e.height ≤ room := by
  obtain ⟨opcode, operandList⟩ := i
  rw [Entry.toJson, JsonValue.nesting_object_le_iff]
  cases operandList with
  | none => simp [jsonFields, operands]
  | some es => simp [jsonFields, operands, Operand.nesting_list_le_iff]

theorem Data.nesting_toJson_le_iff {d : Data} {room : Nat} :
    (Entry.data d).toJson.nesting ≤ room + 1 ↔ d.value.toJson.nesting ≤ room := by
  rw [Entry.toJson, JsonValue.nesting_object_le_iff]
  simp [jsonFields]

theorem Entry.nesting_toJson_le_iff {entry : Entry} :
    entry.toJson.nesting ≤ maxNesting - 4 ↔ ∀ e ∈ entry.operands, e.height ≤ entry.room := by
  match entry with
  | instruction i => exact Instruction.nesting_toJson_le_iff
  | data ⟨mode, .scalar value⟩ =>
    refine Data.nesting_toJson_le_iff.trans ?_
    rw [DataValue.toJson, Operand.nesting_toJson, operands, DataValue.values,
      List.forall_mem_singleton]
    rfl
  | data ⟨mode, .list values⟩ =>
    exact Data.nesting_toJson_le_iff.trans Operand.nesting_list_le_iff

theorem Program.shallow_iff_entries {p : Program} : p.Shallow ↔
    ∀ segment ∈ p.segments.entries, ∀ entry ∈ segment.2.entries,
      entry.toJson.nesting ≤ maxNesting - 4 := by
  simp only [Entry.nesting_toJson_le_iff, Shallow]

/-- The programs whose texts are not nested deeper than texts are read. -/
theorem Program.shallow_iff {p : Program} : p.Shallow ↔ p.toJson.nesting ≤ maxNesting :=
  shallow_iff_entries.trans nesting_toJson_le_iff.symm

/-! ## Reading -/

/-- An entry that is nested too deep is refused. -/
theorem Entry.ofDocument_toJson_of_lt {entry : Entry} (h : maxNesting - 4 < entry.toJson.nesting) :
    ofDocument (ofJson entry.toJson) = .error .malformed := by
  -- The tag of a record is not nested, so one of the fields behind it is.
  have hrecord {tag : String} {names : List String} {fields : List (String × JsonValue)}
      (htag : kinds.lookup tag = some names)
      (hnames : ∀ field ∈ fields, field.1 ≠ "type")
      (hdeep : maxNesting - 4 < (JsonValue.object (("type", .text tag) :: fields)).nesting) :
      ofDocument (ofJson (.object (("type", .text tag) :: fields))) = .error .malformed := by
    have hfield : ∃ field ∈ fields, maxNesting - 5 < field.2.nesting := by
      obtain ⟨field, hfield, hlt⟩ := JsonValue.lt_nesting_object_iff.mp hdeep
      rcases List.mem_cons.mp hfield with rfl | hmem
      · exact absurd hlt (Nat.not_lt_zero _)
      · exact ⟨field, hmem, hlt⟩
    rw [ofDocument, tagged_ofJson_of_lt htag hnames hfield]
    rfl
  cases entry with
  | instruction i => exact hrecord rfl Instruction.ne_type_of_mem_jsonFields h
  | data d => exact hrecord rfl Data.ne_type_of_mem_jsonFields h

/-- An entry comes back, or is refused for its nesting. -/
theorem Entry.ofDocument_toJson_cases {entry : Entry}
    (h : ∀ number ∈ entry.numbers, number.Portable) :
    ofDocument (ofJson entry.toJson) = .ok entry ∨
      ofDocument (ofJson entry.toJson) = .error .malformed := by
  by_cases hnesting : entry.toJson.nesting ≤ maxNesting - 4
  · exact .inl (ofDocument_toJson h hnesting)
  · exact .inr (ofDocument_toJson_of_lt (Nat.lt_of_not_le hnesting))

/-- A segment comes back, or is refused for the first of its entries that is nested too deep. -/
theorem Segment.ofDocument_toJson_of_lt {s : Segment}
    (h : ∀ number ∈ s.numbers, number.Portable)
    (hdeep : ∃ entry ∈ s.entries, maxNesting - 4 < entry.toJson.nesting) :
    ofDocument (ofJson s.toJson) = .error .malformed := by
  have hcases : ∀ entry ∈ s.entries, Entry.ofDocument (ofJson entry.toJson) = .ok (id entry) ∨
      Entry.ofDocument (ofJson entry.toJson) = .error .malformed := by
    intro entry hentry
    exact Entry.ofDocument_toJson_cases fun number hnumber =>
      h number (List.mem_flatMap.mpr ⟨entry, hentry, hnumber⟩)
  have hrefused : ∃ entry ∈ s.entries,
      Entry.ofDocument (ofJson entry.toJson) = .error .malformed := by
    obtain ⟨entry, hentry, hlt⟩ := hdeep
    exact ⟨entry, hentry, Entry.ofDocument_toJson_of_lt hlt⟩
  have htake : takeEntries none "instructions" (ofJson (.array (s.entries.map Entry.toJson))) =
      .error .malformed := by
    rw [takeEntries, if_pos rfl, asList_ofJson_eq_error hcases hrefused]
    rfl
  rw [ofDocument, toJson, foldRecord_ofJson, List.foldlM_cons, htake]
  rfl

namespace Program

variable {p : Program}

/-- The segments of a program are refused if one of its entries is nested too deep. -/
theorem asFields_segments_of_not_shallow (h : ∀ number ∈ p.numbers, number.Portable)
    (hdeep : ¬ p.Shallow) :
    (ofJson (.object (p.segments.entries.map fun (name, s) => (name, s.toJson)))).asFields
      Segment.ofDocument = .error .malformed := by
  have hcases : ∀ segment ∈ p.segments.entries,
      Segment.ofDocument (ofJson segment.2.toJson) = .ok (id segment.2) ∨
        Segment.ofDocument (ofJson segment.2.toJson) = .error .malformed := by
    intro segment hsegment
    have hnumbers := portable_of_mem_segments h hsegment
    by_cases hroom : ∀ entry ∈ segment.2.entries, entry.toJson.nesting ≤ maxNesting - 4
    · exact .inl (Segment.ofDocument_toJson hnumbers hroom)
    · exact .inr (Segment.ofDocument_toJson_of_lt hnumbers (by simpa using hroom))
  have hrefused : ∃ segment ∈ p.segments.entries,
      Segment.ofDocument (ofJson segment.2.toJson) = .error .malformed := by
    obtain ⟨segment, hsegment, entry, hentry, hlt⟩ : ∃ segment ∈ p.segments.entries,
        ∃ entry ∈ segment.2.entries, maxNesting - 4 < entry.toJson.nesting := by
      rw [shallow_iff_entries] at hdeep
      simpa using hdeep
    exact ⟨segment, hsegment,
      Segment.ofDocument_toJson_of_lt (portable_of_mem_segments h hsegment) ⟨entry, hentry, hlt⟩⟩
  exact asFields_ofJson_eq_error hcases hrefused

theorem ofDocument_toJson_of_not_shallow (h : ∀ number ∈ p.numbers, number.Portable)
    (hdeep : ¬ p.Shallow) : ofDocument (ofJson p.toJson) = .error .malformed := by
  have htag : Parts.take {} "type" (ofJson (.text "Program")) = .ok {} := rfl
  have hsegments : Parts.take {} "segments" (ofJson (.object
      (p.segments.entries.map fun (name, s) => (name, s.toJson)))) = .error .malformed := by
    rw [Parts.take, if_pos rfl, asFields_segments_of_not_shallow h hdeep]
    rfl
  -- The segments are read before the labels and the switches.
  rw [ofDocument, toJson, foldRecord_ofJson, foldlM_field_cons htag, List.foldlM_cons, hsegments]
  rfl

/-- The text of a program is read as what the document of its JSON value stands for. -/
theorem importProgram_eq_ofDocument (h : p.toJson.NumbersFit) :
    importProgram p.exportJson = ofDocument (ofJson p.toJson) := by
  rw [importProgram, exportJson, ofText_write h]
  show (ofDocument (ofJson p.toJson) >>= fun program => .ok program) = _
  cases ofDocument (ofJson p.toJson) <;> rfl

/-- A program as it comes back: the segments of its labels are forgotten. -/
def bare (p : Program) : Program :=
  { p with labels := .ofList p.bareLabels }

theorem entries_labels_bare (p : Program) : p.bare.labels.entries = p.bareLabels := by
  apply OrderedMap.entries_ofList
  rw [p.keys_bareLabels]
  exact p.labels.nodup

/-- The text of a program is read as the program without the segments of its labels. -/
theorem Exportable.importProgram_eq (h : p.Exportable) :
    importProgram p.exportJson = .ok p.bare := by
  have hsegments : OrderedMap.ofList p.segments.entries = p.segments :=
    OrderedMap.ext (OrderedMap.entries_ofList p.segments.nodup)
  rw [importProgram_eq_ofDocument h.numbersFit, ofDocument_toJson h, hsegments]
  rfl

end Program

/-- The text of a program with an operand that is too high is refused. -/
theorem importProgram_of_not_shallow {p : Program}
    (hnumbers : ∀ number ∈ p.numbers, number.Portable)
    (haddresses : ∀ label ∈ p.labels.entries, label.2.address < 2 * integerBound)
    (hdeep : ¬ p.Shallow) : importProgram p.exportJson = .error .malformed := by
  rw [Program.importProgram_eq_ofDocument (Program.numbersFit_toJson hnumbers haddresses)]
  exact Program.ofDocument_toJson_of_not_shallow hnumbers hdeep

/-- The text of a program without such an operand is read as a program with the same segments and
the same switches. -/
theorem exists_importProgram_of_shallow {p : Program}
    (hnumbers : ∀ number ∈ p.numbers, number.Portable)
    (haddresses : ∀ label ∈ p.labels.entries, label.2.address < 2 * integerBound)
    (hshallow : p.Shallow) :
    ∃ q, importProgram p.exportJson = .ok q ∧ q.segments = p.segments ∧
      q.switches = p.switches := by
  have hexportable : p.Exportable := ⟨hnumbers, haddresses, Program.shallow_iff.mp hshallow⟩
  exact ⟨p.bare, hexportable.importProgram_eq, rfl, rfl⟩

end MipsAssembly
