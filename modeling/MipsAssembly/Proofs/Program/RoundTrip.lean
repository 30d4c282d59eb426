import MipsAssembly.Proofs.Json.Document
import MipsAssembly.Proofs.OrderedMap
import MipsAssembly.Proofs.Program.Export

/-!
# Programs come back from their JSON text

The document of the JSON value of an operand, an entry, a segment or a label is read as what it
was made of, so the text of a program is read as that program.  Only the segments of labels are
not in the text; they come back empty, and writing the program once more gives the same text.

## Main definitions

- `Operand.ofJson?_toJson` — operands come back.
- `Entry.ofDocument_toJson`, `Segment.ofDocument_toJson`, `Label.ofDocument_toJson` — the parts
  of a program come back.
- `importProgram_exportJson` — programs come back.
-/

namespace MipsAssembly

/-! ## Operands and entries -/

theorem Number.Portable.ofJson?_number {number : Number} (h : number.Portable) :
    Number.ofJson? (.number number) = some number := by
  cases number with
  | integer value =>
    have hfits : fits64 value = true := h
    rw [Number.ofJson?, if_pos hfits]
  | real value => rfl

namespace Operand

theorem exists_toJson_eq_object (operand : Operand) :
    ∃ fields, operand.toJson = .object fields := by
  cases operand <;> exact ⟨_, rfl⟩

/-! What the records of composed operands stand for, given what their fields stand for. -/

theorem ofJson?_number (radix : Radix) (value : JsonValue) :
    ofJson? (.object [("type", .text "Number"), ("kind", .text radix.name), ("value", value)]) =
      (Number.ofJson? value).bind fun value => some (number radix value) := by
  cases radix <;> rfl

theorem ofJson?_binary (operator : BinaryOperator) (left right : JsonValue) :
    ofJson? (.object [("type", .text "Binary"),
        ("operator", .text (String.singleton operator.symbol)), ("left", left), ("right", right)]) =
      (ofJson? left).bind fun left => (ofJson? right).bind fun right =>
        some (binary operator left right) := by
  cases operator <;> rfl

theorem ofJson?_indirect (base : JsonValue) :
    ofJson? (.object [("type", .text "Indexed"), ("base", base)]) =
      (ofJson? base).bind fun base => some (indirect base) :=
  rfl

theorem ofJson?_indexed (fields : List (String × JsonValue)) (base : JsonValue) :
    ofJson? (.object [("type", .text "Indexed"), ("offset", .object fields), ("base", base)]) =
      (ofJson? base).bind fun base => (ofJson? (.object fields)).bind fun offset =>
        some (indexed offset base) :=
  rfl

/-- An operand comes back from its JSON value. -/
theorem ofJson?_toJson {operand : Operand} (h : ∀ number ∈ operand.numbers, number.Portable) :
    ofJson? operand.toJson = some operand := by
  induction operand with
  | register name kind => cases kind <;> rfl
  | number radix value =>
    have hvalue := (h value (List.mem_singleton.mpr rfl)).ofJson?_number
    rw [toJson, ofJson?_number, hvalue]
    rfl
  | identifier name => rfl
  | text content => rfl
  | binary operator left right ihleft ihright =>
    obtain ⟨hleft, hright⟩ := List.forall_mem_append.mp h
    rw [toJson, ofJson?_binary, ihleft hleft, ihright hright]
    rfl
  | indirect base ih =>
    rw [toJson, ofJson?_indirect, ih h]
    rfl
  | indexed offset base ihoffset ihbase =>
    obtain ⟨hoffset, hbase⟩ := List.forall_mem_append.mp h
    -- The value of an offset is an object, so it is not taken for an absent one.
    obtain ⟨fields, hfields⟩ := offset.exists_toJson_eq_object
    have hread := ihoffset hoffset
    rw [hfields] at hread
    rw [toJson, hfields, ofJson?_indexed, ihbase hbase, hread]
    rfl

/-- The operands of a list come back from its JSON value. -/
theorem mapM_ofJson?_toJson {operands : List Operand}
    (h : ∀ number ∈ operands.flatMap numbers, number.Portable) :
    (operands.map toJson).mapM ofJson? = some operands := by
  induction operands with
  | nil => rfl
  | cons operand operands ih =>
    rw [List.flatMap_cons] at h
    obtain ⟨hoperand, hoperands⟩ := List.forall_mem_append.mp h
    rw [List.map_cons, List.mapM_cons, ofJson?_toJson hoperand, ih hoperands]
    rfl

end Operand

theorem DataValue.ofJson?_toJson {value : DataValue}
    (h : ∀ number ∈ value.values.flatMap Operand.numbers, number.Portable) :
    ofJson? value.toJson = some value := by
  cases value with
  | list values =>
    have hvalues : Operand.listOfJson? (.array (values.map Operand.toJson)) = some values :=
      Operand.mapM_ofJson?_toJson h
    rw [toJson, ofJson?, hvalues]
    rfl
  | scalar value =>
    have hvalue : Operand.ofJson? value.toJson = some value := by
      apply Operand.ofJson?_toJson
      simpa [values] using h
    obtain ⟨fields, hfields⟩ := value.exists_toJson_eq_object
    rw [hfields] at hvalue
    rw [toJson, hfields]
    show (Operand.ofJson? (.object fields)).map scalar = _
    rw [hvalue]
    rfl

theorem Instruction.ofFields?_jsonFields {i : Instruction}
    (h : ∀ number ∈ i.operands.flatMap Operand.numbers, number.Portable) :
    ofFields? i.jsonFields = some i := by
  obtain ⟨opcode, operandList⟩ := i
  cases operandList with
  | none => rfl
  | some operands =>
    have hoperands : (operands.map Operand.toJson).mapM Operand.ofJson? = some operands :=
      Operand.mapM_ofJson?_toJson h
    show ((operands.map Operand.toJson).mapM Operand.ofJson?).bind
      (fun operands => some (⟨opcode, some operands⟩ : Instruction)) = _
    rw [hoperands]
    rfl

theorem Data.ofFields?_jsonFields {d : Data}
    (h : ∀ number ∈ d.value.values.flatMap Operand.numbers, number.Portable) :
    ofFields? d.jsonFields = some d := by
  obtain ⟨mode, value⟩ := d
  have hread : ofFields? (⟨mode, value⟩ : Data).jsonFields =
      (DataMode.ofName? mode.name).bind fun mode =>
        (DataValue.ofJson? value.toJson).bind fun value => some ⟨mode, value⟩ := by
    cases mode <;> rfl
  rw [hread, DataMode.ofName?_name, DataValue.ofJson?_toJson h]
  rfl

/-! ## Documents -/

open Document

theorem Instruction.ne_type_of_mem_jsonFields {i : Instruction} :
    ∀ field ∈ i.jsonFields, field.1 ≠ "type" := by
  obtain ⟨opcode, operandList⟩ := i
  cases operandList <;> simp [jsonFields]

theorem Data.ne_type_of_mem_jsonFields {d : Data} : ∀ field ∈ d.jsonFields, field.1 ≠ "type" := by
  simp [jsonFields]

/-- A record with a tag is read as what its fields stand for, if there is room for their values. -/
theorem Entry.ofDocument_record {tag : String} {names : List String}
    {fields : List (String × JsonValue)} (htag : kinds.lookup tag = some names)
    (hfields : ∀ field ∈ fields, field.1 ≠ "type")
    (hnesting : (JsonValue.object (("type", .text tag) :: fields)).nesting ≤ maxNesting - 4) :
    ofDocument (ofJson (.object (("type", .text tag) :: fields))) =
      orMismatched (ofFields? fields tag) := by
  have hroom := (List.forall_mem_cons.mp (JsonValue.nesting_object_le_iff.mp hnesting)).2
  have htagged : (ofJson (.object (("type", .text tag) :: fields))).tagged kinds (maxNesting - 5) =
      .ok (tag, fields) :=
    tagged_ofJson htag fun field hfield => ⟨hfields field hfield, hroom field hfield⟩
  rw [ofDocument, htagged]
  rfl

theorem Entry.ofDocument_toJson {entry : Entry} (h : ∀ number ∈ entry.numbers, number.Portable)
    (hnesting : entry.toJson.nesting ≤ maxNesting - 4) :
    ofDocument (ofJson entry.toJson) = .ok entry := by
  cases entry with
  | instruction i =>
    have hread : (Instruction.ofFields? i.jsonFields).map instruction = some (instruction i) :=
      congrArg (Option.map instruction) (Instruction.ofFields?_jsonFields h)
    rw [toJson, ofDocument_record rfl Instruction.ne_type_of_mem_jsonFields hnesting]
    exact congrArg orMismatched hread
  | data d =>
    have hread : (Data.ofFields? d.jsonFields).map data = some (data d) :=
      congrArg (Option.map data) (Data.ofFields?_jsonFields h)
    rw [toJson, ofDocument_record rfl Data.ne_type_of_mem_jsonFields hnesting]
    exact congrArg orMismatched hread

theorem switchOfDocument_switchJson (segment : String) :
    switchOfDocument (ofJson (switchJson segment)) = .ok segment := by
  have hfields : ∀ field ∈ [("value", JsonValue.text segment)],
      field.1 ≠ "type" ∧ field.2.nesting ≤ maxNesting - 3 := by
    rw [List.forall_mem_singleton]
    exact ⟨by simp, Nat.zero_le _⟩
  have htagged : (ofJson (switchJson segment)).tagged switchKinds (maxNesting - 3) =
      .ok ("Segment", [("value", .text segment)]) :=
    tagged_ofJson rfl hfields
  rw [switchOfDocument, htagged]
  rfl

theorem Segment.ofDocument_toJson {s : Segment} (h : ∀ number ∈ s.numbers, number.Portable)
    (hnesting : ∀ entry ∈ s.entries, entry.toJson.nesting ≤ maxNesting - 4) :
    ofDocument (ofJson s.toJson) = .ok s := by
  have hread : ∀ entry ∈ s.entries, Entry.ofDocument (ofJson entry.toJson) = .ok (id entry) := by
    intro entry hentry
    refine Entry.ofDocument_toJson (fun number hnumber => ?_) (hnesting entry hentry)
    exact h number (List.mem_flatMap.mpr ⟨entry, hentry, hnumber⟩)
  have hentries := asList_ofJson hread
  rw [List.map_id] at hentries
  have htake : takeEntries none "instructions" (ofJson (.array (s.entries.map Entry.toJson))) =
      .ok (some s.entries) := by
    rw [takeEntries, if_pos rfl, hentries]
    rfl
  rw [ofDocument, toJson, foldRecord_ofJson, foldlM_field_cons htake]
  rfl

/-- A label as it comes back: an address without its segment. -/
def Label.bare (l : Label) : Label :=
  ⟨l.address, ""⟩

theorem Label.ofDocument_toJson {l : Label} (h : l.address < 2 * integerBound) :
    ofDocument (ofJson l.toJson) = .ok l.bare := by
  have htake : Parts.take {} "address" (ofJson (.number (.integer l.address))) =
      .ok { address := some l.address } := by
    rw [Parts.take, if_pos rfl, asNatural_ofJson h]
    rfl
  rw [ofDocument, toJson, foldRecord_ofJson, foldlM_field_cons htake]
  rfl

namespace Program

variable {p : Program}

/-- The labels of a program as they come back. -/
def bareLabels (p : Program) : List (String × Label) :=
  p.labels.entries.map fun (name, l) => (name, l.bare)

theorem Exportable.asFields_segments (h : p.Exportable) :
    (ofJson (.object (p.segments.entries.map fun (name, s) => (name, s.toJson)))).asFields
      Segment.ofDocument = .ok p.segments.entries := by
  have hread : ∀ segment ∈ p.segments.entries,
      Segment.ofDocument (ofJson segment.2.toJson) = .ok (id segment.2) := by
    intro segment hsegment
    exact Segment.ofDocument_toJson (portable_of_mem_segments h.numbers hsegment)
      (nesting_toJson_le_iff.mp h.nesting segment hsegment)
  have hfields := asFields_ofJson hread
  simpa only [id, Prod.mk.eta, List.map_id'] using hfields

theorem Exportable.asFields_labels (h : p.Exportable) :
    (ofJson (.object (p.labels.entries.map fun (name, l) => (name, l.toJson)))).asFields
      Label.ofDocument = .ok p.bareLabels := by
  apply asFields_ofJson
  intro label hlabel
  exact Label.ofDocument_toJson (h.addresses label hlabel)

theorem asList_switches (switches : List String) :
    (ofJson (.array (switches.map switchJson))).asList switchOfDocument = .ok switches := by
  have hread : (ofJson (.array (switches.map switchJson))).asList switchOfDocument =
      .ok (switches.map id) :=
    asList_ofJson fun segment _ => switchOfDocument_switchJson segment
  rwa [List.map_id] at hread

variable {parts : Parts} {field : Document}

theorem Parts.take_segments {segments : List (String × Segment)} (hnew : parts.segments = none)
    (h : field.asFields Segment.ofDocument = .ok segments) :
    parts.take "segments" field = .ok { parts with segments := some segments } := by
  rw [take, if_pos rfl, h, hnew]
  rfl

theorem Parts.take_labels {labels : List (String × Label)} (hnew : parts.labels = none)
    (h : field.asFields Label.ofDocument = .ok labels) :
    parts.take "labels" field = .ok { parts with labels := some labels } := by
  rw [take, if_neg (by simp), if_pos rfl, h, hnew]
  rfl

theorem Parts.take_switches {switches : List String} (hnew : parts.switches = none)
    (h : field.asList switchOfDocument = .ok switches) :
    parts.take "directives" field = .ok { parts with switches := some switches } := by
  rw [take, if_neg (by simp), if_neg (by simp), if_pos rfl, h, hnew]
  rfl

/-- A program comes back from the document of its JSON value, but for the segments of labels. -/
theorem ofDocument_toJson (h : p.Exportable) :
    ofDocument (ofJson p.toJson) =
      .ok ⟨.ofList p.segments.entries, .ofList p.bareLabels, p.switches⟩ := by
  have htag : Parts.take {} "type" (ofJson (.text "Program")) = .ok {} := rfl
  -- The four fields are taken in the order in which they are written.
  rw [ofDocument, toJson, foldRecord_ofJson, foldlM_field_cons htag,
    foldlM_field_cons (Parts.take_segments rfl h.asFields_segments),
    foldlM_field_cons (Parts.take_labels rfl h.asFields_labels),
    foldlM_field_cons (Parts.take_switches rfl (asList_switches p.switches))]
  rfl

theorem keys_bareLabels (p : Program) : p.bareLabels.map Prod.fst = p.labels.keys := by
  simp [bareLabels, OrderedMap.keys, Function.comp_def]

/-- Labels have the same JSON value without their segments. -/
theorem toJson_eq_of_bareLabels {p q : Program} (hsegments : q.segments = p.segments)
    (hswitches : q.switches = p.switches) (hlabels : q.labels.entries = p.bareLabels) :
    q.toJson = p.toJson := by
  have hjson : (q.labels.entries.map fun (name, l) => (name, l.toJson)) =
      p.labels.entries.map fun (name, l) => (name, l.toJson) := by
    rw [hlabels, bareLabels, List.map_map]
    rfl
  rw [toJson, toJson, hsegments, hswitches, hjson]

end Program

/-- The text of a program is read as the same program, in which only the segments of labels are
the empty text, and this program has the same text again. -/
theorem importProgram_exportJson (p : Program) (h : p.Exportable) :
    ∃ q, importProgram p.exportJson = .ok q ∧ q.segments = p.segments ∧ q.switches = p.switches ∧
      q.labels.entries = p.labels.entries.map (fun (name, l) => (name, ⟨l.address, ""⟩)) ∧
      q.exportJson = p.exportJson := by
  let q : Program := ⟨.ofList p.segments.entries, .ofList p.bareLabels, p.switches⟩
  have hread : importProgram p.exportJson = .ok q := by
    rw [importProgram, Program.exportJson, ofText_write h.numbersFit]
    show (Program.ofDocument (ofJson p.toJson) >>= fun program => .ok program) = _
    rw [Program.ofDocument_toJson h]
    rfl
  have hsegments : q.segments = p.segments :=
    OrderedMap.ext (OrderedMap.entries_ofList p.segments.nodup)
  have hlabels : q.labels.entries = p.bareLabels := by
    apply OrderedMap.entries_ofList
    rw [p.keys_bareLabels]
    exact p.labels.nodup
  have htext : q.toJson = p.toJson := Program.toJson_eq_of_bareLabels hsegments rfl hlabels
  exact ⟨q, hread, hsegments, rfl, hlabels, congrArg JsonValue.write htext⟩

/-- A list with one operand and one without any, values of which one is a list with one item, the
least integer, the greatest address, and texts that need escapes. -/
theorem importProgram_exportJson_of_odd_shapes :
    let add : Entry := .instruction ⟨"add", some
      [.indexed (.binary .mul (.int (-9223372036854775808)) (.hex 31)) (.indirect (.text "\"\n"))]⟩
    let nop : Entry := .instruction ⟨"", some []⟩
    let syscall : Entry := .instruction ⟨"syscall", none⟩
    let double : Binary64 := .finite true ⟨4609434218613702656, by decide⟩
    let zero : Number := .real (.finite true Binary64.zero)
    let values : Entry := .data ⟨.double, .list [.float double]⟩
    let value : Entry := .data ⟨.space, .scalar (.number .hexadecimal zero)⟩
    let p : Program :=
      ⟨.ofList [("\t", ⟨[add, nop]⟩), ("", ⟨[]⟩), (".data", ⟨[syscall, values, value]⟩)],
        .ofList [("a", ⟨18446744073709551615, ".text"⟩), ("", ⟨0, "\t"⟩)], ["", ".text", ""]⟩
    p.Exportable ∧
    ∃ q, importProgram p.exportJson = .ok q ∧ q.segments = p.segments ∧ q.switches = p.switches ∧
      q.labels.entries = p.labels.entries.map (fun (name, l) => (name, ⟨l.address, ""⟩)) ∧
      q.exportJson = p.exportJson := by
  intro add nop syscall double zero values value p
  have h : p.Exportable := ⟨by decide +kernel, by decide +kernel, by decide +kernel⟩
  exact ⟨h, importProgram_exportJson p h⟩

end MipsAssembly
