import MipsAssembly.Program.Export
import MipsAssembly.Program.Import
import MipsAssembly.Proofs.Json.Value

/-!
# What the JSON text of a program holds

Most of a program can be told in JSON without loss.  Floating-point numbers have to be finite,
integers have to fit 64 bits, and operands must not be nested deeper than texts are read.

## Main definitions

- `Number.Portable` — the numbers that come back as they were.
- `Operand.numbers`, `Entry.numbers`, `Program.numbers` — the numbers in a program.
- `Program.Exportable` — the programs whose text can be read again.
- `Program.Exportable.numbersFit` — JSON texts can tell all numbers of such a program.
- `Program.nesting_toJson_le_iff` — how deep the text of a program is nested.
-/

namespace MipsAssembly

/-- The numbers that come back as they were: integers that fit 64 bits with a sign, and
floating-point numbers that are finite. -/
def Number.Portable : Number → Prop
  | .integer value => fits64 value = true
  | .real value => value.isFinite = true

instance (number : Number) : Decidable number.Portable :=
  match number with
  | .integer value => inferInstanceAs (Decidable (fits64 value = true))
  | .real value => inferInstanceAs (Decidable (value.isFinite = true))

theorem Number.Portable.inJson {number : Number} (h : number.Portable) : number.InJson := by
  cases number with
  | real value => exact h
  | integer value =>
    obtain ⟨hlow, hhigh⟩ := Bool.and_eq_true_iff.mp h
    have hlow := of_decide_eq_true hlow
    have hhigh := of_decide_eq_true hhigh
    exact ⟨hlow, by omega⟩

/-! ## The numbers of a program -/

def Operand.numbers : Operand → List Number
  | register _ _ | identifier _ | text _ => []
  | number _ value => [value]
  | binary _ left right => left.numbers ++ right.numbers
  | indirect base => base.numbers
  | indexed offset base => offset.numbers ++ base.numbers

def Entry.operands : Entry → List Operand
  | instruction i => i.operands
  | data d => d.value.values

def Entry.numbers (entry : Entry) : List Number :=
  entry.operands.flatMap Operand.numbers

def Segment.numbers (s : Segment) : List Number :=
  s.entries.flatMap Entry.numbers

def Program.numbers (p : Program) : List Number :=
  p.segments.entries.flatMap fun (_, s) => s.numbers

/-- The programs whose JSON text can be read again. -/
structure Program.Exportable (p : Program) : Prop where
  numbers : ∀ number ∈ p.numbers, number.Portable
  /-- Addresses fit 64 bits without a sign. -/
  addresses : ∀ label ∈ p.labels.entries, label.2.address < 2 * integerBound
  /-- The text is not nested deeper than texts are read. -/
  nesting : p.toJson.nesting ≤ maxNesting

/-- The numbers of a segment are among those of its program. -/
theorem Program.portable_of_mem_segments {p : Program} (h : ∀ number ∈ p.numbers, number.Portable)
    {segment : String × Segment} (hsegment : segment ∈ p.segments.entries) :
    ∀ number ∈ segment.2.numbers, number.Portable :=
  fun number hnumber => h number (List.mem_flatMap.mpr ⟨segment, hsegment, hnumber⟩)

/-! ## JSON texts can tell the numbers -/

open JsonValue

theorem Operand.numbersFit_toJson {operand : Operand}
    (h : ∀ number ∈ operand.numbers, number.Portable) : operand.toJson.NumbersFit := by
  induction operand with
  | register name kind => exact .object (by simp [NumbersFit.text])
  | identifier name => exact .object (by simp [NumbersFit.text])
  | text content => exact .object (by simp [NumbersFit.text])
  | number radix value =>
    have hvalue := NumbersFit.number (h value (by simp [numbers])).inJson
    exact .object (by simp [NumbersFit.text, hvalue])
  | binary operator left right ihleft ihright =>
    obtain ⟨hleft, hright⟩ := List.forall_mem_append.mp h
    exact .object (by simp [NumbersFit.text, ihleft hleft, ihright hright])
  | indirect base ih => exact .object (by simp [NumbersFit.text, ih h])
  | indexed offset base ihoffset ihbase =>
    obtain ⟨hoffset, hbase⟩ := List.forall_mem_append.mp h
    exact .object (by simp [NumbersFit.text, ihoffset hoffset, ihbase hbase])

theorem Operand.numbersFit_list {operands : List Operand}
    (h : ∀ number ∈ operands.flatMap Operand.numbers, number.Portable) :
    (JsonValue.array (operands.map Operand.toJson)).NumbersFit := by
  refine .array (List.forall_mem_map.mpr fun operand hoperand => ?_)
  exact operand.numbersFit_toJson fun number hnumber =>
    h number (List.mem_flatMap.mpr ⟨operand, hoperand, hnumber⟩)

theorem Entry.numbersFit_toJson {entry : Entry}
    (h : ∀ number ∈ entry.numbers, number.Portable) : entry.toJson.NumbersFit := by
  cases entry with
  | instruction i =>
    obtain ⟨opcode, operandList⟩ := i
    cases operandList with
    | none => exact .object (by simp [Instruction.jsonFields, NumbersFit.text])
    | some operands =>
      have hlist : (JsonValue.array (operands.map Operand.toJson)).NumbersFit :=
        Operand.numbersFit_list h
      exact .object (by simp [Instruction.jsonFields, NumbersFit.text, hlist])
  | data d =>
    obtain ⟨mode, value⟩ := d
    have hvalue : value.toJson.NumbersFit := by
      cases value with
      | scalar value =>
        exact value.numbersFit_toJson fun number hnumber =>
          h number (List.mem_flatMap.mpr ⟨value, List.mem_singleton.mpr rfl, hnumber⟩)
      | list values => exact Operand.numbersFit_list h
    exact .object (by simp [Data.jsonFields, NumbersFit.text, hvalue])

theorem Segment.numbersFit_toJson {s : Segment} (h : ∀ number ∈ s.numbers, number.Portable) :
    s.toJson.NumbersFit := by
  have hentries : (JsonValue.array (s.entries.map Entry.toJson)).NumbersFit := by
    refine .array (List.forall_mem_map.mpr fun entry hentry => ?_)
    exact entry.numbersFit_toJson fun number hnumber =>
      h number (List.mem_flatMap.mpr ⟨entry, hentry, hnumber⟩)
  exact .object (by simp [hentries])

theorem Segment.nesting_toJson_le_iff {s : Segment} {room : Nat} :
    s.toJson.nesting ≤ room + 2 ↔ ∀ entry ∈ s.entries, entry.toJson.nesting ≤ room := by
  rw [toJson, nesting_object_le_iff, List.forall_mem_singleton, nesting_array_le_iff,
    List.forall_mem_map]

namespace Program

variable {p : Program}

/-- JSON texts can tell all numbers of the JSON value of a program if its numbers come back and
its addresses fit. -/
theorem numbersFit_toJson (hnumbers : ∀ number ∈ p.numbers, number.Portable)
    (haddresses : ∀ label ∈ p.labels.entries, label.2.address < 2 * integerBound) :
    p.toJson.NumbersFit := by
  refine .object (List.forall_mem_cons.mpr ⟨.text "Program", List.forall_mem_cons.mpr ⟨?segments,
    List.forall_mem_cons.mpr ⟨?labels, List.forall_mem_singleton.mpr ?switches⟩⟩⟩)
  case segments =>
    refine .object (List.forall_mem_map.mpr fun segment hsegment => ?_)
    exact segment.2.numbersFit_toJson (portable_of_mem_segments hnumbers hsegment)
  case labels =>
    refine .object (List.forall_mem_map.mpr fun label hlabel => ?_)
    have haddress : (Number.integer label.2.address).InJson := by
      have hbound := haddresses label hlabel
      exact ⟨by omega, by omega⟩
    exact .object (by simp [NumbersFit.number haddress])
  case switches =>
    refine .array (List.forall_mem_map.mpr fun segment _ => ?_)
    exact .object (by simp [NumbersFit.text])

/-- JSON texts can tell all numbers of the JSON value of such a program. -/
theorem Exportable.numbersFit (h : p.Exportable) : p.toJson.NumbersFit :=
  numbersFit_toJson h.numbers h.addresses

/-- An entry is nested four times less than its program, in which nothing else is nested deeper. -/
theorem nesting_toJson_le_iff {room : Nat} : p.toJson.nesting ≤ room + 4 ↔
    ∀ segment ∈ p.segments.entries, ∀ entry ∈ segment.2.entries, entry.toJson.nesting ≤ room := by
  rw [toJson, nesting_object_le_iff]
  constructor
  · intro h segment hsegment
    have hsegments := nesting_object_le_iff.mp (h ("segments", _) (.tail _ (.head _)))
    exact Segment.nesting_toJson_le_iff.mp
      (hsegments (segment.1, segment.2.toJson) (List.mem_map_of_mem hsegment))
  · intro h
    refine List.forall_mem_cons.mpr ⟨Nat.zero_le _, List.forall_mem_cons.mpr ⟨?segments,
      List.forall_mem_cons.mpr ⟨?labels, List.forall_mem_singleton.mpr ?switches⟩⟩⟩
    case segments =>
      refine nesting_object_le_iff.mpr (List.forall_mem_map.mpr fun segment hsegment => ?_)
      exact Segment.nesting_toJson_le_iff.mpr (h segment hsegment)
    case labels =>
      refine nesting_object_le_iff.mpr (List.forall_mem_map.mpr fun label _ => ?_)
      show 1 ≤ room + 2
      omega
    case switches =>
      refine nesting_array_le_iff.mpr (List.forall_mem_map.mpr fun name _ => ?_)
      show 1 ≤ room + 2
      omega

end Program

end MipsAssembly
