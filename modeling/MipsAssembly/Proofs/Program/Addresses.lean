import MipsAssembly.Proofs.Json.Reading
import MipsAssembly.Proofs.Program.Nesting
import MipsAssembly.Proofs.Program.TakenRecord

/-!
# Addresses in JSON texts

The text of a program is read to its end however great its addresses are, but an address that does
not fit 64 bits without a sign is not taken for one.  So the programs whose numbers come back are
read from their texts exactly if nothing keeps them from being exported.

## Main definitions

- `Program.document` — what the text of a program is read as.
- `Program.address_lt_of_importProgram` — the addresses of a program whose text is accepted.
- `Program.exportable_of_importProgram` — such a program can be exported.
-/

namespace MipsAssembly

open Document

/-- Every field of a record is taken. -/
theorem Document.exists_take_of_foldlM {σ : Type}
    {take : σ → String → Document → Except JsonFault σ} {fields : List Field} {start result : σ}
    (h : fields.foldlM (takeField take) start = .ok result) {name : String} {d : Document}
    (hmem : (.ok name, d) ∈ fields) : ∃ parts next, take parts name d = .ok next := by
  obtain ⟨front, behind, rfl⟩ := List.append_of_mem hmem
  rw [List.foldlM_append] at h
  obtain ⟨parts, -, h⟩ := exists_of_bind_eq_ok h
  rw [List.foldlM_cons] at h
  obtain ⟨next, htake, -⟩ := exists_of_bind_eq_ok h
  exact ⟨parts, next, htake⟩

/-- What the text of a label is read as. -/
def Label.document (l : Label) : Document :=
  .object [(.ok "address", ofNatural l.address)] none

theorem Label.isReadAs_document (l : Label) : IsReadAs l.toJson l.document :=
  .object (.cons ⟨rfl, isReadAs_natural l.address⟩ .nil)

/-- The address of a label that is read fits 64 bits without a sign. -/
theorem Label.address_lt_of_ofDocument {l l' : Label} (h : ofDocument l.document = .ok l') :
    l.address < 2 * integerBound := by
  obtain ⟨parts, hparts, -⟩ := exists_of_bind_eq_ok h
  obtain ⟨fields, hfields, hfold⟩ := foldRecord_eq_ok_iff.mp hparts
  obtain rfl := Option.some.inj hfields
  obtain ⟨before, next, htake⟩ := exists_take_of_foldlM hfold List.mem_cons_self
  rcases Parts.take_eq_ok_iff.mp htake with ⟨-, -, address, haddress, -⟩ | ⟨hname, -⟩ | ⟨hname, -⟩
  · exact lt_of_asNatural_ofNatural haddress
  · simp at hname
  · simp at hname

namespace Program

variable {p q : Program}

/-- What the text of a program is read as. -/
def document (p : Program) : Document :=
  .object [(.ok "type", ofJson (.text "Program")),
    (.ok "segments", .object
      (p.segments.entries.map fun (name, s) => (.ok name, ofJson s.toJson)) none),
    (.ok "labels", .object
      (p.labels.entries.map fun (name, l) => (.ok name, l.document)) none),
    (.ok "directives", ofJson (.array (p.switches.map switchJson)))] none

theorem isReadAs_document (h : ∀ number ∈ p.numbers, number.Portable) :
    IsReadAs p.toJson p.document := by
  have hsegments := forall₂_fieldIsReadAs Segment.toJson (fun s => ofJson s.toJson)
    fun segment hsegment =>
      isReadAs_ofJson (segment.2.numbersFit_toJson (portable_of_mem_segments h hsegment))
  have hlabels := forall₂_fieldIsReadAs Label.toJson Label.document
    fun label (_ : label ∈ p.labels.entries) => label.2.isReadAs_document
  have hswitches : (JsonValue.array (p.switches.map switchJson)).NumbersFit := by
    refine .array (List.forall_mem_map.mpr fun segment _ => ?_)
    exact .object (by simp [JsonValue.NumbersFit.text])
  exact .object (.cons ⟨rfl, isReadAs_ofJson (.text "Program")⟩
    (.cons ⟨rfl, .object hsegments⟩ (.cons ⟨rfl, .object hlabels⟩
      (.cons ⟨rfl, isReadAs_ofJson hswitches⟩ .nil))))

/-- The addresses of a program whose text is accepted fit 64 bits without a sign. -/
theorem address_lt_of_importProgram (hnumbers : ∀ number ∈ p.numbers, number.Portable)
    (h : importProgram p.exportJson = .ok q) :
    ∀ label ∈ p.labels.entries, label.2.address < 2 * integerBound := by
  intro label hlabel
  rw [importProgram, exportJson, (isReadAs_document hnumbers).ofText_write] at h
  obtain ⟨program, hprogram, -⟩ := exists_of_bind_eq_ok h
  obtain ⟨parts, hparts, -⟩ := exists_of_bind_eq_ok hprogram
  obtain ⟨fields, hfields, hfold⟩ := foldRecord_eq_ok_iff.mp hparts
  obtain rfl := Option.some.inj hfields
  obtain ⟨before, next, htake⟩ := exists_take_of_foldlM hfold
    (List.mem_cons_of_mem _ (List.mem_cons_of_mem _ List.mem_cons_self))
  -- The labels are read one by one, so this one is read.
  obtain ⟨labels, hread⟩ : ∃ labels, (Document.object (p.labels.entries.map fun (name, l) =>
      (.ok name, l.document)) none).asFields Label.ofDocument = .ok labels := by
    rcases Parts.take_eq_ok_iff.mp htake with ⟨hname, -⟩ | ⟨-, -, labels, hread, -⟩ |
      ⟨hname, -⟩ | ⟨hname, -⟩
    · simp at hname
    · exact ⟨labels, hread⟩
    · simp at hname
    · simp at hname
  rw [asFields_object] at hread
  obtain ⟨fields, hfields, -⟩ := exists_of_bind_eq_ok hread
  obtain ⟨⟨name, l⟩, -, hfield⟩ := exists_mem_of_mapM_eq_ok hfields (List.mem_map_of_mem hlabel)
  exact Label.address_lt_of_ofDocument (readField_eq_ok_iff.mp hfield).2

/-- Only a program that can be exported has a text that is accepted, if its numbers come back. -/
theorem exportable_of_importProgram (hnumbers : ∀ number ∈ p.numbers, number.Portable)
    (h : importProgram p.exportJson = .ok q) : p.Exportable := by
  have haddresses := address_lt_of_importProgram hnumbers h
  refine ⟨hnumbers, haddresses, ?_⟩
  by_contra hnesting
  have hdeep : ¬ p.Shallow := fun hshallow => hnesting (shallow_iff.mp hshallow)
  rw [importProgram_of_not_shallow hnumbers haddresses hdeep] at h
  cases h

end Program

end MipsAssembly
