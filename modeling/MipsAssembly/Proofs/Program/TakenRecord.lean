import MipsAssembly.Proofs.Program.KeptRecord

/-!
# Programs, segments and labels with edited fields

Programs, segments and labels are read while their text is read, and their fields are taken one by
one.  No field is taken twice, and fields of other names leave everything as it is, so the fields
can be taken in any order.

## Main definitions

- `KeepsReading` — what is read in a document stays as it was.
- `Place.Keeps` — what is read in a place stays as it was.
- `Segment.takesAnyOrder`, `Label.takesAnyOrder`, `Program.takesAnyOrder` — the order of the fields
  does not matter.
-/

namespace MipsAssembly

open Document JsonRecord

/-- What is read in a document stays as it was. -/
def KeepsReading {α : Type} (read : Document → Except JsonFault α) (d d' : Document) : Prop :=
  ∀ a, read d = .ok a → read d' = .ok a

/-- What is read in a place stays as it was. -/
def Place.Keeps : Place → Document → Document → Prop
  | program => KeepsReading Program.ofDocument
  | segments => KeepsReading (asFields Segment.ofDocument)
  | segment => KeepsReading Segment.ofDocument
  | entries => KeepsReading (asList Entry.ofDocument)
  | entry => KeepsValue (maxNesting - 4) (SameReading Entry.ofJson?)
  | labels => KeepsReading (asFields Label.ofDocument)
  | label => KeepsReading Label.ofDocument
  | switches => KeepsReading (asList switchOfDocument)
  | switch => KeepsValue (maxNesting - 2) (SameReading switchOfJson?)
  | operand room => KeepsValue room (SameReading Operand.ofJson?)
  | operands room => KeepsValue room (SameReading DataValue.ofJson?)

theorem readOnce_eq_ok_iff {α : Type} {before next : Option α} {result : Except JsonFault α} :
    readOnce before result = .ok next ↔ before = none ∧ ∃ a, result = .ok a ∧ next = some a := by
  cases before with
  | some b => simp [readOnce]
  | none =>
    cases result with
    | error f => simp [readOnce, Except.map]
    | ok a => simp [readOnce, Except.map, eq_comm]

theorem readOnce_bind_eq_ok_iff {α β : Type} {before : Option α} {result : Except JsonFault α}
    {f : Option α → β} {b : β} : (readOnce before result >>= fun read => .ok (f read)) = .ok b ↔
      before = none ∧ ∃ a, result = .ok a ∧ b = f (some a) := by
  constructor
  · intro h
    obtain ⟨read, hread, hb⟩ := exists_of_bind_eq_ok h
    obtain ⟨hnew, a, ha, rfl⟩ := readOnce_eq_ok_iff.mp hread
    exact ⟨hnew, a, ha, (Except.ok.inj hb).symm⟩
  · rintro ⟨hnew, a, ha, rfl⟩
    rw [readOnce_eq_ok_iff.mpr ⟨hnew, a, ha, rfl⟩]
    rfl

theorem Segment.takeEntries_eq_ok_iff {before next : Option (List Entry)} {key : String}
    {d : Document} : takeEntries before key d = .ok next ↔
      (key = "instructions" ∧ before = none ∧
        ∃ entries, d.asList Entry.ofDocument = .ok entries ∧ next = some entries) ∨
      (key ≠ "instructions" ∧ d.skip = .ok () ∧ next = before) := by
  rw [takeEntries]
  split
  case isTrue hkey => simp [hkey, readOnce_eq_ok_iff]
  case isFalse hkey => exact skip_bind_eq_ok_iff.trans (by simp [hkey])

theorem Segment.takesAnyOrder :
    TakesAnyOrder takeEntries [("instructions", some Place.entries)] Place.Keeps where
  swap h h' := by
    rw [takeEntries_eq_ok_iff] at h h'
    simp only [takeEntries_eq_ok_iff]
    -- No field is taken twice, and fields of other names leave everything as it is.
    obtain ⟨rfl, hnew, entries, hentries, rfl⟩ | ⟨hkey, hskip, rfl⟩ := h <;>
      obtain ⟨rfl, hnew', entries', hentries', rfl⟩ | ⟨hkey', hskip', rfl⟩ := h' <;> simp_all
  pass hkey hskip := takeEntries_eq_ok_iff.mpr (.inr ⟨by simpa using hkey, hskip, rfl⟩)
  change hkey hedit h := by
    obtain ⟨rfl, rfl⟩ : _ = "instructions" ∧ _ = Place.entries := by simpa using hkey
    obtain ⟨-, hnew, entries, hentries, rfl⟩ | ⟨hkey, -⟩ := takeEntries_eq_ok_iff.mp h
    · exact takeEntries_eq_ok_iff.mpr (.inl ⟨rfl, hnew, entries, hedit entries hentries, rfl⟩)
    · exact absurd rfl hkey

theorem Label.Parts.take_eq_ok_iff {parts next : Label.Parts} {key : String} {d : Document} :
    parts.take key d = .ok next ↔
      (key = "address" ∧ parts.address = none ∧ ∃ address,
        d.asNatural (2 * integerBound) = .ok address ∧ next = ⟨some address, parts.segment⟩) ∨
      (key = "segment" ∧ parts.segment = none ∧ ∃ segment,
        d.asText = .ok segment ∧ next = ⟨parts.address, some segment⟩) ∨
      (key ∉ ["address", "segment"] ∧ d.skip = .ok () ∧ next = parts) := by
  rw [take]
  split
  case isTrue hkey => exact readOnce_bind_eq_ok_iff.trans (by simp [hkey])
  case isFalse hkey =>
    split
    case isTrue hkey' => exact readOnce_bind_eq_ok_iff.trans (by simp [hkey'])
    case isFalse hkey' => exact skip_bind_eq_ok_iff.trans (by simp [hkey, hkey'])

theorem Label.takesAnyOrder :
    TakesAnyOrder Parts.take [("address", none), ("segment", none)] Place.Keeps where
  swap h h' := by
    rw [Parts.take_eq_ok_iff] at h h'
    simp only [Parts.take_eq_ok_iff]
    obtain ⟨rfl, hnew, read, hread, rfl⟩ | ⟨rfl, hnew, read, hread, rfl⟩ |
        ⟨hkey, hskip, rfl⟩ := h <;>
      obtain ⟨rfl, hnew', read', hread', rfl⟩ | ⟨rfl, hnew', read', hread', rfl⟩ |
        ⟨hkey', hskip', rfl⟩ := h' <;> simp_all
  pass hkey hskip := Parts.take_eq_ok_iff.mpr (.inr (.inr ⟨hkey, hskip, rfl⟩))
  change hkey := by simp at hkey

theorem Program.Parts.take_eq_ok_iff {parts next : Parts} {key : String} {d : Document} :
    parts.take key d = .ok next ↔
      (key = "segments" ∧ parts.segments = none ∧ ∃ segments,
        d.asFields Segment.ofDocument = .ok segments ∧
          next = { parts with segments := some segments }) ∨
      (key = "labels" ∧ parts.labels = none ∧ ∃ labels,
        d.asFields Label.ofDocument = .ok labels ∧ next = { parts with labels := some labels }) ∨
      (key = "directives" ∧ parts.switches = none ∧ ∃ switches,
        d.asList switchOfDocument = .ok switches ∧
          next = { parts with switches := some switches }) ∨
      (key ∉ ["segments", "labels", "directives"] ∧ d.skip = .ok () ∧ next = parts) := by
  rw [take]
  split
  case isTrue hkey => exact readOnce_bind_eq_ok_iff.trans (by simp [hkey])
  case isFalse hkey =>
    split
    case isTrue hkey' => exact readOnce_bind_eq_ok_iff.trans (by simp [hkey'])
    case isFalse hkey' =>
      split
      case isTrue hkey'' => exact readOnce_bind_eq_ok_iff.trans (by simp [hkey''])
      case isFalse hkey'' => exact skip_bind_eq_ok_iff.trans (by simp [hkey, hkey', hkey''])

theorem Program.takesAnyOrder : TakesAnyOrder Parts.take
    [("segments", some Place.segments), ("labels", some .labels), ("directives", some .switches)]
    Place.Keeps where
  swap h h' := by
    rw [Parts.take_eq_ok_iff] at h h'
    simp only [Parts.take_eq_ok_iff]
    obtain ⟨rfl, hnew, read, hread, rfl⟩ | ⟨rfl, hnew, read, hread, rfl⟩ |
        ⟨rfl, hnew, read, hread, rfl⟩ | ⟨hkey, hskip, rfl⟩ := h <;>
      obtain ⟨rfl, hnew', read', hread', rfl⟩ | ⟨rfl, hnew', read', hread', rfl⟩ |
        ⟨rfl, hnew', read', hread', rfl⟩ | ⟨hkey', hskip', rfl⟩ := h' <;> simp_all
  pass hkey hskip := Parts.take_eq_ok_iff.mpr (.inr (.inr (.inr ⟨hkey, hskip, rfl⟩)))
  change {parts next key inner d d'} hkey hedit h := by
    refine Parts.take_eq_ok_iff.mpr ?_
    obtain ⟨rfl, hnew, read, hread, rfl⟩ | ⟨rfl, hnew, read, hread, rfl⟩ |
      ⟨rfl, hnew, read, hread, rfl⟩ | ⟨hother, -⟩ := Parts.take_eq_ok_iff.mp h
    · obtain rfl : inner = .segments := by simpa using hkey
      exact .inl ⟨rfl, hnew, read, hedit read hread, rfl⟩
    · obtain rfl : inner = .labels := by simpa using hkey
      exact .inr (.inl ⟨rfl, hnew, read, hedit read hread, rfl⟩)
    · obtain rfl : inner = .switches := by simpa using hkey
      exact .inr (.inr (.inl ⟨rfl, hnew, read, hedit read hread, rfl⟩))
    · exact absurd (List.mem_map_of_mem (f := Prod.fst) hkey) hother

end MipsAssembly
