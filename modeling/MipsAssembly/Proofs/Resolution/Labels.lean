import MipsAssembly.Proofs.Resolution.Immediate

/-!
# What labels denote

A label stands for the number of entries that its segment has where it is declared.  A segment
only grows, and by the entries that are issued while it is current.  So the entry at that place
is the next one that is issued in the segment of the label, whatever is done in other segments
in between.

## Main definitions

- `currentAfter` — the segment that is current behind statements.
- `entriesIn` — the entries that statements issue in a segment.
- `Immediate.entries_foldl` — a segment after statements.
- `label_denotes_next_entry` — the place of a label and the entry there.
-/

namespace MipsAssembly

/-- The segment that is current behind statements: the last one that is switched to. -/
def currentAfter (current : String) : List Statement → String
  | [] => current
  | .segment name :: rest => currentAfter name rest
  | .label _ _ :: rest => currentAfter current rest
  | .entry _ :: rest => currentAfter current rest

/-- The entries of statements that are issued while the segment is current. -/
def entriesIn (segment current : String) : List Statement → List Entry
  | [] => []
  | .segment name :: rest => entriesIn segment name rest
  | .label _ _ :: rest => entriesIn segment current rest
  | .entry entry :: rest =>
    if current = segment then entry :: entriesIn segment current rest
    else entriesIn segment current rest

theorem entriesIn_cons (name current : String) (statement : Statement) (rest : List Statement) :
    entriesIn name current (statement :: rest) =
      entriesIn name current [statement] ++
        entriesIn name (currentAfter current [statement]) rest := by
  cases statement with
  | segment segment => rfl
  | label label position => rfl
  | entry entry =>
    by_cases h : current = name <;> simp [entriesIn, currentAfter, h]

namespace Program

variable (p : Program) (name : String)

@[simp] theorem segmentD_bind (label segment : String) (address : Nat) :
    (p.bind label segment address).segmentD name = p.segmentD name :=
  rfl

@[simp] theorem segmentD_recordSwitch (segment : String) :
    (p.recordSwitch segment).segmentD name = p.segmentD name :=
  rfl

theorem segmentD_append (segment : String) (entry : Entry) :
    ((p.append segment entry).segmentD name).entries =
      (p.segmentD name).entries ++ if segment = name then [entry] else [] := by
  by_cases h : name = segment
  · subst h
    simp [append, segmentD]
  · simp [append, segmentD, h, Ne.symm h]

theorem mem_keys_openSegment (segment : String) :
    name ∈ (p.openSegment segment).segments.keys ↔ name = segment ∨ name ∈ p.segments.keys :=
  OrderedMap.mem_keys_insert

/-- A segment that exists is the one that is taken for it. -/
theorem segment?_eq_some (h : name ∈ p.segments.keys) :
    p.segment? name = some (p.segmentD name) := by
  have hne : p.segments.get? name ≠ none := fun hnone => OrderedMap.lookup_eq_none_iff.mp hnone h
  obtain ⟨s, hs⟩ := Option.ne_none_iff_exists'.mp hne
  rw [segment?, segmentD, hs]
  rfl

end Program

namespace Immediate

variable {i : Immediate} {statement : Statement} {statements : List Statement}

theorem current_foldl : (statements.foldl step i).current = currentAfter i.current statements := by
  induction statements generalizing i with
  | nil => rfl
  | cons statement rest ih =>
    rw [List.foldl_cons, ih]
    cases statement <;> rfl

/-- One statement adds to a segment what it issues there. -/
theorem entries_step (name : String) :
    ((i.step statement).program.segmentD name).entries =
      (i.program.segmentD name).entries ++ entriesIn name i.current [statement] := by
  cases statement with
  | segment segment => simp [step_segment, entriesIn]
  | label label position => simp [step_label, entriesIn]
  | entry entry =>
    rw [step_entry, Program.segmentD_append]
    rfl

/-- Statements add to a segment what they issue there. -/
theorem entries_foldl (name : String) :
    ((statements.foldl step i).program.segmentD name).entries =
      (i.program.segmentD name).entries ++ entriesIn name i.current statements := by
  induction statements generalizing i with
  | nil => simp [entriesIn]
  | cons statement rest ih =>
    have hcurrent : ([statement].foldl step i).current = currentAfter i.current [statement] :=
      current_foldl
    rw [List.foldl_cons, List.foldl_nil] at hcurrent
    rw [List.foldl_cons, ih, entries_step, hcurrent, entriesIn_cons name _ statement rest,
      List.append_assoc]

/-- A segment that exists stays. -/
theorem mem_keys_foldl {name : String} (h : name ∈ i.program.segments.keys) :
    name ∈ (statements.foldl step i).program.segments.keys := by
  induction statements generalizing i with
  | nil => exact h
  | cons statement rest ih =>
    apply ih
    cases statement with
    | segment segment =>
      rw [step_segment]
      exact (Program.mem_keys_openSegment _ _ _).mpr (.inr h)
    | label label position =>
      rw [step_label]
      exact (Program.mem_keys_openSegment _ _ _).mpr (.inr h)
    | entry entry =>
      rw [step_entry]
      exact OrderedMap.mem_keys_insert.mpr (.inr h)

/-- The segment in which a label is declared exists from then on. -/
theorem current_mem_keys_step_label (i : Immediate) (name : String) (position : Position) :
    i.current ∈ (i.step (.label name position)).program.segments.keys := by
  rw [step_label]
  exact (Program.mem_keys_openSegment _ _ _).mpr (.inl rfl)

/-- A label stands for the present end of the current segment. -/
theorem labels_step_label (i : Immediate) (name : String) (position : Position) :
    (i.step (.label name position)).program.labels =
      i.program.labels.insert name ⟨(i.program.segmentD i.current).length, i.current⟩ := by
  have hlength : (i.program.openSegment i.current).segmentLength i.current =
      (i.program.segmentD i.current).length :=
    congrArg Segment.length (Program.segmentD_openSegment _ _ _)
  rw [step_label, hlength]
  rfl

/-- A label stays what it is as long as its name is not declared again. -/
theorem label?_foldl {name : String} (h : name ∉ declaredNames statements) :
    (statements.foldl step i).program.label? name = i.program.label? name := by
  induction statements generalizing i with
  | nil => rfl
  | cons statement rest ih =>
    rw [List.foldl_cons]
    cases statement with
    | segment segment => exact ih h
    | entry entry => exact ih h
    | label label position =>
      rw [declaredNames, List.mem_cons, not_or] at h
      rw [ih h.2, Program.label?, labels_step_label, OrderedMap.get?_insert, if_neg h.1]
      rfl

/-- A label that is declared once stands for the end that the current segment has there. -/
theorem label?_of_declaration {before after : List Statement} {name : String}
    {position : Position}
    (hnodup : (declaredNames (before ++ .label name position :: after)).Nodup) :
    let segment := currentAfter textSegment before
    ((before ++ .label name position :: after).foldl step {}).program.label? name =
      some ⟨(entriesIn segment textSegment before).length, segment⟩ := by
  intro segment
  rw [declaredNames_append] at hnodup
  have hafter : name ∉ declaredNames after :=
    (List.nodup_cons.mp (List.nodup_append.mp hnodup).2.1).1
  let here : Immediate := before.foldl step {}
  have hcurrent : here.current = segment := current_foldl
  have hentries : (here.program.segmentD segment).entries = entriesIn segment textSegment before :=
    entries_foldl segment
  have hlength : (here.program.segmentD segment).length =
      (entriesIn segment textSegment before).length :=
    congrArg List.length hentries
  rw [List.foldl_append, List.foldl_cons, label?_foldl hafter, Program.label?, labels_step_label,
    OrderedMap.get?_insert, if_pos rfl, hcurrent, hlength]

/-- Names that are new are put behind the others. -/
theorem keys_foldl (hnodup : (i.program.labels.keys ++ declaredNames statements).Nodup) :
    (statements.foldl step i).program.labels.keys =
      i.program.labels.keys ++ declaredNames statements := by
  induction statements generalizing i with
  | nil => simp [declaredNames]
  | cons statement rest ih =>
    rw [List.foldl_cons]
    cases statement with
    | segment segment => exact ih hnodup
    | entry entry => exact ih hnodup
    | label label position =>
      have hnew : label ∉ i.program.labels.keys := fun hold =>
        (List.nodup_append.mp hnodup).2.2 label hold label List.mem_cons_self rfl
      have hkeys : (i.step (.label label position)).program.labels.keys =
          i.program.labels.keys ++ [label] := by
        rw [labels_step_label, OrderedMap.keys_insert, if_neg hnew]
      rw [declaredNames, List.append_cons, ← hkeys] at hnodup ⊢
      exact ih hnodup

end Immediate

/-- A label denotes the next entry of its own segment.

The labels of a program are those that its statements declare.  Each stands in the segment that
is current where it is declared, which exists, and its address is the number of entries issued
there before.  The entry that it points at is the first one issued there behind it; there is
none exactly if the address is the length of the segment. -/
theorem label_denotes_next_entry (statements : List Statement) (p : Program)
    (h : resolve statements = .ok p) :
    p.labels.keys = declaredNames statements ∧
    ∀ i name position, statements[i]? = some (.label name position) →
      let before := statements.take i
      let after := statements.drop (i + 1)
      let segment := currentAfter textSegment before
      let address := (entriesIn segment textSegment before).length
      p.label? name = some ⟨address, segment⟩ ∧
      p.labelEntry? name = (entriesIn segment segment after).head? ∧
      ∃ s, p.segment? segment = some s ∧ address ≤ s.length ∧
        (p.labelEntry? name = none ↔ address = s.length) := by
  obtain ⟨hnodup, rfl⟩ := resolve_eq_ok_iff.mp h
  refine ⟨Immediate.keys_foldl hnodup, ?_⟩
  intro i name position hi before after segment address
  have hsplit : statements = before ++ .label name position :: after := by
    obtain ⟨hlt, hget⟩ := List.getElem?_eq_some_iff.mp hi
    rw [← hget, List.getElem_cons_drop, List.take_append_drop]
  rw [hsplit] at hnodup
  have hlabel := Immediate.label?_of_declaration hnodup
  -- The states where the label is declared, right behind it, and at the end.
  let here : Immediate := before.foldl Immediate.step {}
  let behind := here.step (.label name position)
  let last := after.foldl Immediate.step behind
  have hlast : statements.foldl Immediate.step {} = last := by
    rw [hsplit, List.foldl_append, List.foldl_cons]
  rw [← hsplit, hlast] at hlabel
  have hcurrent : here.current = segment := Immediate.current_foldl
  have hentries : (here.program.segmentD segment).entries = entriesIn segment textSegment before :=
    Immediate.entries_foldl segment
  have hopen : segment ∈ last.program.segments.keys := by
    apply Immediate.mem_keys_foldl
    exact hcurrent ▸ here.current_mem_keys_step_label name position
  have hfinal : (last.program.segmentD segment).entries =
      entriesIn segment textSegment before ++ entriesIn segment segment after := by
    have hbehind : behind.current = segment := hcurrent
    rw [Immediate.entries_foldl, hbehind, Immediate.entries_step, hentries]
    simp [entriesIn]
  have hentry : last.program.labelEntry? name = (entriesIn segment segment after).head? := by
    rw [Program.labelEntry?, hlabel, Option.bind_some, Program.segment?_eq_some _ _ hopen,
      Option.bind_some, Segment.get?, hfinal, List.getElem?_append_right (Nat.le_refl _),
      Nat.sub_self, List.head?_eq_getElem?]
  have hlength : (last.program.segmentD segment).length =
      address + (entriesIn segment segment after).length := by
    rw [Segment.length, hfinal, List.length_append]
  rw [hlast]
  refine ⟨hlabel, hentry, _, Program.segment?_eq_some _ _ hopen, by omega, ?_⟩
  rw [hentry, List.head?_eq_none_iff, hlength, ← List.length_eq_zero_iff]
  omega

/-- A label that is separated from its entry by another segment, and one at the end of its
segment. -/
theorem label_denotes_next_entry_across_switches :
    let nop : Statement := .entry (.instruction ⟨"nop", none⟩)
    let byte : Statement := .entry (.data ⟨.byte, .scalar (.int 1)⟩)
    let statements : List Statement :=
      [nop, .label "a" ⟨2, 1⟩, .segment ".data", byte, .label "b" ⟨4, 1⟩, .segment ".text", nop]
    let p : Program := (statements.foldl Immediate.step {}).program
    resolve statements = .ok p ∧
    p.labels.keys = declaredNames statements ∧
    ∀ i name position, statements[i]? = some (.label name position) →
      let before := statements.take i
      let after := statements.drop (i + 1)
      let segment := currentAfter textSegment before
      let address := (entriesIn segment textSegment before).length
      p.label? name = some ⟨address, segment⟩ ∧
      p.labelEntry? name = (entriesIn segment segment after).head? ∧
      ∃ s, p.segment? segment = some s ∧ address ≤ s.length ∧
        (p.labelEntry? name = none ↔ address = s.length) := by
  intro nop byte statements p
  have hresolve : resolve statements = .ok p := resolve_eq_ok_iff.mpr ⟨by decide, rfl⟩
  exact ⟨hresolve, label_denotes_next_entry statements p hresolve⟩

end MipsAssembly
