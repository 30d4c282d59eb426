import MipsAssembly.Proofs.Resolution.Declarations
import MipsAssembly.Proofs.Resolution.Labels

/-!
# Segments do not interfere

What statements issue in a segment decides what is in it and where its labels stand.  How the
streams of different segments are interleaved, and how often is switched between them, matters
for the order of the segments and labels only.

## Main definitions

- `issuedIn` — what statements issue in a segment.
- `Creates` — statements make a segment.
- `Immediate.mem_keys_iff_creates` — the segments of a program are those that are made.
- `Immediate.label?_eq_some_iff` — a label stands where it is in the stream of its segment.
- `segments_of_same_streams` — the same streams make the same segments and labels.
-/

namespace MipsAssembly

/-- The labels, without their positions, and the entries that statements issue while a segment is
current. -/
def issuedIn (segment current : String) : List Statement → List Statement
  | [] => []
  | .segment name :: rest => issuedIn segment name rest
  | .label name _ :: rest =>
    if current = segment then .label name {} :: issuedIn segment current rest
    else issuedIn segment current rest
  | .entry entry :: rest =>
    if current = segment then .entry entry :: issuedIn segment current rest
    else issuedIn segment current rest

/-- Statements make a segment by switching to it or by issuing something in it. -/
def Creates (statements : List Statement) (name : String) : Prop :=
  .segment name ∈ statements ∨ issuedIn name textSegment statements ≠ []

def Statement.entry? : Statement → Option Entry
  | entry e => some e
  | _ => none

variable {segment current : String} {statements : List Statement}

theorem currentAfter_cons (current : String) (statement : Statement) (rest : List Statement) :
    currentAfter current (statement :: rest) =
      currentAfter (currentAfter current [statement]) rest := by
  cases statement <;> rfl

theorem issuedIn_cons (segment current : String) (statement : Statement)
    (rest : List Statement) :
    issuedIn segment current (statement :: rest) =
      issuedIn segment current [statement] ++
        issuedIn segment (currentAfter current [statement]) rest := by
  cases statement with
  | segment name => rfl
  | label name position | entry entry =>
    by_cases h : current = segment <;> simp [issuedIn, currentAfter, h]

/-- One statement issues nothing in a segment, or itself if the segment is current. -/
theorem issuedIn_singleton (segment current : String) (statement : Statement) :
    issuedIn segment current [statement] = [] ∨
      current = segment ∧
        issuedIn segment current [statement] = [statement.mapPosition .forget] := by
  cases statement with
  | segment name => exact .inl rfl
  | label name position | entry entry =>
    by_cases h : current = segment
    · exact .inr ⟨h, by rw [issuedIn, if_pos h]; rfl⟩
    · exact .inl (by rw [issuedIn, if_neg h]; rfl)

theorem issuedIn_append (before after : List Statement) :
    issuedIn segment current (before ++ after) =
      issuedIn segment current before ++
        issuedIn segment (currentAfter current before) after := by
  induction before generalizing current with
  | nil => rfl
  | cons statement rest ih =>
    rw [List.cons_append, issuedIn_cons, ih, issuedIn_cons segment current statement rest,
      currentAfter_cons current statement rest, List.append_assoc]

/-- The entries of a segment are those of its stream. -/
theorem entriesIn_eq_filterMap (segment current : String) (statements : List Statement) :
    entriesIn segment current statements =
      (issuedIn segment current statements).filterMap Statement.entry? := by
  induction statements generalizing current with
  | nil => rfl
  | cons statement rest ih =>
    rw [entriesIn_cons, issuedIn_cons, List.filterMap_append, ih]
    cases statement with
    | segment name => rfl
    | label name position | entry entry =>
      by_cases h : current = segment <;> simp [entriesIn, issuedIn, Statement.entry?, h]

/-- A label in the stream of a segment is declared where that much of the stream was issued. -/
theorem exists_declaration_of_issuedIn {name : String} {front back : List Statement}
    (h : issuedIn segment current statements = front ++ .label name {} :: back) :
    ∃ before position after, statements = before ++ .label name position :: after ∧
      currentAfter current before = segment ∧ issuedIn segment current before = front := by
  induction statements generalizing current front with
  | nil => exact absurd h.symm (List.append_ne_nil_of_right_ne_nil front (List.cons_ne_nil _ _))
  | cons statement rest ih =>
    rw [issuedIn_cons] at h
    rcases issuedIn_singleton segment current statement with hnone | ⟨hcurrent, hitself⟩
    · rw [hnone] at h
      obtain ⟨before, position, after, rfl, hsegment, hbefore⟩ := ih h
      refine ⟨statement :: before, position, after, rfl, ?_, ?_⟩
      · rw [currentAfter_cons, hsegment]
      · rw [issuedIn_cons, hnone, hbefore, List.nil_append]
    · rw [hitself] at h
      cases front with
      | nil =>
        -- The statement is the label itself.
        obtain ⟨hlabel, -⟩ := List.cons.inj h
        cases statement with
        | segment other | entry entry => cases hlabel
        | label other position =>
          cases hlabel
          exact ⟨[], position, rest, rfl, hcurrent, rfl⟩
      | cons first front =>
        obtain ⟨rfl, hrest⟩ := List.cons.inj h
        obtain ⟨before, position, after, rfl, hsegment, hbefore⟩ := ih hrest
        refine ⟨statement :: before, position, after, rfl, ?_, ?_⟩
        · rw [currentAfter_cons, hsegment]
        · rw [issuedIn_cons, hitself, hbefore]
          rfl

namespace Immediate

variable {i : Immediate} {name : String}

/-- One statement opens the segment that it switches to or issues itself in. -/
theorem mem_keys_step {statement : Statement} :
    name ∈ (i.step statement).program.segments.keys ↔
      name ∈ i.program.segments.keys ∨ statement = .segment name ∨
        issuedIn name i.current [statement] ≠ [] := by
  have hopen (segment : String) : name ∈ (i.program.openSegment segment).segments.keys ↔
      name = segment ∨ name ∈ i.program.segments.keys :=
    Program.mem_keys_openSegment _ _ _
  cases statement with
  | segment segment =>
    rw [step_segment]
    refine (hopen segment).trans ?_
    simp [issuedIn, or_comm, eq_comm]
  | label label position =>
    rw [step_label]
    refine (hopen i.current).trans ?_
    by_cases h : i.current = name
    · simp [issuedIn, h]
    · simp [issuedIn, h, Ne.symm h]
  | entry entry =>
    have hkeys : name ∈ (i.program.append i.current entry).segments.keys ↔
        name = i.current ∨ name ∈ i.program.segments.keys :=
      OrderedMap.mem_keys_insert
    rw [step_entry, hkeys]
    by_cases h : i.current = name
    · simp [issuedIn, h]
    · simp [issuedIn, h, Ne.symm h]

theorem mem_keys_foldl_iff :
    name ∈ (statements.foldl step i).program.segments.keys ↔
      name ∈ i.program.segments.keys ∨ .segment name ∈ statements ∨
        issuedIn name i.current statements ≠ [] := by
  induction statements generalizing i with
  | nil => simp [issuedIn]
  | cons statement rest ih =>
    have hcurrent : (i.step statement).current = currentAfter i.current [statement] := by
      cases statement <;> rfl
    have hissued : issuedIn name i.current (statement :: rest) ≠ [] ↔
        issuedIn name i.current [statement] ≠ [] ∨
          issuedIn name (currentAfter i.current [statement]) rest ≠ [] := by
      rw [issuedIn_cons, Ne, List.append_eq_nil_iff, not_and_or]
    rw [List.foldl_cons, ih, mem_keys_step, hcurrent, hissued, List.mem_cons,
      eq_comm (a := statement)]
    tauto

/-- The segments of a program are those that its statements make. -/
theorem mem_keys_iff_creates :
    name ∈ (statements.foldl step {}).program.segments.keys ↔ Creates statements name := by
  have hempty : name ∉ ({} : Immediate).program.segments.keys := List.not_mem_nil
  rw [mem_keys_foldl_iff, Creates, or_iff_right hempty]

/-- A segment that is made has the entries of its stream. -/
theorem segment?_eq (statements : List Statement) (name : String)
    [Decidable (Creates statements name)] :
    (statements.foldl step {}).program.segment? name =
      if Creates statements name then
        some ⟨(issuedIn name textSegment statements).filterMap Statement.entry?⟩
      else none := by
  split
  · next h =>
    have hentries : ((statements.foldl step {}).program.segmentD name).entries =
        [] ++ entriesIn name textSegment statements :=
      entries_foldl name
    rw [Program.segment?_eq_some _ _ (mem_keys_iff_creates.mpr h), ← entriesIn_eq_filterMap]
    exact congrArg (fun entries => some (Segment.mk entries)) hentries
  · next h =>
    rw [← mem_keys_iff_creates] at h
    exact OrderedMap.lookup_eq_none_iff.mpr h

/-- A label stands behind the entries that are in front of it in the stream of its segment. -/
theorem label?_eq_some_iff (hnodup : (declaredNames statements).Nodup) {address : Nat}
    {segment : String} :
    (statements.foldl step {}).program.label? name = some ⟨address, segment⟩ ↔
      ∃ front back, issuedIn segment textSegment statements = front ++ .label name {} :: back ∧
        address = (front.filterMap Statement.entry?).length := by
  constructor
  · intro h
    have hdeclared : name ∈ declaredNames statements := by
      have hkeys := keys_foldl (i := {}) hnodup
      rw [← List.nil_append (declaredNames statements)]
      refine hkeys ▸ ?_
      exact List.mem_map_of_mem (OrderedMap.mem_of_get? h)
    obtain ⟨position, before, after, rfl⟩ := exists_declaration hdeclared
    rw [label?_of_declaration hnodup] at h
    obtain ⟨rfl, rfl⟩ := Label.mk.inj (Option.some.inj h)
    let segment := currentAfter textSegment before
    refine ⟨issuedIn segment textSegment before, issuedIn segment segment after, ?_, ?_⟩
    · rw [issuedIn_append, issuedIn, if_pos rfl]
    · rw [entriesIn_eq_filterMap]
  · rintro ⟨front, back, hissued, rfl⟩
    obtain ⟨before, position, after, rfl, rfl, rfl⟩ := exists_declaration_of_issuedIn hissued
    rw [label?_of_declaration hnodup, entriesIn_eq_filterMap]

end Immediate

/-- Segments do not interfere.

If two lists of statements are accepted, issue the same labels and entries in each segment, and
make the same segments, then their programs have the same segments with the same entries, and
every label stands for the same place in the same segment, however the streams of the segments
are interleaved and however often is switched between them. -/
theorem segments_of_same_streams (a b : List Statement) (p q : Program)
    (ha : resolve a = .ok p) (hb : resolve b = .ok q)
    (hissued : ∀ name, issuedIn name textSegment a = issuedIn name textSegment b)
    (hcreates : ∀ name, Creates a name ↔ Creates b name) :
    (∀ name, p.segment? name = q.segment? name) ∧ ∀ name, p.label? name = q.label? name := by
  obtain ⟨hnodup, rfl⟩ := resolve_eq_ok_iff.mp ha
  obtain ⟨hnodup', rfl⟩ := resolve_eq_ok_iff.mp hb
  refine ⟨?_, ?_⟩
  · intro name
    classical
    rw [Immediate.segment?_eq, Immediate.segment?_eq, hissued name]
    exact if_congr (hcreates name) rfl rfl
  · intro name
    apply Option.ext
    rintro ⟨address, segment⟩
    rw [Immediate.label?_eq_some_iff hnodup, Immediate.label?_eq_some_iff hnodup', hissued segment]

/-- A label that waits across a switch, and the same streams without such a switch. -/
theorem segments_of_same_streams_of_waiting_label :
    let nop : Statement := .entry (.instruction ⟨"nop", none⟩)
    let byte : Statement := .entry (.data ⟨.byte, .scalar (.int 1)⟩)
    let a : List Statement :=
      [nop, .label "x" ⟨2, 1⟩, .segment ".data", .label "y" ⟨4, 1⟩, byte, .segment ".text", nop]
    let b : List Statement :=
      [.segment ".data", .label "y" ⟨2, 1⟩, .segment ".text", nop, .label "x" ⟨4, 1⟩, nop,
        .segment ".data", byte]
    let p : Program := (a.foldl Immediate.step {}).program
    let q : Program := (b.foldl Immediate.step {}).program
    resolve a = .ok p ∧ resolve b = .ok q ∧
    (∀ name, issuedIn name textSegment a = issuedIn name textSegment b) ∧
    (∀ name, Creates a name ↔ Creates b name) ∧
    (∀ name, p.segment? name = q.segment? name) ∧ ∀ name, p.label? name = q.label? name := by
  intro nop byte a b p q
  have ha : resolve a = .ok p := resolve_eq_ok_iff.mpr ⟨by decide, rfl⟩
  have hb : resolve b = .ok q := resolve_eq_ok_iff.mpr ⟨by decide, rfl⟩
  have hissued (name : String) : issuedIn name textSegment a = issuedIn name textSegment b := by
    by_cases htext : name = ".text"
    · subst htext
      rfl
    by_cases hdata : name = ".data"
    · subst hdata
      rfl
    simp [a, b, nop, byte, issuedIn, textSegment, Ne.symm htext, Ne.symm hdata]
  have hcreates (name : String) : Creates a name ↔ Creates b name := by
    have hswitches : .segment name ∈ a ↔ .segment name ∈ b := by
      simp only [a, b, nop, byte, List.mem_cons, reduceCtorEq, Statement.segment.injEq,
        List.not_mem_nil, false_or, or_false]
      tauto
    rw [Creates, Creates, hissued, hswitches]
  exact ⟨ha, hb, hissued, hcreates, segments_of_same_streams a b p q ha hb hissued hcreates⟩

end MipsAssembly
