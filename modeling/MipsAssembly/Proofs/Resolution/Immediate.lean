import MipsAssembly.Proofs.Except
import MipsAssembly.Proofs.OrderedMap
import MipsAssembly.Resolution

/-!
# Labels that wait and labels bound at once

An `Immediate` binds each label where it is declared.  What a statement does to it is said by the
fields of the program alone.  A `Layout` lets labels wait and binds them later, but flushing it at
any time gives the program of the immediate one: nothing is put into the current segment while
labels wait, so they are bound to the place that they saw, and opening a segment a second time
changes nothing.

## Main definitions

- `Immediate`, `Immediate.step` — a program in the making without labels that wait.
- `Immediate.step_segment`, `Immediate.step_label`, `Immediate.step_entry` — the same, piece by
  piece.
- `Layout.settled` — the immediate state of a layout.
- `declaredNames` — the names of the labels that statements declare.
- `resolve_eq_ok_iff` — which statements are accepted, and what their program is.
-/

namespace MipsAssembly

namespace Program

@[simp] theorem segmentD_openSegment (p : Program) (segment name : String) :
    (p.openSegment segment).segmentD name = p.segmentD name := by
  by_cases h : name = segment
  · subst h
    simp [openSegment, segmentD]
  · simp [openSegment, segmentD, h]

/-- Opening a segment a second time changes nothing. -/
@[simp] theorem openSegment_openSegment (p : Program) (name : String) :
    (p.openSegment name).openSegment name = p.openSegment name := by
  rw [openSegment, segmentD_openSegment]
  simp [openSegment]

/-- An entry opens its segment by itself. -/
@[simp] theorem append_openSegment (p : Program) (name : String) (entry : Entry) :
    (p.openSegment name).append name entry = p.append name entry := by
  rw [append, segmentD_openSegment]
  simp [openSegment, append]

def bindNames (p : Program) (segment : String) (address : Nat) (names : List String) : Program :=
  names.foldl (fun p name => p.bind name segment address) p

@[simp] theorem segments_bindNames (p : Program) (segment : String) (address : Nat)
    (names : List String) : (p.bindNames segment address names).segments = p.segments := by
  induction names generalizing p with
  | nil => rfl
  | cons name names ih => exact ih (p.bind name segment address)

/-- A segment that is open stays open while labels are bound. -/
theorem openSegment_bindNames (p : Program) (segment : String) (address : Nat)
    (names : List String) :
    ((p.openSegment segment).bindNames segment address names).openSegment segment =
      (p.openSegment segment).bindNames segment address names := by
  -- Binding labels leaves the segments alone, so the two sides open the same ones.
  have hopen := congrArg Program.segments (p.openSegment_openSegment segment)
  rw [openSegment, segmentD] at hopen ⊢
  rw [segments_bindNames]
  simp only at hopen
  rw [hopen, ← segments_bindNames (p.openSegment segment) segment address names]

theorem segmentLength_bindNames (p : Program) (segment name : String) (address : Nat)
    (names : List String) :
    (p.bindNames segment address names).segmentLength name = p.segmentLength name := by
  simp [segmentLength, segmentD]

theorem bindNames_snoc (p : Program) (segment : String) (address : Nat) (names : List String)
    (name : String) :
    p.bindNames segment address (names ++ [name]) =
      (p.bindNames segment address names).bind name segment address := by
  simp [bindNames]

end Program

/-- A program in the making whose labels are bound where they are declared. -/
structure Immediate where
  program : Program := {}
  current : String := textSegment
  deriving DecidableEq

namespace Immediate

/-- Segments with one more, which has no entries, if there is none of that name. -/
def withSegment (segments : OrderedMap Segment) (name : String) : OrderedMap Segment :=
  if name ∈ segments.keys then segments else segments.insert name ⟨[]⟩

/-- The entries of one of the segments. -/
def entriesOf (segments : OrderedMap Segment) (name : String) : List Entry :=
  (segments.get? name).elim [] Segment.entries

/-- Take a statement.  Whatever it is, the segment that it is about is there from then on.  A switch
is recorded, a label stands for the present end of the current segment, and an entry is put there. -/
def step (i : Immediate) : Statement → Immediate
  | .segment name =>
    { program :=
        { i.program with
          segments := withSegment i.program.segments name
          switches := i.program.switches ++ [name] }
      current := name }
  | .label name _ =>
    let segments := withSegment i.program.segments i.current
    let address := (entriesOf segments i.current).length
    { i with
      program :=
        { i.program with
          segments := segments
          labels := i.program.labels.insert name ⟨address, i.current⟩ } }
  | .entry entry =>
    let segments := withSegment i.program.segments i.current
    let entries := entriesOf segments i.current ++ [entry]
    { i with program := { i.program with segments := segments.insert i.current ⟨entries⟩ } }

variable (i : Immediate) (name : String)

/-- A segment is there once it is opened. -/
theorem withSegment_eq (p : Program) :
    withSegment p.segments name = (p.openSegment name).segments := by
  have hopen : (p.openSegment name).segments =
      p.segments.insert name ((p.segments.get? name).getD ⟨[]⟩) :=
    rfl
  rw [hopen, withSegment]
  cases hget : p.segments.get? name with
  | none =>
    have hnew : name ∉ p.segments.keys := OrderedMap.lookup_eq_none_iff.mp hget
    rw [if_neg hnew]
    rfl
  | some s =>
    have hold : name ∈ p.segments.keys := List.mem_map_of_mem (OrderedMap.mem_of_get? hget)
    rw [if_pos hold]
    exact (OrderedMap.insert_of_get? hget).symm

theorem entriesOf_eq (p : Program) : entriesOf p.segments name = (p.segmentD name).entries := by
  rw [entriesOf, Program.segmentD]
  cases p.segments.get? name <;> rfl

theorem step_segment :
    i.step (.segment name) = ⟨(i.program.openSegment name).recordSwitch name, name⟩ := by
  rw [step, withSegment_eq]
  rfl

theorem step_label (position : Position) : i.step (.label name position) =
    ⟨(i.program.openSegment i.current).bind name i.current
      ((i.program.openSegment i.current).segmentLength i.current), i.current⟩ := by
  rw [step, withSegment_eq, entriesOf_eq]
  rfl

theorem step_entry (entry : Entry) :
    i.step (.entry entry) = ⟨i.program.append i.current entry, i.current⟩ := by
  have hinsert (s : Segment) : (i.program.openSegment i.current).segments.insert i.current s =
      i.program.segments.insert i.current s :=
    OrderedMap.insert_insert _ _ _ s
  simp only [step, withSegment_eq, entriesOf_eq, Program.segmentD_openSegment, hinsert]
  rfl

end Immediate

namespace Layout

theorem program_bindAll (l : Layout) (address : Nat) (names : List String) :
    (l.bindAll address names).program = l.program.bindNames l.current address names ∧
      (l.bindAll address names).current = l.current := by
  induction names generalizing l with
  | nil => exact ⟨rfl, rfl⟩
  | cons name names ih =>
    have hrest := ih ({ l with program := l.program.bind name l.current address }.note
      (.bound name l.current address))
    exact hrest

theorem program_flush_of_waiting {l : Layout} (h : l.waiting ≠ []) :
    l.flush.program = (l.program.openSegment l.current).bindNames l.current
      ((l.program.openSegment l.current).segmentLength l.current) l.waiting := by
  rw [flush, if_neg (by simpa using h)]
  exact (program_bindAll _ _ _).1

theorem flush_of_not_waiting {l : Layout} (h : l.waiting = []) : l.flush = l := by
  simp [flush, h]

@[simp] theorem current_flush (l : Layout) : l.flush.current = l.current := by
  unfold flush
  split
  · rfl
  · exact (program_bindAll _ _ _).2

@[simp] theorem waiting_flush (l : Layout) : l.flush.waiting = [] := by
  unfold flush
  split
  · next h => simpa using h
  · rfl

/-- The program and the segment of a layout when the labels that wait are bound. -/
def settled (l : Layout) : Immediate :=
  ⟨l.flush.program, l.current⟩

/-- A label that waits will be bound to the end that the current segment has now. -/
theorem program_flush_declare (l : Layout) (name : String) (position : Position) :
    (l.declare name position).flush.program =
      (l.settled.step (.label name position)).program := by
  have hdeclare : (l.declare name position).waiting ≠ [] := by simp [declare]
  rw [program_flush_of_waiting hdeclare]
  simp only [declare, Program.bindNames_snoc, Immediate.step_label, settled]
  -- If labels wait already, flushing has opened the segment and not changed its length.
  by_cases hwaiting : l.waiting = []
  · rw [flush_of_not_waiting hwaiting, hwaiting]
    rfl
  · rw [program_flush_of_waiting hwaiting, Program.openSegment_bindNames,
      Program.segmentLength_bindNames]

/-- One statement takes a settled layout where it takes the immediate state. -/
theorem settled_step {l next : Layout} {statement : Statement}
    (h : l.step statement = .ok next) : next.settled = l.settled.step statement := by
  cases statement with
  | segment name =>
    cases h
    have hwaiting : (l.switchTo name).waiting = [] := waiting_flush l
    rw [settled, flush_of_not_waiting hwaiting, Immediate.step_segment]
    rfl
  | label name position =>
    simp only [step] at h
    split at h
    · cases h
    · cases h
      rw [settled, program_flush_declare]
      rfl
  | entry entry =>
    cases h
    have hwaiting : (l.append entry).waiting = [] := waiting_flush l
    rw [settled, flush_of_not_waiting hwaiting]
    simp [append, settled, Immediate.step_entry, note]

end Layout

/-- The names of the labels that statements declare, in order. -/
def declaredNames : List Statement → List String
  | [] => []
  | .label name _ :: rest => name :: declaredNames rest
  | .segment _ :: rest => declaredNames rest
  | .entry _ :: rest => declaredNames rest

theorem declaredNames_append (before after : List Statement) :
    declaredNames (before ++ after) = declaredNames before ++ declaredNames after := by
  induction before with
  | nil => rfl
  | cons statement rest ih => cases statement <;> simp [declaredNames, ih]

namespace Layout

@[simp] theorem declared_bindAll (l : Layout) (address : Nat) (names : List String) :
    (l.bindAll address names).declared = l.declared := by
  induction names generalizing l with
  | nil => rfl
  | cons name names ih =>
    have hrest := ih ({ l with program := l.program.bind name l.current address }.note
      (.bound name l.current address))
    exact hrest

@[simp] theorem declared_flush (l : Layout) : l.flush.declared = l.declared := by
  unfold flush
  split
  · rfl
  · exact declared_bindAll _ _ _

/-- Statements that declare new names only are all taken, and settling the layout behind them
gives the immediate state. -/
theorem exists_foldlM_step (statements : List Statement) (l : Layout)
    (hnew : ∀ name ∈ declaredNames statements, l.declared.lookup name = none)
    (hnodup : (declaredNames statements).Nodup) :
    ∃ l', statements.foldlM step l = .ok l' ∧
      l'.settled = statements.foldl Immediate.step l.settled := by
  induction statements generalizing l with
  | nil => exact ⟨l, rfl, rfl⟩
  | cons statement rest ih =>
    -- The first statement is taken, and what the others declare is still new behind it.
    obtain ⟨next, hstep, hnext, hrest⟩ : ∃ next, l.step statement = .ok next ∧
        (∀ name ∈ declaredNames rest, next.declared.lookup name = none) ∧
        (declaredNames rest).Nodup := by
      cases statement with
      | segment name =>
        refine ⟨l.switchTo name, rfl, ?_, hnodup⟩
        simpa [switchTo, note, declaredNames] using hnew
      | entry entry =>
        refine ⟨l.append entry, rfl, ?_, hnodup⟩
        simpa [append, note, declaredNames] using hnew
      | label name position =>
        obtain ⟨hname, hrest⟩ := List.nodup_cons.mp hnodup
        refine ⟨l.declare name position, ?_, ?_, hrest⟩
        · simp only [step, hnew name List.mem_cons_self]
        · intro other hother
          have hne : (other == name) = false := by
            rw [beq_eq_false_iff_ne]
            rintro rfl
            exact hname hother
          rw [declare, List.lookup_cons, hne]
          exact hnew other (List.mem_cons_of_mem name hother)
    obtain ⟨l', hfold, hsettled⟩ := ih next hnext hrest
    refine ⟨l', ?_, ?_⟩
    · rw [List.foldlM_cons, hstep]
      exact hfold
    · rw [hsettled, settled_step hstep, List.foldl_cons]

end Layout

namespace Layout

/-- A run goes on behind statements that are all taken. -/
theorem run_append {statements : List Statement} {l l' : Layout}
    (h : statements.foldlM step l = .ok l') (rest : List Statement) :
    l.run (statements ++ rest) = l'.run rest := by
  induction statements generalizing l with
  | nil =>
    cases h
    rfl
  | cons statement statements ih =>
    rw [List.foldlM_cons] at h
    obtain ⟨next, hstep, h⟩ := exists_of_bind_eq_ok h
    rw [List.cons_append, run, hstep]
    exact ih h

theorem run_of_foldlM_step {statements : List Statement} {l l' : Layout}
    (h : statements.foldlM step l = .ok l') : l.run statements = (l'.flush, none) := by
  have hrun := run_append h []
  rwa [List.append_nil] at hrun

/-- A run that is not refused declares new names only, and each of them once. -/
theorem new_of_run {statements : List Statement} {l l' : Layout}
    (h : l.run statements = (l', none)) :
    (∀ name ∈ declaredNames statements, l.declared.lookup name = none) ∧
      (declaredNames statements).Nodup := by
  induction statements generalizing l with
  | nil => simp [declaredNames]
  | cons statement rest ih =>
    rw [run] at h
    split at h
    · next behind hstep =>
      obtain ⟨hnew, hnodup⟩ := ih h
      cases statement with
      | segment name =>
        cases hstep
        simp only [switchTo, note, declared_flush] at hnew
        exact ⟨hnew, hnodup⟩
      | entry entry =>
        cases hstep
        simp only [append, note, declared_flush] at hnew
        exact ⟨hnew, hnodup⟩
      | label name position =>
        simp only [step] at hstep
        split at hstep
        · cases hstep
        · next hname =>
          cases hstep
          have hrest (other : String) (hother : other ∈ declaredNames rest) :
              other ≠ name ∧ l.declared.lookup other = none := by
            have hlookup := hnew other hother
            rw [declare, List.lookup_cons] at hlookup
            split at hlookup
            · cases hlookup
            · next hne => exact ⟨by simpa using hne, hlookup⟩
          refine ⟨List.forall_mem_cons.mpr ⟨hname, fun other h => (hrest other h).2⟩, ?_⟩
          exact List.nodup_cons.mpr ⟨fun hmem => (hrest name hmem).1 rfl, hnodup⟩
    · cases h

end Layout

/-- Statements are accepted as long as no name is declared twice, and their program is the one
in which every label is bound where it is declared. -/
theorem resolve_eq_ok_iff {statements : List Statement} {p : Program} :
    resolve statements = .ok p ↔
      (declaredNames statements).Nodup ∧ p = (statements.foldl Immediate.step {}).program := by
  have haccepted (hnodup : (declaredNames statements).Nodup) :
      resolve statements = .ok (statements.foldl Immediate.step {}).program := by
    obtain ⟨l, hfold, hsettled⟩ := Layout.exists_foldlM_step statements {}
      (fun _ _ => rfl) hnodup
    rw [resolve, Layout.run_of_foldlM_step hfold]
    exact congrArg (fun i => Except.ok (Immediate.program i)) hsettled
  constructor
  · intro h
    have hnodup : (declaredNames statements).Nodup := by
      unfold resolve at h
      split at h
      · next hrun => exact (Layout.new_of_run hrun).2
      · cases h
    rw [haccepted hnodup] at h
    exact ⟨hnodup, (Except.ok.inj h).symm⟩
  · rintro ⟨hnodup, rfl⟩
    exact haccepted hnodup

/-- As long as no name is declared twice, the statements up to any place are all taken, and
the program in which the labels that still wait there are bound is the one in which every
label was bound where it is declared. -/
theorem finish_eq_immediate (statements before : List Statement)
    (hnodup : (declaredNames statements).Nodup) (hbefore : before <+: statements) :
    ∃ l, before.foldlM Layout.step {} = .ok l ∧
      l.finish = (before.foldl Immediate.step {}).program := by
  obtain ⟨after, rfl⟩ := hbefore
  rw [declaredNames_append] at hnodup
  obtain ⟨l, hfold, hsettled⟩ := Layout.exists_foldlM_step before {}
    (fun _ _ => rfl) (List.nodup_append.mp hnodup).1
  exact ⟨l, hfold, congrArg Immediate.program hsettled⟩

/-- Two labels wait on one place, a label waits up to a switch, and one waits at the end.  The entry
behind the first two leaves them where they are. -/
theorem finish_eq_immediate_of_stacked_labels :
    let nop : Entry := .instruction ⟨"nop", none⟩
    let statements : List Statement :=
      [.label "a" ⟨1, 1⟩, .label "b" ⟨1, 4⟩, .entry nop, .label "c" ⟨2, 1⟩, .segment ".data",
        .label "d" ⟨4, 1⟩, .segment ".text", .entry nop]
    let before : List Statement := statements.take 6
    (declaredNames statements).Nodup ∧ before <+: statements ∧
    ∃ l, before.foldlM Layout.step {} = .ok l ∧
      l.finish = (before.foldl Immediate.step {}).program ∧
      l.finish.segments.entries = [(".text", ⟨[nop]⟩), (".data", ⟨[]⟩)] ∧
      l.finish.labels.entries = [("a", ⟨0, ".text"⟩), ("b", ⟨0, ".text"⟩), ("c", ⟨1, ".text"⟩),
        ("d", ⟨0, ".data"⟩)] ∧
      l.finish.switches = [".data"] := by
  intro nop statements before
  have hnodup : (declaredNames statements).Nodup := by decide
  have hbefore : before <+: statements := List.take_prefix 6 statements
  obtain ⟨l, hfold, hfinish⟩ := finish_eq_immediate statements before hnodup hbefore
  refine ⟨hnodup, hbefore, l, hfold, hfinish, ?_⟩
  rw [hfinish]
  exact ⟨rfl, rfl, rfl⟩

end MipsAssembly
