import MipsAssembly.Proofs.Assembly.Stages
import MipsAssembly.Proofs.Resolution.Declarations
import MipsAssembly.Proofs.Resolution.Events

/-!
# The log tells what was done with the statements

Labels are bound late, but the log has one record for each statement, in the order of the
statements, and the places that it tells are those of the program.  If a label is refused, the log
ends with the last statement before it that is not a label: the labels behind that one are not
bound.

## Main definitions

- `Statement.recordText` — the text of the record of a statement.
- `traceTexts` — the texts that the log has for the statements of a source text.
- `traceTexts_eq` — these are the texts of the records that the events of statements make.
- `traceTexts_replay_statements` — what the log tells if a source text is accepted, and if a label
  is refused.
-/

namespace MipsAssembly

/-- The text of the record of a statement whose label or entry has the given place. -/
def Statement.recordText (place : Label) : Statement → String
  | segment name => "switch to segment " ++ name
  | label name _ =>
    "label " ++ name ++ " = " ++ (place.segment ++ "[" ++ toString place.address ++ "]")
  | entry _ => place.segment ++ "[" ++ toString place.address ++ "]" ++ " appended"

/-- The texts of the records of statements, one for each and in their order. -/
def recordTexts (statements : List Statement) : List String :=
  statements.mapIdx fun i statement => statement.recordText (placeAfter (statements.take i))

/-- The texts that the log of a source text has for its statements. -/
def traceTexts (source : String) : List String :=
  ((parseLog source).filter fun record => record.level = "TRACE").map LogRecord.text

theorem text_event (place : Label) (statement : Statement) :
    (statement.event place).text = statement.recordText place := by
  cases statement <;> rfl

theorem map_text_eventsOf (statements : List Statement) :
    (eventsOf statements).map LayoutEvent.text = recordTexts statements := by
  simp only [eventsOf, recordTexts, List.mapIdx_eq_zipIdx_map, List.map_map, Function.comp_def,
    text_event]

/-- Among the records of taking statements, those for the statements are the events. -/
theorem traces_resolutionLog (statements : List Statement) :
    ((resolutionLog statements).filter fun record => record.level = "TRACE").map LogRecord.text =
      (Layout.run {} statements).1.events.map LayoutEvent.text := by
  have hevents (events : List LayoutEvent) :
      ((events.map LogRecord.layout).filter fun record => record.level = "TRACE").map
        LogRecord.text = events.map LayoutEvent.text := by
    induction events with
    | nil => rfl
    | cons event events ih => exact congrArg (event.text :: ·) ih
  unfold resolutionLog
  split
  · next hrun => rw [hrun, hevents]
  · next l hrun =>
    -- The record of the whole program is for no statement.
    have hlast : ([LogRecord.resolved l.program.segments.size l.program.labels.size].filter
        fun record => record.level = "TRACE") = [] := rfl
    rw [hrun, List.filter_append, hlast, List.append_nil, hevents]

/-- The records for statements tell what happens while they are taken. -/
theorem traceTexts_eq {source : String} {statements : List Statement}
    (h : statementsOf source = .ok statements) :
    traceTexts source = (Layout.run {} statements).1.events.map LayoutEvent.text := by
  obtain ⟨tokens, hlex, hparse⟩ := statementsOf_eq_ok_iff.mp h
  rw [traceTexts, parseLog, hlex]
  simp only [hparse]
  exact traces_resolutionLog statements

/-- Statements that are accepted have a record each. -/
theorem events_run_of_resolve {statements : List Statement} {p : Program}
    (h : resolve statements = .ok p) :
    (Layout.run {} statements).1.events = eventsOf statements := by
  obtain ⟨l, hfold, -⟩ := Layout.exists_foldlM_step statements {} (fun _ _ => rfl)
    (resolve_eq_ok_iff.mp h).1
  rw [Layout.run_of_foldlM_step hfold]
  exact Layout.events_flush_of_foldlM_step hfold

/-- If a label is refused, the labels that wait there have no record. -/
theorem events_run_of_refused {before after : List Statement} {name : String}
    {position : Position} (hnodup : (declaredNames before).Nodup)
    (hname : name ∈ declaredNames before) :
    (Layout.run {} (before ++ .label name position :: after)).1.events =
      eventsOf (before.rdropWhile Statement.isLabel) := by
  obtain ⟨l, hfold, -⟩ := Layout.exists_foldlM_step before {} (fun _ _ => rfl) hnodup
  obtain ⟨first, hfirst⟩ : ∃ first, l.declared.lookup name = some first := by
    rw [← Option.ne_none_iff_exists', Ne, OrderedMap.lookup_eq_none_iff, not_not,
      Layout.declared_of_foldlM_step hfold, List.append_nil, List.map_reverse, List.mem_reverse,
      map_fst_declarations]
    exact hname
  rw [Layout.run_append hfold, Layout.run, Layout.step, hfirst]
  exact Layout.events_of_foldlM_step hfold

/-- The log replays the statements.

If a source text is accepted, the log has the record of each statement, in order; and the program
has what the statement adds at the place that the record tells.

If a label is refused because its name was declared before, the log has the records of the
statements before it, without those of the labels behind the last switch or entry among them; and
the places are those of the program of the statements before it. -/
theorem traceTexts_replay_statements (source : String) :
    (∀ p, parse source = .ok p → ∃ statements, statementsOf source = .ok statements ∧
      traceTexts source = recordTexts statements ∧
      ∀ i statement, statements[i]? = some statement →
        p.HasAt (placeAfter (statements.take i)) statement) ∧
    (∀ e, parse source = .error (.duplicateLabel e) → ∃ before after,
      statementsOf source = .ok (before ++ .label e.name e.position :: after) ∧
      (declaredNames before).Nodup ∧ (e.name, e.first) ∈ declarations before ∧
      traceTexts source = recordTexts (before.rdropWhile Statement.isLabel) ∧
      ∃ p, resolve before = .ok p ∧ ∀ i statement, before[i]? = some statement →
        p.HasAt (placeAfter (before.take i)) statement) := by
  constructor
  · intro p h
    obtain ⟨statements, hread, hresolve⟩ := parse_eq_ok_iff.mp h
    refine ⟨statements, hread, ?_, fun i statement hi => hasAt_of_resolve hresolve hi⟩
    rw [traceTexts_eq hread, events_run_of_resolve hresolve, map_text_eventsOf]
  · intro e h
    obtain ⟨statements, hread, hresolve⟩ : ∃ statements, statementsOf source = .ok statements ∧
        resolve statements = .error e := by
      rcases parse_eq_error_cases h with ⟨_, -, heq⟩ | ⟨tokens, hlex, ⟨_, -, heq⟩ |
        ⟨statements, e', hparse, hresolve, heq⟩⟩
      · cases heq
      · cases heq
      · cases heq
        exact ⟨statements, statementsOf_eq_ok_iff.mpr ⟨tokens, hlex, hparse⟩, hresolve⟩
    obtain ⟨front, between, after, rfl, hnodup⟩ := resolve_eq_error_iff.mp hresolve
    let before := front ++ .label e.name e.first :: between
    have hfirst : (e.name, e.first) ∈ declarations before := by
      rw [declarations_append]
      exact List.mem_append_right _ List.mem_cons_self
    have hname : e.name ∈ declaredNames before := by
      rw [← map_fst_declarations]
      exact List.mem_map_of_mem hfirst
    have haccepted := resolve_eq_ok_iff.mpr ⟨hnodup, rfl⟩
    refine ⟨before, after, hread, hnodup, hfirst, ?_, _, haccepted,
      fun i statement hi => hasAt_of_resolve haccepted hi⟩
    rw [traceTexts_eq hread, events_run_of_refused hnodup hname, map_text_eventsOf]

/-- A label that waits across a line end is logged in its place, and of two labels that wait when a
third one is refused there is no record. -/
theorem traceTexts_replay_statements_of_waiting_labels :
    let entry (name : String) : Statement := .entry (.instruction ⟨name, none⟩)
    let source := "a: .data\nb:\nc: nop"
    let statements : List Statement := [.label "a" ⟨1, 1⟩, .segment ".data", .label "b" ⟨2, 1⟩,
      .label "c" ⟨3, 1⟩, entry "nop"]
    let refused := "x: nop\ny: z:\nx: nop"
    let before : List Statement :=
      [.label "x" ⟨1, 1⟩, entry "nop", .label "y" ⟨2, 1⟩, .label "z" ⟨2, 4⟩]
    (∃ p, parse source = .ok p) ∧ statementsOf source = .ok statements ∧
    recordTexts statements = ["label a = .text[0]", "switch to segment .data",
      "label b = .data[0]", "label c = .data[0]", ".data[0] appended"] ∧
    traceTexts source = recordTexts statements ∧
    parse refused = .error (.duplicateLabel ⟨"x", ⟨3, 1⟩, ⟨1, 1⟩⟩) ∧
    recordTexts (before.rdropWhile Statement.isLabel) =
      ["label x = .text[0]", ".text[0] appended"] ∧
    traceTexts refused = recordTexts (before.rdropWhile Statement.isLabel) := by
  intro entry source statements refused before
  have hread : statementsOf source = .ok statements := by decide +kernel +zetaReduce
  have hread' : statementsOf refused =
      .ok (before ++ [.label "x" ⟨3, 1⟩, entry "nop"]) := by
    decide +kernel +zetaReduce
  have hresolve := resolve_eq_ok_iff.mpr ⟨(by decide : (declaredNames statements).Nodup), rfl⟩
  have hparse := parse_eq_ok_iff.mpr ⟨statements, hread, hresolve⟩
  have hrefused : parse refused = .error (.duplicateLabel ⟨"x", ⟨3, 1⟩, ⟨1, 1⟩⟩) := by
    rw [parse, hread']
    decide +kernel
  obtain ⟨again, hagain, htraces, -⟩ := (traceTexts_replay_statements source).1 _ hparse
  obtain ⟨front, after, hfront, -, -, htraces', -⟩ :=
    (traceTexts_replay_statements refused).2 _ hrefused
  obtain rfl : again = statements := Except.ok.inj (hagain.symm.trans hread)
  -- The refused label is the only one at its position.
  obtain rfl : front = before := by
    have hsplit := Except.ok.inj (hfront.symm.trans hread')
    rcases front with _ | ⟨_, _ | ⟨_, _ | ⟨_, _ | ⟨_, _ | ⟨_, _ | ⟨_, front⟩⟩⟩⟩⟩⟩ <;>
      simp_all [before, entry]
  exact ⟨⟨_, hparse⟩, hread, by decide +kernel, htraces, hrefused, by decide +kernel, htraces'⟩

end MipsAssembly
