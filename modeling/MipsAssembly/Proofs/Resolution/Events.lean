import Mathlib.Data.List.DropRight
import MipsAssembly.Proofs.Resolution.Growth

/-!
# What happens while statements are taken

One event belongs to each statement.  That of a label is noted only when the label is bound, but
it tells the place that the label saw where it was declared, and nothing else is noted before it.
So the events come in the order of the statements, and those that are still to come are those of
the labels that wait.

## Main definitions

- `placeAfter` — where the next entry goes, and what a label here stands for.
- `eventsOf` — the events of statements.
- `Layout.events_flush_of_foldlM_step` — the events behind statements, with the labels bound.
- `Layout.events_of_foldlM_step` — the events behind statements, while labels wait.
- `Program.HasAt` — a program has what a statement adds at a place.
- `hasAt_of_resolve` — everything is at the place that its event tells.
-/

namespace MipsAssembly

/-- The place of the next entry behind statements, which is what a label here stands for. -/
def placeAfter (before : List Statement) : Label :=
  let segment := currentAfter textSegment before
  ⟨(entriesIn segment textSegment before).length, segment⟩

namespace Statement

def isLabel : Statement → Bool
  | label _ _ => true
  | segment _ | entry _ => false

/-- The event of a statement whose label or entry has the given place. -/
def event (place : Label) : Statement → LayoutEvent
  | segment name => .switched name
  | label name _ => .bound name place.segment place.address
  | entry _ => .appended place.segment place.address

end Statement

/-- The events of statements, one for each and in their order. -/
def eventsOf (statements : List Statement) : List LayoutEvent :=
  statements.mapIdx fun i statement => statement.event (placeAfter (statements.take i))

theorem eventsOf_concat (statements : List Statement) (statement : Statement) :
    eventsOf (statements ++ [statement]) =
      eventsOf statements ++ [statement.event (placeAfter statements)] := by
  have hfront : (statements.mapIdx fun i s =>
      s.event (placeAfter ((statements ++ [statement]).take i))) = eventsOf statements := by
    refine List.mapIdx_eq_mapIdx_iff.mpr fun i hi => ?_
    rw [List.take_append_of_le_length hi.le]
  rw [eventsOf, List.mapIdx_concat, hfront, List.take_left]

namespace Layout

variable {l next : Layout} {statement : Statement} {statements : List Statement}

/-! ## One statement -/

theorem events_bindAll (l : Layout) (address : Nat) (names : List String) :
    (l.bindAll address names).events =
      l.events ++ names.map (LayoutEvent.bound · l.current address) := by
  induction names generalizing l with
  | nil => simp [bindAll]
  | cons name names ih =>
    have hrest := ih ({ l with program := l.program.bind name l.current address }.note
      (.bound name l.current address))
    rw [List.map_cons, List.append_cons]
    exact hrest

/-- Where the next entry goes, if the labels that wait are bound first or not. -/
theorem segmentLength_flush (l : Layout) :
    l.flush.program.segmentLength l.current =
      (l.program.openSegment l.current).segmentLength l.current := by
  by_cases hwaiting : l.waiting = []
  · rw [flush_of_not_waiting hwaiting]
    exact congrArg Segment.length (Program.segmentD_openSegment _ _ _).symm
  · rw [program_flush_of_waiting hwaiting, Program.segmentLength_bindNames]

/-- The labels that wait are bound to the end of the current segment. -/
theorem events_flush (l : Layout) :
    l.flush.events = l.events ++
      l.waiting.map (LayoutEvent.bound · l.current (l.flush.program.segmentLength l.current)) := by
  rw [segmentLength_flush]
  unfold flush
  split
  · next h => simp [List.isEmpty_iff.mp h]
  · exact events_bindAll _ _ _

/-- What a layout is going to note of a statement when no label waits any more. -/
theorem events_flush_step (h : l.step statement = .ok next) :
    next.flush.events = l.flush.events ++
      [statement.event ⟨l.flush.program.segmentLength l.current, l.current⟩] := by
  cases statement with
  | segment name =>
    cases h
    have hwaiting : (l.switchTo name).waiting = [] := waiting_flush l
    rw [flush_of_not_waiting hwaiting]
    rfl
  | entry entry =>
    cases h
    have hwaiting : (l.append entry).waiting = [] := waiting_flush l
    rw [flush_of_not_waiting hwaiting, ← current_flush l]
    rfl
  | label name position =>
    simp only [step] at h
    split at h
    · cases h
    · cases h
      -- One more label waits for the place that the others wait for.
      have hlength : (l.declare name position).flush.program.segmentLength l.current =
          l.flush.program.segmentLength l.current :=
        (segmentLength_flush (l.declare name position)).trans (segmentLength_flush l).symm
      have hdeclare := events_flush (l.declare name position)
      rw [show (l.declare name position).current = l.current from rfl, hlength] at hdeclare
      rw [hdeclare, events_flush l]
      simp [declare, Statement.event]

/-- Only labels are taken without an event. -/
theorem events_step (h : l.step statement = .ok next) :
    next.events = if statement.isLabel then l.events else next.flush.events := by
  cases statement with
  | segment name =>
    cases h
    have hwaiting : (l.switchTo name).waiting = [] := waiting_flush l
    rw [flush_of_not_waiting hwaiting]
    rfl
  | entry entry =>
    cases h
    have hwaiting : (l.append entry).waiting = [] := waiting_flush l
    rw [flush_of_not_waiting hwaiting]
    rfl
  | label name position =>
    simp only [step] at h
    split at h
    · cases h
    · cases h
      rfl

/-! ## Statements that are all taken -/

theorem settled_of_foldlM_step (h : statements.foldlM step {} = .ok l) :
    l.settled = statements.foldl Immediate.step {} := by
  obtain ⟨l', hfold, hsettled⟩ := exists_foldlM_step statements {} (fun _ _ => rfl)
    (new_of_run (run_of_foldlM_step h)).2
  rw [h] at hfold
  rw [Except.ok.inj hfold, hsettled]
  rfl

theorem placeAfter_of_foldlM_step (h : statements.foldlM step {} = .ok l) :
    placeAfter statements = ⟨l.flush.program.segmentLength l.current, l.current⟩ := by
  have hsettled := settled_of_foldlM_step h
  have hcurrent : l.current = currentAfter textSegment statements :=
    (congrArg Immediate.current hsettled).trans Immediate.current_foldl
  have hentries : ((statements.foldl Immediate.step {}).program.segmentD l.current).entries = _ :=
    Immediate.entries_foldl l.current
  rw [← hsettled] at hentries
  rw [placeAfter, ← hcurrent]
  exact congrArg (Label.mk · l.current) (congrArg List.length hentries).symm

theorem exists_of_foldlM_step_concat (h : (statements ++ [statement]).foldlM step {} = .ok l) :
    ∃ before, statements.foldlM step {} = .ok before ∧ before.step statement = .ok l := by
  rw [List.foldlM_append] at h
  obtain ⟨before, hbefore, h⟩ := exists_of_bind_eq_ok h
  rw [List.foldlM_cons] at h
  obtain ⟨last, hstep, h⟩ := exists_of_bind_eq_ok h
  cases h
  exact ⟨before, hbefore, hstep⟩

/-- The events behind statements when the labels that wait are bound. -/
theorem events_flush_of_foldlM_step (h : statements.foldlM step {} = .ok l) :
    l.flush.events = eventsOf statements := by
  induction statements using List.reverseRecOn generalizing l with
  | nil =>
    cases h
    rfl
  | append_singleton statements statement ih =>
    obtain ⟨before, hbefore, hstep⟩ := exists_of_foldlM_step_concat h
    rw [events_flush_step hstep, ih hbefore, eventsOf_concat, placeAfter_of_foldlM_step hbefore]

/-- The events behind statements while labels wait: those of the labels at the end are still to
come. -/
theorem events_of_foldlM_step (h : statements.foldlM step {} = .ok l) :
    l.events = eventsOf (statements.rdropWhile Statement.isLabel) := by
  induction statements using List.reverseRecOn generalizing l with
  | nil =>
    cases h
    rfl
  | append_singleton statements statement ih =>
    obtain ⟨before, hbefore, hstep⟩ := exists_of_foldlM_step_concat h
    rw [events_step hstep, List.rdropWhile_concat]
    split
    · exact ih hbefore
    · exact events_flush_of_foldlM_step h

end Layout

/-! ## The places in the program -/

/-- A program has at a place what a statement adds: the entry there, or the label for it. -/
def Program.HasAt (p : Program) (place : Label) : Statement → Prop
  | .segment name => name ∈ p.segments.keys
  | .label name _ => p.label? name = some place
  | .entry entry => (p.segment? place.segment).bind (·.get? place.address) = some entry

/-- What a program has at a place stays there. -/
theorem Program.HasAt.of_extends {p q : Program} {place : Label} {statement : Statement}
    (h : p.HasAt place statement) (hextends : q.Extends p) : q.HasAt place statement := by
  cases statement with
  | segment name => exact hextends.segments.mem h
  | label name position => exact hextends.label? h
  | entry entry =>
    obtain ⟨s, hs, hget⟩ := Option.bind_eq_some_iff.mp h
    obtain ⟨t, ht, hprefix⟩ := hextends.entries place.segment s hs
    obtain ⟨hlt, hentry⟩ := List.getElem?_eq_some_iff.mp hget
    have hstays := List.prefix_iff_getElem?.mp hprefix place.address hlt
    rw [hentry] at hstays
    exact Option.bind_eq_some_iff.mpr ⟨t, ht, hstays⟩

/-- Right behind a statement, what it adds is at the place that was the next one in front. -/
theorem Immediate.hasAt_step (before : List Statement) (statement : Statement) :
    ((before.foldl step {}).step statement).program.HasAt (placeAfter before) statement := by
  let here : Immediate := before.foldl step {}
  have hcurrent : here.current = currentAfter textSegment before := current_foldl
  have hentries (name : String) : (here.program.segmentD name).entries =
      entriesIn name textSegment before := entries_foldl name
  cases statement with
  | segment name =>
    rw [step_segment]
    exact (Program.mem_keys_openSegment _ _ _).mpr (.inl rfl)
  | label name position =>
    have hlength : (here.program.segmentD here.current).length =
        (entriesIn here.current textSegment before).length :=
      congrArg List.length (hentries here.current)
    show (here.step (.label name position)).program.label? name = _
    rw [Program.label?, labels_step_label, OrderedMap.get?_insert, if_pos rfl, hlength, hcurrent]
    rfl
  | entry entry =>
    have hopen : here.current ∈ (here.step (.entry entry)).program.segments.keys :=
      OrderedMap.mem_keys_insert.mpr (.inl rfl)
    show ((here.step (.entry entry)).program.segment? _).bind _ = _
    rw [placeAfter, ← hcurrent, Program.segment?_eq_some _ _ hopen, Option.bind_some, Segment.get?,
      entries_step, hentries]
    simp [entriesIn]

/-- Everything that statements add is at the place that its event tells. -/
theorem hasAt_of_resolve {statements : List Statement} {p : Program}
    (h : resolve statements = .ok p) {i : Nat} {statement : Statement}
    (hi : statements[i]? = some statement) :
    p.HasAt (placeAfter (statements.take i)) statement := by
  have hsplit : statements =
      (statements.take i ++ [statement]) ++ statements.drop (i + 1) := by
    obtain ⟨hlt, hget⟩ := List.getElem?_eq_some_iff.mp hi
    rw [← hget, List.append_assoc, List.singleton_append, List.getElem_cons_drop,
      List.take_append_drop]
  rw [hsplit] at h
  obtain ⟨q, hq, hextends⟩ := exists_resolve_extends h
  have hhas := Immediate.hasAt_step (statements.take i) statement
  rw [(resolve_eq_ok_iff.mp hq).2, List.foldl_append] at hextends
  exact hhas.of_extends hextends

end MipsAssembly
