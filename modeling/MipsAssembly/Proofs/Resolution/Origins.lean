import MipsAssembly.Proofs.Resolution.Interleaving

/-!
# Where the pieces of a program stem from

Nothing is in a program that no statement has put there: its entries are issued, its labels are
declared, and its segments are switched to, but for the one that is current at the start.

## Main definitions

- `Program.StemsFrom` — the pieces of a program are among some statements.
- `stemsFrom_of_resolve` — a program stems from the statements that it was made of.
-/

namespace MipsAssembly

/-- Every piece of a program is among the statements, but for the segment that is current at the
start. -/
structure Program.StemsFrom (p : Program) (statements : List Statement) : Prop where
  segments : ∀ name ∈ p.segments.keys, name = textSegment ∨ .segment name ∈ statements
  entries : ∀ name s, (name, s) ∈ p.segments.entries → ∀ entry ∈ s.entries,
    .entry entry ∈ statements
  labels : ∀ name ∈ p.labels.keys, ∃ position, .label name position ∈ statements
  switches : ∀ name ∈ p.switches, .segment name ∈ statements

/-- What is issued in a segment is so at the start or behind a switch to it. -/
theorem segment_mem_of_issuedIn_ne_nil {statements : List Statement} {name current : String}
    (h : issuedIn name current statements ≠ []) :
    name = current ∨ .segment name ∈ statements := by
  induction statements generalizing current with
  | nil => exact absurd rfl h
  | cons statement rest ih =>
    cases statement with
    | segment segment =>
      rcases ih h with rfl | hrest
      · exact .inr List.mem_cons_self
      · exact .inr (List.mem_cons_of_mem _ hrest)
    | label _ _ | entry _ =>
      by_cases hcurrent : current = name
      · exact .inl hcurrent.symm
      · rw [issuedIn, if_neg hcurrent] at h
        exact (ih h).imp_right (List.mem_cons_of_mem _)

theorem entry_mem_of_mem_entriesIn {statements : List Statement} {segment current : String}
    {entry : Entry} (h : entry ∈ entriesIn segment current statements) :
    .entry entry ∈ statements := by
  induction statements generalizing current with
  | nil => cases h
  | cons statement rest ih =>
    cases statement with
    | segment name => exact List.mem_cons_of_mem _ (ih h)
    | label name position => exact List.mem_cons_of_mem _ (ih h)
    | entry first =>
      rw [entriesIn] at h
      split at h
      · rcases List.mem_cons.mp h with rfl | hmem
        · exact List.mem_cons_self
        · exact List.mem_cons_of_mem _ (ih hmem)
      · exact List.mem_cons_of_mem _ (ih h)

namespace Immediate

variable {i : Immediate} {statements : List Statement} {name : String}

/-- One statement records the switch that it is, if it is one. -/
theorem mem_switches_step {statement : Statement}
    (h : name ∈ (i.step statement).program.switches) :
    name ∈ i.program.switches ∨ statement = .segment name := by
  cases statement with
  | segment segment =>
    rcases List.mem_append.mp h with hbefore | hlast
    · exact .inl hbefore
    · obtain rfl := List.mem_singleton.mp hlast
      exact .inr rfl
  | label _ _ | entry _ => exact .inl h

theorem mem_switches_foldl (h : name ∈ (statements.foldl step i).program.switches) :
    name ∈ i.program.switches ∨ .segment name ∈ statements := by
  induction statements generalizing i with
  | nil => exact .inl h
  | cons statement rest ih =>
    rcases ih h with hfirst | hrest
    · rcases mem_switches_step hfirst with hbefore | rfl
      · exact .inl hbefore
      · exact .inr List.mem_cons_self
    · exact .inr (List.mem_cons_of_mem _ hrest)

/-- The entries of a segment are issued in it. -/
theorem entries_eq_entriesIn {s : Segment}
    (h : (name, s) ∈ (statements.foldl step {}).program.segments.entries) :
    s.entries = entriesIn name textSegment statements := by
  have hs : (statements.foldl step {}).program.segmentD name = s := by
    rw [Program.segmentD, OrderedMap.get?_of_mem h]
    rfl
  rw [← hs, entries_foldl]
  rfl

end Immediate

/-- A program stems from the statements that it was made of. -/
theorem stemsFrom_of_resolve {statements : List Statement} {p : Program}
    (h : resolve statements = .ok p) : p.StemsFrom statements := by
  obtain ⟨hnodup, rfl⟩ := resolve_eq_ok_iff.mp h
  refine ⟨?_, ?_, ?_, ?_⟩
  · intro name hname
    rcases Immediate.mem_keys_iff_creates.mp hname with hswitched | hissued
    · exact .inr hswitched
    · exact segment_mem_of_issuedIn_ne_nil hissued
  · intro name s hs entry hentry
    rw [Immediate.entries_eq_entriesIn hs] at hentry
    exact entry_mem_of_mem_entriesIn hentry
  · intro name hname
    have hkeys : (statements.foldl Immediate.step {}).program.labels.keys =
        declaredNames statements := Immediate.keys_foldl (i := {}) hnodup
    rw [hkeys] at hname
    obtain ⟨position, before, after, rfl⟩ := exists_declaration hname
    exact ⟨position, List.mem_append_right before List.mem_cons_self⟩
  · intro name hname
    exact (Immediate.mem_switches_foldl hname).resolve_left List.not_mem_nil

end MipsAssembly
