import MipsAssembly.Proofs.Resolution.Labels

/-!
# Programs that only grow

Every way to build on a program leaves what is there at its place: a new segment, entry or switch
comes behind the others, and so does a label whose name is new.  So the program of statements
begins with the program of the first ones among them.

## Main definitions

- `Program.Extends` — a program begins with another one.
- `Program.extends_openSegment`, `Program.extends_append`, `Program.extends_bind`,
  `Program.extends_recordSwitch` — what each way to build on a program adds.
- `Immediate.extends_foldl` — what statements add.
- `exists_resolve_extends` — the program of the first statements.
-/

namespace MipsAssembly

/-- A program begins with another one: everything of the other one is at the same place, and what
is new comes behind it. -/
structure Program.Extends (q p : Program) : Prop where
  segments : p.segments.keys <+: q.segments.keys
  entries : ∀ name s, p.segment? name = some s →
    ∃ t, q.segment? name = some t ∧ s.entries <+: t.entries
  labels : p.labels.entries <+: q.labels.entries
  switches : p.switches <+: q.switches

namespace Program

variable {p q r : Program} {name : String}

theorem Extends.refl (p : Program) : p.Extends p where
  segments := List.prefix_refl _
  entries := fun _ s hs => ⟨s, hs, List.prefix_refl _⟩
  labels := List.prefix_refl _
  switches := List.prefix_refl _

theorem Extends.trans (h : r.Extends q) (h' : q.Extends p) : r.Extends p where
  segments := h'.segments.trans h.segments
  entries := by
    intro name s hs
    obtain ⟨t, ht, hst⟩ := h'.entries name s hs
    obtain ⟨u, hu, htu⟩ := h.entries name t ht
    exact ⟨u, hu, hst.trans htu⟩
  labels := h'.labels.trans h.labels
  switches := h'.switches.trans h.switches

/-- A label stays what it is. -/
theorem Extends.label? (h : q.Extends p) {label : Label} (hlabel : p.label? name = some label) :
    q.label? name = some label :=
  OrderedMap.get?_of_mem (h.labels.mem (OrderedMap.mem_of_get? hlabel))

/-! ## Building -/

/-- A segment may be replaced by one that begins with its entries. -/
theorem extends_insert {t : Segment} (h : (p.segmentD name).entries <+: t.entries) :
    Extends { p with segments := p.segments.insert name t } p where
  segments := by
    rw [OrderedMap.keys_insert]
    split
    · exact List.prefix_refl _
    · exact List.prefix_append _ _
  entries := by
    intro other s hs
    by_cases hname : other = name
    · subst hname
      have hd : p.segmentD other = s := congrArg (fun found => found.getD ({} : Segment)) hs
      rw [hd] at h
      exact ⟨t, by simp [segment?], h⟩
    · exact ⟨s, by simpa [segment?, hname] using hs, List.prefix_refl _⟩
  labels := List.prefix_refl _
  switches := List.prefix_refl _

theorem extends_openSegment (p : Program) (name : String) : (p.openSegment name).Extends p :=
  extends_insert (List.prefix_refl _)

theorem extends_append (p : Program) (name : String) (entry : Entry) :
    (p.append name entry).Extends p :=
  extends_insert (List.prefix_append _ _)

/-- A label whose name is new comes behind the others. -/
theorem extends_bind (h : name ∉ p.labels.keys) (segment : String) (address : Nat) :
    (p.bind name segment address).Extends p where
  segments := List.prefix_refl _
  entries := fun _ s hs => ⟨s, hs, List.prefix_refl _⟩
  labels := by
    show p.labels.entries <+: OrderedMap.put name ⟨address, segment⟩ p.labels.entries
    rw [OrderedMap.put_of_not_mem h]
    exact List.prefix_append _ _
  switches := List.prefix_refl _

theorem extends_recordSwitch (p : Program) (name : String) : (p.recordSwitch name).Extends p where
  segments := List.prefix_refl _
  entries := fun _ s hs => ⟨s, hs, List.prefix_refl _⟩
  labels := List.prefix_refl _
  switches := List.prefix_append _ _

end Program

/-! ## Statements -/

namespace Immediate

variable {i : Immediate} {statement : Statement} {statements : List Statement}

/-- A statement that declares no label a second time leaves everything at its place. -/
theorem extends_step (h : ∀ name ∈ declaredNames [statement], name ∉ i.program.labels.keys) :
    (i.step statement).program.Extends i.program := by
  cases statement with
  | segment name =>
    rw [step_segment]
    exact (Program.extends_recordSwitch _ name).trans (Program.extends_openSegment _ name)
  | label name position =>
    have hnew : name ∉ (i.program.openSegment i.current).labels.keys := h name List.mem_cons_self
    rw [step_label]
    exact (Program.extends_bind hnew _ _).trans (Program.extends_openSegment _ i.current)
  | entry entry =>
    rw [step_entry]
    exact Program.extends_append _ i.current entry

/-- Statements that declare new labels only, and each of them once, leave everything at its
place. -/
theorem extends_foldl (hnodup : (i.program.labels.keys ++ declaredNames statements).Nodup) :
    (statements.foldl step i).program.Extends i.program := by
  induction statements generalizing i with
  | nil => exact .refl i.program
  | cons statement rest ih =>
    have hsplit : declaredNames (statement :: rest) =
        declaredNames [statement] ++ declaredNames rest := declaredNames_append [statement] rest
    rw [hsplit, ← List.append_assoc] at hnodup
    have hfirst := (List.nodup_append.mp hnodup).1
    -- The labels behind the first statement are those before it and the one that it declares.
    have hkeys : (i.step statement).program.labels.keys =
        i.program.labels.keys ++ declaredNames [statement] := keys_foldl hfirst
    rw [← hkeys] at hnodup
    have hnew : ∀ name ∈ declaredNames [statement], name ∉ i.program.labels.keys :=
      fun name hname hold => (List.nodup_append.mp hfirst).2.2 name hold name hname rfl
    exact (ih hnodup).trans (extends_step hnew)

end Immediate

/-- The program of statements begins with that of the first ones among them. -/
theorem exists_resolve_extends {before after : List Statement} {q : Program}
    (h : resolve (before ++ after) = .ok q) : ∃ p, resolve before = .ok p ∧ q.Extends p := by
  obtain ⟨hnodup, rfl⟩ := resolve_eq_ok_iff.mp h
  rw [declaredNames_append] at hnodup
  have hbefore : (declaredNames before).Nodup := (List.nodup_append.mp hnodup).1
  have hkeys : (before.foldl Immediate.step {}).program.labels.keys = declaredNames before :=
    Immediate.keys_foldl (i := {}) hbefore
  refine ⟨_, resolve_eq_ok_iff.mpr ⟨hbefore, rfl⟩, ?_⟩
  rw [List.foldl_append]
  apply Immediate.extends_foldl
  rwa [hkeys]

end MipsAssembly
