import Mathlib.Data.List.Nodup
import MipsAssembly.Proofs.Resolution.Immediate
import MipsAssembly.Proofs.Statement.Relocation

/-!
# Labels that are refused

Statements are refused for the first label whose name was declared before, and the error names
both places.  So a refusal moves with the positions of the labels, and so does nothing else.

## Main definitions

- `declarations` — the labels that statements declare, and where.
- `resolve_eq_error_iff` — which statements are refused, and for which label.
- `resolve_mapPosition` — statements whose positions are changed.
-/

namespace MipsAssembly

/-- The labels that statements declare, and where, in order. -/
def declarations : List Statement → List (String × Position)
  | [] => []
  | .label name position :: rest => (name, position) :: declarations rest
  | .segment _ :: rest => declarations rest
  | .entry _ :: rest => declarations rest

theorem declarations_append (before after : List Statement) :
    declarations (before ++ after) = declarations before ++ declarations after := by
  induction before with
  | nil => rfl
  | cons statement rest ih => cases statement <;> simp [declarations, ih]

theorem map_fst_declarations (statements : List Statement) :
    (declarations statements).map Prod.fst = declaredNames statements := by
  induction statements with
  | nil => rfl
  | cons statement rest ih => cases statement <;> simp [declarations, declaredNames, ih]

/-- A declaration is a label among the statements. -/
theorem exists_of_mem_declarations {name : String} {position : Position}
    {statements : List Statement} (h : (name, position) ∈ declarations statements) :
    ∃ before after, statements = before ++ .label name position :: after := by
  have hlabel : .label name position ∈ statements := by
    induction statements with
    | nil => cases h
    | cons statement rest ih =>
      cases statement with
      | label other place =>
        rcases List.mem_cons.mp h with heq | hrest
        · cases heq
          exact List.mem_cons_self
        · exact List.mem_cons_of_mem _ (ih hrest)
      | segment | entry => exact List.mem_cons_of_mem _ (ih h)
  exact List.append_of_mem hlabel

theorem exists_declaration {name : String} {statements : List Statement}
    (h : name ∈ declaredNames statements) :
    ∃ position before after, statements = before ++ .label name position :: after := by
  rw [← map_fst_declarations] at h
  obtain ⟨⟨_, position⟩, hmem, rfl⟩ := List.mem_map.mp h
  exact ⟨position, exists_of_mem_declarations hmem⟩

namespace Layout

variable {l l' : Layout} {statements : List Statement}

/-- The labels declared so far, the last one first. -/
theorem declared_of_foldlM_step (h : statements.foldlM step l = .ok l') :
    l'.declared = (declarations statements).reverse ++ l.declared := by
  induction statements generalizing l with
  | nil =>
    cases h
    rfl
  | cons statement rest ih =>
    rw [List.foldlM_cons] at h
    obtain ⟨next, hstep, h⟩ := exists_of_bind_eq_ok h
    rw [ih h]
    cases statement with
    | segment name =>
      cases hstep
      simp [switchTo, note, declarations]
    | entry entry =>
      cases hstep
      simp [append, note, declarations]
    | label name position =>
      simp only [step] at hstep
      split at hstep
      · cases hstep
      · cases hstep
        simp [declare, declarations]

/-- What a run is refused for is a label behind statements that are all taken. -/
theorem exists_of_run_eq_error {e : DuplicateLabel} (h : (l.run statements).2 = some e) :
    ∃ before after taken, statements = before ++ .label e.name e.position :: after ∧
      before.foldlM step l = .ok taken ∧ taken.declared.lookup e.name = some e.first := by
  induction statements generalizing l with
  | nil => cases h
  | cons statement rest ih =>
    rw [run] at h
    cases hstep : l.step statement with
    | ok next =>
      rw [hstep] at h
      obtain ⟨before, after, taken, rfl, htaken, hlookup⟩ := ih h
      refine ⟨statement :: before, after, taken, rfl, ?_, hlookup⟩
      rw [List.foldlM_cons, hstep]
      exact htaken
    | error e' =>
      rw [hstep] at h
      obtain rfl := Option.some.inj h
      cases statement with
      | segment | entry => cases hstep
      | label name position =>
        simp only [step] at hstep
        split at hstep
        · next first hfirst =>
          cases hstep
          exact ⟨[], rest, l, rfl, rfl, hfirst⟩
        · cases hstep

end Layout

/-- Statements are refused for the first label whose name was declared before. -/
theorem resolve_eq_error_iff {statements : List Statement} {e : DuplicateLabel} :
    resolve statements = .error e ↔
      ∃ before between after,
        statements = before ++ .label e.name e.first :: between ++
          .label e.name e.position :: after ∧
        (declaredNames (before ++ .label e.name e.first :: between)).Nodup := by
  constructor
  · intro h
    have hrun : (Layout.run {} statements).2 = some e := by
      unfold resolve at h
      split at h
      · cases h
      · next hrun =>
        rw [hrun, Except.error.inj h]
    obtain ⟨taken, after, l, rfl, hfold, hlookup⟩ := Layout.exists_of_run_eq_error hrun
    have hnodup := (Layout.new_of_run (Layout.run_of_foldlM_step hfold)).2
    rw [Layout.declared_of_foldlM_step hfold, List.append_nil] at hlookup
    have hmem := List.mem_reverse.mp (OrderedMap.mem_of_lookup hlookup)
    obtain ⟨before, between, rfl⟩ := exists_of_mem_declarations hmem
    exact ⟨before, between, after, rfl, hnodup⟩
  · rintro ⟨before, between, after, rfl, hnodup⟩
    generalize htaken : before ++ .label e.name e.first :: between = taken at hnodup ⊢
    obtain ⟨l, hfold, -⟩ := Layout.exists_foldlM_step taken {} (fun _ _ => rfl) hnodup
    have hlookup : l.declared.lookup e.name = some e.first := by
      rw [Layout.declared_of_foldlM_step hfold, List.append_nil]
      refine OrderedMap.lookup_of_mem ?_ ?_
      · rw [List.map_reverse, List.nodup_reverse, map_fst_declarations]
        exact hnodup
      · rw [← htaken, declarations_append]
        simp [declarations]
    rw [resolve, Layout.run_append hfold, Layout.run, Layout.step, hlookup]

/-! ## Positions that are changed -/

def DuplicateLabel.mapPosition (f : Position → Position) (e : DuplicateLabel) : DuplicateLabel :=
  ⟨e.name, f e.position, f e.first⟩

theorem declaredNames_mapPosition (f : Position → Position) (statements : List Statement) :
    declaredNames (statements.map (Statement.mapPosition f)) = declaredNames statements := by
  induction statements with
  | nil => rfl
  | cons statement rest ih =>
    cases statement <;> simp [declaredNames, Statement.mapPosition, ih]

theorem Immediate.foldl_mapPosition (f : Position → Position) (statements : List Statement)
    (i : Immediate) :
    (statements.map (Statement.mapPosition f)).foldl step i = statements.foldl step i := by
  induction statements generalizing i with
  | nil => rfl
  | cons statement rest ih =>
    rw [List.map_cons, List.foldl_cons, List.foldl_cons, ih]
    cases statement <;> rfl

/-- Statements whose positions are changed make the same program, or a refusal whose positions
are changed. -/
theorem resolve_mapPosition (f : Position → Position) (statements : List Statement) :
    resolve (statements.map (Statement.mapPosition f)) =
      (resolve statements).mapError (DuplicateLabel.mapPosition f) := by
  cases h : resolve statements with
  | ok p =>
    obtain ⟨hnodup, rfl⟩ := resolve_eq_ok_iff.mp h
    refine resolve_eq_ok_iff.mpr ⟨?_, ?_⟩
    · rwa [declaredNames_mapPosition]
    · rw [Immediate.foldl_mapPosition]
  | error e =>
    obtain ⟨before, between, after, rfl, hnodup⟩ := resolve_eq_error_iff.mp h
    refine resolve_eq_error_iff.mpr ⟨before.map (Statement.mapPosition f),
      between.map (Statement.mapPosition f), after.map (Statement.mapPosition f), ?_, ?_⟩
    · simp [Statement.mapPosition, DuplicateLabel.mapPosition]
    · rw [← declaredNames_mapPosition f] at hnodup
      simpa [Statement.mapPosition, DuplicateLabel.mapPosition] using hnodup

end MipsAssembly
