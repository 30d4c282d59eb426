import MipsAssembly.Proofs.Resolution.Declarations

/-!
# Refusals leave no trace

A label is refused if its name was declared before, and the error tells where it was declared
first.  Where statements go on behind a refusal, they go on as if the refused label were not among
them: its name keeps the place of its first declaration, be it bound to it already or still waiting
for it.

## Main definitions

- `Layout.behind` — the layout behind statements, where those that are refused are passed over.
- `refusalAt` — the error of one of them.
- `passing` — the statements that are left without those that are refused.
- `Layout.Agrees` — the names declared so far are those that are bound and those that wait.
- `refused_labels_change_nothing` — what is refused, and what is made of the rest.
-/

namespace MipsAssembly

/-- The layout behind statements, where those that are refused are passed over. -/
def Layout.behind (statements : List Statement) : Layout :=
  statements.foldl advance {}

/-- The error of the statement at a place, if it is refused.  Those before it that are refused are
passed over. -/
def refusalAt (statements : List Statement) (i : Nat) : Option DuplicateLabel :=
  statements[i]?.bind fun statement =>
    match (Layout.behind (statements.take i)).step statement with
    | .ok _ => none
    | .error e => some e

/-- The first statements, without those of them that are refused. -/
def passing (statements : List Statement) : Nat → List Statement
  | 0 => []
  | n + 1 =>
    match refusalAt statements n with
    | none => passing statements n ++ statements[n]?.toList
    | some _ => passing statements n

namespace Layout

variable {l next : Layout} {statement : Statement} {statements : List Statement}
  {name : String} {e : DuplicateLabel}

/-! ## One statement -/

/-- Only labels are refused, and these if they are declared already. -/
theorem step_eq_error_iff :
    l.step statement = .error e ↔
      statement = .label e.name e.position ∧ l.declared.lookup e.name = some e.first := by
  cases statement with
  | segment name => simp [step]
  | entry entry => simp [step]
  | label name position =>
    rw [step]
    constructor
    · intro h
      split at h
      · next first hfirst =>
        cases h
        exact ⟨rfl, hfirst⟩
      · cases h
    · rintro ⟨hstatement, hfirst⟩
      cases hstatement
      rw [hfirst]

/-- A label that was declared before is passed over. -/
theorem advance_label_of_declared {first : Position} (h : l.declared.lookup name = some first)
    (position : Position) : l.advance (.label name position) = l := by
  rw [advance, step, h]

theorem step_label_of_new (h : l.declared.lookup name = none) (position : Position) :
    l.step (.label name position) = .ok (l.declare name position) := by
  rw [step, h]

theorem advance_label_of_new (h : l.declared.lookup name = none) (position : Position) :
    l.advance (.label name position) = l.declare name position := by
  rw [advance, step_label_of_new h]

theorem lookup_declared_declare (l : Layout) (name other : String) (position : Position) :
    (l.declare name position).declared.lookup other =
      if other = name then some position else l.declared.lookup other := by
  rw [declare, OrderedMap.lookup_cons]

/-- A name that is declared keeps the place of its first declaration. -/
theorem lookup_declared_advance (l : Layout) (statement : Statement) (name : String) :
    (l.advance statement).declared.lookup name =
      (l.declared.lookup name).or ((declarations [statement]).lookup name) := by
  cases statement with
  | segment other => simp [advance, step, switchTo, note, declarations]
  | entry entry => simp [advance, step, append, note, declarations]
  | label other position =>
    have hdeclared : (declarations [.label other position]).lookup name =
        if name = other then some position else none :=
      OrderedMap.lookup_cons name other position []
    rw [hdeclared]
    cases hother : l.declared.lookup other with
    | none =>
      rw [advance_label_of_new hother, lookup_declared_declare]
      by_cases hname : name = other <;> simp [hname, hother]
    | some first =>
      rw [advance_label_of_declared hother]
      by_cases hname : name = other <;> simp [hname, hother]

/-! ## The names declared so far -/

/-- A layout knows the same names as declared as it has bound or lets wait. -/
def Agrees (l : Layout) : Prop :=
  ∀ name, l.declared.lookup name ≠ none ↔ name ∈ l.program.labels.keys ∨ name ∈ l.waiting

theorem mem_keys_bindNames (p : Program) (segment : String) (address : Nat)
    (names : List String) :
    name ∈ (p.bindNames segment address names).labels.keys ↔
      name ∈ p.labels.keys ∨ name ∈ names := by
  induction names generalizing p with
  | nil => simp [Program.bindNames]
  | cons first names ih =>
    have hrest := ih (p.bind first segment address)
    have hfirst : name ∈ (p.bind first segment address).labels.keys ↔
        name = first ∨ name ∈ p.labels.keys := OrderedMap.mem_keys_insert
    rw [hfirst] at hrest
    rw [List.mem_cons, ← or_assoc, or_comm (a := name ∈ p.labels.keys)]
    exact hrest

/-- The labels that wait are bound, and no others. -/
theorem mem_keys_flush (l : Layout) :
    name ∈ l.flush.program.labels.keys ↔ name ∈ l.program.labels.keys ∨ name ∈ l.waiting := by
  by_cases hwaiting : l.waiting = []
  · rw [flush_of_not_waiting hwaiting, hwaiting]
    simp
  · rw [program_flush_of_waiting hwaiting, mem_keys_bindNames]
    rfl

theorem Agrees.flush (h : l.Agrees) : l.flush.Agrees := by
  intro name
  rw [declared_flush, waiting_flush, mem_keys_flush, h name]
  simp

/-- One statement keeps the two in agreement, whether it is taken or refused. -/
theorem Agrees.advance (h : l.Agrees) (statement : Statement) : (l.advance statement).Agrees := by
  cases statement with
  | segment name => exact h.flush
  | entry entry => exact h.flush
  | label name position =>
    cases hname : l.declared.lookup name with
    | some first =>
      rw [advance_label_of_declared hname]
      exact h
    | none =>
      rw [advance_label_of_new hname]
      intro other
      rw [lookup_declared_declare]
      by_cases hother : other = name
      · simp [declare, hother]
      · simpa [declare, hother] using h other

/-! ## Statements -/

theorem lookup_declared_foldl (statements : List Statement) (l : Layout) (name : String) :
    (statements.foldl Layout.advance l).declared.lookup name =
      (l.declared.lookup name).or ((declarations statements).lookup name) := by
  induction statements generalizing l with
  | nil => simp [declarations]
  | cons statement rest ih =>
    have hsplit : declarations (statement :: rest) =
        declarations [statement] ++ declarations rest := declarations_append [statement] rest
    rw [List.foldl_cons, ih, lookup_declared_advance, hsplit, List.lookup_append, Option.or_assoc]

theorem lookup_declared_behind (statements : List Statement) (name : String) :
    (behind statements).declared.lookup name = (declarations statements).lookup name :=
  lookup_declared_foldl statements {} name

theorem agrees_behind (statements : List Statement) : (behind statements).Agrees := by
  have hfold (l : Layout) (h : l.Agrees) : (statements.foldl Layout.advance l).Agrees := by
    induction statements generalizing l with
    | nil => exact h
    | cons statement rest ih => exact ih (l.advance statement) (h.advance statement)
  apply hfold
  intro name
  simp [OrderedMap.keys, OrderedMap.empty]

end Layout

/-! ## Refusals -/

section

open Layout

variable {statements : List Statement} {i n : Nat} {e : DuplicateLabel}

theorem refusalAt_eq_some_iff :
    refusalAt statements i = some e ↔
      statements[i]? = some (.label e.name e.position) ∧
        (declarations (statements.take i)).lookup e.name = some e.first := by
  rw [refusalAt, ← lookup_declared_behind]
  cases hstatement : statements[i]? with
  | none => simp
  | some statement =>
    rw [Option.bind_some, Option.some.injEq, ← step_eq_error_iff]
    cases (behind (statements.take i)).step statement <;> simp

/-- The statements that are left without those that are refused are all taken, and lead where all
statements lead. -/
theorem foldlM_step_passing (statements : List Statement) (n : Nat) :
    (passing statements n).foldlM step {} = .ok (behind (statements.take n)) := by
  induction n with
  | zero => rfl
  | succ n ih =>
    rw [passing, refusalAt, List.take_add_one]
    cases statements[n]? with
    | none =>
      show (passing statements n ++ []).foldlM step {} = .ok (behind (statements.take n ++ []))
      rw [List.append_nil, List.append_nil, ih]
    | some statement =>
      have hbehind : behind (statements.take n ++ [statement]) =
          (behind (statements.take n)).advance statement := by
        rw [behind, List.foldl_append]
        rfl
      rw [Option.toList_some, Option.bind_some, hbehind, advance]
      cases hstep : (behind (statements.take n)).step statement with
      | ok next =>
        show (passing statements n ++ [statement]).foldlM step {} = .ok next
        rw [List.foldlM_append, ih]
        show ((behind (statements.take n)).step statement).bind _ = _
        rw [hstep]
        rfl
      | error e => exact ih

theorem passing_eq_take (h : ∀ i < n, refusalAt statements i = none) :
    passing statements n = statements.take n := by
  induction n with
  | zero => rfl
  | succ n ih =>
    rw [passing, h n (Nat.lt_succ_self n), List.take_add_one]
    exact congrArg (· ++ statements[n]?.toList) (ih fun i hi => h i (Nat.lt_succ_of_lt hi))

/-- The statements in front of the first refusal are all taken. -/
theorem foldlM_step_take (h : ∀ i < n, refusalAt statements i = none) :
    (statements.take n).foldlM step {} = .ok (behind (statements.take n)) := by
  rw [← foldlM_step_passing, passing_eq_take h]

end

/-- Refused labels change nothing.

A statement is refused if and only if it is a label whose name was declared before; the error
carries the name, the position of the label, and the position where the name was declared first.
The names declared before are those that are bound to a place and those that wait for one.

What is made of the first statements, however many, when those that are refused are passed over is
the program of the statements that are left without them.  Where nothing is passed over, the first
refusal decides, and without any the program is that same one. -/
theorem refused_labels_change_nothing (statements : List Statement) :
    (∀ i e, refusalAt statements i = some e ↔
      statements[i]? = some (.label e.name e.position) ∧
        (declarations (statements.take i)).lookup e.name = some e.first) ∧
    (∀ n name, name ∈ declaredNames (statements.take n) ↔
      name ∈ (Layout.behind (statements.take n)).program.labels.keys ∨
        name ∈ (Layout.behind (statements.take n)).waiting) ∧
    (∀ n, resolve (passing statements n) = .ok (Layout.behind (statements.take n)).finish) ∧
    (∀ i e, refusalAt statements i = some e → (∀ j < i, refusalAt statements j = none) →
      resolve statements = .error e) ∧
    ((∀ i, refusalAt statements i = none) →
      resolve statements = .ok (Layout.behind statements).finish) := by
  refine ⟨fun i e => refusalAt_eq_some_iff, ?_, ?_, ?_, ?_⟩
  · intro n name
    rw [← Layout.agrees_behind, Layout.lookup_declared_behind, Ne,
      OrderedMap.lookup_eq_none_iff, not_not, map_fst_declarations]
  · intro n
    rw [resolve, Layout.run_of_foldlM_step (foldlM_step_passing statements n)]
    rfl
  · intro i e hrefused hbefore
    have htaken := foldlM_step_take hbefore
    obtain ⟨hstatement, hfirst⟩ := refusalAt_eq_some_iff.mp hrefused
    obtain ⟨hlt, hget⟩ := List.getElem?_eq_some_iff.mp hstatement
    have hsplit : statements =
        statements.take i ++ .label e.name e.position :: statements.drop (i + 1) := by
      rw [← hget, List.getElem_cons_drop, List.take_append_drop]
    have hstep : (Layout.behind (statements.take i)).step (.label e.name e.position) =
        .error e := by
      rw [Layout.step_eq_error_iff, Layout.lookup_declared_behind]
      exact ⟨rfl, hfirst⟩
    rw [hsplit, resolve, Layout.run_append htaken, Layout.run, hstep]
  · intro hnone
    have htaken := foldlM_step_take (n := statements.length) fun i _ => hnone i
    rw [List.take_length] at htaken
    rw [resolve, Layout.run_of_foldlM_step htaken]
    rfl

/-- A label is declared again while it waits, and again in another segment when it is bound. -/
theorem refused_labels_change_nothing_of_waiting_label :
    let nop : Statement := .entry (.instruction ⟨"nop", none⟩)
    let statements : List Statement :=
      [.label "x" ⟨1, 1⟩, .label "x" ⟨2, 1⟩, nop, .segment ".data", .label "x" ⟨5, 1⟩, nop]
    refusalAt statements 1 = some ⟨"x", ⟨2, 1⟩, ⟨1, 1⟩⟩ ∧
    refusalAt statements 4 = some ⟨"x", ⟨5, 1⟩, ⟨1, 1⟩⟩ ∧
    resolve (passing statements 6) = .ok (Layout.behind (statements.take 6)).finish ∧
    resolve statements = .error ⟨"x", ⟨2, 1⟩, ⟨1, 1⟩⟩ := by
  intro nop statements
  obtain ⟨hrefused, -, hpassing, herror, -⟩ := refused_labels_change_nothing statements
  have hfirst : refusalAt statements 1 = some ⟨"x", ⟨2, 1⟩, ⟨1, 1⟩⟩ :=
    (hrefused 1 ⟨"x", ⟨2, 1⟩, ⟨1, 1⟩⟩).mpr ⟨rfl, by decide⟩
  have hsecond : refusalAt statements 4 = some ⟨"x", ⟨5, 1⟩, ⟨1, 1⟩⟩ :=
    (hrefused 4 ⟨"x", ⟨5, 1⟩, ⟨1, 1⟩⟩).mpr ⟨rfl, by decide⟩
  have hbefore : ∀ j < 1, refusalAt statements j = none := by
    intro j hj
    obtain rfl : j = 0 := by omega
    rfl
  exact ⟨hfirst, hsecond, hpassing 6, herror 1 _ hfirst hbefore⟩

end MipsAssembly
