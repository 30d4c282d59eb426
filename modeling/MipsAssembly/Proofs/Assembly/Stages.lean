import MipsAssembly.Assembly
import MipsAssembly.Proofs.Except

/-!
# The stages of reading

A source text makes a program through its tokens and its statements, and what any of the three
stages says is what is said of the source text.

## Main definitions

- `statementsOf_eq_ok_iff` — the statements of a source text are those of its tokens.
- `parse_eq_ok_iff` — the program of a source text is that of its statements.
- `parse_eq_error_cases` — which stage refuses a source text.
-/

namespace MipsAssembly

variable {source : String}

/-- The statements of a source text are those of its tokens. -/
theorem statementsOf_eq_ok_iff {statements : List Statement} :
    statementsOf source = .ok statements ↔
      ∃ tokens, lex source = .ok tokens ∧ parseStatements tokens = .ok statements := by
  unfold statementsOf
  cases lex source with
  | error e => simp
  | ok tokens =>
    constructor
    · exact fun h => ⟨tokens, rfl, eq_ok_of_mapError_eq_ok h⟩
    · rintro ⟨_, htokens, hparse⟩
      obtain rfl := Except.ok.inj htokens
      exact congrArg (Except.mapError Error.syntactic) hparse

/-- The program of a source text is that of its statements. -/
theorem parse_eq_ok_iff {p : Program} :
    parse source = .ok p ↔
      ∃ statements, statementsOf source = .ok statements ∧ resolve statements = .ok p := by
  unfold parse
  cases statementsOf source with
  | error e => simp
  | ok statements =>
    constructor
    · exact fun h => ⟨statements, rfl, eq_ok_of_mapError_eq_ok h⟩
    · rintro ⟨_, hstatements, hresolve⟩
      obtain rfl := Except.ok.inj hstatements
      exact congrArg (Except.mapError Error.duplicateLabel) hresolve

/-- Each stage may refuse a source text that the stages before it have accepted. -/
theorem parse_eq_error_cases {e : Error} (h : parse source = .error e) :
    (∃ e', lex source = .error e' ∧ e = .lexical e') ∨
    ∃ tokens, lex source = .ok tokens ∧
      ((∃ e', parseStatements tokens = .error e' ∧ e = .syntactic e') ∨
        ∃ statements e', parseStatements tokens = .ok statements ∧
          resolve statements = .error e' ∧ e = .duplicateLabel e') := by
  cases hlex : lex source with
  | error e' =>
    simp only [parse, statementsOf, hlex] at h
    exact .inl ⟨e', rfl, (Except.error.inj h).symm⟩
  | ok tokens =>
    refine .inr ⟨tokens, rfl, ?_⟩
    cases hparse : parseStatements tokens with
    | error e' =>
      simp only [parse, statementsOf, hlex, hparse] at h
      exact .inl ⟨e', rfl, (Except.error.inj h).symm⟩
    | ok statements =>
      simp only [parse, statementsOf, hlex, hparse] at h
      obtain ⟨e', hresolve, rfl⟩ := exists_of_mapError_eq_error h
      exact .inr ⟨statements, e', rfl, hresolve, rfl⟩

end MipsAssembly
