import MipsAssembly.Assembly
import MipsAssembly.Proofs.Statement.Counter
import MipsAssembly.Proofs.Statement.Relocation
import MipsAssembly.Proofs.Text.Lines
import MipsAssembly.Proofs.Token.Cut

/-!
# Source texts line by line

A line end completes a line, and nothing is remembered behind it: not the groups that were
open, not the last token, not a statement that was begun.  So a source text whose last line is
ended can be read on its own, and what follows it as a text that starts further down.

## Main definitions

- `EndsLine` — tokens behind which a line starts.
- `EndsLine.parseStatements_append` — the statements of two rows of tokens behind each other.
- `statementsOf_append_and_lines` — the statements of two texts behind each other, and those of
  a text by its lines.
-/

namespace MipsAssembly

/-! ## Tokens -/

theorem lexLines_append (row : Nat) (front behind : List (List Char)) :
    lexLines row (front ++ behind) = (lexLines row front).bind fun tokens =>
      (lexLines (row + front.length) behind).map (tokens ++ ·) := by
  induction front generalizing row with
  | nil =>
    exact (map_nil_append _).symm
  | cons line front ih =>
    have hrow : row + (line :: front).length = row + 1 + front.length :=
      Nat.add_right_comm row front.length 1
    rw [List.cons_append, lexLines, lexLines, hrow, ih]
    cases lexLine row line with
    | error e => rfl
    | ok tokens =>
      show ((lexLines (row + 1) front).bind _).map (tokens ++ ·) =
        ((lexLines (row + 1) front).map (tokens ++ ·)).bind _
      cases lexLines (row + 1) front with
      | error e => rfl
      | ok more => exact map_append_append tokens more _

/-- Behind these tokens a line starts. -/
def EndsLine (tokens : List Token) : Prop :=
  tokens = [] ∨ ∃ front stop, tokens = front ++ [⟨.lineEnd, stop⟩]

theorem EndsLine.append {front behind : List Token} (h : EndsLine front) (h' : EndsLine behind) :
    EndsLine (front ++ behind) := by
  rcases h' with rfl | ⟨tokens, stop, rfl⟩
  · rwa [List.append_nil]
  · exact .inr ⟨front ++ tokens, stop, (List.append_assoc _ _ _).symm⟩

theorem endsLine_of_lexLine {row : Nat} {line : List Char} {tokens : List Token}
    (h : lexLine row line = .ok tokens) : EndsLine tokens := by
  obtain ⟨cut, -, rfl⟩ := lexLine_eq_ok_iff.mp h
  exact .inr ⟨_, _, rfl⟩

theorem endsLine_of_lexLines {row : Nat} {lines : List (List Char)} {tokens : List Token}
    (h : lexLines row lines = .ok tokens) : EndsLine tokens := by
  induction lines generalizing row tokens with
  | nil =>
    cases h
    exact .inl rfl
  | cons line lines ih =>
    rw [lexLines] at h
    split at h
    · cases h
    · next front hline =>
      obtain ⟨behind, hlines, rfl⟩ := exists_of_map_eq_ok h
      exact (endsLine_of_lexLine hline).append (ih hlines)

/-! ## Statements -/

namespace Phase

variable {limit : Option Nat}

/-- Behind a line end reading starts anew. -/
theorem run_append_lineEnd (p : Phase) (last stop : Position) (front rest : List Token) :
    p.run limit last (front ++ ⟨.lineEnd, stop⟩ :: rest) =
      (p.run limit last (front ++ [⟨.lineEnd, stop⟩])).bind fun statements =>
        (lineStart.run limit stop rest).map (statements ++ ·) := by
  induction front generalizing p last with
  | nil =>
    simp only [List.nil_append, run, next, if_true]
    cases p.finish? with
    | none => rfl
    | some statements =>
      show _ = (lineStart.run limit stop rest).map (statements ++ [] ++ ·)
      rw [List.append_nil]
  | cons token front ih =>
    rw [List.cons_append, List.cons_append, run, run]
    cases p.next limit token with
    | error e => rfl
    | ok effect =>
      obtain ⟨q, done⟩ := effect
      simp only [ih]
      cases q.run limit token.position (front ++ [⟨.lineEnd, stop⟩]) with
      | error e => rfl
      | ok statements => exact map_append_append done statements _

/-- At the start of a line the last token does not matter: the input may end there. -/
theorem run_lineStart (last last' : Position) (tokens : List Token) :
    lineStart.run limit last tokens = lineStart.run limit last' tokens := by
  cases tokens <;> rfl

end Phase

/-- Tokens that end a line and those behind them are read apart. -/
theorem EndsLine.parseStatements_append {front : List Token} (h : EndsLine front)
    (rest : List Token) :
    parseStatements (front ++ rest) = (parseStatements front).bind fun statements =>
      (parseStatements rest).map (statements ++ ·) := by
  rcases h with rfl | ⟨tokens, stop, rfl⟩
  · exact (map_nil_append _).symm
  · simp only [parseStatements_eq_run]
    rw [List.append_assoc, List.singleton_append, Phase.run_append_lineEnd,
      Phase.run_lineStart stop {}]

/-- Rows of tokens that each end a line are read one by one, and the first one that is refused
decides. -/
theorem parseStatements_flatten {rows : List (List Token)} (h : ∀ row ∈ rows, EndsLine row) :
    parseStatements rows.flatten = (rows.mapM parseStatements).map List.flatten := by
  induction rows with
  | nil => rfl
  | cons row rows ih =>
    obtain ⟨hrow, hrows⟩ := List.forall_mem_cons.mp h
    rw [List.flatten_cons, hrow.parseStatements_append, ih hrows, List.mapM_cons]
    cases parseStatements row with
    | error e => rfl
    | ok statements =>
      generalize rows.mapM parseStatements = more
      cases more <;> rfl

/-- Lines are cut one by one, and the first one that is refused decides. -/
theorem lexLines_eq_mapM (row : Nat) (lines : List (List Char)) :
    lexLines row lines =
      ((lines.zipIdx row).mapM fun (line, row) => lexLine row line).map List.flatten := by
  induction lines generalizing row with
  | nil => rfl
  | cons line lines ih =>
    rw [lexLines, ih, List.zipIdx_cons, List.mapM_cons]
    dsimp only
    cases lexLine row line with
    | error e => rfl
    | ok tokens =>
      generalize List.mapM (m := Except LexicalError) _ (lines.zipIdx (row + 1)) = more
      cases more <;> rfl

theorem parseStatements_mapPosition (f : Position → Position) (tokens : List Token) :
    parseStatements (tokens.map (Token.mapPosition f)) =
      mapBoth (SyntaxError.mapPosition f) (List.map (Statement.mapPosition f))
        (parseStatements tokens) := by
  rw [parseStatements_eq_run, parseStatements_eq_run, Phase.run_lineStart {} (f {})]
  exact Phase.run_mapPosition f (some maxDepth) .lineStart {} tokens

/-- Reading is compositional over lines.

A text whose last line is ended and a text behind it make what each of them makes on its own,
the second one so many lines further down; of what is wrong, a spelling in the first text
counts before one in the second, then the syntax of the first before that of the second.

So the statements of a source text are those of its lines, one behind the other, and the first
line that is refused decides, for its spelling or, if every line can be cut into tokens, for
its syntax. -/
theorem statementsOf_append_and_lines :
    (∀ a b : String, a.toList.getLast? = some '\n' →
      let below := Position.below (sourceLines a).length
      statementsOf (a ++ b) =
        match lex a, lex b with
        | .error e, _ => .error (.lexical e)
        | .ok _, .error e => .error (.lexical (e.mapPosition below))
        | .ok tokens, .ok more =>
          match parseStatements tokens, parseStatements more with
          | .error e, _ => .error (.syntactic e)
          | .ok _, .error e => .error (.syntactic (e.mapPosition below))
          | .ok statements, .ok others =>
            .ok (statements ++ others.map (Statement.mapPosition below))) ∧
    ∀ source : String,
      statementsOf source =
        match ((sourceLines source).zipIdx 1).mapM fun (line, row) => lexLine row line with
        | .error e => .error (.lexical e)
        | .ok rows =>
          match rows.mapM parseStatements with
          | .error e => .error (.syntactic e)
          | .ok parts => .ok parts.flatten := by
  refine ⟨?_, ?_⟩
  · intro a b h below
    have hlex : lex (a ++ b) = (lex a).bind fun tokens =>
        (mapBoth (LexicalError.mapPosition below) (List.map (Token.mapPosition below)) (lex b)).map
          (tokens ++ ·) := by
      rw [lex, sourceLines_append h, lexLines_append, lexLines_add]
      rfl
    cases ha : lex a with
    | error e =>
      simp only [statementsOf, hlex, ha]
      rfl
    | ok tokens =>
      cases hb : lex b with
      | error e =>
        simp only [statementsOf, hlex, ha, hb]
        rfl
      | ok more =>
        have hparse := (endsLine_of_lexLines ha).parseStatements_append
          (more.map (Token.mapPosition below))
        rw [parseStatements_mapPosition] at hparse
        simp only [statementsOf, hlex, ha, hb]
        show (parseStatements (tokens ++ more.map _)).mapError Error.syntactic = _
        rw [hparse]
        cases parseStatements tokens with
        | error e => rfl
        | ok statements => cases parseStatements more <;> rfl
  · intro source
    rw [statementsOf, lex, lexLines_eq_mapM]
    cases hrows : ((sourceLines source).zipIdx 1).mapM (fun (line, row) => lexLine row line) with
    | error e => rfl
    | ok rows =>
      show (parseStatements rows.flatten).mapError Error.syntactic =
        match rows.mapM parseStatements with
        | .error e => .error (.syntactic e)
        | .ok parts => .ok parts.flatten
      have hends : ∀ row ∈ rows, EndsLine row := by
        intro tokens htokens
        obtain ⟨line, -, hline⟩ := exists_of_mem_of_mapM_eq_ok hrows tokens htokens
        exact endsLine_of_lexLine hline
      rw [parseStatements_flatten hends]
      cases rows.mapM parseStatements <;> rfl

/-- The syntax error of a second text is moved down by the two lines of the first. -/
theorem statementsOf_append_of_two_lines :
    let a := "x: .data\nadd (1+2)*3\n"
    let b := "\n y:\nadd )"
    let below := Position.below (sourceLines a).length
    a.toList.getLast? = some '\n' ∧
    statementsOf (a ++ b) =
      match lex a, lex b with
      | .error e, _ => .error (.lexical e)
      | .ok _, .error e => .error (.lexical (e.mapPosition below))
      | .ok tokens, .ok more =>
        match parseStatements tokens, parseStatements more with
        | .error e, _ => .error (.syntactic e)
        | .ok _, .error e => .error (.syntactic (e.mapPosition below))
        | .ok statements, .ok others =>
          .ok (statements ++ others.map (Statement.mapPosition below)) := by
  intro a b below
  exact ⟨by decide, statementsOf_append_and_lines.1 a b (by decide)⟩

end MipsAssembly
