import MipsAssembly.Proofs.Assembly.Lines
import MipsAssembly.Proofs.Statement.CorrectPrefix
import MipsAssembly.Proofs.Token.Positions

/-!
# Syntax errors stay on their lines

The tokens of every line end with a line end, and behind a line end nothing is under way.  So the
tokens of a source text never run out inside a statement: a line that stops too early is refused at
its own line end.  The first line that is refused decides, and it does so alone.

## Main definitions

- `EndsLine.eq_lineStart` — where the tokens of lines are used up, no statement is under way.
- `exists_refused_line` — the first line that is refused.
- `EndsLine.exists_refused_token` — the token that a line is refused for.
- `syntaxError_on_line` — where the syntax errors of source texts stand.
-/

namespace MipsAssembly

/-! ## Line ends -/

namespace Phase

variable {limit : Option Nat} {p q : Phase} {tokens : List Token} {statements : List Statement}

/-- A line end leads to the start of a line, if to anything. -/
theorem eq_lineStart_of_next {stop : Position}
    (h : p.next limit ⟨.lineEnd, stop⟩ = .ok (q, statements)) : q = lineStart := by
  rw [next, if_pos rfl] at h
  split at h <;> cases h
  rfl

/-- Behind a line end, and whatever stands in front of it, a line starts. -/
theorem Reaches.eq_lineStart {front : List Token} {stop : Position}
    (h : Reaches limit p (front ++ [⟨.lineEnd, stop⟩]) statements q) : q = lineStart := by
  induction front generalizing p statements with
  | nil =>
    cases h with
    | step hstep hrest =>
      cases hrest
      exact eq_lineStart_of_next hstep
  | cons token front ih =>
    cases h with
    | step _ hrest => exact ih hrest

end Phase

/-- Where the tokens of lines are used up, no statement is under way. -/
theorem EndsLine.eq_lineStart {limit : Option Nat} {tokens : List Token}
    {statements : List Statement} {q : Phase} (h : EndsLine tokens)
    (hreach : Phase.Reaches limit .lineStart tokens statements q) : q = .lineStart := by
  rcases h with rfl | ⟨front, stop, rfl⟩
  · cases hreach
    rfl
  · exact hreach.eq_lineStart

/-- The tokens of lines are refused for one of them: those in front of it are read. -/
theorem EndsLine.exists_refused_token {tokens : List Token} {e : SyntaxError}
    (h : EndsLine tokens) (hparse : parseStatements tokens = .error e) :
    ∃ front token behind statements q, tokens = front ++ token :: behind ∧
      Phase.Reaches (some maxDepth) .lineStart front statements q ∧
      q.next (some maxDepth) token = .error e := by
  rw [parseStatements_eq_run] at hparse
  rcases Phase.eq_error_of_run hparse with
    ⟨front, token, behind, statements, q, htokens, hreach, hnext⟩ | ⟨statements, q, hreach, hq, -⟩
  · exact ⟨front, token, behind, statements, q, htokens, hreach, hnext⟩
  · rw [h.eq_lineStart hreach] at hq
    cases hq

/-- No row that goes on behind a token that is refused is accepted. -/
theorem not_completable_of_next {front : List Token} {token : Token} {statements : List Statement}
    {q : Phase} {e : SyntaxError}
    (hreach : Phase.Reaches (some maxDepth) .lineStart front statements q)
    (hnext : q.next (some maxDepth) token = .error e) (behind : List Token) :
    ¬Completable (front ++ token :: behind) := by
  rintro ⟨rest, others, -, hparse⟩
  have hrun := hreach.run_append {} (token :: (behind ++ rest))
  rw [Phase.run, hnext] at hrun
  rw [parseStatements_eq_run, List.append_assoc, List.cons_append, hrun] at hparse
  cases hparse

/-! ## Lines -/

/-- Of lines that are cut into tokens and refused, the first one that is refused decides. -/
theorem exists_refused_line {row : Nat} {lines : List (List Char)} {tokens : List Token}
    {e : SyntaxError} (hlex : lexLines row lines = .ok tokens)
    (h : parseStatements tokens = .error e) :
    ∃ before line after front words behind statements, lines = before ++ line :: after ∧
      tokens = front ++ words ++ behind ∧ lexLines row before = .ok front ∧
      parseStatements front = .ok statements ∧ lexLine (row + before.length) line = .ok words ∧
      parseStatements words = .error e := by
  induction lines generalizing row tokens with
  | nil =>
    cases hlex
    cases h
  | cons line lines ih =>
    rw [lexLines] at hlex
    split at hlex
    · cases hlex
    · next words hline =>
      obtain ⟨others, hothers, rfl⟩ := exists_of_map_eq_ok hlex
      rw [(endsLine_of_lexLine hline).parseStatements_append] at h
      cases hwords : parseStatements words with
      | error e' =>
        rw [hwords] at h
        obtain rfl := Except.error.inj h
        exact ⟨[], line, lines, [], words, others, [], rfl, rfl, rfl, rfl, hline, hwords⟩
      | ok statements =>
        rw [hwords] at h
        obtain ⟨before, refused, after, front, words', behind, more, rfl, rfl, hbefore, hfront,
          hrefused, herror⟩ := ih hothers (eq_error_of_map_eq_error h)
        refine ⟨line :: before, refused, after, words ++ front, words', behind, statements ++ more,
          rfl, by simp, ?_, ?_, ?_, herror⟩
        · rw [lexLines, hline]
          dsimp only
          rw [hbefore]
          rfl
        · rw [(endsLine_of_lexLine hline).parseStatements_append, hwords, hfront]
          rfl
        · rwa [List.length_cons, ← Nat.add_assoc, Nat.add_right_comm]

/-- A token of a line is its line end, with all other tokens in front of it, or it is one of those
others. -/
theorem LineCut.eq_lineEnd_or_ne {cut : LineCut} {row : Nat} {front behind : List Token}
    {token : Token} (h : cut.tokens row = front ++ token :: behind) :
    ((cut.tokens row).dropLast = front ∧ token = ⟨.lineEnd, ⟨row, cut.text.length + 1⟩⟩) ∨
      (token.kind ≠ .lineEnd ∧ ∃ more, (cut.tokens row).dropLast = front ++ token :: more) := by
  rw [tokens] at h ⊢
  rw [List.dropLast_concat]
  rcases List.eq_nil_or_concat behind with rfl | ⟨more, last, rfl⟩
  · obtain ⟨hfront, htoken⟩ := List.append_inj' h rfl
    exact .inl ⟨hfront, (List.singleton_inj.mp htoken).symm⟩
  · rw [List.concat_eq_append, ← List.cons_append, ← List.append_assoc] at h
    obtain ⟨hpieces, -⟩ := List.append_inj' h rfl
    refine .inr ⟨?_, more, hpieces⟩
    have hmem : token ∈ Piece.tokensFrom row 1 cut.pieces := by
      rw [hpieces]
      exact List.mem_append_right front List.mem_cons_self
    obtain ⟨p, -, hp⟩ := Piece.exists_of_mem_tokensFrom hmem
    rw [← hp]
    exact p.spelled.ne_lineEnd

/-- A source text that is cut into tokens is never refused because its tokens run out.

The lines in front of some line are accepted, and that line is refused on its own, with the same
error.  All of its tokens stand on it, and the error names one of them.  This is the line end,
which stands behind the last character, exactly if the tokens in front of it start a row that is
accepted, so that the line has stopped too early. -/
theorem syntaxError_on_line (source : String) (tokens : List Token) (e : SyntaxError)
    (hlex : lex source = .ok tokens) (h : parseStatements tokens = .error e) :
    (∀ expected position, e ≠ .unexpectedEnd expected position) ∧
    ∃ before line after earlier row later statements,
      sourceLines source = before ++ line :: after ∧ tokens = earlier ++ row ++ later ∧
      lexLines 1 before = .ok earlier ∧ parseStatements earlier = .ok statements ∧
      lexLine (before.length + 1) line = .ok row ∧ parseStatements row = .error e ∧
      (∀ token ∈ row, token.position.line = before.length + 1) ∧
      e.position.line = before.length + 1 ∧ ∃ token ∈ row, e.Blames token ∧
        (token.kind = .lineEnd ↔ Completable row.dropLast) ∧
        (token.kind = .lineEnd → token.position.column = line.length + 1) := by
  obtain ⟨before, line, after, earlier, row, later, statements, hlines, htokens, hbefore, hearlier,
    hline, hrow⟩ := exists_refused_line hlex h
  rw [Nat.add_comm] at hline
  obtain ⟨front, token, behind, done, q, hcut, hreach, hnext⟩ :=
    (endsLine_of_lexLine hline).exists_refused_token hrow
  obtain ⟨cut, rfl, rfl⟩ := lexLine_eq_ok_iff.mp hline
  have hblames := Phase.blames_next hnext
  have hmem : token ∈ cut.tokens (before.length + 1) := by
    rw [hcut]
    exact List.mem_append_right front List.mem_cons_self
  refine ⟨?_, before, cut.text, after, earlier, _, later, statements, hlines, htokens, hbefore,
    hearlier, hline, hrow, fun word hword => (LineCut.bounds_of_mem_tokens hword).1, ?_, token,
    hmem, hblames, ?_⟩
  · rintro expected position rfl
    exact hblames
  · rw [hblames.position_eq]
    exact (LineCut.bounds_of_mem_tokens hmem).1
  · rcases LineCut.eq_lineEnd_or_ne hcut with ⟨hall, rfl⟩ | ⟨hkind, more, hmore⟩
    · rw [hall]
      exact ⟨iff_of_true rfl hreach.completable, fun _ => rfl⟩
    · rw [hmore]
      exact ⟨iff_of_false hkind (not_completable_of_next hreach hnext more),
        fun h => absurd h hkind⟩

/-- The last line stops behind an operator, and nothing follows it: the error names its line end. -/
theorem syntaxError_on_line_of_open_sum :
    let source := "x: nop\nadd 1 +"
    let tokens : List Token := [⟨.identifier "x", ⟨1, 1⟩⟩, ⟨.colon, ⟨1, 2⟩⟩,
      ⟨.identifier "nop", ⟨1, 4⟩⟩, ⟨.lineEnd, ⟨1, 7⟩⟩, ⟨.identifier "add", ⟨2, 1⟩⟩,
      ⟨.number .decimal (.integer 1), ⟨2, 5⟩⟩, ⟨.plus, ⟨2, 7⟩⟩, ⟨.lineEnd, ⟨2, 8⟩⟩]
    let e : SyntaxError := .unexpectedToken "number, identifier or `(`" .lineEnd ⟨2, 8⟩
    lex source = .ok tokens ∧ parseStatements tokens = .error e ∧
    (∀ expected position, e ≠ .unexpectedEnd expected position) ∧
    ∃ before line after earlier row later statements,
      sourceLines source = before ++ line :: after ∧ tokens = earlier ++ row ++ later ∧
      lexLines 1 before = .ok earlier ∧ parseStatements earlier = .ok statements ∧
      lexLine (before.length + 1) line = .ok row ∧ parseStatements row = .error e ∧
      (∀ token ∈ row, token.position.line = before.length + 1) ∧
      e.position.line = before.length + 1 ∧ ∃ token ∈ row, e.Blames token ∧
        (token.kind = .lineEnd ↔ Completable row.dropLast) ∧
        (token.kind = .lineEnd → token.position.column = line.length + 1) := by
  intro source tokens e
  have hlex : lex source = .ok tokens := by decide +kernel +zetaReduce
  have hparse : parseStatements tokens = .error e := by rfl
  exact ⟨hlex, hparse, syntaxError_on_line source tokens e hlex hparse⟩

end MipsAssembly
