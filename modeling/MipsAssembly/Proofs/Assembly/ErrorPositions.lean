import MipsAssembly.Proofs.Assembly.Stages
import MipsAssembly.Proofs.Grammar.Declarations
import MipsAssembly.Proofs.Statement.CorrectPrefix
import MipsAssembly.Proofs.Token.Positions

/-!
# Errors point into the source text

An error of a source text has a position on one of its lines, or just behind one.  What stands
there is what the error is about: the text that no token can be cut off, the token that is
refused, or the name of a label that was declared before.

## Main definitions

- `Position.InSource` — a position on a line of a source text, or just behind one.
- `LexicalFault.BreaksOff` — where cutting a line into tokens comes to an end.
- `DeclaresAt` — the name of a label is spelled at a position.
- `parse_error_points_into_source` — where errors stand.
-/

namespace MipsAssembly

/-- A position on a line of a source text, or just behind one. -/
def Position.InSource (source : String) (p : Position) : Prop :=
  1 ≤ p.line ∧ ∃ line, (sourceLines source)[p.line - 1]? = some line ∧
    1 ≤ p.column ∧ p.column ≤ line.length + 1

/-- In a line, the text in front of some character is cut into tokens, and there is something
wrong with the token that starts with the character.  The column is the one of the character, or
that of a backslash in a text that starts with it. -/
inductive LexicalFault.BreaksOff (line : List Char) : LexicalFault → Nat → Prop where
  | start {before after : List Char} {tokens : List Token} {fault : LexicalFault} :
    line = before ++ after → after ≠ [] → lexLine 1 before = .ok tokens →
    (∀ c, fault ≠ .invalidEscape c) → BreaksOff line fault (before.length + 1)
  | escape {before body content after : List Char} {c : Char} {tokens : List Token} :
    line = before ++ '"' :: (body ++ '\\' :: c :: after) → lexLine 1 before = .ok tokens →
    TextLiteral.Decodes body content →
    BreaksOff line (.invalidEscape c) ((before ++ '"' :: body).length + 1)

/-- At a position of a source text, a name is spelled as a token, with white space at most between
it and a colon. -/
def DeclaresAt (source name : String) (p : Position) : Prop :=
  1 ≤ p.line ∧ ∃ before gap after,
    (sourceLines source)[p.line - 1]? = some (before ++ (name.toList ++ gap ++ ':' :: after)) ∧
    (∀ c ∈ gap, isBlank c = true) ∧ p.column = before.length + 1 ∧
    ∃ tokens, lex source = .ok tokens ∧ ⟨.identifier name, p⟩ ∈ tokens

/-! ## Spelling -/

theorem LexicalFault.BreaksOff.bounds {line : List Char} {fault : LexicalFault} {column : Nat}
    (h : fault.BreaksOff line column) : 1 ≤ column ∧ column ≤ line.length := by
  cases h with
  | start hline hafter =>
    have hlength := List.length_pos_iff.mpr hafter
    rw [hline, List.length_append]
    omega
  | escape hline =>
    rw [hline]
    simp only [List.length_append, List.length_cons]
    omega

/-- A line that is refused breaks off at the column of the error. -/
theorem breaksOff_of_lexLine {row : Nat} {line : List Char} {e : LexicalError}
    (h : lexLine row line = .error e) :
    e.position.line = row ∧ e.fault.BreaksOff line e.position.column := by
  rcases exists_cut_or_stuck line with
    ⟨cut, rfl⟩ | ⟨ps, rest, fault, distance, rfl, hapart, hstuck⟩
  · rw [cut.lexLine_text] at h
    cases h
  · rw [hstuck.lexLine_append hapart] at h
    obtain rfl := Except.error.inj h
    obtain ⟨gap, c, more, rfl, hgap, -, -, behind, hread, rfl⟩ := hstuck
    -- What stands in front of the character is a line of its own.
    let before : LineCut := ⟨ps, gap, insignificant_of_isBlank hgap,
      hapart.of_stops fun _ => Stops.left⟩
    have hbefore : (Piece.textOf ps).length + gap.length = before.text.length :=
      List.length_append.symm
    refine ⟨rfl, ?_⟩
    rcases readToken_eq_error hread with
      ⟨rfl, hfault⟩ | ⟨rfl, body, content, d, after, rfl, rfl, hbody, rfl⟩
    · have hcolumn : 1 + (Piece.textOf ps).length + (gap.length + 0) = before.text.length + 1 := by
        omega
      dsimp only
      rw [hcolumn]
      exact .start (List.append_assoc _ _ _).symm (List.cons_ne_nil c more)
        (before.lexLine_text 1) hfault
    · have hcolumn : 1 + (Piece.textOf ps).length + (gap.length + (body.length + 1)) =
          (before.text ++ '"' :: body).length + 1 := by
        rw [List.length_append, List.length_cons]
        omega
      dsimp only
      rw [hcolumn]
      exact .escape (List.append_assoc _ _ _).symm (before.lexLine_text 1) hbody

/-- Lines are refused for the first one that is. -/
theorem exists_of_lexLines_eq_error {row : Nat} {lines : List (List Char)} {e : LexicalError}
    (h : lexLines row lines = .error e) :
    ∃ before line after tokens, lines = before ++ line :: after ∧
      lexLines row before = .ok tokens ∧ lexLine (row + before.length) line = .error e := by
  induction lines generalizing row with
  | nil => cases h
  | cons line lines ih =>
    rw [lexLines] at h
    split at h
    · next e' hline =>
      cases h
      exact ⟨[], line, lines, [], rfl, rfl, hline⟩
    · next front hline =>
      obtain ⟨before, other, after, tokens, rfl, hbefore, hother⟩ :=
        ih (eq_error_of_map_eq_error h)
      refine ⟨line :: before, other, after, front ++ tokens, rfl, ?_, ?_⟩
      · rw [lexLines, hline]
        dsimp only
        rw [hbefore]
        rfl
      · rwa [List.length_cons, ← Nat.add_assoc, Nat.add_right_comm]

theorem breaksOff_of_lex {source : String} {e : LexicalError} (h : lex source = .error e) :
    1 ≤ e.position.line ∧
      (∃ tokens, lexLines 1 ((sourceLines source).take (e.position.line - 1)) = .ok tokens) ∧
      ∃ line, (sourceLines source)[e.position.line - 1]? = some line ∧
        e.fault.BreaksOff line e.position.column := by
  obtain ⟨before, line, after, tokens, hlines, hbefore, hline⟩ := exists_of_lexLines_eq_error h
  obtain ⟨hrow, hbreaks⟩ := breaksOff_of_lexLine hline
  have hindex : e.position.line - 1 = before.length := by omega
  rw [hindex, hlines]
  refine ⟨by omega, ⟨tokens, ?_⟩, line, ?_, hbreaks⟩
  · rw [List.take_left]
    exact hbefore
  · simp

/-! ## Tokens -/

theorem inSource_of_mem {source : String} {tokens : List Token} {token : Token}
    (hlex : lex source = .ok tokens) (h : token ∈ tokens) : token.position.InSource source := by
  obtain ⟨cuts, hcuts, rfl⟩ := lexLines_eq_ok_iff.mp hlex
  obtain ⟨i, cut, hget, hmem⟩ := LineCut.exists_of_mem_tokensOf h
  obtain ⟨hline, hlow, hhigh⟩ := LineCut.bounds_of_mem_tokens hmem
  have hindex : token.position.line - 1 = i := by omega
  refine ⟨by omega, cut.text, ?_, hlow, hhigh⟩
  rw [hindex, ← hcuts, List.getElem?_map, hget]
  rfl

/-- A syntax error has the position of a token. -/
theorem exists_mem_of_parseStatements_eq_error {tokens : List Token} {e : SyntaxError}
    (h : parseStatements tokens = .error e) : ∃ token ∈ tokens, e.position = token.position := by
  rw [parseStatements_eq_run] at h
  rcases Phase.eq_error_of_run h with
    ⟨before, token, rest, statements, q, rfl, -, hnext⟩ | ⟨statements, q, hreach, hq, rfl⟩
  · exact ⟨token, List.mem_append_right before List.mem_cons_self,
      (Phase.blames_next hnext).position_eq⟩
  · have hne : tokens ≠ [] := by
      rintro rfl
      cases hreach
      cases hq
    obtain ⟨token, hlast, hposition⟩ := Phase.exists_getLast?_lastPosition {} hne
    exact ⟨token, List.mem_of_getLast? hlast, hposition⟩

/-! ## Labels -/

theorem DeclaresAt.inSource {source name : String} {p : Position} (h : DeclaresAt source name p) :
    p.InSource source := by
  obtain ⟨-, _, _, _, -, -, -, tokens, hlex, hmem⟩ := h
  exact inSource_of_mem hlex hmem

theorem declaresAt_of_mem_declarations {source name : String} {p : Position}
    {tokens : List Token} {statements : List Statement} (hlex : lex source = .ok tokens)
    (hparse : parseStatements tokens = .ok statements)
    (h : (name, p) ∈ declarations statements) : DeclaresAt source name p := by
  obtain ⟨before, colon, after, rfl⟩ :=
    (source_of_parseStatements hparse).declares.exists_colon h
  obtain ⟨cuts, hcuts, htokens⟩ := lexLines_eq_ok_iff.mp hlex
  obtain ⟨i, cut, front, gap, back, hget, htext, hgap, rfl⟩ :=
    LineCut.exists_of_name_colon htokens.symm
  refine ⟨Nat.le_add_right 1 i, front, gap, back, ?_, hgap, rfl, _, hlex, by simp⟩
  have hindex : 1 + i - 1 = i := by omega
  rw [← htext, hindex, ← hcuts, List.getElem?_map, hget]
  rfl

/-- Labels are declared in the order of the source text. -/
theorem pairwise_declarations {source : String} {tokens : List Token}
    {statements : List Statement} (hlex : lex source = .ok tokens)
    (hparse : parseStatements tokens = .ok statements) :
    (declarations statements).Pairwise fun label other => label.2.Before other.2 := by
  obtain ⟨cuts, -, rfl⟩ := lexLines_eq_ok_iff.mp hlex
  have hsublist := (source_of_parseStatements hparse).declares.sublist
  have hpairwise := (LineCut.pairwise_tokensOf 1 cuts).sublist hsublist
  rw [List.pairwise_map] at hpairwise
  exact hpairwise

/-- A label that is refused was declared before. -/
theorem before_of_resolve_eq_error {source : String} {tokens : List Token}
    {statements : List Statement} {e : DuplicateLabel} (hlex : lex source = .ok tokens)
    (hparse : parseStatements tokens = .ok statements) (h : resolve statements = .error e) :
    DeclaresAt source e.name e.first ∧ DeclaresAt source e.name e.position ∧
      e.first.Before e.position := by
  obtain ⟨before, between, after, rfl, -⟩ := resolve_eq_error_iff.mp h
  have hlabels : declarations (before ++ .label e.name e.first :: between ++
      .label e.name e.position :: after) =
      declarations before ++ (e.name, e.first) :: (declarations between ++
        (e.name, e.position) :: declarations after) := by
    simp [declarations_append, declarations]
  refine ⟨declaresAt_of_mem_declarations hlex hparse ?_,
    declaresAt_of_mem_declarations hlex hparse ?_, ?_⟩
  · rw [hlabels]
    simp
  · rw [hlabels]
    simp
  · have hordered := pairwise_declarations hlex hparse
    rw [hlabels] at hordered
    have hbehind := (List.pairwise_cons.mp (List.pairwise_append.mp hordered).2.1).1
    exact hbehind (e.name, e.position) (by simp)

/-! ## All errors -/

/-- Every error has a position on a line, or just behind one. -/
theorem inSource_of_parse {source : String} {e : Error} (h : parse source = .error e) :
    e.position.InSource source := by
  rcases parse_eq_error_cases h with ⟨e, hlex, rfl⟩ | ⟨tokens, hlex, hrest⟩
  · obtain ⟨hrow, -, line, hline, hbreaks⟩ := breaksOff_of_lex hlex
    obtain ⟨hlow, hhigh⟩ := hbreaks.bounds
    exact ⟨hrow, line, hline, hlow, Nat.le_succ_of_le hhigh⟩
  rcases hrest with ⟨e, hparse, rfl⟩ | ⟨statements, e, hparse, hresolve, rfl⟩
  · obtain ⟨token, hmem, hposition⟩ := exists_mem_of_parseStatements_eq_error hparse
    show e.position.InSource source
    rw [hposition]
    exact inSource_of_mem hlex hmem
  · exact (before_of_resolve_eq_error hlex hparse hresolve).2.1.inSource

/-- Every error points into the source text.

Its position is on a line of the text, or just behind one.  An error of spelling stands on a
character behind lines, and behind the start of a line, that are cut into tokens, or on a
backslash in a text between quotes that such a character opens.  A syntax error stands at a token.
A label that is declared twice is spelled with a colon behind it at both positions, of which the
one that is declared first comes first. -/
theorem parse_error_points_into_source (source : String) (e : Error)
    (h : parse source = .error e) :
    e.position.InSource source ∧
    match e with
    | .lexical e =>
      (∃ tokens, lexLines 1 ((sourceLines source).take (e.position.line - 1)) = .ok tokens) ∧
      ∃ line, (sourceLines source)[e.position.line - 1]? = some line ∧
        e.position.column ≤ line.length ∧ e.fault.BreaksOff line e.position.column
    | .syntactic e =>
      ∃ tokens, lex source = .ok tokens ∧ ∃ token ∈ tokens, e.position = token.position
    | .duplicateLabel e =>
      DeclaresAt source e.name e.first ∧ DeclaresAt source e.name e.position ∧
        e.first.Before e.position := by
  rcases parse_eq_error_cases h with ⟨e, hlex, rfl⟩ | ⟨tokens, hlex, hrest⟩
  · obtain ⟨hrow, hearlier, line, hline, hbreaks⟩ := breaksOff_of_lex hlex
    obtain ⟨hlow, hhigh⟩ := hbreaks.bounds
    exact ⟨⟨hrow, line, hline, hlow, Nat.le_succ_of_le hhigh⟩,
      hearlier, line, hline, hhigh, hbreaks⟩
  rcases hrest with ⟨e, hparse, rfl⟩ | ⟨statements, e, hparse, hresolve, rfl⟩
  · obtain ⟨token, hmem, hposition⟩ := exists_mem_of_parseStatements_eq_error hparse
    refine ⟨?_, tokens, hlex, token, hmem, hposition⟩
    show e.position.InSource source
    rw [hposition]
    exact inSource_of_mem hlex hmem
  · obtain ⟨hfirst, hsecond, hbefore⟩ := before_of_resolve_eq_error hlex hparse hresolve
    exact ⟨hsecond.inSource, hfirst, hsecond, hbefore⟩

/-- A label of the first line is declared again on the third one. -/
theorem parse_error_points_into_source_of_repeated_label :
    parse "x: nop\n.data\nx : .word 1\n" = .error (.duplicateLabel ⟨"x", ⟨3, 1⟩, ⟨1, 1⟩⟩) ∧
      (Position.mk 3 1).InSource "x: nop\n.data\nx : .word 1\n" ∧
      DeclaresAt "x: nop\n.data\nx : .word 1\n" "x" ⟨1, 1⟩ ∧
      DeclaresAt "x: nop\n.data\nx : .word 1\n" "x" ⟨3, 1⟩ ∧
      (Position.mk 1 1).Before ⟨3, 1⟩ := by
  have hparse : parse "x: nop\n.data\nx : .word 1\n" =
      .error (.duplicateLabel ⟨"x", ⟨3, 1⟩, ⟨1, 1⟩⟩) := by
    decide +kernel
  exact ⟨hparse, parse_error_points_into_source _ _ hparse⟩

end MipsAssembly
