import Mathlib.Logic.Relation
import MipsAssembly.Proofs.Assembly.Lines
import MipsAssembly.Proofs.Resolution.Declarations
import MipsAssembly.Proofs.Token.LineEdit

/-!
# Source texts that are spaced differently

White space between tokens, comments, lines without tokens and the form of the line ends mean
nothing.  A source text that is edited in these respects says the same, line by line, apart from
lines that say nothing, and its program is the same; or it is refused for the same thing, at
another position.

## Main definitions

- `Respaced` — a source text with more white space, comments, blank lines or carriage returns.
- `LinesSay` — what the lines of a text say, without those that say nothing.
- `Respaced.linesSay` — an edited text says the same.
- `LinesSay.exists_tokens` — the statements of a text depend on nothing else.
- `parse_of_respaced` — an edited text makes the same program or the same error.
-/

namespace MipsAssembly

/-- Behind this text a line starts. -/
def LineStartsBehind (front : List Char) : Prop :=
  front = [] ∨ ∃ before, front = before ++ ['\n']

/-- In front of this text a line ends. -/
def LineEndsBefore (back : List Char) : Prop :=
  back = [] ∨ ∃ rest, back = '\n' :: rest ∨ back = '\r' :: '\n' :: rest

/-- A source text with more white space, comments, blank lines or carriage returns. -/
inductive Respaced : List Char → List Char → Prop where
  -- One line is edited and stays a line.
  | line {front line line' back : List Char} :
    LineStartsBehind front → LineEndsBefore back → '\n' ∉ line → '\n' ∉ line' →
    LineEdit line line' → Respaced (front ++ (line ++ back)) (front ++ (line' ++ back))
  -- A line without tokens is put above another line.
  | above {front blank back : List Char} :
    LineStartsBehind front → '\n' ∉ blank → Insignificant blank →
    Respaced (front ++ back) (front ++ (blank ++ '\n' :: back))
  -- A line without tokens is put below another line.
  | below {front blank back : List Char} :
    LineEndsBefore back → '\n' ∉ blank → Insignificant blank →
    Respaced (front ++ back) (front ++ '\n' :: (blank ++ back))
  | carriageReturn {front back : List Char} :
    Respaced (front ++ '\n' :: back) (front ++ '\r' :: '\n' :: back)

/-- What lines say, one after the other, without those that say nothing. -/
inductive LinesSay : List (List Char) → List (List TokenKind) → Prop where
  | nil : LinesSay [] []
  | blank {line : List Char} {lines : List (List Char)} {rows : List (List TokenKind)} :
    Says line [] → LinesSay lines rows → LinesSay (line :: lines) rows
  | line {line : List Char} {lines : List (List Char)} {kinds : List TokenKind}
    {rows : List (List TokenKind)} :
    Says line kinds → kinds ≠ [] → LinesSay lines rows → LinesSay (line :: lines) (kinds :: rows)

variable {line line' front back rest text text' : List Char} {lines lines' : List (List Char)}
  {rows : List (List TokenKind)}

namespace LinesSay

/-- What is said behind some lines may be said by other lines. -/
theorem behind {before : List (List Char)} (h : LinesSay (before ++ lines) rows)
    (hlines : ∀ rows, LinesSay lines rows → LinesSay lines' rows) :
    LinesSay (before ++ lines') rows := by
  induction before generalizing rows with
  | nil => exact hlines rows h
  | cons first before ih =>
    cases h with
    | blank hfirst h => exact .blank hfirst (ih h)
    | line hfirst hne h => exact .line hfirst hne (ih h)

/-- The first line may be replaced by one that says the same. -/
theorem replace (h : LinesSay (line :: lines) rows)
    (hline : ∀ kinds, Says line kinds → Says line' kinds) : LinesSay (line' :: lines) rows := by
  cases h with
  | blank hfirst h => exact .blank (hline _ hfirst) h
  | line hfirst hne h => exact .line (hline _ hfirst) hne h

end LinesSay

theorem Insignificant.says_nothing (h : Insignificant line) : Says line [] :=
  ⟨⟨[], line, h, trivial⟩, rfl, rfl⟩

/-! ## Lines of edited texts -/

theorem LineStartsBehind.splitLines_append (h : LineStartsBehind front) (rest : List Char) :
    splitLines (front ++ rest) = splitLines front ++ splitLines rest := by
  rcases h with rfl | ⟨before, rfl⟩
  · rfl
  · rw [List.append_assoc]
    exact splitLines_append_lineFeed before rest

/-- Every text ends with the start of a line. -/
theorem exists_last_line (text : List Char) :
    ∃ front line, text = front ++ line ∧ LineStartsBehind front ∧ '\n' ∉ line := by
  induction text with
  | nil => exact ⟨[], [], rfl, .inl rfl, by simp⟩
  | cons c text ih =>
    obtain ⟨front, line, rfl, rfl | ⟨before, rfl⟩, hline⟩ := ih
    · by_cases hc : c = '\n'
      · exact ⟨[c], line, rfl, .inr ⟨[], by rw [hc]; rfl⟩, hline⟩
      · refine ⟨[], c :: line, rfl, .inl rfl, ?_⟩
        exact List.not_mem_cons_of_ne_of_not_mem (Ne.symm hc) hline
    · exact ⟨c :: (before ++ ['\n']), line, rfl, .inr ⟨c :: before, rfl⟩, hline⟩

/-- In front of a line feed, a carriage return does not count. -/
theorem linesSay_append_lineFeed (hline : '\n' ∉ line) :
    LinesSay (splitLines (line ++ '\n' :: rest)) rows ↔
      LinesSay (line :: splitLines rest) rows := by
  obtain ⟨first, hlines, rfl | rfl⟩ := exists_splitLines_append hline rest
  · rw [hlines]
  · rw [hlines]
    exact ⟨fun h => h.replace fun _ => says_append_return.mpr,
      fun h => h.replace fun _ => says_append_return.mp⟩

/-- What stands behind a line gives the same lines whatever the line is. -/
theorem LineEndsBefore.exists_lines (h : LineEndsBefore back) :
    ∃ lines, ∀ line, '\n' ∉ line → ∀ rows,
      (LinesSay (splitLines (line ++ back)) rows ↔ LinesSay (line :: lines) rows) := by
  rcases h with rfl | ⟨rest, rfl | rfl⟩
  · refine ⟨[], ?_⟩
    intro line hline rows
    rw [List.append_nil]
    by_cases hne : line = []
    · subst hne
      -- The empty text has no line, and an empty line says nothing.
      have hempty : Says [] [] := (insignificant_of_isBlank (by simp)).says_nothing
      constructor
      · exact .blank hempty
      · intro h
        cases h with
        | blank _ h => exact h
        | line hkinds hne => exact absurd (hkinds.unique hempty) hne
    · rw [splitLines_of_not_mem hline hne]
  · exact ⟨splitLines rest, fun line hline rows => linesSay_append_lineFeed hline⟩
  · refine ⟨splitLines rest, ?_⟩
    intro line hline rows
    have hreturn : '\n' ∉ line ++ ['\r'] := by simpa using hline
    rw [List.append_cons, linesSay_append_lineFeed hreturn]
    exact ⟨fun h => h.replace fun _ => says_append_return.mp,
      fun h => h.replace fun _ => says_append_return.mpr⟩

/-- An edited text says the same. -/
theorem Respaced.linesSay (hedit : Respaced text text') (h : LinesSay (splitLines text) rows) :
    LinesSay (splitLines text') rows := by
  cases hedit with
  | line hfront hback hline hline' hedit =>
    obtain ⟨lines, hlines⟩ := hback.exists_lines
    rw [hfront.splitLines_append] at h ⊢
    refine h.behind ?_
    intro rows h
    exact (hlines _ hline' rows).mpr (((hlines _ hline rows).mp h).replace fun _ => hedit.keeps)
  | above hfront hblank hinsignificant =>
    rw [hfront.splitLines_append] at h ⊢
    refine h.behind ?_
    intro rows h
    exact (linesSay_append_lineFeed hblank).mpr (.blank hinsignificant.says_nothing h)
  | @below front blank back hback hblank hinsignificant =>
    obtain ⟨lines, hlines⟩ := hback.exists_lines
    obtain ⟨front, line, rfl, hfront, hline⟩ := exists_last_line front
    rw [List.append_assoc, hfront.splitLines_append] at h ⊢
    refine h.behind ?_
    intro rows h
    have hbehind : LinesSay ([line] ++ lines) rows := (hlines line hline rows).mp h
    refine (linesSay_append_lineFeed hline).mpr (hbehind.behind ?_)
    intro rows h
    exact (hlines blank hblank rows).mpr (.blank hinsignificant.says_nothing h)
  | @carriageReturn front back =>
    obtain ⟨front, line, rfl, hfront, hline⟩ := exists_last_line front
    have hreturn : '\n' ∉ line ++ ['\r'] := by simpa using hline
    rw [List.append_assoc, hfront.splitLines_append] at h ⊢
    refine h.behind ?_
    intro rows h
    rw [List.append_cons]
    refine (linesSay_append_lineFeed hreturn).mpr ?_
    exact ((linesSay_append_lineFeed hline).mp h).replace fun _ => says_append_return.mpr

/-- However often a text is edited, it says the same. -/
theorem linesSay_of_edits (hedits : Relation.ReflTransGen Respaced text text')
    (h : LinesSay (splitLines text) rows) : LinesSay (splitLines text') rows := by
  induction hedits with
  | refl => exact h
  | tail _ hedit ih => exact hedit.linesSay ih

/-! ## Statements of edited texts -/

/-- The tokens of a line that says kinds, without positions. -/
def bareRow (kinds : List TokenKind) : List Token :=
  (kinds ++ [TokenKind.lineEnd]).map fun kind => ⟨kind, {}⟩

theorem endsLine_bareRow (kinds : List TokenKind) : EndsLine (bareRow kinds) :=
  .inr ⟨_, _, List.map_append⟩

theorem map_forget_eq_bareRow {tokens : List Token} {kinds : List TokenKind}
    (h : tokens.map Token.kind = kinds ++ [TokenKind.lineEnd]) :
    tokens.map (Token.mapPosition .forget) = bareRow kinds := by
  rw [bareRow, ← h, List.map_map]
  rfl

/-- The lines of a text that is cut into tokens say something. -/
theorem exists_linesSay (cuts : List LineCut) :
    ∃ rows, LinesSay (cuts.map LineCut.text) rows := by
  induction cuts with
  | nil => exact ⟨[], .nil⟩
  | cons cut cuts ih =>
    obtain ⟨rows, hrows⟩ := ih
    by_cases hpieces : cut.pieces.map Piece.kind = []
    · exact ⟨rows, .blank ⟨cut, rfl, hpieces⟩ hrows⟩
    · exact ⟨_, .line ⟨cut, rfl, rfl⟩ hpieces hrows⟩

/-- Lines are cut into tokens, and the statements of these depend on what the lines say, apart
from positions. -/
theorem LinesSay.exists_tokens (h : LinesSay lines rows) (row : Nat) :
    ∃ tokens, lexLines row lines = .ok tokens ∧
      parseStatements (tokens.map (Token.mapPosition .forget)) =
        parseStatements (rows.flatMap bareRow) := by
  induction h generalizing row with
  | nil => exact ⟨[], rfl, rfl⟩
  | @blank line lines rows hline _ ih =>
    obtain ⟨front, hlex, hkinds⟩ := hline.lexLine row
    obtain ⟨tokens, htokens, hparse⟩ := ih (row + 1)
    refine ⟨front ++ tokens, by simp [lexLines, hlex, htokens, Except.map], ?_⟩
    rw [List.map_append, map_forget_eq_bareRow hkinds, (endsLine_bareRow []).parseStatements_append,
      hparse]
    -- A line end on its own completes nothing.
    exact map_nil_append _
  | @line line lines kinds rows hline _ _ ih =>
    obtain ⟨front, hlex, hkinds⟩ := hline.lexLine row
    obtain ⟨tokens, htokens, hparse⟩ := ih (row + 1)
    refine ⟨front ++ tokens, by simp [lexLines, hlex, htokens, Except.map], ?_⟩
    rw [List.map_append, map_forget_eq_bareRow hkinds, List.flatMap_cons,
      (endsLine_bareRow kinds).parseStatements_append,
      (endsLine_bareRow kinds).parseStatements_append, hparse]

def Error.mapPosition (f : Position → Position) : Error → Error
  | lexical e => lexical (e.mapPosition f)
  | syntactic e => syntactic (e.mapPosition f)
  | duplicateLabel e => duplicateLabel (e.mapPosition f)

/-- What a source text comes to with its positions changed is what its tokens come to with theirs
changed. -/
theorem mapError_parse {source : String} {tokens : List Token} (h : lex source = .ok tokens)
    (f : Position → Position) :
    (parse source).mapError (Error.mapPosition f) =
      ((parseStatements (tokens.map (Token.mapPosition f))).mapError Error.syntactic).bind
        fun statements => (resolve statements).mapError Error.duplicateLabel := by
  rw [parseStatements_mapPosition]
  cases hstatements : parseStatements tokens with
  | error e =>
    simp only [parse, statementsOf, h, hstatements]
    rfl
  | ok statements =>
    simp only [parse, statementsOf, h, hstatements]
    show ((resolve statements).mapError Error.duplicateLabel).mapError (Error.mapPosition f) =
      (resolve (statements.map (Statement.mapPosition f))).mapError Error.duplicateLabel
    rw [resolve_mapPosition]
    cases resolve statements <;> rfl

/-- Layout never changes meaning.

A source text whose lines are all cut into tokens stays one, however often white space and
comments are put behind its lines, white space in front of them or between their tokens, lines
without tokens above or below them, and carriage returns at their ends.  The edited text makes the
same program, or it is refused for the same thing at another position. -/
theorem parse_of_respaced (a b : String) (hlex : ∃ tokens, lex a = .ok tokens)
    (hedits : Relation.ReflTransGen Respaced a.toList b.toList) :
    (∃ tokens, lex b = .ok tokens) ∧
    match parse a with
    | .ok p => parse b = .ok p
    | .error e => ∃ e', parse b = .error e' ∧ e'.mapPosition .forget = e.mapPosition .forget := by
  obtain ⟨tokens, ha⟩ := hlex
  obtain ⟨cuts, hcuts, -⟩ := lexLines_eq_ok_iff.mp ha
  obtain ⟨rows, hrows⟩ := exists_linesSay cuts
  rw [hcuts, sourceLines] at hrows
  have hrows' := linesSay_of_edits hedits hrows
  obtain ⟨tokens, ha, hparse⟩ := hrows.exists_tokens 1
  obtain ⟨tokens', hb, hparse'⟩ := hrows'.exists_tokens 1
  refine ⟨⟨tokens', hb⟩, ?_⟩
  have hsame : (parse b).mapError (Error.mapPosition .forget) =
      (parse a).mapError (Error.mapPosition .forget) := by
    rw [mapError_parse ha, mapError_parse hb, hparse, hparse']
  cases hpa : parse a with
  | ok p =>
    rw [hpa] at hsame
    exact eq_ok_of_mapError_eq_ok hsame
  | error e =>
    rw [hpa] at hsame
    exact exists_of_mapError_eq_error hsame

/-- White space between a name and a text with a number sign, a comment with a label behind them
and one with a quote above them. -/
theorem parse_of_respaced_around_text :
    let a := "x\"#\"\n"
    let b := "#\"\nx\t\"#\"#x:\r\n"
    (∃ tokens, lex a = .ok tokens) ∧ Relation.ReflTransGen Respaced a.toList b.toList ∧
    (∃ tokens, lex b = .ok tokens) ∧
    match parse a with
    | .ok p => parse b = .ok p
    | .error e => ∃ e', parse b = .error e' ∧ e'.mapPosition .forget = e.mapPosition .forget := by
  intro a b
  let name : Piece := ⟨[], ['x'], .identifier "x", by simp, .identifier rfl (by simp)⟩
  let text : Piece := ⟨[], ['"', '#', '"'], .text "#", by simp,
    .text (.plain (by decide) (by decide) .nil)⟩
  have hapart : Piece.Apart [name, text] [] :=
    ⟨fun c hc => Option.some.inj hc ▸ rfl, .nil _, trivial⟩
  let cut : LineCut := ⟨[name, text], [], insignificant_of_isBlank (by simp), hapart⟩
  have hgap : LineEdit ['x', '"', '#', '"'] ['x', '\t', '"', '#', '"'] :=
    @LineEdit.widen cut [name] [] text [] [] ['\t'] rfl rfl (List.all_eq_true.mp rfl)
  have hcomment : LineEdit ['x', '\t', '"', '#', '"'] ['x', '\t', '"', '#', '"', '#', 'x', ':'] :=
    @LineEdit.append ['x', '\t', '"', '#', '"'] _ (insignificant_comment ['x', ':'])
  have hend : LineEndsBefore ['\n'] := .inr ⟨[], .inl rfl⟩
  have ha : a.toList = ['x', '"', '#', '"', '\n'] := by decide +kernel +zetaReduce
  have hb : b.toList =
      ['#', '"', '\n', 'x', '\t', '"', '#', '"', '#', 'x', ':', '\r', '\n'] := by
    decide +kernel +zetaReduce
  have hedits : Relation.ReflTransGen Respaced a.toList b.toList := by
    rw [ha, hb]
    exact .head (@Respaced.line [] _ _ _ (.inl rfl) hend (by decide) (by decide) hgap)
      (.head (@Respaced.line [] _ _ _ (.inl rfl) hend (by decide) (by decide) hcomment)
        (.head (@Respaced.above [] _ _ (.inl rfl) (by decide) (insignificant_comment ['"']))
          (.single (@Respaced.carriageReturn
            ['#', '"', '\n', 'x', '\t', '"', '#', '"', '#', 'x', ':'] []))))
  have hlex : lex a = .ok [⟨.identifier "x", ⟨1, 1⟩⟩, ⟨.text "#", ⟨1, 2⟩⟩, ⟨.lineEnd, ⟨1, 5⟩⟩] := by
    decide +kernel
  exact ⟨⟨_, hlex⟩, hedits, parse_of_respaced a b ⟨_, hlex⟩ hedits⟩

end MipsAssembly
