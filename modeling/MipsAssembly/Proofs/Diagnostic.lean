import MipsAssembly.Diagnostic
import MipsAssembly.Proofs.Message
import MipsAssembly.Proofs.Text.Style

/-!
# Where the caret of a diagnostic stands

A diagnostic has five lines.  The fourth one shows the line of the source text behind a gutter with
its number, which takes four characters at least.  The fifth one has a caret behind blanks, and a
gutter that is as wide as that of a number of four digits.  So the caret stands under the character
that the error is about on the first 9999 lines, and too far to the left on all others.

## Main definitions

- `Error.gutter`, `Error.lead` — what stands in front of the source line and of the caret.
- `Error.CaretAligned` — the caret stands under the character at the column of the error.
- `Error.splitOn_diagnostic` — the lines of a diagnostic.
- `Error.caretAligned_iff` — the lines on which carets are aligned.
-/

namespace MipsAssembly

namespace Error

/-- What stands in front of the source line. -/
def gutter (e : Error) : List Char :=
  ' ' :: margin (padLeft 4 ' ' (Numeral.decimal e.position.line) ++ [' ']) ++ [' ']

/-- What stands in front of the caret. -/
def lead (e : Error) : List Char :=
  "      ".toList ++ margin [] ++ ' ' :: List.replicate (e.position.column - 1) ' '

/-- The caret in its colour. -/
def caret : List Char :=
  Style.red.on ++ Style.bold.on ++ ['^'] ++ Style.red.off ++ Style.bold.off

/-- In a diagnostic, the fourth line shows the source line in full, the fifth one ends in the
caret, and as many characters are seen in front of the caret as in front of the character of the
source line at the column of the error. -/
def CaretAligned (e : Error) (source : String) : Prop :=
  ∃ heading place bar gutter line lead,
    (e.diagnostic source).toList.splitOn '\n' =
      [heading, place, bar, gutter ++ line, lead ++ caret] ∧
    (sourceLines source)[e.position.line - 1]? = some line ∧
    (visible lead).length =
      (visible gutter).length + (line.take (e.position.column - 1)).length

variable {source : String} {e : Error}

theorem visible_caret : visible caret = ['^'] :=
  rfl

/-- The gutter of the source line is as wide as its number, but for the first 9999 lines. -/
theorem length_visible_gutter (e : Error) :
    (visible e.gutter).length = 4 + max 4 (Numeral.decimal e.position.line).length := by
  have hnumber : '\x1b' ∉ padLeft 4 ' ' (Numeral.decimal e.position.line) ++ [' '] ++ ['|'] := by
    have hdigits : '\x1b' ∉ padLeft 4 ' ' (Numeral.decimal e.position.line) :=
      not_mem_padLeft_decimal (by decide) rfl e.position.line
    simpa using hdigits
  have hgutter : e.gutter = [' '] ++ (Style.blue.paint
      (padLeft 4 ' ' (Numeral.decimal e.position.line) ++ [' '] ++ ['|']) ++ [' ']) := by
    simp [gutter, margin]
  rw [hgutter, visible_append (by decide), Style.visible_paint_append _ hnumber,
    visible_of_not_mem (by decide)]
  simp [padLeft]
  omega

theorem length_visible_lead (e : Error) :
    (visible e.lead).length = 8 + (e.position.column - 1) := by
  have hindent : '\x1b' ∉ ' ' :: List.replicate (e.position.column - 1) ' ' := by
    rw [← List.replicate_succ]
    intro hmem
    cases List.eq_of_mem_replicate hmem
  unfold lead
  rw [margin, List.append_assoc, visible_append (by decide),
    Style.visible_paint_append _ (by decide), visible_of_not_mem hindent]
  simp
  omega

theorem lineFeed_not_mem_sourceLine : '\n' ∉ e.sourceLine source := by
  rw [sourceLine]
  cases hline : (sourceLines source)[e.position.line - 1]? with
  | none => exact List.not_mem_nil
  | some line => exact lineFeed_not_mem_of_mem_splitLines (List.mem_of_getElem? hline)

/-- The lines of the diagnostic of a source text that is refused. -/
theorem splitOn_diagnostic (h : parse source = .error e) :
    ∃ heading place bar, (e.diagnostic source).toList.splitOn '\n' =
      [heading, place, bar, e.gutter ++ e.sourceLine source, e.lead ++ caret] := by
  have hmessage : '\n' ∉ e.message.toList := oneLine_message_of_parse h
  have hplace : '\n' ∉ e.position.text.toList := e.position.oneLine_text
  have hnumber : '\n' ∉ padLeft 4 ' ' (Numeral.decimal e.position.line) :=
    not_mem_padLeft_decimal (by decide) rfl e.position.line
  have hline : '\n' ∉ e.sourceLine source := lineFeed_not_mem_sourceLine
  have hlines : ∀ line ∈ e.diagnosticLines source, '\n' ∉ line := by
    unfold diagnosticLines
    simp only [List.forall_mem_cons]
    refine ⟨?_, ?_, ?_, ?_, ?_, by simp⟩
    · simp [hmessage]
    · simp [hplace]
    · simp [margin]
    · simp [margin, hnumber, hline]
    · simp [margin]
  rw [diagnostic, String.toList_ofList, splitOn_joinLines hlines (List.cons_ne_nil _ _)]
  have hfourth : e.gutter ++ e.sourceLine source =
      ' ' :: margin (padLeft 4 ' ' (Numeral.decimal e.position.line) ++ [' ']) ++
        ' ' :: e.sourceLine source := by
    rw [gutter, List.append_assoc]
    rfl
  rw [hfourth]
  exact ⟨_, _, _, rfl⟩

/-- The source line of the error is shown, and it is as long as the column of the error asks for. -/
theorem exists_lines (h : parse source = .error e) :
    ∃ heading place bar line,
      (e.diagnostic source).toList.splitOn '\n' =
        [heading, place, bar, e.gutter ++ line, e.lead ++ caret] ∧
      (sourceLines source)[e.position.line - 1]? = some line ∧
      (line.take (e.position.column - 1)).length = e.position.column - 1 := by
  obtain ⟨-, line, hline, -, hhigh⟩ := inSource_of_parse h
  obtain ⟨heading, place, bar, hlines⟩ := splitOn_diagnostic h
  have hsource : e.sourceLine source = line := by
    rw [sourceLine, hline]
    rfl
  rw [hsource] at hlines
  refine ⟨heading, place, bar, line, hlines, hline, ?_⟩
  rw [List.length_take]
  omega

/-- The caret is aligned exactly if the number of the line has at most four digits. -/
theorem caretAligned_iff (h : parse source = .error e) :
    e.CaretAligned source ↔ e.position.line < 10000 := by
  obtain ⟨heading, place, bar, line, hlines, hline, hfront⟩ := exists_lines h
  have hwidth : (visible e.lead).length =
      (visible e.gutter).length + (line.take (e.position.column - 1)).length ↔
        e.position.line < 10000 := by
    have hdigits : (Numeral.decimal e.position.line).length ≤ 4 ↔ e.position.line < 10 ^ 4 :=
      Numeral.length_decimal_le_iff (by decide)
    rw [length_visible_lead, length_visible_gutter, hfront]
    omega
  rw [← hwidth]
  constructor
  · rintro ⟨heading', place', bar', gutter', line', lead', hlines', hline', hwidth'⟩
    -- The lines of the diagnostic determine what stands in front of the source line and the caret.
    obtain rfl := Option.some.inj (hline.symm.trans hline')
    rw [hlines] at hlines'
    simp only [List.cons.injEq, List.append_cancel_right_eq, and_true] at hlines'
    obtain ⟨-, -, -, rfl, rfl⟩ := hlines'
    exact hwidth'
  · exact fun hwidth' => ⟨heading, place, bar, e.gutter, line, e.lead, hlines, hline, hwidth'⟩

end Error

/-- In the diagnostic of a source text that is refused, the fourth line shows the source line of the
error in full, and the fifth one ends in a caret.  The error is about a character of that line, or
about its end.  The characters in front of that one are as many as those in front of the caret, and
one more for every digit that the number of the line has behind the fourth; so the caret is aligned
exactly on the first 9999 lines. -/
theorem caret_of_parse (source : String) (e : Error) (h : parse source = .error e) :
    (∃ heading place bar line,
      (e.diagnostic source).toList.splitOn '\n' =
        [heading, place, bar, e.gutter ++ line, e.lead ++ Error.caret] ∧
      visible Error.caret = ['^'] ∧
      1 ≤ e.position.line ∧ (sourceLines source)[e.position.line - 1]? = some line ∧
      1 ≤ e.position.column ∧ e.position.column ≤ line.length + 1 ∧
      (visible e.gutter).length + (line.take (e.position.column - 1)).length =
        (visible e.lead).length + ((Numeral.decimal e.position.line).length - 4)) ∧
    (e.CaretAligned source ↔ e.position.line < 10000) := by
  obtain ⟨heading, place, bar, line, hlines, hline, hfront⟩ := Error.exists_lines h
  obtain ⟨hrow, line', hline', hlow, hhigh⟩ := inSource_of_parse h
  obtain rfl := Option.some.inj (hline.symm.trans hline')
  refine ⟨⟨heading, place, bar, line, hlines, Error.visible_caret, hrow, hline, hlow, hhigh, ?_⟩,
    Error.caretAligned_iff h⟩
  rw [Error.length_visible_gutter, Error.length_visible_lead, hfront]
  omega

/-- The tokens of an instruction that is cut short on the second line run out at its end. -/
theorem caret_of_parse_of_open_sum :
    let source := "nop\n add 1 +"
    let e : Error := .syntactic (.unexpectedToken "number, identifier or `(`" .lineEnd ⟨2, 9⟩)
    parse source = .error e ∧
    (∃ heading place bar line,
      (e.diagnostic source).toList.splitOn '\n' =
        [heading, place, bar, e.gutter ++ line, e.lead ++ Error.caret] ∧
      visible Error.caret = ['^'] ∧
      1 ≤ e.position.line ∧ (sourceLines source)[e.position.line - 1]? = some line ∧
      1 ≤ e.position.column ∧ e.position.column ≤ line.length + 1 ∧
      (visible e.gutter).length + (line.take (e.position.column - 1)).length =
        (visible e.lead).length + ((Numeral.decimal e.position.line).length - 4)) ∧
    (e.CaretAligned source ↔ e.position.line < 10000) := by
  intro source e
  have hparse : parse source = .error e := by decide +kernel +zetaReduce
  exact ⟨hparse, caret_of_parse source e hparse⟩

/-! ## Beyond the first 9999 lines -/

/-- A dollar sign behind empty lines is refused on its line. -/
theorem parse_dollar_behind_lines (count : Nat) :
    parse (String.ofList (List.replicate count '\n' ++ ['$'])) =
      .error (.lexical ⟨.emptyRegister, ⟨1 + count, 1⟩⟩) := by
  have hlines : splitLines (List.replicate count '\n' ++ ['$']) =
      List.replicate count [] ++ [['$']] := by
    induction count with
    | zero => rfl
    | succ count ih => exact congrArg ([] :: ·) ih
  have hlex (row : Nat) : lexLines row (List.replicate count [] ++ [['$']]) =
      .error ⟨.emptyRegister, ⟨row + count, 1⟩⟩ := by
    clear hlines
    induction count generalizing row with
    | zero => rfl
    | succ count ih =>
      have hrow : row + (count + 1) = row + 1 + count := by omega
      have hblank : lexLine row [] = .ok [⟨.lineEnd, ⟨row, 1⟩⟩] := rfl
      rw [List.replicate_succ, List.cons_append, lexLines, hblank, hrow]
      dsimp only
      rw [ih]
      rfl
  have hsource : lex (String.ofList (List.replicate count '\n' ++ ['$'])) =
      .error ⟨.emptyRegister, ⟨1 + count, 1⟩⟩ := by
    rw [lex, sourceLines, String.toList_ofList, hlines, hlex]
  rw [parse, statementsOf, hsource]

/-- On line 10000 the caret is not aligned. -/
theorem not_caretAligned_on_line_10000 :
    let source := String.ofList (List.replicate 9999 '\n' ++ ['$'])
    let e : Error := .lexical ⟨.emptyRegister, ⟨10000, 1⟩⟩
    parse source = .error e ∧ ¬e.CaretAligned source := by
  intro source e
  have hparse : parse source = .error e := parse_dollar_behind_lines 9999
  exact ⟨hparse, fun haligned => absurd ((Error.caretAligned_iff hparse).mp haligned) (by decide)⟩

end MipsAssembly
