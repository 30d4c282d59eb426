import MipsAssembly.Proofs.Assembly.Stages
import MipsAssembly.Proofs.Grammar.Parts
import MipsAssembly.Proofs.Grammar.Recognition
import MipsAssembly.Proofs.Render.Operand
import MipsAssembly.Proofs.Text.Lines

/-!
# Written statements are read back

The statements of a source text, written one on each line, make a source text whose statements
are the same.  Positions are those of the new text, so labels are compared without them.

## Main definitions

- `Statement.chars` — a statement as source text.
- `Statement.sourceText` — statements as a source text, one on each line.
- `Statement.unplaced` — a statement without the position of its label.
- `Statement.IsWritten` — the text of a statement is a line for it.
- `statementsOf_sourceText` — reading the text of what was read gives it again.
-/

namespace MipsAssembly

open Grammar

namespace Statement

def chars : Statement → List Char
  | segment name => name.toList
  | label name _ => name.toList ++ [':']
  | entry e => e.chars

/-- Statements as a source text, one on each line. -/
def sourceText (statements : List Statement) : String :=
  String.ofList (statements.flatMap fun statement => statement.chars ++ ['\n'])

/-- A statement without the position of its label. -/
def unplaced : Statement → Statement
  | label name _ => label name {}
  | statement => statement

end Statement

variable {limit : Nat}

theorem Grammar.Argument.exists_spells {kinds : List TokenKind} {e : Operand}
    (h : Argument (some limit) kinds e) (hkinds : ∀ kind ∈ kinds, kind.Lexical) :
    ∃ written, Argument (some limit) written e ∧ Spells e.chars written := by
  cases h with
  | register name => exact ⟨_, .register name, .register (hkinds (.register name) (by simp))⟩
  | indirect name hopens =>
    have hname := Spells.register (hkinds (.register name) (by simp))
    exact ⟨_, .indirect name hopens, hname.inParens⟩
  | sum hsum =>
    obtain ⟨written, hexpression, hspells⟩ := hsum.exists_spells hkinds (Nat.zero_le limit)
    exact ⟨written, .sum hexpression, hspells⟩
  | @indexed kinds offset name hsum =>
    have hname := Spells.register (hkinds (.register name) (by simp))
    obtain ⟨hoffset, _⟩ := List.forall_mem_append.mp hkinds
    obtain ⟨written, hexpression, hspells⟩ := hsum.exists_spells hoffset (Nat.zero_le limit)
    refine ⟨_, .indexed name hexpression, hspells.append hname.inParens ?_⟩
    rw [inParens, Stops.cons_iff]
    decide

theorem commaSeparated_snoc {texts : List (List Char)} (h : texts ≠ []) (text : List Char) :
    commaSeparated (texts ++ [text]) = commaSeparated texts ++ ',' :: ' ' :: text := by
  induction texts with
  | nil => exact absurd rfl h
  | cons first texts ih =>
    cases texts with
    | nil => rfl
    | cons second texts =>
      have hrest := ih (by simp)
      simp only [List.cons_append, commaSeparated] at hrest ⊢
      rw [hrest, List.append_assoc]
      rfl

theorem Grammar.Separated.ne_nil {item : List TokenKind → Operand → Prop}
    {kinds : List TokenKind} {es : List Operand} (h : Separated item kinds es) : es ≠ [] := by
  cases h <;> simp

/-- Items that are written as items are so with commas between them. -/
theorem Grammar.Separated.exists_spells {item : List TokenKind → Operand → Prop}
    {kinds : List TokenKind} {es : List Operand} (h : Separated item kinds es)
    (hkinds : ∀ kind ∈ kinds, kind.Lexical)
    (hitem : ∀ kinds e, item kinds e → (∀ kind ∈ kinds, kind.Lexical) →
      ∃ written, item written e ∧ Spells e.chars written) :
    ∃ written, Separated item written es ∧
      Spells (commaSeparated (es.map Operand.chars)) written := by
  induction h with
  | single hlast =>
    obtain ⟨written, hwritten, hspells⟩ := hitem _ _ hlast hkinds
    exact ⟨written, .single hwritten, hspells⟩
  | @snoc before last es e hbefore hlast ih =>
    obtain ⟨hfronts, hbehind⟩ := List.forall_mem_append.mp hkinds
    obtain ⟨front, hfront, hspells⟩ := ih hfronts
    obtain ⟨written, hwritten, hspells'⟩ :=
      hitem _ _ hlast (List.forall_mem_cons.mp hbehind).2
    have hcomma := Spells.punctuation (c := ',') rfl hspells'.space
    have hne : es.map Operand.chars ≠ [] := by simpa using hbefore.ne_nil
    refine ⟨_, .snoc hfront hwritten, ?_⟩
    rw [List.map_append, List.map_singleton, commaSeparated_snoc hne]
    exact hspells.append hcomma (by simp; decide)

/-- A name is spelled with the operands behind it. -/
theorem Spells.withOperands {name : List Char} {operands : List Operand} {kind : TokenKind}
    {kinds : List TokenKind} (hname : Spells name [kind]) (hne : operands ≠ [])
    (h : Spells (commaSeparated (operands.map Operand.chars)) kinds) :
    Spells (withOperands name operands) (kind :: kinds) := by
  have htext : MipsAssembly.withOperands name operands =
      name ++ ' ' :: commaSeparated (operands.map Operand.chars) := by
    simp [MipsAssembly.withOperands, hne]
  rw [htext]
  exact hname.append h.space (by simp; decide)

theorem Spells.dataMode (mode : DataMode) : Spells mode.name.toList [.directive mode.name] := by
  cases mode <;> exact .directive rfl (List.cons_ne_nil _ _) (List.all_eq_true.mp rfl)

theorem Spells.data (mode : DataMode) (value : DataValue) {kinds : List TokenKind}
    (hne : value.values ≠ [])
    (h : Spells (commaSeparated (value.values.map Operand.chars)) kinds) :
    Spells (Statement.entry (.data ⟨mode, value⟩)).chars (.directive mode.name :: kinds) :=
  (Spells.dataMode mode).withOperands hne h

theorem DataValue.values_of_ofValues? {es : List Operand} {value : DataValue}
    (h : DataValue.ofValues? es = some value) : value.values = es := by
  rcases es with _ | ⟨first, _ | ⟨second, rest⟩⟩ <;> cases h <;> rfl

/-- A directive or an instruction is written as one. -/
theorem Grammar.Body.exists_spells {kinds : List TokenKind} {statement : Statement}
    (h : Body (some limit) kinds statement) (hkinds : ∀ kind ∈ kinds, kind.Lexical) :
    ∃ written, Body (some limit) written statement ∧ Spells statement.chars written := by
  cases h with
  | @segment name hname =>
    refine ⟨_, .segment hname, ?_⟩
    rcases hname with rfl | rfl
    · have htext : textSegment.toList = '.' :: ['t', 'e', 'x', 't'] := rfl
      exact .directive htext (List.cons_ne_nil _ _) (List.all_eq_true.mp rfl)
    · have hdata : dataSegment.toList = '.' :: ['d', 'a', 't', 'a'] := rfl
      exact .directive hdata (List.cons_ne_nil _ _) (List.all_eq_true.mp rfl)
  | @text mode content hmode =>
    have hdata := Spells.data mode (.scalar (.text content)) (by simp [DataValue.values])
      (Spells.text content)
    exact ⟨_, .text content hmode, hdata⟩
  | @single mode kinds e hmode hsum =>
    obtain ⟨written, hexpression, hspells⟩ :=
      hsum.exists_spells (List.forall_mem_cons.mp hkinds).2 (Nat.zero_le limit)
    have hdata := Spells.data mode (.scalar e) (by simp [DataValue.values]) hspells
    exact ⟨_, .single hmode hexpression, hdata⟩
  | @list mode kinds es value hmode hvalues hvalue =>
    obtain ⟨written, hseparated, hspells⟩ :=
      hvalues.exists_spells (List.forall_mem_cons.mp hkinds).2
        fun _ _ hsum hkinds => hsum.exists_spells hkinds (Nat.zero_le limit)
    have hne := hvalues.ne_nil
    rw [← DataValue.values_of_ofValues? hvalue] at hspells hne
    exact ⟨_, .list hmode hseparated hvalue, .data mode value hne hspells⟩
  | opcode name =>
    exact ⟨_, .opcode name, .identifier (hkinds (.identifier name) (by simp))⟩
  | @instruction name kinds es hoperands =>
    obtain ⟨hopcode, hrest⟩ := List.forall_mem_cons.mp hkinds
    obtain ⟨written, hseparated, hspells⟩ :=
      hoperands.exists_spells hrest fun _ _ hargument hkinds => hargument.exists_spells hkinds
    refine ⟨_, .instruction name hseparated, ?_⟩
    have hname := Spells.identifier hopcode
    have hinstruction := hname.withOperands hoperands.ne_nil hspells
    rw [← Instruction.operands_ofOperands name es] at hinstruction
    exact hinstruction

namespace Statement

/-- The text of a statement is cut into tokens that are a line for it, up to positions. -/
def IsWritten (limit : Nat) (statement : Statement) : Prop :=
  ∃ kinds, Spells statement.chars kinds ∧ ∀ tokens : List Token, tokens.map Token.kind = kinds →
    ∃ again : Statement, again.unplaced = statement.unplaced ∧ Line (some limit) tokens [again]

theorem isWritten_label {name : String} (position : Position)
    (h : (TokenKind.identifier name).Lexical) : (label name position).IsWritten limit := by
  have hcolon : Spells [':'] [.colon] := .punctuation rfl .nil
  refine ⟨_, (Spells.identifier h).append hcolon (by simp; decide), ?_⟩
  intro tokens htokens
  obtain ⟨start, rest, rfl, hrest⟩ := exists_of_map_kind_cons htokens
  obtain ⟨stop, rfl⟩ := exists_of_map_kind_singleton hrest
  exact ⟨label name start, rfl, .labels (.snoc name start stop .nil) (by simp)⟩

theorem isWritten_of_body {kinds : List TokenKind} {statement : Statement}
    (h : Body (some limit) kinds statement) (hkinds : ∀ kind ∈ kinds, kind.Lexical) :
    statement.IsWritten limit := by
  obtain ⟨written, hbody, hspells⟩ := h.exists_spells hkinds
  refine ⟨written, hspells, ?_⟩
  rintro tokens rfl
  exact ⟨statement, rfl, .body .nil hbody⟩

end Statement

theorem Grammar.Part.isWritten {part : List Token} {statement : Statement}
    (h : Part (some limit) part statement) (hpart : ∀ token ∈ part, token.kind.Lexical) :
    statement.IsWritten limit := by
  cases h with
  | label name position colon =>
    exact Statement.isWritten_label position (hpart _ List.mem_cons_self)
  | body hbody =>
    apply Statement.isWritten_of_body hbody
    intro kind hkind
    obtain ⟨token, htoken, rfl⟩ := List.mem_map.mp hkind
    exact hpart token htoken

/-- Every statement of a source text is written as a line for it. -/
theorem Grammar.Source.isWritten {tokens : List Token} {statements : List Statement}
    (h : Source (some limit) tokens statements)
    (htokens : ∀ token ∈ tokens, token.kind.Lexical) :
    ∀ statement ∈ statements, statement.IsWritten limit := by
  intro statement hmem
  obtain ⟨part, hpart, hinside⟩ := h.exists_part hmem
  exact hpart.isWritten fun token htoken => htokens token (hinside.mem htoken)

/-- A text that is cut into tokens is so as a line of its own. -/
theorem Spells.exists_lexLine {cs : List Char} {kinds : List TokenKind} (h : Spells cs kinds)
    (row : Nat) : ∃ tokens stop, tokens.map Token.kind = kinds ∧
      lexLine row cs = .ok (tokens ++ [⟨.lineEnd, stop⟩]) := by
  obtain ⟨tokens, hkinds, hlex⟩ := h.lexFrom_append row 1 [] (Stops.nil isWordChar)
  refine ⟨tokens, ⟨row, 1 + cs.length⟩, hkinds, ?_⟩
  rw [List.append_nil] at hlex
  rw [lexLine, hlex]
  rfl

/-- A text that is cut into tokens is so as a source text of one line. -/
theorem Spells.exists_lex {cs : List Char} {kinds : List TokenKind} (h : Spells cs kinds)
    (hne : cs ≠ []) : ∃ tokens stop, tokens.map Token.kind = kinds ∧
      lex (String.ofList cs) = .ok (tokens ++ [⟨.lineEnd, stop⟩]) := by
  have hlines : sourceLines (String.ofList cs) = [cs] := by
    rw [sourceLines, String.toList_ofList]
    exact splitLines_of_not_mem (fun hmem => (h.ne_lineEnd _ hmem).1 rfl) hne
  obtain ⟨tokens, stop, hkinds, hline⟩ := h.exists_lexLine 1
  refine ⟨tokens, stop, hkinds, ?_⟩
  rw [lex, hlines, lexLines, hline]
  simp [lexLines, Except.map]

namespace Statement

/-- A statement that is written as a line for it is read from its line. -/
theorem IsWritten.lexLine {statement : Statement} (h : statement.IsWritten limit) (row : Nat) :
    ∃ tokens stop again, lexLine row statement.chars = .ok (tokens ++ [⟨.lineEnd, stop⟩]) ∧
      again.unplaced = statement.unplaced ∧ Line (some limit) tokens [again] := by
  obtain ⟨kinds, hspells, hline⟩ := h
  obtain ⟨tokens, stop, hkinds, hlex⟩ := hspells.exists_lexLine row
  obtain ⟨again, hagain, hread⟩ := hline tokens hkinds
  exact ⟨tokens, stop, again, hlex, hagain, hread⟩

/-- Statements that are written as lines for them are read from their lines. -/
theorem exists_source_of_isWritten {statements : List Statement}
    (h : ∀ statement ∈ statements, statement.IsWritten limit) (row : Nat) :
    ∃ tokens again, lexLines row (statements.map chars) = .ok tokens ∧
      again.map unplaced = statements.map unplaced ∧ Source (some limit) tokens again := by
  induction statements generalizing row with
  | nil => exact ⟨[], [], rfl, rfl, .nil⟩
  | cons statement statements ih =>
    obtain ⟨front, stop, first, hlex, hfirst, hline⟩ := (h statement (by simp)).lexLine row
    obtain ⟨tokens, again, hlexes, hagain, hsource⟩ :=
      ih (fun statement hmem => h statement (by simp [hmem])) (row + 1)
    refine ⟨front ++ ⟨.lineEnd, stop⟩ :: tokens, [first] ++ again, ?_, ?_, .line stop hline hsource⟩
    -- Every line brings its own end, which the next line is read behind.
    · rw [List.map_cons, lexLines, hlex]
      simp [hlexes, Except.map]
    · simp [hfirst, hagain]

end Statement

/-- The lines of a source text that statements are written as are their texts. -/
theorem sourceLines_sourceText {statements : List Statement}
    (h : ∀ statement ∈ statements, statement.IsWritten limit) :
    sourceLines (Statement.sourceText statements) = statements.map Statement.chars := by
  rw [sourceLines, Statement.sourceText, String.toList_ofList]
  induction statements with
  | nil => rfl
  | cons statement statements ih =>
    obtain ⟨kinds, hspells, -⟩ := h statement (by simp)
    have hrest := ih fun statement hmem => h statement (by simp [hmem])
    rw [List.flatMap_cons, List.append_assoc, List.map_cons, ← hrest]
    exact splitLines_append hspells.ne_lineEnd _

/-- Writing what was read, one statement on each line, and reading it again gives the same
statements, labels up to their positions.  The text has no more lines than statements, and
its groups stay within the limit. -/
theorem statementsOf_sourceText (source : String) (statements : List Statement)
    (h : statementsOf source = .ok statements) :
    sourceLines (Statement.sourceText statements) = statements.map Statement.chars ∧
    ∃ again, statementsOf (Statement.sourceText statements) = .ok again ∧
      again.map Statement.unplaced = statements.map Statement.unplaced := by
  obtain ⟨tokens, hlex, hparse⟩ := statementsOf_eq_ok_iff.mp h
  -- The derivation behind what was read carries over to what is written.
  have hwritten := (source_of_parseStatements hparse).isWritten (lex_lexical hlex)
  have hlines := sourceLines_sourceText hwritten
  obtain ⟨written, again, hlexes, hagain, hsource⟩ :=
    Statement.exists_source_of_isWritten hwritten 1
  refine ⟨hlines, again, ?_, hagain⟩
  have hwords : lex (Statement.sourceText statements) = .ok written := by
    rw [lex, hlines, hlexes]
  exact statementsOf_eq_ok_iff.mpr ⟨written, hwords, hsource.parseStatements_eq⟩

/-- Groups, signs, both radixes, an offset and escapes in one source text. -/
theorem statementsOf_sourceText_of_mixed_source :
    let source := "l: add 1-(2-3)*-0x1F, -1.5, 4+k($sp)\n.asciiz \"a\\n\\\"b\"\n.data"
    let statements : List Statement :=
      [.label "l" ⟨1, 1⟩,
        .entry (.instruction ⟨"add", some
          [.binary .sub (.int 1) (.binary .mul (.binary .sub (.int 2) (.int 3)) (.hex (-31))),
            .float (.finite true ⟨4609434218613702656, by decide⟩),
            .indexed (.binary .add (.int 4) (.identifier "k")) (.register "$sp" .named)]⟩),
        .entry (.data ⟨.asciiz, .scalar (.text "a\n\"b")⟩),
        .segment ".data"]
    statementsOf source = .ok statements ∧
    sourceLines (Statement.sourceText statements) = statements.map Statement.chars ∧
    ∃ again, statementsOf (Statement.sourceText statements) = .ok again ∧
      again.map Statement.unplaced = statements.map Statement.unplaced := by
  intro source statements
  have hread : statementsOf source = .ok statements := by decide +kernel +zetaReduce
  exact ⟨hread, statementsOf_sourceText source statements hread⟩

end MipsAssembly
