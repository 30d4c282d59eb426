import MipsAssembly.Proofs.Assembly.SyntaxErrors
import MipsAssembly.Proofs.Assembly.ErrorPositions
import MipsAssembly.Proofs.Text.Lines
import MipsAssembly.Proofs.Token.Spelling

/-!
# Messages stay on one line

What a message quotes from a source text stands on one of its lines, and the texts that tokens
stand for are quoted with their line feeds escaped.  So no message breaks a line.

## Main definitions

- `OneLine` — a text without line feeds.
- `LexicalFault.oneLine_message`, `SyntaxError.Rejects.oneLine_message` — messages of errors.
- `oneLine_message_of_parse` — the message of a source text that is refused.
-/

namespace MipsAssembly

/-- A text without line feeds. -/
def OneLine (text : String) : Prop :=
  '\n' ∉ text.toList

instance (text : String) : Decidable (OneLine text) :=
  inferInstanceAs (Decidable ('\n' ∉ text.toList))

namespace OneLine

theorem append {a b : String} (ha : OneLine a) (hb : OneLine b) : OneLine (a ++ b) := by
  rw [OneLine, String.toList_append, List.mem_append, not_or]
  exact ⟨ha, hb⟩

theorem ofList {cs : List Char} (h : '\n' ∉ cs) : OneLine (String.ofList cs) := by
  rwa [OneLine, String.toList_ofList]

theorem singleton {c : Char} (h : '\n' ≠ c) : OneLine (String.singleton c) := by
  rw [String.singleton_eq_ofList]
  exact ofList (by simpa using h)

end OneLine

theorem lineFeed_not_mem_of_isWordChar {word : List Char} (h : ∀ c ∈ word, isWordChar c = true) :
    '\n' ∉ word :=
  fun hmem => (ne_lineEnd_of_isWordChar (h _ hmem)).1 rfl

theorem Position.oneLine_text (p : Position) : OneLine p.text := by
  have hdigits (n : Nat) : OneLine (toString n) := by
    have htext : (toString n).toList = Numeral.decimal n := by simp [Numeral.decimal]
    rw [OneLine, htext]
    exact lineFeed_not_mem_of_isWordChar fun c hc =>
      isWordChar_of_isDigit c (Numeral.isDigit_of_mem_decimal n c hc)
  exact ((hdigits p.line).append (by decide)).append (hdigits p.column)

/-! ## Spelling -/

/-- The spelling that is complained about is made of the characters that are there. -/
theorem lineFeed_not_mem_of_readNumeral {cs spelling : List Char}
    (h : readNumeral cs = .error spelling) (hcs : '\n' ∉ cs) : '\n' ∉ spelling := by
  have htail (rest : List Char) : '\n' ∉ rest.takeWhile isWordChar :=
    lineFeed_not_mem_of_isWordChar fun _ => List.mem_takeWhile_imp
  have hhexadecimal {digits : List Char} (h : readHexadecimal digits = .error spelling) :
      '\n' ∉ spelling := by
    unfold readHexadecimal at h
    dsimp only at h
    split at h
    · cases h
      have hdigits : '\n' ∉ digits.takeWhile isHexDigit :=
        lineFeed_not_mem_of_isWordChar fun c hc =>
          isWordChar_of_isHexDigit c (List.mem_takeWhile_imp hc)
      simp [hdigits, htail]
    · cases h
  have hdecimal (h : readDecimal cs = .error spelling) : '\n' ∉ spelling := by
    obtain ⟨-, -, rest, -, -, -, hparts⟩ := DecimalNumeral.longest_spec cs
    have hspelling : '\n' ∉ (DecimalNumeral.longest cs).spelling := by
      intro hmem
      rw [hparts] at hcs
      exact hcs (List.mem_append_left rest hmem)
    have hall (rest : List Char) : '\n' ∉
        (DecimalNumeral.longest cs).spelling ++ rest.takeWhile isWordChar :=
      List.mem_append.not.mpr (not_or.mpr ⟨hspelling, htail rest⟩)
    unfold readDecimal at h
    dsimp only at h
    split at h
    · split at h
      · cases h
      · cases h
        exact hall _
    · cases h
      exact hall _
  unfold readNumeral at h
  split at h
  · exact hhexadecimal (eq_error_of_map_eq_error h)
  · exact hhexadecimal (eq_error_of_map_eq_error h)
  · exact hdecimal h

/-- What no token can be cut off is quoted from its line. -/
theorem LexicalFault.oneLine_message {c : Char} {cs : List Char} {fault : LexicalFault}
    {distance : Nat} (h : readToken c cs = .error (fault, distance)) (hline : '\n' ∉ c :: cs) :
    OneLine fault.message := by
  obtain ⟨hc, hcs⟩ := not_or.mp (mt List.mem_cons.mpr hline)
  unfold readToken at h
  split at h
  · cases h
  · dsimp only at h
    split_ifs at h
    · split at h
      · cases h
      · next spelling hread =>
        cases h
        have hspelling := OneLine.ofList (lineFeed_not_mem_of_readNumeral hread hline)
        exact (OneLine.append (by decide) hspelling).append (by decide)
    · have hreading := TextLiteral.reading_go 0 cs
      rw [TextLiteral.read] at h
      generalize TextLiteral.read.go 0 cs = result at h hreading
      cases hreading with
      | closed => cases h
      | @refused body content rest d hbody =>
        cases h
        have hd : '\n' ≠ d := by
          rintro rfl
          simp at hcs
        exact (OneLine.append (by decide) (.singleton hd)).append (by decide)
      | unterminated =>
        cases h
        show OneLine "Unterminated string literal"
        decide
    · cases h
      show OneLine "Register name required after `$`"
      decide
    · cases h
      show OneLine "Directive name required after `.`"
      decide
    · cases h
      exact (OneLine.append (by decide) (.singleton hc)).append (by decide)

/-- The message of a line that is refused. -/
theorem oneLine_message_of_lexLine {row : Nat} {line : List Char} {e : LexicalError}
    (h : lexLine row line = .error e) (hline : '\n' ∉ line) : OneLine e.fault.message := by
  rcases exists_cut_or_stuck line with
    ⟨cut, rfl⟩ | ⟨ps, rest, fault, distance, rfl, hapart, hstuck⟩
  · rw [cut.lexLine_text] at h
    cases h
  · rw [hstuck.lexLine_append hapart] at h
    obtain rfl := Except.error.inj h
    obtain ⟨gap, c, more, rfl, -, -, -, behind, hread, -⟩ := hstuck
    refine LexicalFault.oneLine_message hread fun hmem => hline ?_
    exact List.mem_append_right _ (List.mem_append_right gap hmem)

theorem oneLine_message_of_lex {source : String} {e : LexicalError} (h : lex source = .error e) :
    OneLine e.fault.message := by
  obtain ⟨before, line, after, -, hlines, -, hline⟩ := exists_of_lexLines_eq_error h
  have hmem : line ∈ sourceLines source := by
    rw [hlines]
    exact List.mem_append_right before List.mem_cons_self
  exact oneLine_message_of_lexLine hline (lineFeed_not_mem_of_mem_splitLines hmem)

/-! ## Syntax -/

theorem lineFeed_not_mem_quoteForMessage (text : List Char) : '\n' ∉ quoteForMessage text := by
  have hchar (c : Char) : '\n' ∉ quoteChar c := by
    unfold quoteChar
    split
    · next e hescape => simp [Ne.symm (TextLiteral.ne_lineEnd_of_escapeOf? hescape).1]
    · next hnone =>
      have hc : '\n' ≠ c := by
        rintro rfl
        cases hnone
      have hdigits :=
        Numeral.forall_mem_toDigits (by decide : 1 < 16) (· ≠ '\n') (by decide) c.toNat
      split
      · simpa using hc
      · simpa [Numeral.smallHexadecimal] using fun hmem => hdigits _ hmem rfl
  simp [quoteForMessage, hchar]

/-- A number is written without line feeds. -/
theorem Number.Readable.lineFeed_not_mem_chars {radix : Radix} {value : Number}
    (h : value.Readable radix) : '\n' ∉ value.chars := by
  have hdecimal (n : Nat) : '\n' ∉ Numeral.decimal n := fun hmem => by
    cases Numeral.isDigit_of_mem_decimal n _ hmem
  cases value with
  | integer i =>
    show '\n' ∉ Numeral.signed i
    unfold Numeral.signed
    split
    · simp [hdecimal]
    · exact hdecimal _
  | real x =>
    cases radix with
    | decimal => exact fun hmem => ((Spells.number h).ne_lineEnd _ hmem).1 rfl
    | hexadecimal => exact h.elim

/-- The name of a directive stays on its line. -/
theorem TokenKind.SpelledBy.oneLine_directive {name : String} {span : List Char}
    (h : (TokenKind.directive name).SpelledBy span) : OneLine name := by
  generalize hkind : TokenKind.directive name = kind at h
  cases h with
  | directive _ hword =>
    cases hkind
    exact .ofList (lineFeed_not_mem_of_isWordChar
      (List.forall_mem_cons.mpr ⟨rfl, hword⟩))
  | punctuation hc =>
    subst hkind
    unfold ofPunctuation? at hc
    split at hc <;> cases hc
  | _ => cases hkind

/-- A token is described on one line. -/
theorem TokenKind.SpelledBy.oneLine_describe {kind : TokenKind} {span : List Char}
    (h : kind.SpelledBy span) : OneLine kind.describe := by
  have hquoted {what text : String} (hwhat : OneLine what) (htext : OneLine text) :
      OneLine (what ++ text ++ "`") :=
    (hwhat.append htext).append (by decide)
  cases h with
  | @punctuation c kind hc =>
    unfold ofPunctuation? at hc
    split at hc <;> cases hc <;> decide
  | @identifier c word hfirst hword =>
    have hc := isWordChar_of_starts_name hfirst
    have hname := lineFeed_not_mem_of_isWordChar (List.forall_mem_cons.mpr ⟨hc, hword⟩)
    exact hquoted (by decide) (.ofList hname)
  | @register word _ hword =>
    have hname : '\n' ∉ '$' :: word := by
      have hrun :=
        lineFeed_not_mem_of_isWordChar fun c hc => isWordChar_of_isAlphanum c (hword c hc)
      simpa using hrun
    exact hquoted (by decide) (.ofList hname)
  | directive hne hword => exact hquoted (by decide) (oneLine_directive (.directive hne hword))
  | number hnumber => exact hquoted (by decide) (.ofList hnumber.readable.lineFeed_not_mem_chars)
  | @text body content =>
    exact OneLine.append (by decide) (.ofList (lineFeed_not_mem_quoteForMessage _))

theorem Phase.oneLine_expected (p : Phase) : OneLine p.expected := by
  unfold expected
  split <;> decide

/-- A token that is rejected is described on one line, and so is what is wrong with it. -/
theorem SyntaxError.Rejects.oneLine_message {e : SyntaxError} {token : Token}
    (h : e.Rejects token) (htoken : token.kind = .lineEnd ∨ ∃ span, token.kind.SpelledBy span) :
    OneLine e.message := by
  have hdescribe : OneLine token.kind.describe := by
    rcases htoken with hkind | ⟨span, hspelled⟩
    · rw [hkind]
      decide
    · exact hspelled.oneLine_describe
  have hfound {expected : String} (hexpected : OneLine expected) :
      OneLine ("Expected " ++ expected ++ ", found " ++ token.kind.describe) :=
    ((OneLine.append (by decide) hexpected).append (by decide)).append hdescribe
  cases h with
  | refuse p => exact hfound p.oneLine_expected
  | openGroup => exact hfound (by decide)
  | directive hkind =>
    rw [hkind] at htoken
    rcases htoken with hend | ⟨span, hspelled⟩
    · cases hend
    · exact (OneLine.append (by decide) hspelled.oneLine_directive).append (by decide)

/-- A token of a source text is a line end or is spelled. -/
theorem eq_lineEnd_or_spelledBy_of_mem {source : String} {tokens : List Token} {token : Token}
    (hlex : lex source = .ok tokens) (h : token ∈ tokens) :
    token.kind = .lineEnd ∨ ∃ span, token.kind.SpelledBy span := by
  obtain ⟨cuts, -, rfl⟩ := lexLines_eq_ok_iff.mp hlex
  obtain ⟨i, cut, -, hmem⟩ := LineCut.exists_of_mem_tokensOf h
  rcases List.mem_append.mp hmem with hpiece | hend
  · obtain ⟨p, -, hp⟩ := Piece.exists_of_mem_tokensFrom hpiece
    exact .inr ⟨p.span, hp ▸ p.spelled⟩
  · rw [List.mem_singleton.mp hend]
    exact .inl rfl

theorem oneLine_message_of_parseStatements {source : String} {tokens : List Token}
    {e : SyntaxError} (hlex : lex source = .ok tokens) (h : parseStatements tokens = .error e) :
    OneLine e.message := by
  obtain ⟨front, token, behind, -, q, htokens, -, hnext⟩ :=
    (endsLine_of_lexLines hlex).exists_refused_token h
  have hmem : token ∈ tokens := by
    rw [htokens]
    exact List.mem_append_right front List.mem_cons_self
  exact (Phase.rejects_next hnext).oneLine_message (eq_lineEnd_or_spelledBy_of_mem hlex hmem)

theorem DeclaresAt.oneLine_name {source name : String} {p : Position}
    (h : DeclaresAt source name p) : OneLine name := by
  obtain ⟨-, -, -, -, -, -, -, tokens, hlex, hmem⟩ := h
  have hname : (TokenKind.identifier name).Lexical := lex_lexical hlex _ hmem
  exact fun hfeed => ((Spells.identifier hname).ne_lineEnd _ hfeed).1 rfl

/-- No message of a source text that is refused breaks a line. -/
theorem oneLine_message_of_parse {source : String} {e : Error} (h : parse source = .error e) :
    OneLine e.message := by
  rcases parse_eq_error_cases h with ⟨e, hlex, rfl⟩ | ⟨tokens, hlex, hrest⟩
  · exact oneLine_message_of_lex hlex
  rcases hrest with ⟨e, hparse, rfl⟩ | ⟨statements, e, hparse, hresolve, rfl⟩
  · exact oneLine_message_of_parseStatements hlex hparse
  · obtain ⟨-, hdeclared, -⟩ := before_of_resolve_eq_error hlex hparse hresolve
    have hname : OneLine e.name := hdeclared.oneLine_name
    exact (((OneLine.append (by decide) hname).append (by decide)).append
      e.first.oneLine_text).append (by decide)

end MipsAssembly
