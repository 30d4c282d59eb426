import MipsAssembly.Proofs.Number
import MipsAssembly.Proofs.Text.Quoted
import MipsAssembly.Proofs.Token.Cut

/-!
# Spellings

A text spells a row of tokens if it is cut into them wherever it stands in a line, as long as
what follows is no part of a word.  Spellings can be put behind each other where a word does
not run into the next one, so the spelling of a whole line is put together from the spellings
of its parts.

## Main definitions

- `Spells` — a text on one line is cut into tokens of the given kinds.
- `Spells.append`, `Spells.punctuation`, `Spells.space` — how spellings are put together.
- `TokenKind.Lexical` — the tokens that a spelling has.
- `lex_lexical` — cutting a text makes only such tokens.
-/

namespace MipsAssembly

/-- On a line, a text is cut into tokens of the given kinds, whatever follows that is no part
of a word; and the text ends no line. -/
structure Spells (cs : List Char) (kinds : List TokenKind) : Prop where
  /-- The text stays on its line. -/
  ne_lineEnd : ∀ c ∈ cs, c ≠ '\n' ∧ c ≠ '\r'
  /-- The text is cut into the tokens, and cutting goes on behind it. -/
  lexFrom_append : ∀ row column rest, Stops isWordChar rest →
    ∃ tokens : List Token, tokens.map Token.kind = kinds ∧
      lexFrom row column 0 (cs ++ rest) =
        (lexFrom row (column + cs.length) 0 rest).map (tokens ++ ·)

namespace Spells

variable {cs ds : List Char} {kinds others : List TokenKind}

/-- One more token in front of a spelling, where its span ends. -/
theorem span {kind : TokenKind} {word : List Char} (hword : kind.SpelledBy word)
    (hlines : ∀ d ∈ word, d ≠ '\n' ∧ d ≠ '\r') (h : Spells ds kinds)
    (hstops : ∀ rest, Stops isWordChar rest → Stops kind.runsOn (ds ++ rest)) :
    Spells (word ++ ds) (kind :: kinds) := by
  refine ⟨?_, ?_⟩
  · intro d hd
    rcases List.mem_append.mp hd with hd | hd
    · exact hlines d hd
    · exact h.ne_lineEnd d hd
  · intro row column rest hrest
    obtain ⟨tokens, hkinds, hlex⟩ := h.lexFrom_append row (column + word.length) rest hrest
    refine ⟨⟨kind, ⟨row, column⟩⟩ :: tokens, by rw [List.map_cons, hkinds], ?_⟩
    rw [List.append_assoc, hword.lexFrom_append (hstops rest hrest), hlex, List.length_append,
      ← Nat.add_assoc]
    exact map_append_append [_] tokens _

theorem nil : Spells [] [] := by
  refine ⟨by simp, ?_⟩
  intro row column rest _
  refine ⟨[], rfl, ?_⟩
  exact (map_nil_append _).symm

/-- Spellings behind each other, where no word runs on. -/
theorem append (h : Spells cs kinds) (h' : Spells ds others) (hds : Stops isWordChar ds) :
    Spells (cs ++ ds) (kinds ++ others) := by
  refine ⟨?_, ?_⟩
  · intro d hd
    rcases List.mem_append.mp hd with hd | hd
    · exact h.ne_lineEnd d hd
    · exact h'.ne_lineEnd d hd
  · intro row column rest hrest
    -- The second text is what follows the first one, and starts no part of a word.
    obtain ⟨tokens, hkinds, hlex⟩ := h.lexFrom_append row column (ds ++ rest) (hds.append hrest)
    obtain ⟨more, hothers, hlex'⟩ := h'.lexFrom_append row (column + cs.length) rest hrest
    refine ⟨tokens ++ more, by rw [List.map_append, hkinds, hothers], ?_⟩
    rw [List.append_assoc, hlex, hlex', List.length_append, ← Nat.add_assoc]
    exact map_append_append tokens more _

theorem space (h : Spells cs kinds) : Spells (' ' :: cs) kinds := by
  refine ⟨?_, ?_⟩
  · intro d hd
    rcases List.mem_cons.mp hd with rfl | hd
    · decide
    · exact h.ne_lineEnd d hd
  · intro row column rest hrest
    obtain ⟨tokens, hkinds, hlex⟩ := h.lexFrom_append row (column + 1) rest hrest
    refine ⟨tokens, hkinds, ?_⟩
    have hcolumn : column + (' ' :: cs).length = column + 1 + cs.length :=
      Nat.add_right_comm column cs.length 1
    rw [hcolumn, ← hlex]
    rfl

/-- A character that makes a token on its own in front of a spelling. -/
theorem punctuation {c : Char} {kind : TokenKind} (hc : TokenKind.ofPunctuation? c = some kind)
    (h : Spells cs kinds) : Spells (c :: cs) (kind :: kinds) := by
  have hline : c ≠ '\n' ∧ c ≠ '\r' := by
    unfold TokenKind.ofPunctuation? at hc
    split at hc
    case h_10 => cases hc
    all_goals decide
  have hlines : ∀ d ∈ [c], d ≠ '\n' ∧ d ≠ '\r' := by simpa using hline
  exact span (.punctuation hc) hlines h fun _ _ => TokenKind.stops_of_ofPunctuation? hc _

end Spells

theorem ne_lineEnd_of_isWordChar {c : Char} (h : isWordChar c = true) : c ≠ '\n' ∧ c ≠ '\r' := by
  constructor
  · rintro rfl
    cases h
  · rintro rfl
    cases h

/-- What the tokens of a spelling hold: names of words, and numbers that have a numeral. -/
def TokenKind.Lexical : TokenKind → Prop
  | identifier name => ∃ c word, name.toList = c :: word ∧ (c.isAlpha || c = '_') = true ∧
      ∀ d ∈ word, isWordChar d = true
  | register name => ∃ word, name.toList = '$' :: word ∧ word ≠ [] ∧
      ∀ d ∈ word, d.isAlphanum = true
  | number radix value => value.Readable radix
  | _ => True

/-- The numeral of such a number is a span that spells it. -/
theorem Number.Readable.spelledBy_charsIn {radix : Radix} {value : Number}
    (h : value.Readable radix) : value.SpelledBy radix (value.charsIn radix) := by
  have hread := h.readNumeral (.nil isWordChar)
  rw [List.append_nil] at hread
  obtain ⟨radix', value', span, rest, hkind, hchars, hlength, hspelled, -⟩ :=
    (readNumeral_eq_ok_iff h.exists_cons).mp hread
  obtain ⟨rfl, rfl⟩ := TokenKind.number.inj hkind
  obtain rfl : rest = [] := by
    rw [hchars, List.length_append] at hlength
    exact List.length_eq_zero_iff.mp (by omega)
  rwa [hchars, List.append_nil]

/-- A numeral stands for a number without a sign that is in range. -/
theorem Number.SpelledBy.readable {radix : Radix} {value : Number} {span : List Char}
    (h : value.SpelledBy radix span) : value.Readable radix := by
  cases h with
  | hexadecimal _ _ _ hbound => exact ⟨_, hbound, rfl⟩
  | integer _ _ hbound => exact ⟨_, hbound, rfl⟩
  | real => exact ⟨_, rfl⟩

namespace Spells

/-- A span is a spelling of its token. -/
theorem single {kind : TokenKind} {word : List Char} (hword : kind.SpelledBy word)
    (hlines : ∀ d ∈ word, d ≠ '\n' ∧ d ≠ '\r') : Spells word [kind] := by
  have h := span hword hlines nil fun rest hrest => hrest.mono TokenKind.isWordChar_of_runsOn
  rwa [List.append_nil] at h

/-- A span is a spelling of its token if all its characters but the first are parts of words. -/
theorem ofWord {kind : TokenKind} {c : Char} {word : List Char}
    (hspelled : kind.SpelledBy (c :: word)) (hc : c ≠ '\n' ∧ c ≠ '\r')
    (hword : ∀ d ∈ word, isWordChar d = true) : Spells (c :: word) [kind] := by
  refine single hspelled (List.forall_mem_cons.mpr ⟨hc, ?_⟩)
  exact fun d hd => ne_lineEnd_of_isWordChar (hword d hd)

theorem identifier {name : String} (h : (TokenKind.identifier name).Lexical) :
    Spells name.toList [.identifier name] := by
  obtain ⟨c, word, hname, hfirst, hword⟩ := h
  obtain rfl : name = String.ofList (c :: word) := by rw [← hname, String.ofList_toList]
  have hc : c ≠ '\n' ∧ c ≠ '\r' := by
    constructor
    · rintro rfl
      cases hfirst
    · rintro rfl
      cases hfirst
  rw [String.toList_ofList]
  exact ofWord (.identifier hfirst hword) hc hword

theorem register {name : String} (h : (TokenKind.register name).Lexical) :
    Spells name.toList [.register name] := by
  obtain ⟨word, hname, hne, hword⟩ := h
  obtain rfl : name = String.ofList ('$' :: word) := by rw [← hname, String.ofList_toList]
  rw [String.toList_ofList]
  refine ofWord (.register hne hword) (by decide) ?_
  exact fun d hd => isWordChar_of_isAlphanum d (hword d hd)

theorem directive {name : String} {word : List Char} (hname : name.toList = '.' :: word)
    (hne : word ≠ []) (hword : ∀ d ∈ word, isWordChar d = true) :
    Spells name.toList [.directive name] := by
  obtain rfl : name = String.ofList ('.' :: word) := by rw [← hname, String.ofList_toList]
  rw [String.toList_ofList]
  exact ofWord (.directive hne hword) (by decide) hword

theorem text (content : String) :
    Spells (TextLiteral.write content.toList) [.text content] := by
  have hspelled := TokenKind.SpelledBy.text (TextLiteral.decodes_flatMap_writeChar content.toList)
  rw [String.ofList_toList] at hspelled
  refine single hspelled ?_
  intro d hd
  simp only [TextLiteral.write, List.mem_cons, List.mem_append, List.mem_flatMap,
    List.not_mem_nil, or_false] at hd
  rcases hd with rfl | ⟨c, -, hd⟩ | rfl
  · decide
  · exact TextLiteral.ne_lineEnd_of_mem_writeChar hd
  · decide

theorem number {radix : Radix} {value : Number} (h : value.Readable radix) :
    Spells (value.charsIn radix) [.number radix value] := by
  have hspelled := h.spelledBy_charsIn
  refine single (.number hspelled) ?_
  have hsigns : ∀ sign ∈ ['+', '-'], sign ≠ '\n' ∧ sign ≠ '\r' := by simp
  intro d hd
  rcases hspelled.mem_span d hd with hword | hsign
  · exact ne_lineEnd_of_isWordChar hword
  · exact hsigns d hsign

end Spells

/-- What a span spells has a spelling. -/
theorem TokenKind.SpelledBy.lexical {kind : TokenKind} {word : List Char}
    (h : kind.SpelledBy word) : kind.Lexical := by
  cases h with
  | punctuation hc =>
    unfold ofPunctuation? at hc
    split at hc <;> cases hc <;> trivial
  | identifier hfirst hword => exact ⟨_, _, String.toList_ofList, hfirst, hword⟩
  | register hne hword => exact ⟨_, String.toList_ofList, hne, hword⟩
  | number hnumber => exact hnumber.readable
  | directive | text => trivial

theorem Piece.lexical_of_mem_tokensFrom {row column : Nat} {ps : List Piece} {token : Token}
    (h : token ∈ tokensFrom row column ps) : token.kind.Lexical := by
  induction ps generalizing column with
  | nil => cases h
  | cons p ps ih =>
    rcases List.mem_cons.mp h with rfl | h
    · exact p.spelled.lexical
    · exact ih h

/-- Cutting a source text makes only tokens that a spelling has. -/
theorem lex_lexical {source : String} {tokens : List Token} (h : lex source = .ok tokens) :
    ∀ token ∈ tokens, token.kind.Lexical := by
  obtain ⟨cuts, -, rfl⟩ := lexLines_eq_ok_iff.mp h
  intro token htoken
  obtain ⟨⟨cut, row⟩, -, htoken⟩ := List.mem_flatMap.mp htoken
  rcases List.mem_append.mp htoken with hpiece | hend
  · exact Piece.lexical_of_mem_tokensFrom hpiece
  · rw [List.mem_singleton.mp hend]
    trivial

end MipsAssembly
