import MipsAssembly.Proofs.Text.Quoted
import MipsAssembly.Proofs.Token.NumeralSpan
import MipsAssembly.Token.Lexer

/-!
# Spans of tokens

A span of a line spells a token if it has the form of one: a mark, a name, a numeral, or a text
between quotes whose escapes mean the text of the token.  A token is cut off where its span
cannot be made longer: a name, a directive or a numeral in front of no part of a word, a register
in front of no letter or digit.

## Main definitions

- `TokenKind.SpelledBy` — a span spells a token.
- `TokenKind.runsOn` — the characters that a token may not stand in front of.
- `readToken_eq_ok_iff` — the token that is cut off, and its span.
- `readToken_eq_error` — where cutting off a token fails.
-/

namespace MipsAssembly

/-! ## Characters of words -/

theorem isBlank_of_isWordChar {c : Char} (h : isWordChar c = true) : isBlank c = false := by
  by_contra hblank
  have hmem : c.toNat ∈ blankCodes := by simpa [isBlank] using hblank
  -- There are so few blank characters that each of them can be looked at.
  have hcodes : ∀ code ∈ blankCodes, isWordChar (Char.ofNat code) = false := by decide
  have hword := hcodes c.toNat hmem
  rw [Char.ofNat_toNat, h] at hword
  cases hword

theorem ofPunctuation?_of_isWordChar {c : Char} (h : isWordChar c = true) :
    TokenKind.ofPunctuation? c = none := by
  unfold TokenKind.ofPunctuation?
  split
  case h_10 => rfl
  all_goals cases h

theorem isWordChar_of_isAlphanum (c : Char) (h : c.isAlphanum = true) : isWordChar c = true := by
  simp [isWordChar, h]

/-- The first character of a name is part of a word. -/
theorem isWordChar_of_starts_name {c : Char} (h : (c.isAlpha || c = '_') = true) :
    isWordChar c = true := by
  rcases Bool.or_eq_true_iff.mp h with halpha | hunderscore
  · simp [isWordChar, Char.isAlphanum, halpha]
  · rw [of_decide_eq_true hunderscore]
    rfl

theorem isDigit_of_isAlpha {c : Char} (h : c.isAlpha = true) : c.isDigit = false := by
  have hletter : 'A'.val ≤ c.val := by
    rcases Bool.or_eq_true_iff.mp h with hupper | hlower
    · exact (of_decide_eq_true hupper).1
    · have hle := of_decide_eq_true (Bool.and_eq_true_iff.mp hlower).1
      exact UInt32.le_trans (by decide) hle
  rw [← Bool.not_eq_true]
  intro hdigit
  have hle := of_decide_eq_true (Bool.and_eq_true_iff.mp hdigit).2
  exact absurd (UInt32.le_trans hletter hle) (by decide)

/-! ## Spans -/

namespace TokenKind

/-- A span spells a token of a kind. -/
inductive SpelledBy : TokenKind → List Char → Prop where
  | punctuation {c : Char} {kind : TokenKind} : ofPunctuation? c = some kind → SpelledBy kind [c]
  | identifier {c : Char} {word : List Char} :
    (c.isAlpha || c = '_') = true → (∀ d ∈ word, isWordChar d = true) →
    SpelledBy (.identifier (String.ofList (c :: word))) (c :: word)
  | register {word : List Char} :
    word ≠ [] → (∀ d ∈ word, d.isAlphanum = true) →
    SpelledBy (.register (String.ofList ('$' :: word))) ('$' :: word)
  | directive {word : List Char} :
    word ≠ [] → (∀ d ∈ word, isWordChar d = true) →
    SpelledBy (.directive (String.ofList ('.' :: word))) ('.' :: word)
  | number {radix : Radix} {value : Number} {span : List Char} :
    value.SpelledBy radix span → SpelledBy (.number radix value) span
  | text {body content : List Char} :
    TextLiteral.Decodes body content →
    SpelledBy (.text (String.ofList content)) ('"' :: (body ++ ['"']))

/-- The characters that a token may not stand in front of, for they would belong to it. -/
def runsOn : TokenKind → Char → Bool
  | identifier _ | directive _ | number _ _ => isWordChar
  | register _ => Char.isAlphanum
  | _ => fun _ => false

theorem isWordChar_of_runsOn {kind : TokenKind} (c : Char) (h : kind.runsOn c = true) :
    isWordChar c = true := by
  cases kind with
  | identifier | directive | number => exact h
  | register => exact isWordChar_of_isAlphanum c h
  | _ => cases h

theorem runsOn_of_isBlank (kind : TokenKind) {c : Char} (h : isBlank c = true) :
    kind.runsOn c = false := by
  rw [← Bool.not_eq_true]
  intro hruns
  rw [isBlank_of_isWordChar (isWordChar_of_runsOn c hruns)] at h
  cases h

theorem stops_of_ofPunctuation? {c : Char} {kind : TokenKind} (h : ofPunctuation? c = some kind)
    (rest : List Char) : Stops kind.runsOn rest := by
  unfold ofPunctuation? at h
  split at h <;> cases h <;> exact fun _ _ => rfl

namespace SpelledBy

variable {kind : TokenKind} {span rest : List Char}

/-- No line end is spelled. -/
theorem ne_lineEnd (h : kind.SpelledBy span) : kind ≠ .lineEnd := by
  rintro rfl
  cases h with
  | punctuation h =>
    unfold ofPunctuation? at h
    split at h <;> cases h

/-- A span starts with a character that is neither white space nor starts a comment, and behind
that character the token is cut off. -/
theorem exists_cons (h : kind.SpelledBy span) :
    ∃ c word, span = c :: word ∧ isBlank c = false ∧ c ≠ '#' ∧
      ∀ rest, Stops kind.runsOn rest →
        readToken c (word ++ rest) = .ok (kind, word.length) := by
  cases h with
  | @punctuation c kind hc =>
    have hmark : isBlank c = false ∧ c ≠ '#' := by
      unfold ofPunctuation? at hc
      split at hc
      case h_10 => cases hc
      all_goals decide
    refine ⟨c, [], rfl, hmark.1, hmark.2, ?_⟩
    intro rest _
    simp [readToken, hc]
  | @identifier c word hfirst hword =>
    have hc := isWordChar_of_starts_name hfirst
    have hdigit : c.isDigit = false := by
      rcases Bool.or_eq_true_iff.mp hfirst with halpha | hunderscore
      · exact isDigit_of_isAlpha halpha
      · rw [of_decide_eq_true hunderscore]
        rfl
    have hmarks : c ≠ '"' ∧ c ≠ '$' ∧ c ≠ '.' ∧ c ≠ '#' := by
      refine ⟨?_, ?_, ?_, ?_⟩ <;> rintro rfl <;> cases hfirst
    obtain ⟨hquote, hdollar, hdot, hcomment⟩ := hmarks
    refine ⟨c, word, rfl, isBlank_of_isWordChar hc, hcomment, ?_⟩
    intro rest hrest
    have htake := Stops.takeWhile_append (p := isWordChar) hrest hword
    simp [readToken, ofPunctuation?_of_isWordChar hc, hdigit, hquote, hdollar, hdot, hfirst, htake]
  | @register word hne hword =>
    refine ⟨'$', word, rfl, rfl, by decide, ?_⟩
    intro rest hrest
    have htake := Stops.takeWhile_append (p := Char.isAlphanum) hrest hword
    simp [readToken, ofPunctuation?, htake, hne]
  | @directive word hne hword =>
    refine ⟨'.', word, rfl, rfl, by decide, ?_⟩
    intro rest hrest
    have htake := Stops.takeWhile_append (p := isWordChar) hrest hword
    simp [readToken, ofPunctuation?, htake, hne]
  | number hnumber =>
    obtain ⟨c, word, rfl, hdigit⟩ := hnumber.exists_cons
    have hc := isWordChar_of_isDigit c hdigit
    refine ⟨c, word, rfl, isBlank_of_isWordChar hc, ?_, ?_⟩
    · rintro rfl
      cases hdigit
    · intro rest hrest
      have hread := hnumber.readNumeral_append hrest
      rw [List.cons_append] at hread
      simp [readToken, ofPunctuation?_of_isWordChar hc, hdigit, hread]
  | @text body content hbody =>
    refine ⟨'"', body ++ ['"'], rfl, rfl, by decide, ?_⟩
    intro rest _
    have hread := hbody.read_append rest
    simp [readToken, ofPunctuation?, hread]

end SpelledBy

end TokenKind

/-- The token that starts with a character is cut off with the span that spells it and cannot be
made longer. -/
theorem readToken_eq_ok_iff {c : Char} {cs : List Char} {kind : TokenKind} {more : Nat} :
    readToken c cs = .ok (kind, more) ↔
      ∃ word rest, cs = word ++ rest ∧ more = word.length ∧ kind.SpelledBy (c :: word) ∧
        Stops kind.runsOn rest := by
  constructor
  · intro h
    unfold readToken at h
    split at h
    · next hmark =>
      cases h
      exact ⟨[], cs, rfl, rfl, .punctuation hmark, TokenKind.stops_of_ofPunctuation? hmark cs⟩
    · dsimp only at h
      split_ifs at h with hdigit hquote hdollar hname hdot hname' hfirst
      · split at h
        · next numeral length hnumeral =>
          cases h
          obtain ⟨radix, value, span, rest, rfl, hspan, rfl, hspelled, hrest⟩ :=
            (readNumeral_eq_ok_iff ⟨c, cs, rfl, hdigit⟩).mp hnumeral
          obtain ⟨d, word, rfl, -⟩ := hspelled.exists_cons
          obtain ⟨rfl, rfl⟩ := List.cons.inj hspan
          exact ⟨word, rest, rfl, rfl, .number hspelled, hrest⟩
        · cases h
      · subst hquote
        have hreading := TextLiteral.reading_go 0 cs
        rw [TextLiteral.read] at h
        generalize TextLiteral.read.go 0 cs = result at h hreading
        cases hreading with
        | @closed body content rest hbody =>
          cases h
          refine ⟨body ++ ['"'], rest, by simp, by simp, .text hbody, ?_⟩
          exact fun _ _ => rfl
        | refused => cases h
        | unterminated => cases h
      · subst hdollar
        cases h
        exact ⟨_, _, List.takeWhile_append_dropWhile.symm, rfl,
          .register (by simpa using hname) (fun _ => List.mem_takeWhile_imp), .dropWhile _ cs⟩
      · subst hdot
        cases h
        exact ⟨_, _, List.takeWhile_append_dropWhile.symm, rfl,
          .directive (by simpa using hname') (fun _ => List.mem_takeWhile_imp), .dropWhile _ cs⟩
      · cases h
        exact ⟨_, _, List.takeWhile_append_dropWhile.symm, rfl,
          .identifier hfirst (fun _ => List.mem_takeWhile_imp), .dropWhile _ cs⟩
  · rintro ⟨word, rest, rfl, rfl, hspelled, hrest⟩
    obtain ⟨d, word', heq, -, -, hread⟩ := hspelled.exists_cons
    obtain ⟨rfl, rfl⟩ := List.cons.inj heq
    exact hread rest hrest

/-- Where no token is cut off, it is for its first character, unless that opens a text: then it may
be for a backslash behind characters that mean something. -/
theorem readToken_eq_error {c : Char} {cs : List Char} {fault : LexicalFault} {distance : Nat}
    (h : readToken c cs = .error (fault, distance)) :
    distance = 0 ∧ (∀ d, fault ≠ .invalidEscape d) ∨
      c = '"' ∧ ∃ body content d rest, fault = .invalidEscape d ∧
        cs = body ++ '\\' :: d :: rest ∧ TextLiteral.Decodes body content ∧
        distance = body.length + 1 := by
  unfold readToken at h
  split at h
  · cases h
  · dsimp only at h
    split_ifs at h with hdigit hquote
    · split at h
      · cases h
      · cases h
        exact .inl ⟨rfl, fun d hfault => by cases hfault⟩
    · have hreading := TextLiteral.reading_go 0 cs
      rw [TextLiteral.read] at h
      generalize TextLiteral.read.go 0 cs = result at h hreading
      cases hreading with
      | closed => cases h
      | @refused body content rest d hbody =>
        cases h
        exact .inr ⟨hquote, body, content, d, rest, rfl, rfl, hbody, by omega⟩
      | unterminated =>
        cases h
        exact .inl ⟨rfl, fun d hfault => by cases hfault⟩
    all_goals
      cases h
      exact .inl ⟨rfl, fun d hfault => by cases hfault⟩

end MipsAssembly
