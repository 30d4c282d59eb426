import MipsAssembly.Proofs.Render.Statement

/-!
# Written integers and their range

An integer is written with its sign in front of the numeral of its magnitude.  Read back, the
numeral comes first and has to be in range on its own, without regard to the sign in front of it.
So every integer of 64 bits is read back but the least one, whose magnitude is one more than the
greatest integer.

## Main definitions

- `Operand.IsAlone` — an instruction or a `.word` directive with a single operand.
- `Statement.IsWritten.statementsOf_chars` — a statement that is written as a line is read alone.
- `Number.readNumeral_charsIn_of_le` — numerals out of range are refused.
- `statementsOf_render_integer` — which integers are read back.
-/

namespace MipsAssembly

open Grammar

/-- A statement that is written as a line for it is read from a text of this line. -/
theorem Statement.IsWritten.statementsOf_chars {statement : Statement}
    (h : statement.IsWritten maxDepth) (hne : statement.chars ≠ []) :
    ∃ again : Statement, again.unplaced = statement.unplaced ∧
      statementsOf (String.ofList statement.chars) = .ok [again] := by
  obtain ⟨kinds, hspells, hline⟩ := h
  obtain ⟨tokens, stop, hkinds, hlex⟩ := hspells.exists_lex hne
  obtain ⟨again, hagain, hread⟩ := hline tokens hkinds
  have hsource : Source (some maxDepth) (tokens ++ [⟨.lineEnd, stop⟩]) [again] :=
    .line stop hread .nil
  exact ⟨again, hagain, statementsOf_eq_ok_iff.mpr ⟨_, hlex, hsource.parseStatements_eq⟩⟩

/-! ## Operands that stand alone -/

/-- Behind a name, an operand is the only one of an instruction or of a `.word` directive. -/
inductive Operand.IsAlone (operand : Operand) : (name : String) → Entry → Prop where
  | instruction {opcode : String} :
    (TokenKind.identifier opcode).Lexical →
    IsAlone operand opcode (.instruction (.ofOperands opcode [operand]))
  | word : IsAlone operand ".word" (.data ⟨.word, .scalar operand⟩)

namespace Operand.IsAlone

variable {operand : Operand} {name : String} {entry : Entry}

theorem chars_eq (h : operand.IsAlone name entry) :
    entry.chars = name.toList ++ ' ' :: operand.chars := by
  cases h <;> rfl

theorem render_eq (h : operand.IsAlone name entry) :
    entry.render = name ++ " " ++ operand.render := by
  have hspace : " " = String.ofList [' '] := rfl
  rw [Entry.render, h.chars_eq, Operand.render, hspace, ← List.singleton_append,
    String.ofList_append, String.ofList_append, String.ofList_toList, String.append_assoc]

/-- The name in front is a token of its own. -/
theorem exists_spelledBy (h : operand.IsAlone name entry) :
    (∃ kind : TokenKind, kind.SpelledBy name.toList) ∧ ∀ c ∈ name.toList, isWordChar c = true := by
  cases h with
  | instruction hname =>
    obtain ⟨c, word, hname, hfirst, hword⟩ := hname
    rw [hname]
    exact ⟨⟨_, .identifier hfirst hword⟩,
      List.forall_mem_cons.mpr ⟨isWordChar_of_starts_name hfirst, hword⟩⟩
  | word =>
    exact ⟨⟨_, .directive (List.cons_ne_nil _ _) (List.all_eq_true.mp rfl)⟩,
      List.all_eq_true.mp rfl⟩

theorem isWritten {limit : Nat} {kinds : List TokenKind} (h : operand.IsAlone name entry)
    (hexpression : Expression (some limit) .sum 0 kinds operand)
    (hkinds : ∀ kind ∈ kinds, kind.Lexical) : (Statement.entry entry).IsWritten limit := by
  cases h with
  | instruction hname =>
    have hbody := Body.instruction name (.single (.sum hexpression))
    exact Statement.isWritten_of_body hbody (List.forall_mem_cons.mpr ⟨hname, hkinds⟩)
  | word =>
    have hbody : Body (some limit) (.directive DataMode.word.name :: kinds)
        (.entry (.data ⟨.word, .scalar operand⟩)) := .list rfl (.single hexpression) rfl
    exact Statement.isWritten_of_body hbody (List.forall_mem_cons.mpr ⟨trivial, hkinds⟩)

/-- An operand that is an expression is read back. -/
theorem statementsOf_render {kinds : List TokenKind} (h : operand.IsAlone name entry)
    (hexpression : Expression (some maxDepth) .sum 0 kinds operand)
    (hkinds : ∀ kind ∈ kinds, kind.Lexical) :
    statementsOf entry.render = .ok [.entry entry] := by
  have hne : (Statement.entry entry).chars ≠ [] := by
    rw [Statement.chars, h.chars_eq]
    simp
  obtain ⟨again, hagain, hread⟩ := (h.isWritten hexpression hkinds).statementsOf_chars hne
  obtain rfl : again = .entry entry := by
    cases again with
    | label => cases hagain
    | segment | entry => exact hagain
  exact hread

end Operand.IsAlone

/-! ## Integers -/

namespace Number

variable {radix : Radix} {n : Nat}

theorem charsIn_decimal (n : Nat) : (integer n).charsIn .decimal = Numeral.decimal n := by
  simp [charsIn, chars, Numeral.signed]

theorem charsIn_hexadecimal (n : Nat) :
    (integer n).charsIn .hexadecimal = '0' :: 'x' :: Numeral.hexadecimal n := by
  simp [charsIn]

/-- Numerals out of range are refused, whatever sign stands in front of them. -/
theorem readNumeral_charsIn_of_le (radix : Radix) (h : integerBound ≤ n) :
    readNumeral ((integer n).charsIn radix) = .error ((integer n).charsIn radix) := by
  cases radix with
  | hexadecimal =>
    have htake := (Stops.nil isHexDigit).takeWhile_append (Numeral.isHexDigit_of_mem_hexadecimal n)
    rw [List.append_nil] at htake
    rw [charsIn_hexadecimal]
    simp [readNumeral, readHexadecimal, htake, h, Except.map]
  | decimal =>
    let w := WrittenNumeral.ofNat n
    have hspelling : w.numeral.spelling ++ [] = (integer n).charsIn .decimal := by
      rw [List.append_nil, WrittenNumeral.spelling_ofNat, charsIn_decimal]
    have hlongest := w.longest_append (.nil isWordChar)
    have hnumber : w.numeral.number? = none := by
      simp [w, WrittenNumeral.ofNat, WrittenNumeral.numeral, DecimalNumeral.number?,
        WrittenNumeral.fractionText, WrittenNumeral.powerText, h]
    have hread : readDecimal (w.numeral.spelling ++ []) = .error (w.numeral.spelling ++ []) := by
      simp only [readDecimal, hlongest, hnumber, List.drop_left, List.takeWhile_nil]
    rw [← hspelling]
    unfold readNumeral
    split
    · next more heq =>
      exact absurd heq (DecimalNumeral.append_ne_hexadecimal hlongest (.nil _) (.inl rfl) more)
    · next more heq =>
      exact absurd heq (DecimalNumeral.append_ne_hexadecimal hlongest (.nil _) (.inr rfl) more)
    · exact hread

theorem charsIn_neg (radix : Radix) (hn : 0 < n) :
    (integer (-n)).charsIn radix = '-' :: (integer n).charsIn radix := by
  have hneg : -(n : Int) < 0 := by omega
  cases radix with
  | decimal => simp [charsIn, chars, Numeral.signed, hn]
  | hexadecimal => simp [charsIn, hn]

theorem exists_cons_charsIn (radix : Radix) (n : Nat) :
    ∃ c cs, (integer n).charsIn radix = c :: cs ∧ c.isDigit = true := by
  cases radix with
  | hexadecimal => exact ⟨_, _, charsIn_hexadecimal n, rfl⟩
  | decimal =>
    obtain ⟨c, cs, hdecimal⟩ := List.exists_cons_of_ne_nil (Numeral.decimal_ne_nil n)
    refine ⟨c, cs, (charsIn_decimal n).trans hdecimal, ?_⟩
    exact Numeral.isDigit_of_mem_decimal n c (hdecimal ▸ List.mem_cons_self)

theorem isWordChar_of_mem_charsIn (radix : Radix) (n : Nat) :
    ∀ c ∈ (integer n).charsIn radix, isWordChar c = true := by
  intro c hc
  cases radix with
  | decimal =>
    rw [charsIn_decimal] at hc
    exact isWordChar_of_isDigit c (Numeral.isDigit_of_mem_decimal n c hc)
  | hexadecimal =>
    simp only [charsIn_hexadecimal, List.mem_cons] at hc
    rcases hc with rfl | rfl | hdigit
    · rfl
    · rfl
    · exact isWordChar_of_isHexDigit c (Numeral.isHexDigit_of_mem_hexadecimal n c hdigit)

/-- At a numeral out of range, no token can be cut off. -/
theorem stuck_charsIn_of_le (h : integerBound ≤ n) :
    Stuck ((integer n).charsIn radix)
      (.malformedNumber (String.ofList ((integer n).charsIn radix))) 0 := by
  obtain ⟨c, cs, hchars, hdigit⟩ := exists_cons_charsIn radix n
  have hc := isWordChar_of_isDigit c hdigit
  have hcomment : c ≠ '#' := by
    rintro rfl
    cases hdigit
  have hread := readNumeral_charsIn_of_le radix h
  rw [hchars] at hread ⊢
  refine ⟨[], c, cs, rfl, by simp, isBlank_of_isWordChar hc, hcomment, 0, ?_, rfl⟩
  simp [readToken, ofPunctuation?_of_isWordChar hc, hdigit, hread]

end Number

/-- An integer that is smaller than the bound in both directions is an expression. -/
theorem Grammar.Expression.exists_of_natAbs_lt {v : Int} (radix : Radix)
    (h : v.natAbs < integerBound) (limit : Option Nat) :
    ∃ kinds, Expression limit .sum 0 kinds (.number radix (.integer v)) ∧
      ∀ kind ∈ kinds, kind.Lexical := by
  have hlexical : (TokenKind.number radix (.integer v.natAbs)).Lexical := ⟨_, h, rfl⟩
  rcases Int.natAbs_eq v with hv | hv
  · rw [hv]
    exact ⟨_, .product (.value (.number radix _)), List.forall_mem_singleton.mpr hlexical⟩
  · have hnegate : Number.integer v = Number.negate (.integer v.natAbs) := congrArg _ hv
    rw [hnegate]
    exact ⟨_, .product (.value (.negative radix _)),
      List.forall_mem_cons.mpr ⟨trivial, List.forall_mem_singleton.mpr hlexical⟩⟩

/-- An operand that is written with a sign in front of a numeral out of range is refused at the
numeral. -/
theorem Operand.IsAlone.statementsOf_render_of_le {operand : Operand} {name : String}
    {entry : Entry} {radix : Radix} {n : Nat} (h : operand.IsAlone name entry)
    (hchars : operand.chars = '-' :: (Number.integer n).charsIn radix) (hn : integerBound ≤ n) :
    statementsOf entry.render =
      .error (.lexical ⟨.malformedNumber (String.ofList ((Number.integer n).charsIn radix)),
        ⟨1, name.length + 3⟩⟩) := by
  obtain ⟨⟨kind, hname⟩, hword⟩ := h.exists_spelledBy
  let front : Piece := ⟨[], name.toList, kind, by simp, hname⟩
  let sign : Piece := ⟨[' '], ['-'], .minus, List.all_eq_true.mp rfl, .punctuation rfl⟩
  have hline : entry.chars =
      Piece.textOf [front, sign] ++ (Number.integer n).charsIn radix := by
    rw [h.chars_eq, hchars]
    simp [Piece.textOf, Piece.text, front, sign]
  have hblank : Stops kind.runsOn (Piece.textOf [sign] ++ (Number.integer n).charsIn radix) :=
    Stops.cons_iff.mpr (kind.runsOn_of_isBlank rfl)
  have hapart : Piece.Apart [front, sign] ((Number.integer n).charsIn radix) :=
    ⟨hblank, fun _ _ => rfl, trivial⟩
  have hlength : 1 + (Piece.textOf [front, sign]).length + 0 = name.length + 3 := by
    simp [Piece.textOf, Piece.text, front, sign]
    rw [String.length_toList]
    omega
  have hlex := (Number.stuck_charsIn_of_le hn).lexLine_append hapart 1
  rw [← hline, hlength] at hlex
  have hne : entry.chars ≠ [] := by
    rw [h.chars_eq]
    simp
  have hfeed : '\n' ∉ entry.chars := by
    rw [h.chars_eq, hchars]
    intro hmem
    simp only [List.mem_append, List.mem_cons] at hmem
    rcases hmem with hmem | hmem | hmem | hmem
    · cases hword _ hmem
    · cases hmem
    · cases hmem
    · cases Number.isWordChar_of_mem_charsIn radix n _ hmem
  have hlines : sourceLines entry.render = [entry.chars] := by
    rw [sourceLines, Entry.render, String.toList_ofList]
    exact splitLines_of_not_mem hfeed hne
  rw [statementsOf, lex, hlines, lexLines, hlex]

/-- An integer of 64 bits that is written as the only operand of an instruction, or as the only
value of a `.word` directive, is read back, unless it is the least one: this is refused at the
numeral of its magnitude. -/
theorem statementsOf_render_integer {radix : Radix} {v : Int} {name : String} {entry : Entry}
    (hfits : fits64 v = true)
    (halone : (Operand.number radix (.integer v)).IsAlone name entry) :
    entry.render = name ++ " " ++ (Operand.number radix (.integer v)).render ∧
    (v ≠ -2 ^ 63 → statementsOf entry.render = .ok [.entry entry]) ∧
    (v = -2 ^ 63 → statementsOf entry.render =
      .error (.lexical
        ⟨.malformedNumber (String.ofList ((Number.integer (2 ^ 63)).charsIn radix)),
          ⟨1, name.length + 3⟩⟩)) := by
  have hbound : integerBound = 2 ^ 63 := rfl
  refine ⟨halone.render_eq, ?_, ?_⟩
  · intro hne
    have hlt : v.natAbs < integerBound := by
      simp only [fits64, Bool.and_eq_true, decide_eq_true_eq] at hfits
      omega
    obtain ⟨kinds, hexpression, hkinds⟩ :=
      Grammar.Expression.exists_of_natAbs_lt radix hlt (some maxDepth)
    exact halone.statementsOf_render hexpression hkinds
  · rintro rfl
    exact halone.statementsOf_render_of_le (Number.charsIn_neg radix (by decide)) hbound.le

/-- The least integer that is read back, and the one below it. -/
theorem statementsOf_render_integer_at_the_end :
    let next : Operand := .hex (-9223372036854775807)
    let least : Operand := .int (-9223372036854775808)
    statementsOf ".word -0x7FFFFFFFFFFFFFFF" = .ok [.entry (.data ⟨.word, .scalar next⟩)] ∧
      (Entry.instruction (.ofOperands "li" [least])).render = "li -9223372036854775808" ∧
      statementsOf "li -9223372036854775808" =
        .error (.lexical ⟨.malformedNumber "9223372036854775808", ⟨1, 5⟩⟩) := by
  intro next least
  have hopcode : (TokenKind.identifier "li").Lexical :=
    ⟨'l', ['i'], rfl, rfl, List.all_eq_true.mp rfl⟩
  have hword : next.IsAlone ".word" _ := .word
  have hinstruction : least.IsAlone "li" _ := .instruction hopcode
  obtain ⟨htext, hread, -⟩ := statementsOf_render_integer (by decide) hword
  obtain ⟨htext', -, hrefused⟩ := statementsOf_render_integer (by decide) hinstruction
  have hnext : ".word" ++ " " ++ next.render = ".word -0x7FFFFFFFFFFFFFFF" := by decide +kernel
  have hleast : "li" ++ " " ++ least.render = "li -9223372036854775808" := by decide +kernel
  rw [htext.trans hnext] at hread
  rw [htext'.trans hleast] at hrefused
  refine ⟨hread (by decide), htext'.trans hleast, ?_⟩
  rw [hrefused (by decide)]
  decide +kernel

/-- The least integer of 64 bits is not read back, although it is written as source text. -/
theorem least_integer_is_refused :
    let least : Operand := .int (-2 ^ 63)
    fits64 (-2 ^ 63) = true ∧ ".word " ++ least.render = ".word -9223372036854775808" ∧
      statementsOf ".word -9223372036854775808" =
        .error (.lexical ⟨.malformedNumber "9223372036854775808", ⟨1, 8⟩⟩) ∧
      statementsOf (".word " ++ least.render) ≠
        .ok [.entry (.data ⟨.word, .scalar least⟩)] := by
  intro least
  have htext : ".word " ++ least.render = ".word -9223372036854775808" := by decide +kernel
  have hrefused : statementsOf ".word -9223372036854775808" =
      .error (.lexical ⟨.malformedNumber "9223372036854775808", ⟨1, 8⟩⟩) := by
    decide +kernel
  refine ⟨by decide, htext, hrefused, ?_⟩
  rw [htext, hrefused]
  simp

end MipsAssembly
