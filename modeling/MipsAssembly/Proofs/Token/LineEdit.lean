import MipsAssembly.Proofs.Token.Cut

/-!
# Lines that are spaced differently

What a line says are the kinds of its tokens.  White space and a comment behind the line, white
space in front of it and white space between two of its tokens do not change what it says, and
neither does one carriage return at its end.

## Main definitions

- `Says` — a line is cut into tokens of the given kinds.
- `LineEdit` — a line with more white space, or with a comment behind it.
- `LineEdit.keeps` — the edited line says the same.
- `says_append_return` — a carriage return at the end of a line says nothing.
-/

namespace MipsAssembly

/-- A line is cut into tokens of the given kinds. -/
def Says (line : List Char) (kinds : List TokenKind) : Prop :=
  ∃ cut : LineCut, cut.text = line ∧ cut.pieces.map Piece.kind = kinds

/-- A line with more white space, or with a comment behind it. -/
inductive LineEdit : List Char → List Char → Prop where
  | append {line text : List Char} : Insignificant text → LineEdit line (line ++ text)
  | indent {gap line : List Char} : (∀ c ∈ gap, isBlank c = true) → LineEdit line (gap ++ line)
  -- White space in the gap in front of one of the tokens.
  | widen {cut : LineCut} {before after : List Piece} {p : Piece} {near far gap : List Char} :
    cut.pieces = before ++ p :: after → p.gap = near ++ far → (∀ c ∈ gap, isBlank c = true) →
    LineEdit cut.text
      (Piece.textOf before ++ (near ++ gap ++ far ++ p.span) ++ Piece.textOf after ++ cut.rest)

/-! ## White space ends tokens -/

variable {cs rest : List Char}

theorem stops_of_isBlank (kind : TokenKind) (h : ∀ c ∈ cs.head?, isBlank c = true) :
    Stops kind.runsOn cs :=
  fun c hc => kind.runsOn_of_isBlank (h c hc)

theorem Insignificant.stops (h : Insignificant cs) (kind : TokenKind) :
    Stops kind.runsOn cs := by
  obtain ⟨gap, comment, rfl, hgap, hcomment⟩ := h
  refine (stops_of_isBlank kind fun c hc => hgap c (List.mem_of_mem_head? hc)).append ?_
  intro c hc
  obtain rfl := hcomment c hc
  rw [← Bool.not_eq_true]
  intro hruns
  exact absurd (TokenKind.isWordChar_of_runsOn '#' hruns) (by decide)

theorem Insignificant.append (h : Insignificant cs) (hrest : Insignificant rest) :
    Insignificant (cs ++ rest) := by
  obtain ⟨gap, comment, rfl, hgap, hcomment⟩ := h
  cases comment with
  | nil =>
    obtain ⟨more, comment, rfl, hmore, hcomment⟩ := hrest
    refine ⟨gap ++ more, comment, by simp, ?_, hcomment⟩
    exact List.forall_mem_append.mpr ⟨hgap, hmore⟩
  | cons c comment => exact ⟨gap, c :: comment ++ rest, by simp, hgap, hcomment⟩

theorem Insignificant.indent {gap : List Char} (hgap : ∀ c ∈ gap, isBlank c = true)
    (h : Insignificant cs) : Insignificant (gap ++ cs) :=
  (insignificant_of_isBlank hgap).append h

namespace Piece

theorem textOf_append (ps qs : List Piece) : textOf (ps ++ qs) = textOf ps ++ textOf qs :=
  List.flatMap_append

theorem apart_append {ps qs : List Piece} :
    Apart (ps ++ qs) rest ↔ Apart ps (textOf qs ++ rest) ∧ Apart qs rest := by
  induction ps with
  | nil => simp [Apart]
  | cons p ps ih =>
    rw [List.cons_append, Apart, Apart, ih, textOf_append, List.append_assoc, and_assoc]

/-- A piece with another gap. -/
def withGap (p : Piece) (gap : List Char) (h : ∀ c ∈ gap, isBlank c = true) : Piece :=
  ⟨gap, p.span, p.kind, h, p.spelled⟩

/-- Pieces stay apart if one of them has more white space in front of it. -/
theorem Apart.withGap {before after : List Piece} {p : Piece} {gap : List Char}
    (h : Apart (before ++ p :: after) rest) (hgap : ∀ c ∈ gap, isBlank c = true)
    (hwider : gap = [] → p.gap = []) : Apart (before ++ p.withGap gap hgap :: after) rest := by
  obtain ⟨hbefore, hp⟩ := apart_append.mp h
  refine apart_append.mpr ⟨hbefore.of_stops ?_, hp⟩
  intro kind hstops
  cases gap with
  | nil =>
    have hsame : p.withGap [] hgap = p := by
      obtain ⟨gap, span, kind, hblank, hspelled⟩ := p
      obtain rfl := hwider rfl
      rfl
    rwa [hsame]
  | cons c gap =>
    refine stops_of_isBlank kind ?_
    rintro d hd
    obtain rfl : c = d := Option.some.inj hd
    exact hgap c List.mem_cons_self

end Piece

/-! ## Edited lines -/

variable {line line' : List Char} {kinds : List TokenKind}

theorem Says.append (h : Says line kinds) {text : List Char} (htext : Insignificant text) :
    Says (line ++ text) kinds := by
  obtain ⟨cut, rfl, rfl⟩ := h
  have hapart : Piece.Apart cut.pieces (cut.rest ++ text) :=
    cut.apart.of_stops fun kind hstops => hstops.append (htext.stops kind)
  refine ⟨⟨cut.pieces, cut.rest ++ text, cut.insignificant.append htext, hapart⟩, ?_, rfl⟩
  exact (List.append_assoc _ _ _).symm

theorem Says.indent (h : Says line kinds) {gap : List Char} (hgap : ∀ c ∈ gap, isBlank c = true) :
    Says (gap ++ line) kinds := by
  obtain ⟨⟨pieces, rest, hrest, hapart⟩, rfl, rfl⟩ := h
  cases pieces with
  | nil => exact ⟨⟨[], gap ++ rest, hrest.indent hgap, trivial⟩, rfl, rfl⟩
  | cons p ps =>
    have hwider : ∀ c ∈ gap ++ p.gap, isBlank c = true :=
      List.forall_mem_append.mpr ⟨hgap, p.isBlank_of_mem⟩
    refine ⟨⟨p.withGap (gap ++ p.gap) hwider :: ps, rest, hrest, hapart⟩, ?_, rfl⟩
    simp [LineCut.text, Piece.textOf, Piece.text, Piece.withGap]

/-- The tokens of a line are those that it says, and its end. -/
theorem Says.lexLine (h : Says line kinds) (row : Nat) :
    ∃ tokens, lexLine row line = .ok tokens ∧
      tokens.map Token.kind = kinds ++ [TokenKind.lineEnd] := by
  obtain ⟨cut, rfl, rfl⟩ := h
  refine ⟨cut.tokens row, cut.lexLine_text row, ?_⟩
  rw [LineCut.tokens, List.map_append, Piece.map_kind_tokensFrom]
  rfl

/-- A line says one thing only. -/
theorem Says.unique {others : List TokenKind} (h : Says line kinds) (h' : Says line others) :
    kinds = others := by
  obtain ⟨tokens, hlex, hkinds⟩ := h.lexLine 1
  obtain ⟨tokens', hlex', hothers⟩ := h'.lexLine 1
  rw [hlex] at hlex'
  obtain rfl := Except.ok.inj hlex'
  exact List.append_cancel_right (hkinds.symm.trans hothers)

/-- An edited line says the same. -/
theorem LineEdit.keeps (hedit : LineEdit line line') (h : Says line kinds) : Says line' kinds := by
  cases hedit with
  | append htext => exact h.append htext
  | indent hgap => exact h.indent hgap
  | @widen cut before after p near far gap hpieces hp hgap =>
    obtain rfl := h.unique ⟨cut, rfl, rfl⟩
    have hapart := cut.apart
    rw [hpieces] at hapart
    obtain ⟨hnear, hfar⟩ := List.forall_mem_append.mp (hp ▸ p.isBlank_of_mem)
    have hwide : ∀ c ∈ near ++ gap ++ far, isBlank c = true :=
      List.forall_mem_append.mpr ⟨List.forall_mem_append.mpr ⟨hnear, hgap⟩, hfar⟩
    have hwider : near ++ gap ++ far = [] → p.gap = [] := by
      simp only [hp, List.append_eq_nil_iff]
      rintro ⟨⟨hnear, -⟩, hfar⟩
      exact ⟨hnear, hfar⟩
    refine ⟨⟨_, cut.rest, cut.insignificant, hapart.withGap hwide hwider⟩, ?_, ?_⟩
    · simp [LineCut.text, Piece.textOf, Piece.text, Piece.withGap]
    · rw [hpieces]
      simp [Piece.withGap]

/-! ## Carriage returns -/

/-- No token ends with white space. -/
theorem TokenKind.SpelledBy.isBlank_getLast? {kind : TokenKind} {span : List Char}
    (h : kind.SpelledBy span) : ∀ c ∈ span.getLast?, isBlank c = false := by
  have hwords {word : List Char} (hword : ∀ d ∈ word, isWordChar d = true) :
      ∀ d ∈ word, isBlank d = false :=
    fun d hd => isBlank_of_isWordChar (hword d hd)
  intro c hlast
  have hc : c ∈ span := List.mem_of_getLast? hlast
  cases h with
  | @punctuation mark kind hmark =>
    obtain rfl := List.mem_singleton.mp hc
    unfold ofPunctuation? at hmark
    split at hmark
    case h_10 => cases hmark
    all_goals rfl
  | @identifier first word hfirst hword =>
    rcases List.mem_cons.mp hc with rfl | hc
    · exact isBlank_of_isWordChar (isWordChar_of_starts_name hfirst)
    · exact hwords hword c hc
  | register _ hword =>
    rcases List.mem_cons.mp hc with rfl | hc
    · rfl
    · exact isBlank_of_isWordChar (isWordChar_of_isAlphanum c (hword c hc))
  | directive _ hword =>
    rcases List.mem_cons.mp hc with rfl | hc
    · rfl
    · exact hwords hword c hc
  | number hnumber =>
    have hsigns : ∀ sign ∈ ['+', '-'], isBlank sign = false := by simp [isBlank, blankCodes]
    rcases hnumber.mem_span c hc with hword | hsign
    · exact isBlank_of_isWordChar hword
    · exact hsigns c hsign
  | @text body content =>
    rw [← List.cons_append, List.getLast?_concat] at hlast
    obtain rfl := Option.some.inj hlast
    rfl

theorem Insignificant.of_append_singleton {c : Char} (h : Insignificant (cs ++ [c])) :
    Insignificant cs := by
  obtain ⟨gap, comment, heq, hgap, hcomment⟩ := h
  rcases List.eq_nil_or_concat' comment with rfl | ⟨comment, d, rfl⟩
  · rw [List.append_nil] at heq
    exact insignificant_of_isBlank fun d hd => hgap d (heq ▸ List.mem_append_left _ hd)
  · rw [← List.append_assoc] at heq
    obtain ⟨rfl, -⟩ := List.append_inj' heq rfl
    refine ⟨gap, comment, rfl, hgap, ?_⟩
    cases comment with
    | nil => simp
    | cons d comment => exact hcomment

/-- White space at the end of a line says nothing. -/
theorem Says.of_append_isBlank {c : Char} (hc : isBlank c = true) (h : Says (line ++ [c]) kinds) :
    Says line kinds := by
  obtain ⟨⟨pieces, rest, hrest, hapart⟩, htext, rfl⟩ := h
  replace htext : Piece.textOf pieces ++ rest = line ++ [c] := htext
  rcases List.eq_nil_or_concat' rest with rfl | ⟨rest, d, rfl⟩
  · -- The last character would belong to a token.
    exfalso
    rw [List.append_nil] at htext
    rcases List.eq_nil_or_concat' pieces with rfl | ⟨pieces, p, rfl⟩
    · exact List.append_ne_nil_of_right_ne_nil line (List.cons_ne_nil c []) htext.symm
    · obtain ⟨first, word, hspan, -⟩ := p.spelled.exists_cons
      have hpieces : Piece.textOf (pieces ++ [p]) = Piece.textOf pieces ++ p.gap ++ p.span := by
        simp [Piece.textOf, Piece.text]
      have hlast := congrArg List.getLast? (htext.symm.trans hpieces)
      rw [List.getLast?_concat,
        List.getLast?_append_of_ne_nil _ (hspan ▸ List.cons_ne_nil first word)] at hlast
      rw [p.spelled.isBlank_getLast? c hlast.symm] at hc
      cases hc
  · rw [← List.append_assoc] at htext
    obtain ⟨rfl, -⟩ := List.append_inj' htext rfl
    exact ⟨⟨pieces, rest, hrest.of_append_singleton, hapart.of_stops fun _ => Stops.left⟩, rfl, rfl⟩

/-- A carriage return at the end of a line says nothing. -/
theorem says_append_return : Says (line ++ ['\r']) kinds ↔ Says line kinds := by
  have hreturn : ∀ c ∈ ['\r'], isBlank c = true := List.all_eq_true.mp rfl
  exact ⟨fun h => h.of_append_isBlank rfl, fun h => h.append (insignificant_of_isBlank hreturn)⟩

end MipsAssembly
