import MipsAssembly.Proofs.Token.Span

/-!
# Lines cut into tokens

A line is a row of pieces, each of them white space with the span of a token behind it, and a
rest that means nothing: white space and perhaps a comment.  A span ends where the token cannot go
on.  A line that is not cut in this way has a first place where no token can be cut off.

## Main definitions

- `Insignificant` — white space, perhaps with a comment behind it.
- `Piece` — a token on a line, with the white space in front of it.
- `LineCut` — a line as pieces and a rest that means nothing; `LineCut.tokens` are its tokens.
- `exists_pieces` — how far any text can be cut.
- `lex_eq_ok_iff` — the tokens of a source text are those of its lines, cut into pieces.
-/

namespace MipsAssembly

/-- White space, perhaps with a comment behind it that takes the rest of the text. -/
def Insignificant (cs : List Char) : Prop :=
  ∃ gap comment, cs = gap ++ comment ∧ (∀ c ∈ gap, isBlank c = true) ∧
    ∀ c ∈ comment.head?, c = '#'

/-- A token on a line. -/
structure Piece where
  /-- The white space in front of the token. -/
  gap : List Char
  /-- The characters of the token. -/
  span : List Char
  kind : TokenKind
  isBlank_of_mem : ∀ c ∈ gap, isBlank c = true
  spelled : kind.SpelledBy span

namespace Piece

def text (p : Piece) : List Char :=
  p.gap ++ p.span

def textOf (ps : List Piece) : List Char :=
  ps.flatMap text

theorem length_textOf_cons (p : Piece) (ps : List Piece) :
    (textOf (p :: ps)).length = p.text.length + (textOf ps).length := by
  rw [textOf, List.flatMap_cons, List.length_append]
  rfl

/-- The tokens of pieces of which the first starts at a column.  A token has the position of its
span. -/
def tokensFrom (row : Nat) : (column : Nat) → List Piece → List Token
  | _, [] => []
  | column, p :: ps =>
    ⟨p.kind, ⟨row, column + p.gap.length⟩⟩ :: tokensFrom row (column + p.text.length) ps

theorem map_kind_tokensFrom (row column : Nat) (ps : List Piece) :
    (tokensFrom row column ps).map Token.kind = ps.map kind := by
  induction ps generalizing column with
  | nil => rfl
  | cons p ps ih => exact congrArg (p.kind :: ·) (ih _)

/-- The tokens of pieces are spelled by their spans. -/
theorem exists_of_mem_tokensFrom {row column : Nat} {ps : List Piece} {token : Token}
    (h : token ∈ tokensFrom row column ps) : ∃ p ∈ ps, p.kind = token.kind := by
  have hkind := List.mem_map_of_mem (f := Token.kind) h
  rw [map_kind_tokensFrom] at hkind
  exact List.mem_map.mp hkind

/-- No span of the pieces can be made longer in front of a text. -/
def Apart : List Piece → List Char → Prop
  | [], _ => True
  | p :: ps, rest => Stops p.kind.runsOn (textOf ps ++ rest) ∧ Apart ps rest

end Piece

/-- A line, cut into tokens. -/
structure LineCut where
  pieces : List Piece
  /-- What stands behind the last token. -/
  rest : List Char
  insignificant : Insignificant rest
  apart : Piece.Apart pieces rest

namespace LineCut

def text (cut : LineCut) : List Char :=
  Piece.textOf cut.pieces ++ cut.rest

/-- The tokens of a line with the given number: those of its pieces, and a line end behind the
last character. -/
def tokens (row : Nat) (cut : LineCut) : List Token :=
  Piece.tokensFrom row 1 cut.pieces ++ [⟨.lineEnd, ⟨row, cut.text.length + 1⟩⟩]

end LineCut

/-! ## Pieces give tokens -/

variable {row column : Nat} {cs rest : List Char}

/-- White space is passed over. -/
theorem lexFrom_gap {gap : List Char} (h : ∀ c ∈ gap, isBlank c = true) (rest : List Char) :
    lexFrom row column 0 (gap ++ rest) = lexFrom row (column + gap.length) 0 rest := by
  induction gap generalizing column with
  | nil => rfl
  | cons c gap ih =>
    obtain ⟨hc, hgap⟩ := List.forall_mem_cons.mp h
    have hcolumn : column + (c :: gap).length = column + 1 + gap.length :=
      Nat.add_right_comm column gap.length 1
    rw [List.cons_append, lexFrom, if_pos hc, ih hgap, hcolumn]

theorem insignificant_of_isBlank (h : ∀ c ∈ cs, isBlank c = true) : Insignificant cs :=
  ⟨cs, [], (List.append_nil cs).symm, h, by simp⟩

theorem Insignificant.lexFrom (h : Insignificant cs) :
    lexFrom row column 0 cs = .ok [⟨.lineEnd, ⟨row, column + cs.length⟩⟩] := by
  obtain ⟨gap, comment, rfl, hgap, hcomment⟩ := h
  rw [lexFrom_gap hgap, List.length_append, ← Nat.add_assoc]
  cases comment with
  | nil => rfl
  | cons c comment =>
    obtain rfl := hcomment c rfl
    rfl

/-- The characters inside a token are passed over. -/
theorem lexFrom_inside (row column : Nat) (cs rest : List Char) :
    lexFrom row column cs.length (cs ++ rest) = lexFrom row (column + cs.length) 0 rest := by
  induction cs generalizing column with
  | nil => rfl
  | cons c cs ih =>
    have hcolumn : column + (c :: cs).length = column + 1 + cs.length :=
      Nat.add_right_comm column cs.length 1
    rw [hcolumn, ← ih]
    rfl

/-- A span gives its token if it cannot be made longer. -/
theorem TokenKind.SpelledBy.lexFrom_append {kind : TokenKind} {span : List Char}
    (h : kind.SpelledBy span) (hrest : Stops kind.runsOn rest) :
    lexFrom row column 0 (span ++ rest) =
      (lexFrom row (column + span.length) 0 rest).map (⟨kind, ⟨row, column⟩⟩ :: ·) := by
  obtain ⟨c, word, rfl, hblank, hcomment, hread⟩ := h.exists_cons
  have hcolumn : column + (c :: word).length = column + 1 + word.length :=
    Nat.add_right_comm column word.length 1
  rw [List.cons_append, lexFrom, hblank, if_neg Bool.false_ne_true, if_neg hcomment,
    hread rest hrest, hcolumn, ← lexFrom_inside]

/-- Pieces give their tokens, and cutting goes on behind them. -/
theorem Piece.Apart.lexFrom_append {ps : List Piece} (h : Apart ps rest) :
    lexFrom row column 0 (textOf ps ++ rest) =
      (lexFrom row (column + (textOf ps).length) 0 rest).map (tokensFrom row column ps ++ ·) := by
  induction ps generalizing column with
  | nil =>
    exact (map_nil_append _).symm
  | cons p ps ih =>
    obtain ⟨hstops, hps⟩ := h
    have htext : textOf (p :: ps) ++ rest = p.gap ++ (p.span ++ (textOf ps ++ rest)) := by
      simp [textOf, text]
    have hcolumn : column + (textOf (p :: ps)).length =
        column + p.text.length + (textOf ps).length := by
      rw [length_textOf_cons, Nat.add_assoc]
    have hspan : column + p.gap.length + p.span.length = column + p.text.length := by
      rw [text, List.length_append]
      omega
    rw [htext, lexFrom_gap p.isBlank_of_mem, p.spelled.lexFrom_append hstops, hspan, ih hps,
      hcolumn]
    exact map_append_append [_] (tokensFrom row (column + p.text.length) ps) _

/-- Pieces stay apart in front of a text that ends the same tokens. -/
theorem Piece.Apart.of_stops {ps : List Piece} {text : List Char} (h : Apart ps text)
    (hstops : ∀ kind : TokenKind, Stops kind.runsOn text → Stops kind.runsOn rest) :
    Apart ps rest := by
  induction ps with
  | nil => trivial
  | cons p ps ih =>
    refine ⟨?_, ih h.2⟩
    have hp := h.1
    -- Only the last piece stands directly in front of the text.
    cases htext : textOf ps with
    | nil =>
      rw [htext] at hp
      exact hstops p.kind hp
    | cons c cs =>
      rw [htext] at hp
      exact hp

theorem LineCut.lexLine_text (cut : LineCut) (row : Nat) :
    lexLine row cut.text = .ok (cut.tokens row) := by
  have hcolumn : cut.text.length + 1 = 1 + (Piece.textOf cut.pieces).length + cut.rest.length := by
    rw [text, List.length_append]
    omega
  rw [lexLine, tokens, text, cut.apart.lexFrom_append, cut.insignificant.lexFrom, ← text, hcolumn]
  rfl

/-! ## Every text is cut as far as it goes -/

/-- At the start of a text, behind white space, no token can be cut off. -/
def Stuck (cs : List Char) (fault : LexicalFault) (distance : Nat) : Prop :=
  ∃ gap c more, cs = gap ++ c :: more ∧ (∀ d ∈ gap, isBlank d = true) ∧ isBlank c = false ∧
    c ≠ '#' ∧ ∃ behind, readToken c more = .error (fault, behind) ∧ distance = gap.length + behind

theorem Stuck.lexFrom {fault : LexicalFault} {distance : Nat} (h : Stuck cs fault distance) :
    lexFrom row column 0 cs = .error ⟨fault, ⟨row, column + distance⟩⟩ := by
  obtain ⟨gap, c, more, rfl, hgap, hblank, hcomment, behind, hread, rfl⟩ := h
  rw [lexFrom_gap hgap, lexFrom, hblank, if_neg Bool.false_ne_true, if_neg hcomment, hread]
  simp only [Nat.add_assoc]

theorem Stuck.cons {c : Char} {fault : LexicalFault} {distance : Nat} (hc : isBlank c = true)
    (h : Stuck cs fault distance) : Stuck (c :: cs) fault (distance + 1) := by
  obtain ⟨gap, d, more, rfl, hgap, hblank, hcomment, behind, hread, rfl⟩ := h
  refine ⟨c :: gap, d, more, rfl, List.forall_mem_cons.mpr ⟨hc, hgap⟩, hblank, hcomment, behind,
    hread, ?_⟩
  rw [List.length_cons]
  omega

theorem Insignificant.cons {c : Char} (hc : isBlank c = true) (h : Insignificant cs) :
    Insignificant (c :: cs) := by
  obtain ⟨gap, comment, rfl, hgap, hcomment⟩ := h
  exact ⟨c :: gap, comment, rfl, List.forall_mem_cons.mpr ⟨hc, hgap⟩, hcomment⟩

theorem insignificant_comment (cs : List Char) : Insignificant ('#' :: cs) :=
  ⟨[], '#' :: cs, rfl, by simp, by simp⟩

/-- Every text starts with pieces, and what is left behind them means nothing or makes no
token. -/
theorem exists_pieces (cs : List Char) :
    ∃ ps rest, cs = Piece.textOf ps ++ rest ∧ Piece.Apart ps rest ∧
      (Insignificant rest ∨ ∃ fault distance, Stuck rest fault distance) := by
  -- A token may be of any length, so the induction is on the length of the text.
  induction hlength : cs.length using Nat.strong_induction_on generalizing cs with
  | _ length ih =>
    cases cs with
    | nil => exact ⟨[], [], rfl, trivial, .inl ⟨[], [], rfl, by simp, by simp⟩⟩
    | cons c cs =>
      rw [List.length_cons] at hlength
      cases hblank : isBlank c with
      | true =>
        obtain ⟨ps, rest, hcs, hapart, hrest⟩ := ih cs.length (by omega) cs rfl
        cases ps with
        | nil =>
          refine ⟨[], c :: rest, congrArg (c :: ·) hcs, trivial, hrest.imp (.cons hblank) ?_⟩
          rintro ⟨fault, distance, hstuck⟩
          exact ⟨fault, distance + 1, hstuck.cons hblank⟩
        | cons p ps =>
          have hgap : ∀ d ∈ c :: p.gap, isBlank d = true :=
            List.forall_mem_cons.mpr ⟨hblank, p.isBlank_of_mem⟩
          exact ⟨⟨c :: p.gap, p.span, p.kind, hgap, p.spelled⟩ :: ps, rest,
            congrArg (c :: ·) hcs, hapart, hrest⟩
      | false =>
        by_cases hcomment : c = '#'
        · subst hcomment
          exact ⟨[], '#' :: cs, rfl, trivial, .inl (insignificant_comment cs)⟩
        · cases hread : readToken c cs with
          | error failure =>
            exact ⟨[], c :: cs, rfl, trivial, .inr ⟨failure.1, failure.2, [], c, cs, rfl, by simp,
              hblank, hcomment, failure.2, hread, (Nat.zero_add _).symm⟩⟩
          | ok result =>
            obtain ⟨word, behind, rfl, -, hspelled, hstops⟩ := readToken_eq_ok_iff.mp hread
            rw [List.length_append] at hlength
            obtain ⟨ps, rest, rfl, hapart, hrest⟩ := ih behind.length (by omega) behind rfl
            refine ⟨⟨[], c :: word, result.1, by simp, hspelled⟩ :: ps, rest, ?_,
              ⟨hstops, hapart⟩, hrest⟩
            simp [Piece.textOf, Piece.text]

/-! ## Lines -/

/-- A line either is cut into tokens or has a first place where it cannot be cut. -/
theorem exists_cut_or_stuck (line : List Char) :
    (∃ cut : LineCut, cut.text = line) ∨
      ∃ ps rest fault distance, line = Piece.textOf ps ++ rest ∧ Piece.Apart ps rest ∧
        Stuck rest fault distance := by
  obtain ⟨ps, rest, rfl, hapart, hrest | ⟨fault, distance, hstuck⟩⟩ := exists_pieces line
  · exact .inl ⟨⟨ps, rest, hrest, hapart⟩, rfl⟩
  · exact .inr ⟨ps, rest, fault, distance, rfl, hapart, hstuck⟩

theorem Stuck.lexLine_append {ps : List Piece} {fault : LexicalFault} {distance : Nat}
    (hapart : Piece.Apart ps rest) (h : Stuck rest fault distance) (row : Nat) :
    lexLine row (Piece.textOf ps ++ rest) =
      .error ⟨fault, ⟨row, 1 + (Piece.textOf ps).length + distance⟩⟩ := by
  rw [lexLine, hapart.lexFrom_append, h.lexFrom]
  rfl

theorem lexLine_eq_ok_iff {line : List Char} {tokens : List Token} :
    lexLine row line = .ok tokens ↔ ∃ cut : LineCut, cut.text = line ∧ tokens = cut.tokens row := by
  constructor
  · intro h
    rcases exists_cut_or_stuck line with
      ⟨cut, rfl⟩ | ⟨ps, rest, fault, distance, rfl, hapart, hstuck⟩
    · rw [cut.lexLine_text] at h
      exact ⟨cut, rfl, (Except.ok.inj h).symm⟩
    · rw [hstuck.lexLine_append hapart] at h
      cases h
  · rintro ⟨cut, rfl, rfl⟩
    exact cut.lexLine_text row

/-- The tokens of lines of which the first has the given number. -/
def LineCut.tokensOf (row : Nat) (cuts : List LineCut) : List Token :=
  (cuts.zipIdx row).flatMap fun (cut, row) => cut.tokens row

theorem lexLines_eq_ok_iff {lines : List (List Char)} {tokens : List Token} :
    lexLines row lines = .ok tokens ↔
      ∃ cuts : List LineCut, cuts.map LineCut.text = lines ∧
        tokens = LineCut.tokensOf row cuts := by
  induction lines generalizing row tokens with
  | nil =>
    constructor
    · intro h
      cases h
      exact ⟨[], rfl, rfl⟩
    · rintro ⟨cuts, hcuts, rfl⟩
      obtain rfl := List.map_eq_nil_iff.mp hcuts
      rfl
  | cons line lines ih =>
    constructor
    · intro h
      unfold lexLines at h
      split at h
      · cases h
      · next front hline =>
        obtain ⟨others, hothers, rfl⟩ := exists_of_map_eq_ok h
        obtain ⟨cut, rfl, rfl⟩ := lexLine_eq_ok_iff.mp hline
        obtain ⟨cuts, rfl, rfl⟩ := ih.mp hothers
        exact ⟨cut :: cuts, rfl, rfl⟩
    · rintro ⟨cuts, hcuts, rfl⟩
      obtain ⟨cut, cuts, rfl, rfl, hlines⟩ := List.map_eq_cons_iff.mp hcuts
      rw [lexLines, cut.lexLine_text row]
      dsimp only
      rw [ih.mpr ⟨cuts, hlines, rfl⟩]
      rfl

/-- Where a source text is cut into tokens, each line is cut into pieces and an insignificant rest
and has the tokens of its pieces, none of them a line end, in front of its own line end; and where
all lines are cut in this way, these are the tokens. -/
theorem lex_eq_ok_iff (source : String) (tokens : List Token) :
    lex source = .ok tokens ↔
      ∃ cuts : List LineCut, cuts.map LineCut.text = sourceLines source ∧
        (∀ cut ∈ cuts, ∀ p ∈ cut.pieces, p.kind ≠ .lineEnd) ∧
        tokens = (cuts.zipIdx 1).flatMap fun (cut, row) => cut.tokens row := by
  constructor
  · intro h
    obtain ⟨cuts, hcuts, htokens⟩ := lexLines_eq_ok_iff.mp h
    exact ⟨cuts, hcuts, fun _ _ p _ => p.spelled.ne_lineEnd, htokens⟩
  · rintro ⟨cuts, hcuts, -, htokens⟩
    exact lexLines_eq_ok_iff.mpr ⟨cuts, hcuts, htokens⟩

end MipsAssembly
