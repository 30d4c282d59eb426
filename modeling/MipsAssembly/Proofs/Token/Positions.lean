import MipsAssembly.Proofs.Token.Cut

/-!
# Positions of tokens

The tokens of a line stand inside it or just behind it, one after the other, and those of a
source text stand on its lines in the same way.  A name with a colon behind it is spelled on its
line, with white space between them at most.

## Main definitions

- `Position.Before` — the order of positions in a source text.
- `LineCut.bounds_of_mem_tokens` — the tokens of a line stand on it.
- `LineCut.pairwise_tokensOf` — tokens stand one after the other.
- `LineCut.exists_of_name_colon` — where a name with a colon behind it is spelled.
-/

namespace MipsAssembly

/-- In the order of a source text. -/
def Position.Before (p q : Position) : Prop :=
  p.line < q.line ∨ p.line = q.line ∧ p.column < q.column

def Token.Before (token other : Token) : Prop :=
  token.position.Before other.position

variable {row column : Nat} {token next : Token} {before after : List Token}

/-! ## Tokens of pieces -/

namespace Piece

variable {ps : List Piece}

theorem length_gap_lt (p : Piece) : p.gap.length < p.text.length := by
  obtain ⟨c, word, hspan, -⟩ := p.spelled.exists_cons
  rw [text, hspan, List.length_append, List.length_cons]
  omega

/-- Where the tokens are cut in two, the pieces are. -/
theorem exists_of_tokensFrom_eq_append {rest : List Token}
    (h : tokensFrom row column ps = before ++ rest) :
    ∃ front back, ps = front ++ back ∧
      rest = tokensFrom row (column + (textOf front).length) back := by
  induction before generalizing column ps with
  | nil => exact ⟨[], ps, rfl, h.symm⟩
  | cons first before ih =>
    cases ps with
    | nil => cases h
    | cons p ps =>
      obtain ⟨-, hrest⟩ := List.cons.inj h
      obtain ⟨front, back, rfl, rfl⟩ := ih hrest
      refine ⟨p :: front, back, rfl, ?_⟩
      rw [length_textOf_cons, Nat.add_assoc]

theorem bounds_of_mem_tokensFrom (h : token ∈ tokensFrom row column ps) :
    token.position.line = row ∧ column ≤ token.position.column ∧
      token.position.column < column + (textOf ps).length := by
  induction ps generalizing column with
  | nil => cases h
  | cons p ps ih =>
    have hgap := p.length_gap_lt
    have hlength := length_textOf_cons p ps
    rcases List.mem_cons.mp h with rfl | h
    · exact ⟨rfl, Nat.le_add_right _ _, by dsimp only; omega⟩
    · obtain ⟨hline, hlow, hhigh⟩ := ih h
      exact ⟨hline, by omega, by omega⟩

theorem pairwise_tokensFrom (row column : Nat) (ps : List Piece) :
    (tokensFrom row column ps).Pairwise Token.Before := by
  induction ps generalizing column with
  | nil => exact .nil
  | cons p ps ih =>
    refine .cons ?_ (ih _)
    intro token htoken
    obtain ⟨hline, hlow, -⟩ := bounds_of_mem_tokensFrom htoken
    have hgap := p.length_gap_lt
    exact .inr ⟨hline.symm, by dsimp only; omega⟩

end Piece

/-! ## Tokens of lines -/

namespace LineCut

variable {cut : LineCut} {cuts : List LineCut}

/-- The tokens of a line stand on it, or just behind it. -/
theorem bounds_of_mem_tokens (h : token ∈ cut.tokens row) :
    token.position.line = row ∧ 1 ≤ token.position.column ∧
      token.position.column ≤ cut.text.length + 1 := by
  rcases List.mem_append.mp h with h | h
  · obtain ⟨hline, hlow, hhigh⟩ := Piece.bounds_of_mem_tokensFrom h
    have hlength : (Piece.textOf cut.pieces).length ≤ cut.text.length := by
      rw [text, List.length_append]
      omega
    exact ⟨hline, hlow, by omega⟩
  · rw [List.mem_singleton.mp h]
    exact ⟨rfl, Nat.le_add_left _ _, Nat.le_refl _⟩

theorem pairwise_tokens (cut : LineCut) (row : Nat) :
    (cut.tokens row).Pairwise Token.Before := by
  refine List.pairwise_append.mpr
    ⟨Piece.pairwise_tokensFrom row 1 cut.pieces, List.pairwise_singleton _ _, ?_⟩
  intro token htoken last hlast
  obtain ⟨hline, -, hhigh⟩ := Piece.bounds_of_mem_tokensFrom htoken
  rw [List.mem_singleton.mp hlast]
  refine .inr ⟨hline, ?_⟩
  rw [text, List.length_append]
  dsimp only
  omega

theorem tokensOf_cons (row : Nat) (cut : LineCut) (cuts : List LineCut) :
    tokensOf row (cut :: cuts) = cut.tokens row ++ tokensOf (row + 1) cuts :=
  rfl

theorem exists_of_mem_tokensOf (h : token ∈ tokensOf row cuts) :
    ∃ (i : Nat) (cut : LineCut), cuts[i]? = some cut ∧ token ∈ cut.tokens (row + i) := by
  induction cuts generalizing row with
  | nil => cases h
  | cons first cuts ih =>
    rcases List.mem_append.mp h with h | h
    · exact ⟨0, first, rfl, h⟩
    · obtain ⟨i, cut, hcut, htoken⟩ := ih h
      refine ⟨i + 1, cut, hcut, ?_⟩
      rwa [← Nat.add_assoc, Nat.add_right_comm]

/-- The tokens of a source text stand one after the other. -/
theorem pairwise_tokensOf (row : Nat) (cuts : List LineCut) :
    (tokensOf row cuts).Pairwise Token.Before := by
  induction cuts generalizing row with
  | nil => exact .nil
  | cons cut cuts ih =>
    refine List.pairwise_append.mpr ⟨cut.pairwise_tokens row, ih (row + 1), ?_⟩
    intro token htoken other hother
    obtain ⟨hline, -⟩ := bounds_of_mem_tokens htoken
    obtain ⟨i, cut, -, hother⟩ := exists_of_mem_tokensOf hother
    obtain ⟨hline', -⟩ := bounds_of_mem_tokens hother
    exact .inl (by omega)

/-- A token that ends no line and the one behind it stand on the same line. -/
theorem exists_of_tokensOf_eq_append (hkind : token.kind ≠ .lineEnd)
    (h : tokensOf row cuts = before ++ token :: next :: after) :
    ∃ (i : Nat) (cut : LineCut) (front back : List Token), cuts[i]? = some cut ∧
      cut.tokens (row + i) = front ++ token :: next :: back := by
  induction cuts generalizing row before with
  | nil => exact absurd h.symm (List.append_ne_nil_of_right_ne_nil before (List.cons_ne_nil _ _))
  | cons cut cuts ih =>
    have hbelow {before : List Token}
        (h : tokensOf (row + 1) cuts = before ++ token :: next :: after) :
        ∃ (i : Nat) (other : LineCut) (front back : List Token),
          (cut :: cuts)[i]? = some other ∧
            other.tokens (row + i) = front ++ token :: next :: back := by
      obtain ⟨i, other, front, back, hget, htokens⟩ := ih h
      refine ⟨i + 1, other, front, back, hget, ?_⟩
      rwa [← Nat.add_assoc, Nat.add_right_comm]
    rw [tokensOf_cons] at h
    rcases List.append_eq_append_iff.mp h with ⟨more, -, hrest⟩ | ⟨more, hcut, hrest⟩
    · exact hbelow hrest
    · cases more with
      | nil =>
        rw [List.nil_append] at hrest
        exact @hbelow [] hrest.symm
      | cons first more =>
        obtain ⟨rfl, hmore⟩ := List.cons.inj hrest
        cases more with
        | nil =>
          -- The last token of a line ends it.
          obtain ⟨-, hlast⟩ := List.append_inj' hcut rfl
          rw [← List.singleton_inj.mp hlast] at hkind
          exact absurd rfl hkind
        | cons second more =>
          obtain ⟨rfl, -⟩ := List.cons.inj hmore
          exact ⟨0, cut, before, more, rfl, hcut⟩

end LineCut

/-! ## Names with a colon -/

theorem TokenKind.SpelledBy.eq_of_identifier {name : String} {span : List Char}
    (h : (TokenKind.identifier name).SpelledBy span) : span = name.toList := by
  cases h with
  | punctuation h =>
    unfold ofPunctuation? at h
    split at h <;> cases h
  | identifier => exact String.toList_ofList.symm

theorem TokenKind.SpelledBy.eq_of_colon {span : List Char} (h : TokenKind.colon.SpelledBy span) :
    span = [':'] := by
  cases h with
  | punctuation h =>
    unfold ofPunctuation? at h
    split at h <;> cases h
    rfl

/-- A name with a colon behind it is spelled on its line, where white space at most stands
between them. -/
theorem LineCut.exists_of_name_colon {cuts : List LineCut} {name : String}
    {position colon : Position}
    (h : tokensOf row cuts =
      before ++ ⟨.identifier name, position⟩ :: ⟨.colon, colon⟩ :: after) :
    ∃ (i : Nat) (cut : LineCut) (front gap back : List Char), cuts[i]? = some cut ∧
      cut.text = front ++ (name.toList ++ gap ++ ':' :: back) ∧
      (∀ c ∈ gap, isBlank c = true) ∧ position = ⟨row + i, front.length + 1⟩ := by
  have hkind : (⟨.identifier name, position⟩ : Token).kind ≠ .lineEnd := nofun
  obtain ⟨i, cut, front, back, hget, htokens⟩ := exists_of_tokensOf_eq_append hkind h
  rcases List.eq_nil_or_concat' back with rfl | ⟨back, last, rfl⟩
  · -- The colon does not end the line.
    rw [List.append_cons] at htokens
    obtain ⟨-, hlast⟩ := List.append_inj' htokens rfl
    cases hlast
  · rw [tokens, ← List.cons_append, ← List.cons_append, ← List.append_assoc] at htokens
    obtain ⟨hpieces, -⟩ := List.append_inj' htokens rfl
    obtain ⟨inFront, pieces, hcut, hname⟩ := Piece.exists_of_tokensFrom_eq_append hpieces
    cases pieces with
    | nil => cases hname
    | cons p pieces =>
      obtain ⟨hp, hrest⟩ := List.cons.inj hname
      cases pieces with
      | nil => cases hrest
      | cons q pieces =>
        obtain ⟨hq, -⟩ := List.cons.inj hrest
        obtain ⟨hpkind, rfl⟩ := Token.mk.inj hp
        have hpspan := (hpkind ▸ p.spelled).eq_of_identifier
        have hqspan := ((Token.mk.inj hq).1 ▸ q.spelled).eq_of_colon
        refine ⟨i, cut, Piece.textOf inFront ++ p.gap, q.gap, Piece.textOf pieces ++ cut.rest,
          hget, ?_, q.isBlank_of_mem, ?_⟩
        · rw [text, hcut]
          simp [Piece.textOf, Piece.text, hpspan, hqspan]
        · rw [List.length_append]
          congr 1
          omega

end MipsAssembly
