import MipsAssembly.Proofs.Grammar

/-!
# The parts of a source text

Every statement has its own tokens, which stand next to each other in the source text: a label has
its name and the colon behind it, and anything else the tokens of a directive or an instruction.

## Main definitions

- `Grammar.Part` — tokens are a label, a directive or an instruction.
- `Grammar.Source.exists_part` — where the statements of a source text stand.
-/

namespace MipsAssembly

namespace Grammar

/-- Tokens are a label, a directive or an instruction. -/
inductive Part (limit : Option Nat) : List Token → Statement → Prop where
  | label (name : String) (position colon : Position) :
    Part limit [⟨.identifier name, position⟩, ⟨.colon, colon⟩] (.label name position)
  | body {tokens : List Token} {statement : Statement} :
    Body limit (tokens.map Token.kind) statement → Part limit tokens statement

variable {limit : Option Nat} {tokens : List Token} {statements : List Statement}
  {statement : Statement}

theorem Labels.exists_part (h : Labels tokens statements) (hmem : statement ∈ statements) :
    ∃ part, Part limit part statement ∧ part <:+: tokens := by
  induction h with
  | nil => cases hmem
  | snoc name position colon _ ih =>
    rcases List.mem_append.mp hmem with hbefore | hlast
    · obtain ⟨part, hpart, hinside⟩ := ih hbefore
      exact ⟨part, hpart, hinside.trans (List.prefix_append _ _).isInfix⟩
    · obtain rfl := List.mem_singleton.mp hlast
      exact ⟨_, .label name position colon, (List.suffix_append _ _).isInfix⟩

theorem Line.exists_part (h : Line limit tokens statements) (hmem : statement ∈ statements) :
    ∃ part, Part limit part statement ∧ part <:+: tokens := by
  cases h with
  | labels hlabels _ => exact hlabels.exists_part hmem
  | body hlabels hbody =>
    rcases List.mem_append.mp hmem with hbefore | hlast
    · obtain ⟨part, hpart, hinside⟩ := hlabels.exists_part hbefore
      exact ⟨part, hpart, hinside.trans (List.prefix_append _ _).isInfix⟩
    · obtain rfl := List.mem_singleton.mp hlast
      exact ⟨_, .body hbody, (List.suffix_append _ _).isInfix⟩

/-- Every statement of a source text stands among its tokens. -/
theorem Source.exists_part (h : Source limit tokens statements) (hmem : statement ∈ statements) :
    ∃ part, Part limit part statement ∧ part <:+: tokens := by
  induction h with
  | nil => cases hmem
  | blank stop _ ih =>
    obtain ⟨part, hpart, hinside⟩ := ih hmem
    exact ⟨part, hpart, hinside.trans (List.suffix_cons _ _).isInfix⟩
  | last hline => exact hline.exists_part hmem
  | @line tokens rest statements more stop hline _ ih =>
    rcases List.mem_append.mp hmem with hfirst | hmore
    · obtain ⟨part, hpart, hinside⟩ := hline.exists_part hfirst
      exact ⟨part, hpart, hinside.trans (List.prefix_append _ _).isInfix⟩
    · obtain ⟨part, hpart, hinside⟩ := ih hmore
      have hrest : rest <:+ tokens ++ ⟨.lineEnd, stop⟩ :: rest :=
        (List.suffix_cons _ rest).trans (List.suffix_append tokens _)
      exact ⟨part, hpart, hinside.trans hrest.isInfix⟩

end Grammar

end MipsAssembly
