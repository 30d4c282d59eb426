import MipsAssembly.Proofs.Grammar.Recognition
import MipsAssembly.Proofs.Resolution.Declarations

/-!
# Names of labels among the tokens

The labels that statements declare stand among the tokens of their source text, in the same order:
each is a name with a colon behind it, at the position of the name.

## Main definitions

- `Declares` — labels stand among tokens.
- `Grammar.Source.declares` — the labels of statements stand among their tokens.
- `Declares.sublist`, `Declares.exists_colon` — in which order they stand, and what is behind them.
-/

namespace MipsAssembly

/-- Labels stand among tokens in the given order, each of them a name with a colon behind it. -/
inductive Declares : List Token → List (String × Position) → Prop where
  | nil (tokens : List Token) : Declares tokens []
  | skip {tokens : List Token} {labels : List (String × Position)} (token : Token) :
    Declares tokens labels → Declares (token :: tokens) labels
  | label {tokens : List Token} {labels : List (String × Position)} (name : String)
    (position colon : Position) :
    Declares tokens labels →
    Declares (⟨.identifier name, position⟩ :: ⟨.colon, colon⟩ :: tokens)
      ((name, position) :: labels)

namespace Declares

variable {tokens more : List Token} {labels others : List (String × Position)}

theorem append_left (h : Declares more labels) (tokens : List Token) :
    Declares (tokens ++ more) labels := by
  induction tokens with
  | nil => exact h
  | cons token tokens ih => exact .skip token ih

theorem append (h : Declares tokens labels) (h' : Declares more others) :
    Declares (tokens ++ more) (labels ++ others) := by
  induction h with
  | nil tokens => exact h'.append_left tokens
  | skip token _ ih => exact .skip token ih
  | label name position colon _ ih => exact .label name position colon ih

/-- The names of the labels stand in the order of the labels. -/
theorem sublist (h : Declares tokens labels) :
    (labels.map fun label => (⟨.identifier label.1, label.2⟩ : Token)).Sublist tokens := by
  induction h with
  | nil tokens => exact List.nil_sublist tokens
  | skip token _ ih => exact ih.cons token
  | label name position colon _ ih => exact (ih.cons _).cons_cons _

/-- A colon stands behind each name. -/
theorem exists_colon {name : String} {position : Position} (h : Declares tokens labels)
    (hmem : (name, position) ∈ labels) :
    ∃ before colon after,
      tokens = before ++ ⟨.identifier name, position⟩ :: ⟨.colon, colon⟩ :: after := by
  induction h with
  | nil tokens => cases hmem
  | skip token _ ih =>
    obtain ⟨before, colon, after, rfl⟩ := ih hmem
    exact ⟨token :: before, colon, after, rfl⟩
  | label other place colon _ ih =>
    rcases List.mem_cons.mp hmem with heq | hmem
    · cases heq
      exact ⟨[], colon, _, rfl⟩
    · obtain ⟨before, colon', after, rfl⟩ := ih hmem
      exact ⟨_ :: _ :: before, colon', after, rfl⟩

end Declares

namespace Grammar

variable {limit : Option Nat} {tokens : List Token} {statements : List Statement}

theorem Labels.declares (h : Labels tokens statements) :
    Declares tokens (declarations statements) := by
  induction h with
  | nil => exact .nil []
  | snoc name position colon _ ih =>
    rw [declarations_append]
    exact ih.append (.label name position colon (.nil []))

/-- Nothing but labels declares a label. -/
theorem Body.declarations_eq_nil {kinds : List TokenKind} {statement : Statement}
    (h : Body limit kinds statement) : declarations [statement] = [] := by
  cases h <;> rfl

theorem Line.declares (h : Line limit tokens statements) :
    Declares tokens (declarations statements) := by
  cases h with
  | labels hlabels => exact hlabels.declares
  | body hlabels hbody =>
    rw [declarations_append, hbody.declarations_eq_nil]
    exact hlabels.declares.append (.nil _)

/-- The labels of a source text stand among its tokens. -/
theorem Source.declares (h : Source limit tokens statements) :
    Declares tokens (declarations statements) := by
  induction h with
  | nil => exact .nil []
  | blank stop _ ih => exact .skip _ ih
  | last hline => exact hline.declares
  | line stop hline _ ih =>
    rw [declarations_append]
    exact hline.declares.append (.skip _ ih)

end Grammar

end MipsAssembly
