import MipsAssembly.Proofs.Assembly.Lines
import MipsAssembly.Proofs.Assembly.Stages
import MipsAssembly.Proofs.Resolution.Growth

/-!
# Source texts that go on

What is written behind a source text whose last line is ended adds statements behind its own, and
these add to its program.  So the program of the longer text begins with the program of the shorter
one: what was declared stays as it was declared.

## Main definitions

- `exists_statementsOf_append` — the statements of a text with another one behind it.
- `parse_append_extends` — its program.
-/

namespace MipsAssembly

/-- The statements of a text that goes on begin with its own. -/
theorem exists_statementsOf_append {a b : String} {statements : List Statement}
    (ha : a = "" ∨ a.toList.getLast? = some '\n')
    (h : statementsOf (a ++ b) = .ok statements) :
    ∃ before after, statementsOf a = .ok before ∧ statements = before ++ after := by
  have hlines : sourceLines (a ++ b) = sourceLines a ++ sourceLines b := by
    rcases ha with rfl | hend
    · rw [String.empty_append]
      rfl
    · exact sourceLines_append hend b
  obtain ⟨tokens, hlex, hparse⟩ := statementsOf_eq_ok_iff.mp h
  rw [lex, hlines, lexLines_append] at hlex
  obtain ⟨front, hfront, hlex⟩ := exists_of_bind_eq_ok hlex
  obtain ⟨behind, -, rfl⟩ := exists_of_map_eq_ok hlex
  -- The tokens of the first text end a line, so they are read without those behind them.
  rw [(endsLine_of_lexLines hfront).parseStatements_append] at hparse
  obtain ⟨before, hbefore, hparse⟩ := exists_of_bind_eq_ok hparse
  obtain ⟨after, -, rfl⟩ := exists_of_map_eq_ok hparse
  exact ⟨before, after, statementsOf_eq_ok_iff.mpr ⟨front, hfront, hbefore⟩, rfl⟩

/-- Later text never changes what earlier text declared.

If a text whose last line is ended makes a program with another text behind it, it makes one on its
own.  The longer program begins with it: segments, the entries of each, labels and switches are
added behind those that were there, and every label, a last one that nothing followed included,
keeps its segment and its address. -/
theorem parse_append_extends (a b : String) (p : Program)
    (ha : a = "" ∨ a.toList.getLast? = some '\n') (h : parse (a ++ b) = .ok p) :
    ∃ p₀, parse a = .ok p₀ ∧ p.Extends p₀ ∧
      ∀ name label, p₀.label? name = some label → p.label? name = some label := by
  obtain ⟨statements, hread, hresolve⟩ := parse_eq_ok_iff.mp h
  obtain ⟨before, after, hbefore, rfl⟩ := exists_statementsOf_append ha hread
  obtain ⟨p₀, hp₀, hextends⟩ := exists_resolve_extends hresolve
  exact ⟨p₀, parse_eq_ok_iff.mpr ⟨before, hbefore, hp₀⟩, hextends, fun _ _ => hextends.label?⟩

/-- The first text ends with a label in a segment that only the second one puts an entry into, and
not before it has been in another segment. -/
theorem parse_append_extends_of_trailing_label :
    let a := "nop\n.data\nx:\n"
    let b := ".text\ny: nop\n.data\n.word 1\n"
    let nop : Statement := .entry (.instruction ⟨"nop", none⟩)
    let statements : List Statement :=
      [nop, .segment ".data", .label "x" ⟨3, 1⟩, .segment ".text", .label "y" ⟨5, 1⟩, nop,
        .segment ".data", .entry (.data ⟨.word, .scalar (.int 1)⟩)]
    let p : Program := (statements.foldl Immediate.step {}).program
    let p₀ : Program := ((statements.take 3).foldl Immediate.step {}).program
    (a = "" ∨ a.toList.getLast? = some '\n') ∧ parse (a ++ b) = .ok p ∧ parse a = .ok p₀ ∧
    p.Extends p₀ ∧ (∀ name label, p₀.label? name = some label → p.label? name = some label) ∧
    p₀.label? "x" = some ⟨0, ".data"⟩ ∧ p.label? "x" = some ⟨0, ".data"⟩ := by
  intro a b nop statements p p₀
  have ha : a = "" ∨ a.toList.getLast? = some '\n' := .inr (by decide)
  have hread : statementsOf (a ++ b) = .ok statements := by decide +kernel +zetaReduce
  have hresolve : resolve statements = .ok p := resolve_eq_ok_iff.mpr ⟨by decide, rfl⟩
  have hparse : parse (a ++ b) = .ok p := parse_eq_ok_iff.mpr ⟨statements, hread, hresolve⟩
  have hread₀ : statementsOf a = .ok (statements.take 3) := by decide +kernel +zetaReduce
  have hparse₀ : parse a = .ok p₀ :=
    parse_eq_ok_iff.mpr ⟨_, hread₀, resolve_eq_ok_iff.mpr ⟨by decide, rfl⟩⟩
  obtain ⟨before, hbefore, hextends, hkeeps⟩ := parse_append_extends a b p ha hparse
  obtain rfl : p₀ = before := Except.ok.inj (hparse₀.symm.trans hbefore)
  have hx : p₀.label? "x" = some ⟨0, ".data"⟩ := by decide +kernel +zetaReduce
  exact ⟨ha, hparse, hparse₀, hextends, hkeeps, hx, hkeeps _ _ hx⟩

end MipsAssembly
