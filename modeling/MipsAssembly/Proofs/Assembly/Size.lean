import MipsAssembly.Proofs.Assembly.Stages
import MipsAssembly.Proofs.Grammar.Recognition
import MipsAssembly.Proofs.Resolution.Rebuilding

/-!
# The size of programs that are read

Every token takes a character, where the end of the last line may be missing, and every statement
takes a token.  So the length of a source text bounds the addresses of its program.

## Main definitions

- `length_le_of_lex` — the number of tokens.
- `length_le_of_statementsOf` — the number of statements.
- `address_le_of_parse` — the greatest address.
-/

namespace MipsAssembly

/-! ## Tokens -/

/-- What is left of a line has no more tokens than characters, but for the end of the line. -/
theorem length_le_of_lexFrom {row column inside : Nat} {cs : List Char} {tokens : List Token}
    (h : lexFrom row column inside cs = .ok tokens) : tokens.length ≤ cs.length + 1 := by
  induction cs generalizing column inside tokens with
  | nil =>
    rw [lexFrom] at h
    cases h
    exact Nat.le_refl 1
  | cons c rest ih =>
    cases inside with
    | succ inside => exact Nat.le_succ_of_le (ih h)
    | zero =>
      rw [lexFrom] at h
      split at h
      · exact Nat.le_succ_of_le (ih h)
      split at h
      · cases h
        exact Nat.succ_le_succ (Nat.zero_le _)
      split at h
      · cases h
      · obtain ⟨behind, hrest, rfl⟩ := exists_of_map_eq_ok h
        exact Nat.succ_le_succ (ih hrest)

/-- The lines of a text, each with a line feed behind it, have as many characters as tokens at
least. -/
theorem length_le_of_lexLines {row : Nat} {lines : List (List Char)} {tokens : List Token}
    (h : lexLines row lines = .ok tokens) :
    tokens.length ≤ (lines.flatMap (· ++ ['\n'])).length := by
  induction lines generalizing row tokens with
  | nil =>
    cases h
    exact Nat.le_refl 0
  | cons line lines ih =>
    rw [lexLines] at h
    split at h
    · cases h
    · next first hfirst =>
      obtain ⟨rest, hrest, rfl⟩ := exists_of_map_eq_ok h
      have hline : first.length ≤ line.length + 1 := length_le_of_lexFrom hfirst
      rw [List.flatMap_cons, List.length_append, List.length_append, List.length_append]
      exact Nat.add_le_add hline (ih hrest)

/-- Only the last line of a text may go without a line feed. -/
theorem length_flatMap_splitLines_le (cs : List Char) :
    ((splitLines cs).flatMap (· ++ ['\n'])).length ≤ cs.length + 1 := by
  induction cs using splitLines.induct with
  | case1 => exact Nat.zero_le 1
  | case2 rest ih =>
    rw [splitLines, List.flatMap_cons, List.nil_append, List.singleton_append, List.length_cons]
    exact Nat.le_succ_of_le (Nat.succ_le_succ ih)
  | case3 rest ih =>
    rw [splitLines, List.flatMap_cons, List.nil_append, List.singleton_append, List.length_cons]
    exact Nat.succ_le_succ ih
  | case4 c rest hreturn hfeed hnone ih =>
    rw [splitLines, hnone]
    · exact Nat.succ_le_succ (Nat.succ_le_succ (Nat.zero_le _))
    · exact hreturn
    · exact hfeed
  | case5 c rest hreturn hfeed line lines hlines ih =>
    rw [hlines] at ih
    rw [splitLines, hlines]
    · exact Nat.succ_le_succ ih
    · exact hreturn
    · exact hfeed

theorem length_le_of_lex {source : String} {tokens : List Token} (h : lex source = .ok tokens) :
    tokens.length ≤ source.length + 1 :=
  Nat.le_trans (length_le_of_lexLines h) (length_flatMap_splitLines_le source.toList)

/-! ## Statements -/

namespace Grammar

variable {limit : Option Nat} {tokens : List Token} {statements : List Statement}

theorem Body.length_pos {kinds : List TokenKind} {statement : Statement}
    (h : Body limit kinds statement) : 0 < kinds.length := by
  cases h <;> exact Nat.succ_pos _

theorem Labels.length_le (h : Labels tokens statements) : statements.length ≤ tokens.length := by
  induction h with
  | nil => exact Nat.le_refl 0
  | snoc name position colon _ ih =>
    rw [List.length_append, List.length_append]
    exact Nat.add_le_add ih (Nat.le_succ 1)

theorem Line.length_le (h : Line limit tokens statements) :
    statements.length ≤ tokens.length := by
  cases h with
  | labels hlabels _ => exact hlabels.length_le
  | body hlabels hbody =>
    have hpos := hbody.length_pos
    rw [List.length_map] at hpos
    rw [List.length_append, List.length_append]
    exact Nat.add_le_add hlabels.length_le hpos

/-- Every statement takes a token. -/
theorem Source.length_le (h : Source limit tokens statements) :
    statements.length ≤ tokens.length := by
  induction h with
  | nil => exact Nat.le_refl 0
  | blank stop _ ih => exact Nat.le_succ_of_le ih
  | last hline => exact hline.length_le
  | line stop hline _ ih =>
    rw [List.length_append, List.length_append]
    exact Nat.add_le_add hline.length_le (Nat.le_succ_of_le ih)

end Grammar

theorem length_le_of_statementsOf {source : String} {statements : List Statement}
    (h : statementsOf source = .ok statements) : statements.length ≤ source.length + 1 := by
  obtain ⟨tokens, hlex, hparse⟩ := statementsOf_eq_ok_iff.mp h
  exact Nat.le_trans (source_of_parseStatements hparse).length_le (length_le_of_lex hlex)

/-! ## Addresses -/

theorem length_entriesIn_le (segment current : String) (statements : List Statement) :
    (entriesIn segment current statements).length ≤ statements.length := by
  induction statements generalizing current with
  | nil => exact Nat.le_refl 0
  | cons statement rest ih =>
    cases statement with
    | segment name => exact Nat.le_succ_of_le (ih name)
    | label name position => exact Nat.le_succ_of_le (ih current)
    | entry entry =>
      rw [entriesIn]
      split
      · exact Nat.succ_le_succ (ih current)
      · exact Nat.le_succ_of_le (ih current)

/-- No address is greater than the number of statements. -/
theorem address_le_of_resolve {statements : List Statement} {p : Program}
    (h : resolve statements = .ok p) :
    ∀ label ∈ p.labels.entries, label.2.address ≤ statements.length := by
  have hinside : Immediate.LabelsInside p := Immediate.labelsInside_of_resolve h
  obtain ⟨-, rfl⟩ := resolve_eq_ok_iff.mp h
  intro label hlabel
  have hentries : ((statements.foldl Immediate.step {}).program.segmentD label.2.segment).entries =
      [] ++ entriesIn label.2.segment textSegment statements :=
    Immediate.entries_foldl label.2.segment
  have hlength := length_entriesIn_le label.2.segment textSegment statements
  have hbound := (hinside label hlabel).2
  rw [Segment.length, hentries] at hbound
  exact Nat.le_trans hbound hlength

/-- No address is greater than the length of the source text, but for a missing line end. -/
theorem address_le_of_parse {source : String} {p : Program} (h : parse source = .ok p) :
    ∀ label ∈ p.labels.entries, label.2.address ≤ source.length + 1 := by
  obtain ⟨statements, hread, hp⟩ := parse_eq_ok_iff.mp h
  intro label hlabel
  exact Nat.le_trans (address_le_of_resolve hp label hlabel) (length_le_of_statementsOf hread)

end MipsAssembly
