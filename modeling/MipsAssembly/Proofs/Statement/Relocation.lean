import MipsAssembly.Proofs.Statement.Reaches
import MipsAssembly.Token.Lexer

/-!
# Positions that are changed

Positions are passed on and never looked at.  Where those of the tokens are changed, those of
the statements and of an error are changed in the same way, and nothing else is.

## Main definitions

- `Position.below` — a position in a text that starts some lines further down.
- `Position.forget` — no position at all.
- `Token.mapPosition`, `Statement.mapPosition`, `LexicalError.mapPosition`,
  `SyntaxError.mapPosition`, `Phase.mapPosition` — the same thing at another position.
- `Phase.run_mapPosition` — reading tokens whose positions are changed.
- `lexLines_add` — cutting lines that start further down.
-/

namespace MipsAssembly

/-- A position in a text that starts some lines further down. -/
def Position.below (lines : Nat) (p : Position) : Position :=
  ⟨p.line + lines, p.column⟩

/-- All positions become the same. -/
def Position.forget (_ : Position) : Position :=
  {}

def Token.mapPosition (f : Position → Position) (token : Token) : Token :=
  ⟨token.kind, f token.position⟩

def Statement.mapPosition (f : Position → Position) : Statement → Statement
  | label name position => label name (f position)
  | statement => statement

def LexicalError.mapPosition (f : Position → Position) (e : LexicalError) : LexicalError :=
  ⟨e.fault, f e.position⟩

def SyntaxError.mapPosition (f : Position → Position) : SyntaxError → SyntaxError
  | unexpectedToken expected found position => unexpectedToken expected found (f position)
  | unexpectedEnd expected position => unexpectedEnd expected (f position)
  | unknownDirective name position => unknownDirective name (f position)

namespace Phase

def mapPosition (f : Position → Position) : Phase → Phase
  | named name position => named name (f position)
  | phase => phase

/-- The effect of a token with its positions changed. -/
def mapEffect (f : Position → Position) (effect : Phase × List Statement) :
    Phase × List Statement :=
  (effect.1.mapPosition f, effect.2.map (Statement.mapPosition f))

variable (f : Position → Position)

theorem expected_mapPosition (p : Phase) : (p.mapPosition f).expected = p.expected := by
  cases p <;> rfl

/-- The end of a line completes no label. -/
theorem finish?_mapPosition (p : Phase) :
    (p.mapPosition f).finish? = p.finish?.map (List.map (Statement.mapPosition f)) := by
  cases p with
  | afterValue purpose inner outer value =>
    cases outer with
    | nil => cases purpose <;> rfl
    | cons level levels => rfl
  | _ => rfl

theorem openGroup_mapPosition (limit : Option Nat) (groups : Nat) (token : Token) (p : Phase) :
    openGroup limit groups (token.mapPosition f) (p.mapPosition f) =
      mapBoth (SyntaxError.mapPosition f) (mapPosition f) (openGroup limit groups token p) := by
  unfold openGroup
  split <;> rfl

theorem startValue_mapPosition (limit : Option Nat) (purpose : Purpose) (inner : Pending)
    (outer : List Pending) (token : Token) :
    startValue limit purpose inner outer (token.mapPosition f) =
      mapBoth (SyntaxError.mapPosition f) (mapPosition f)
        (startValue limit purpose inner outer token) := by
  obtain ⟨kind, position⟩ := token
  cases kind with
  | openParen =>
    exact openGroup_mapPosition f limit outer.length ⟨.openParen, position⟩
      (beforeValue purpose {} (inner :: outer))
  | _ => rfl

theorem startOperand_mapPosition (limit : Option Nat) (opcode : String) (before : List Operand)
    (token : Token) :
    startOperand limit opcode before (token.mapPosition f) =
      mapBoth (SyntaxError.mapPosition f) (mapPosition f)
        (startOperand limit opcode before token) := by
  obtain ⟨kind, position⟩ := token
  cases kind with
  | openParen =>
    exact openGroup_mapPosition f limit 0 ⟨.openParen, position⟩ (groupOrBase opcode before)
  | _ => rfl

theorem continueSum_mapPosition (purpose : Purpose) (inner : Pending) (outer : List Pending)
    (value : Operand) (token : Token) :
    continueSum purpose inner outer value (token.mapPosition f) =
      mapBoth (SyntaxError.mapPosition f) (mapPosition f)
        (continueSum purpose inner outer value token) := by
  obtain ⟨kind, position⟩ := token
  cases outer with
  | nil => cases purpose <;> cases kind <;> rfl
  | cons level levels => cases kind <;> rfl

theorem startDirective_mapPosition (name : String) (position : Position) :
    startDirective name (f position) =
      mapBoth (SyntaxError.mapPosition f) (mapEffect f) (startDirective name position) := by
  unfold startDirective
  split
  · rfl
  · split
    · rfl
    · split <;> rfl

/-- A phase that completes no statement. -/
theorem map_pair_mapPosition {result other : Except SyntaxError Phase}
    (h : other = mapBoth (SyntaxError.mapPosition f) (mapPosition f) result) :
    other.map (fun p => (p, ([] : List Statement))) =
      mapBoth (SyntaxError.mapPosition f) (mapEffect f) (result.map fun p => (p, [])) := by
  subst h
  cases result <;> rfl

theorem within_mapPosition (limit : Option Nat) (p : Phase) (token : Token) :
    (p.mapPosition f).within limit (token.mapPosition f) =
      mapBoth (SyntaxError.mapPosition f) (mapEffect f) (p.within limit token) := by
  obtain ⟨kind, position⟩ := token
  cases p with
  | lineStart | afterLabel =>
    cases kind with
    | directive name => exact startDirective_mapPosition f name position
    | _ => rfl
  | named name start =>
    have hoperand := startOperand_mapPosition f limit name [] ⟨kind, position⟩
    cases kind with
    | colon => rfl
    | _ => exact map_pair_mapPosition f hoperand
  | beforeOperand opcode before =>
    exact map_pair_mapPosition f (startOperand_mapPosition f limit opcode before ⟨kind, position⟩)
  | groupOrBase opcode before =>
    have hvalue := startValue_mapPosition f limit (.operand opcode before) {} [{}] ⟨kind, position⟩
    cases kind with
    | register name => rfl
    | _ => exact map_pair_mapPosition f hvalue
  | beforeValue purpose inner outer =>
    exact map_pair_mapPosition f
      (startValue_mapPosition f limit purpose inner outer ⟨kind, position⟩)
  | afterValue purpose inner outer value =>
    exact map_pair_mapPosition f
      (continueSum_mapPosition f purpose inner outer value ⟨kind, position⟩)
  | complete | beforeText | indirectBase | afterSign | beforeBase | indexedBase | afterOperand =>
    cases kind <;> rfl

theorem next_mapPosition (limit : Option Nat) (p : Phase) (token : Token) :
    (p.mapPosition f).next limit (token.mapPosition f) =
      mapBoth (SyntaxError.mapPosition f) (mapEffect f) (p.next limit token) := by
  by_cases hend : token.kind = .lineEnd
  · have hmoved : (token.mapPosition f).kind = .lineEnd := hend
    rw [next, next, if_pos hend, if_pos hmoved, finish?_mapPosition]
    cases hfinish : p.finish? with
    | some statements => rfl
    | none =>
      simp only [refuse, expected_mapPosition]
      rfl
  · have hmoved : (token.mapPosition f).kind ≠ .lineEnd := hend
    rw [next, next, if_neg hend, if_neg hmoved, within_mapPosition]

/-- Reading tokens whose positions are changed. -/
theorem run_mapPosition (limit : Option Nat) (p : Phase) (last : Position) (tokens : List Token) :
    (p.mapPosition f).run limit (f last) (tokens.map (Token.mapPosition f)) =
      mapBoth (SyntaxError.mapPosition f) (List.map (Statement.mapPosition f))
        (p.run limit last tokens) := by
  induction tokens generalizing p last with
  | nil =>
    rw [List.map_nil, run, run, finish?_mapPosition, expected_mapPosition]
    cases p.finish? <;> rfl
  | cons token tokens ih =>
    rw [List.map_cons, run, run, next_mapPosition]
    cases hnext : p.next limit token with
    | error e => rfl
    | ok effect =>
      obtain ⟨q, done⟩ := effect
      have hrest := ih q token.position
      show ((q.mapPosition f).run limit (f token.position) _).map _ =
        mapBoth _ _ ((q.run limit token.position tokens).map (done ++ ·))
      rw [hrest]
      cases q.run limit token.position tokens with
      | error e => rfl
      | ok statements => exact congrArg Except.ok List.map_append.symm

end Phase

theorem lexFrom_add (lines row column inside : Nat) (cs : List Char) :
    lexFrom (row + lines) column inside cs =
      mapBoth (LexicalError.mapPosition (.below lines))
        (List.map (Token.mapPosition (.below lines))) (lexFrom row column inside cs) := by
  induction cs generalizing column inside with
  | nil => rfl
  | cons c cs ih =>
    cases inside with
    | succ inside => exact ih (column + 1) inside
    | zero =>
      by_cases hblank : isBlank c
      · simp only [lexFrom, hblank, if_true]
        exact ih (column + 1) 0
      · by_cases hcomment : c = '#'
        · subst hcomment
          rfl
        · simp only [lexFrom, hblank, hcomment]
          cases readToken c cs with
          | error fault => rfl
          | ok token =>
            obtain ⟨kind, more⟩ := token
            simp only [ih]
            cases lexFrom row (column + 1) more cs <;> rfl

/-- Lines that start further down are cut into the same tokens. -/
theorem lexLines_add (lines row : Nat) (texts : List (List Char)) :
    lexLines (row + lines) texts =
      mapBoth (LexicalError.mapPosition (.below lines))
        (List.map (Token.mapPosition (.below lines))) (lexLines row texts) := by
  induction texts generalizing row with
  | nil => rfl
  | cons text texts ih =>
    have hrow : row + lines + 1 = row + 1 + lines := by omega
    rw [lexLines, lexLines, lexLine, lexFrom_add, ← lexLine, hrow, ih]
    cases lexLine row text with
    | error e => rfl
    | ok front =>
      show ((mapBoth _ _ (lexLines (row + 1) texts)).map _) =
        mapBoth _ _ ((lexLines (row + 1) texts).map (front ++ ·))
      cases lexLines (row + 1) texts with
      | error e => rfl
      | ok tokens => exact congrArg Except.ok List.map_append.symm

end MipsAssembly
