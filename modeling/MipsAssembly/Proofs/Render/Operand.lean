import MipsAssembly.Proofs.Grammar
import MipsAssembly.Proofs.Token.Spelling
import MipsAssembly.Render

/-!
# Written operands are expressions

An operand that an expression stands for is written as an expression that stands for it.  The
writer puts parentheses only where the grammar demands a group, so the groups of the written
expression are nested no more deeply than those of any expression for the same operand.

## Main definitions

- `Grammar.Level.Admits` — the levels whose expressions need no group at a level.
- `Operand.depth`, `Operand.depthAt` — how deeply the groups of a written operand are nested.
- `Operand.Plain` — the operands that expressions of spelled tokens stand for.
- `Grammar.Expression.depthAt_le` — no expression has fewer nested groups.
- `Operand.Plain.exists_expression` — what is written is an expression.
-/

namespace MipsAssembly

open Grammar

/-- The level that is asked for on the right of an operator. -/
def BinaryOperator.rightLevel : BinaryOperator → Level
  | add | sub => .product
  | mul | div | mod => .value

/-- At the first level, expressions of the second one need no group around them. -/
def Grammar.Level.Admits : Level → Level → Prop
  | sum, _ => True
  | product, inner => inner ≠ sum
  | value, inner => inner = value

instance (outer inner : Level) : Decidable (outer.Admits inner) := by
  cases outer <;> unfold Level.Admits <;> infer_instance

/-- An expression is one of every level that admits its own. -/
theorem Grammar.Expression.ofAdmits {limit : Option Nat} {outer inner : Level} {groups : Nat}
    {kinds : List TokenKind} {e : Operand} (h : Expression limit inner groups kinds e)
    (hadmits : outer.Admits inner) : Expression limit outer groups kinds e := by
  cases outer with
  | sum =>
    cases inner with
    | sum => exact h
    | product => exact .product h
    | value => exact .product (.value h)
  | product =>
    cases inner with
    | sum => exact absurd rfl hadmits
    | product => exact h
    | value => exact .value h
  | value =>
    obtain rfl : inner = .value := hadmits
    exact h

theorem Grammar.Expression.binary {limit : Option Nat} {groups : Nat} (op : BinaryOperator)
    {lefts rights : List TokenKind} {left right : Operand}
    (hleft : Expression limit op.level groups lefts left)
    (hright : Expression limit op.rightLevel groups rights right) :
    Expression limit op.level groups (lefts ++ op.tokenKind :: rights) (.binary op left right) := by
  cases op with
  | add | sub => exact .plus rfl hleft hright
  | mul | div | mod => exact .times rfl hleft hright

namespace Operand

/-- The level of an operand as it is written. -/
def level : Operand → Level
  | binary op _ _ => op.level
  | _ => .value

/-- Parentheses stand on the left where the level of the operator does not admit the operand. -/
theorem wrapsLeft_iff (op : BinaryOperator) (e : Operand) :
    e.wrapsLeft op = true ↔ ¬ op.level.Admits e.level := by
  cases e with
  | binary inner left right =>
    have hoperators : inner.precedence < op.precedence ↔ ¬ op.level.Admits inner.level := by
      cases op <;> cases inner <;> decide
    simpa [wrapsLeft, level] using hoperators
  | _ => cases op <;> simp [wrapsLeft, level, BinaryOperator.level, Level.Admits]

/-- Parentheses stand on the right where the level asked for does not admit the operand. -/
theorem wrapsRight_iff (op : BinaryOperator) (e : Operand) :
    e.wrapsRight op = true ↔ ¬ op.rightLevel.Admits e.level := by
  cases e with
  | binary inner left right =>
    have hoperators : inner.precedence ≤ op.precedence ↔ ¬ op.rightLevel.Admits inner.level := by
      cases op <;> cases inner <;> decide
    simpa [wrapsRight, level] using hoperators
  | _ => cases op <;> simp [wrapsRight, level, BinaryOperator.rightLevel, Level.Admits]

/-- An operand as it is written at a level, in parentheses if the level does not admit it. -/
def charsAt (outer : Level) (e : Operand) : List Char :=
  if outer.Admits e.level then e.chars else inParens e.chars

/-- How deeply the groups of a written operand are nested. -/
def depth : Operand → Nat
  | binary op left right =>
    max (left.depth + if op.level.Admits left.level then 0 else 1)
      (right.depth + if op.rightLevel.Admits right.level then 0 else 1)
  | _ => 0

/-- How deeply the groups are nested where an operand is written at a level. -/
def depthAt (outer : Level) (e : Operand) : Nat :=
  e.depth + if outer.Admits e.level then 0 else 1

theorem chars_binary (op : BinaryOperator) (left right : Operand) :
    (binary op left right).chars =
      left.charsAt op.level ++ [' ', op.symbol, ' '] ++ right.charsAt op.rightLevel := by
  simp only [chars, charsAt, wrapsLeft_iff, wrapsRight_iff, ite_not]

theorem depth_binary (op : BinaryOperator) (left right : Operand) :
    (binary op left right).depth =
      max (left.depthAt op.level) (right.depthAt op.rightLevel) :=
  rfl

theorem charsAt_of_admits {outer : Level} {e : Operand} (h : outer.Admits e.level) :
    e.charsAt outer = e.chars :=
  if_pos h

theorem depthAt_of_admits {outer : Level} {e : Operand} (h : outer.Admits e.level) :
    e.depthAt outer = e.depth := by
  simp [depthAt, h]

theorem depthAt_le_succ (outer : Level) (e : Operand) : e.depthAt outer ≤ e.depth + 1 := by
  unfold depthAt
  split <;> omega

end Operand

/-- Where the tighter level admits an operand, so does the looser one. -/
theorem Grammar.Level.Admits.trans {outer middle inner : Level} (h : outer.Admits middle)
    (h' : middle.Admits inner) : outer.Admits inner := by
  revert h h'
  cases outer <;> cases middle <;> cases inner <;> decide

namespace Operand

theorem depthAt_le_depthAt {outer inner : Level} (h : outer.Admits inner) (e : Operand) :
    e.depthAt outer ≤ e.depthAt inner := by
  unfold depthAt
  by_cases hinner : inner.Admits e.level
  · rw [if_pos hinner, if_pos (h.trans hinner)]
  · rw [if_neg hinner]
    split <;> omega

end Operand

/-- An expression has no fewer groups inside each other than the operand is written with. -/
theorem Grammar.Expression.depthAt_le {limit : Nat} {outer : Level} {groups : Nat}
    {kinds : List TokenKind} {e : Operand} (h : Expression (some limit) outer groups kinds e)
    (hgroups : groups ≤ limit) : groups + e.depthAt outer ≤ limit := by
  induction h with
  | number radix value => exact hgroups
  | negative radix value => exact hgroups
  | name name => exact hgroups
  | @group groups kinds e hopens _ ih =>
    -- The group at hand makes room for the one that the operand may need at this level.
    have hroom : groups < limit := by simpa [Opens] using hopens
    have hinner := ih hroom
    have hsum : e.depthAt .sum = e.depth := Operand.depthAt_of_admits trivial
    have hvalue := e.depthAt_le_succ .value
    omega
  | @value groups kinds e _ ih =>
    have hadmits : Level.product.Admits .value := by decide
    exact (Nat.add_le_add_left (Operand.depthAt_le_depthAt hadmits e) groups).trans (ih hgroups)
  | @product groups kinds e _ ih =>
    have hadmits : Level.sum.Admits .product := by decide
    exact (Nat.add_le_add_left (Operand.depthAt_le_depthAt hadmits e) groups).trans (ih hgroups)
  | @times groups op lefts rights left right hop _ _ ihleft ihright =>
    have hlevel : op.rightLevel = .value := by cases op <;> first | rfl | cases hop
    have hadmits : Level.product.Admits (Operand.binary op left right).level := by
      rw [Operand.level, hop]
      decide
    have hleft := ihleft hgroups
    have hright := ihright hgroups
    rw [Operand.depthAt_of_admits hadmits, Operand.depth_binary, hop, hlevel]
    omega
  | @plus groups op lefts rights left right hop _ _ ihleft ihright =>
    have hlevel : op.rightLevel = .product := by cases op <;> first | rfl | cases hop
    have hadmits : Level.sum.Admits (Operand.binary op left right).level := trivial
    have hleft := ihleft hgroups
    have hright := ihright hgroups
    rw [Operand.depthAt_of_admits hadmits, Operand.depth_binary, hop, hlevel]
    omega

/-- The operands that expressions of spelled tokens stand for. -/
inductive Operand.Plain : Operand → Prop where
  | number {radix : Radix} {value : Number} :
    value.Readable radix → Plain (.number radix value)
  | negative {radix : Radix} {value : Number} :
    value.Readable radix → Plain (.number radix value.negate)
  | identifier {name : String} :
    (TokenKind.identifier name).Lexical → Plain (.identifier name)
  | binary {op : BinaryOperator} {left right : Operand} :
    Plain left → Plain right → Plain (.binary op left right)

theorem Grammar.Expression.plain {limit : Option Nat} {outer : Level} {groups : Nat}
    {kinds : List TokenKind} {e : Operand} (h : Expression limit outer groups kinds e)
    (hkinds : ∀ kind ∈ kinds, kind.Lexical) : e.Plain := by
  induction h with
  | number radix value => exact .number (hkinds (.number radix value) (by simp))
  | negative radix value => exact .negative (hkinds (.number radix value) (by simp))
  | name name => exact .identifier (hkinds (.identifier name) (by simp))
  | group _ _ ih =>
    apply ih
    intro kind hkind
    exact hkinds kind (by simp [hkind])
  | value _ ih => exact ih hkinds
  | product _ ih => exact ih hkinds
  | times _ _ _ ihleft ihright =>
    obtain ⟨hlefts, hrights⟩ := List.forall_mem_append.mp hkinds
    exact .binary (ihleft hlefts) (ihright (List.forall_mem_cons.mp hrights).2)
  | plus _ _ _ ihleft ihright =>
    obtain ⟨hlefts, hrights⟩ := List.forall_mem_append.mp hkinds
    exact .binary (ihleft hlefts) (ihright (List.forall_mem_cons.mp hrights).2)

theorem Spells.inParens {cs : List Char} {kinds : List TokenKind} (h : Spells cs kinds) :
    Spells (inParens cs) (.openParen :: (kinds ++ [.closeParen])) := by
  have hclose : Spells [')'] [.closeParen] := .punctuation rfl .nil
  exact .punctuation rfl (h.append hclose (by simp; decide))

namespace Operand

variable {limit : Nat}

/-- The operand is written as an expression of its own level, inside as many groups as leave
room for its own. -/
def IsWritten (limit : Nat) (e : Operand) : Prop :=
  ∀ groups, groups + e.depth ≤ limit →
    ∃ kinds, Expression (some limit) e.level groups kinds e ∧ Spells e.chars kinds

/-- What is written as an expression of its own level is so at every level. -/
theorem IsWritten.atLevel {e : Operand} (h : e.IsWritten limit) (outer : Level) (groups : Nat)
    (hdepth : groups + e.depthAt outer ≤ limit) :
    ∃ kinds, Expression (some limit) outer groups kinds e ∧ Spells (e.charsAt outer) kinds := by
  by_cases hadmits : outer.Admits e.level
  · rw [depthAt_of_admits hadmits] at hdepth
    obtain ⟨kinds, hexpression, hspells⟩ := h groups hdepth
    rw [charsAt_of_admits hadmits]
    exact ⟨kinds, hexpression.ofAdmits hadmits, hspells⟩
  -- In parentheses the operand is a value, which every level admits, at the cost of a group.
  · have hsucc : e.depthAt outer = e.depth + 1 := by simp [depthAt, hadmits]
    have hchars : e.charsAt outer = inParens e.chars := if_neg hadmits
    obtain ⟨kinds, hexpression, hspells⟩ := h (groups + 1) (by omega)
    have hopens : Opens (some limit) groups := by
      simp only [Opens, Option.all_some, decide_eq_true_eq]
      omega
    have hsum : Level.sum.Admits e.level := trivial
    have hvalue : outer.Admits .value := by cases outer <;> decide
    rw [hchars]
    exact ⟨_, (Expression.group hopens (hexpression.ofAdmits hsum)).ofAdmits hvalue,
      hspells.inParens⟩

/-- A numeral or a name is written as a value, without a parenthesis. -/
theorem Plain.exists_value {e : Operand} (h : e.Plain) (hlevel : e.level = .value) :
    ∃ kinds, (∀ limit groups, Expression limit .value groups kinds e) ∧ Spells e.chars kinds ∧
      TokenKind.openParen ∉ kinds := by
  cases h with
  | number hvalue => exact ⟨_, fun _ _ => .number _ _, .number hvalue, by simp⟩
  | @negative radix value hvalue =>
    -- The integer zero is its own opposite and is written without the sign.
    rcases hvalue.charsIn_negate with hzero | hchars
    · rw [hzero]
      exact ⟨_, fun _ _ => .number _ _, .number hvalue, by simp⟩
    · have hspells : Spells (value.negate.charsIn radix) [.minus, .number radix value] := by
        rw [hchars]
        exact .punctuation rfl (.number hvalue)
      exact ⟨_, fun _ _ => .negative _ _, hspells, by simp⟩
  | identifier hname => exact ⟨_, fun _ _ => .name _, .identifier hname, by simp⟩
  | @binary op left right _ _ => cases op <;> cases hlevel

/-- Every such operand is written as an expression. -/
theorem Plain.isWritten {e : Operand} (h : e.Plain) : e.IsWritten limit := by
  have hvalue {e : Operand} (h : e.Plain) (hlevel : e.level = .value) : e.IsWritten limit := by
    intro groups _
    obtain ⟨kinds, hexpression, hspells, -⟩ := h.exists_value hlevel
    rw [hlevel]
    exact ⟨kinds, hexpression _ groups, hspells⟩
  induction h with
  | number hnumber => exact hvalue (.number hnumber) rfl
  | negative hnumber => exact hvalue (.negative hnumber) rfl
  | identifier hname => exact hvalue (.identifier hname) rfl
  | @binary op left right _ _ ihleft ihright =>
    intro groups hdepth
    rw [depth_binary] at hdepth
    -- Each side is written at the level that the operator asks for on that side.
    obtain ⟨lefts, hleft, hspellsleft⟩ := ihleft.atLevel op.level groups (by omega)
    obtain ⟨rights, hright, hspellsright⟩ := ihright.atLevel op.rightLevel groups (by omega)
    have hoperator : TokenKind.ofPunctuation? op.symbol = some op.tokenKind := by cases op <;> rfl
    have hbehind := (Spells.punctuation hoperator hspellsright.space).space
    have hspells := hspellsleft.append hbehind (by simp; decide)
    refine ⟨lefts ++ op.tokenKind :: rights, .binary op hleft hright, ?_⟩
    rw [chars_binary]
    simpa using hspells

end Operand

/-- What an expression of spelled tokens stands for is written as an expression again, inside
no more groups. -/
theorem Grammar.Expression.exists_spells {limit groups : Nat} {kinds : List TokenKind}
    {e : Operand} (h : Expression (some limit) .sum groups kinds e)
    (hkinds : ∀ kind ∈ kinds, kind.Lexical) (hgroups : groups ≤ limit) :
    ∃ written, Expression (some limit) .sum groups written e ∧ Spells e.chars written := by
  have hsum : Level.sum.Admits e.level := trivial
  obtain ⟨written, hexpression, hspells⟩ :=
    (h.plain hkinds).isWritten.atLevel .sum groups (h.depthAt_le hgroups)
  rw [Operand.charsAt_of_admits hsum] at hspells
  exact ⟨written, hexpression, hspells⟩

end MipsAssembly
