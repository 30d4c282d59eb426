import Mathlib.Data.Set.Subsingleton
import MipsAssembly.Proofs.Grammar.Reading
import MipsAssembly.Proofs.Statement.Counter

/-!
# What is read is derived

A phase remembers what it needs of the line so far.  `Phase.Reads` tells which rows of tokens
a phase can stand for: the left sides that wait are expressions with their operators, and
around each open group there is what waits there and a parenthesis.  One token keeps this
true, so a run that succeeds has a derivation behind it, and reading and the grammar agree.

## Main definitions

- `Grammar.Led`, `Purpose.Leads` — what stands in front of an item or a sum.
- `Grammar.Waits`, `Grammar.Inside` — what stands in front of a value.
- `Phase.Reads`, `Phase.ReadsLine` — what stands in front of a phase.
-/

namespace MipsAssembly

namespace Grammar

variable {limit : Option Nat}

/-- Items, each with a comma behind it. -/
def Led (item : List TokenKind → Operand → Prop) (es : List Operand)
    (kinds : List TokenKind) : Prop :=
  es = [] ∧ kinds = [] ∨ ∃ before, Separated item before es ∧ kinds = before ++ [.comma]

theorem Led.separated {item : List TokenKind → Operand → Prop} {es : List Operand}
    {kinds last : List TokenKind} {e : Operand} (h : Led item es kinds) (hlast : item last e) :
    Separated item (kinds ++ last) (es ++ [e]) := by
  rcases h with ⟨rfl, rfl⟩ | ⟨before, hbefore, rfl⟩
  · exact .single hlast
  · rw [List.append_assoc]
    exact .snoc hbefore hlast

theorem Led.snoc {item : List TokenKind → Operand → Prop} {es : List Operand}
    {kinds last : List TokenKind} {e : Operand} (h : Led item es kinds) (hlast : item last e) :
    Led item (es ++ [e]) (kinds ++ last ++ [.comma]) :=
  .inr ⟨kinds ++ last, h.separated hlast, rfl⟩

/-- A left side that waits for the right side of its operator. -/
def Waits (limit : Option Nat) (level : Level) (groups : Nat) :
    Option (Operand × BinaryOperator) → List TokenKind → Prop
  | none, kinds => kinds = []
  | some (left, op), kinds =>
    op.level = level ∧
      ∃ lefts, Expression limit level groups lefts left ∧ kinds = lefts ++ [op.tokenKind]

end Grammar

open Grammar

variable {limit : Option Nat}

/-- The left sides that wait inside one group. -/
def Pending.Spelled (limit : Option Nat) (groups : Nat) (pending : Pending)
    (kinds : List TokenKind) : Prop :=
  ∃ sums products, Waits limit .sum groups pending.sum sums ∧
    Waits limit .product groups pending.product products ∧ kinds = sums ++ products

namespace Pending

theorem spelled_empty (groups : Nat) : Pending.Spelled limit groups {} [] :=
  ⟨[], [], rfl, rfl, rfl⟩

/-- A value behind what waits for a product completes the product. -/
theorem product_of_waits {groups : Nat} {pending : Pending} {products kinds : List TokenKind}
    {value : Operand} (h : Waits limit .product groups pending.product products)
    (hvalue : Expression limit .value groups kinds value) :
    Expression limit .product groups (products ++ kinds) (pending.productOf value) := by
  unfold productOf
  cases hp : pending.product with
  | none =>
    rw [hp] at h
    obtain rfl : products = [] := h
    exact .value hvalue
  | some waiting =>
    rw [hp] at h
    obtain ⟨hop, lefts, hlefts, rfl⟩ := h
    rw [List.append_assoc]
    exact .times hop hlefts hvalue

/-- A value behind what waits completes the sum. -/
theorem Spelled.sumOf {groups : Nat} {pending : Pending} {waiting kinds : List TokenKind}
    {value : Operand} (h : pending.Spelled limit groups waiting)
    (hvalue : Expression limit .value groups kinds value) :
    Expression limit .sum groups (waiting ++ kinds) (pending.sumOf value) := by
  obtain ⟨sums, products, hsums, hproducts, rfl⟩ := h
  have hproduct := product_of_waits hproducts hvalue
  unfold Pending.sumOf
  cases hs : pending.sum with
  | none =>
    rw [hs] at hsums
    obtain rfl : sums = [] := hsums
    exact .product hproduct
  | some left =>
    rw [hs] at hsums
    obtain ⟨hop, lefts, hlefts, rfl⟩ := hsums
    simp only [List.append_assoc, List.singleton_append]
    exact .plus hop hlefts hproduct

theorem Spelled.push {groups : Nat} {pending : Pending} {waiting kinds : List TokenKind}
    {value : Operand} (h : pending.Spelled limit groups waiting)
    (hvalue : Expression limit .value groups kinds value) (op : BinaryOperator) :
    (pending.push value op).Spelled limit groups (waiting ++ kinds ++ [op.tokenKind]) := by
  cases hop : op.level with
  | sum =>
    rw [push_of_level_sum hop]
    -- A looser operator ends the product in front of it, so everything that waits is joined.
    exact ⟨waiting ++ kinds ++ [op.tokenKind], [],
      ⟨hop, waiting ++ kinds, h.sumOf hvalue, rfl⟩, rfl, (List.append_nil _).symm⟩
  | product =>
    obtain ⟨sums, products, hsums, hproducts, rfl⟩ := h
    rw [push_of_level_product hop]
    refine ⟨sums, products ++ kinds ++ [op.tokenKind], hsums,
      ⟨hop, products ++ kinds, product_of_waits hproducts hvalue, rfl⟩, ?_⟩
    simp only [List.append_assoc]
  | value => cases op <;> cases hop

end Pending

/-- What stands in front of the sum that is read for a purpose. -/
def Purpose.Leads (limit : Option Nat) : Purpose → List TokenKind → Prop
  | .operand opcode before, kinds =>
    ∃ rest, Led (Argument limit) before rest ∧ kinds = .identifier opcode :: rest
  | .value mode before, kinds =>
    mode.arity = .list ∧ ∃ rest, Led (Expression limit .sum 0) before rest ∧
      kinds = .directive mode.name :: rest
  | .only mode, kinds => mode.arity = .single ∧ kinds = [.directive mode.name]

theorem Purpose.Leads.body_argument {opcode : String} {before : List Operand}
    {kinds last : List TokenKind} {e : Operand}
    (h : (Purpose.operand opcode before).Leads limit kinds) (hlast : Argument limit last e) :
    Body limit (kinds ++ last) ((Purpose.operand opcode before).complete e) := by
  obtain ⟨rest, hrest, rfl⟩ := h
  exact .instruction opcode (hrest.separated hlast)

theorem Purpose.Leads.body_sum {purpose : Purpose} {kinds last : List TokenKind} {e : Operand}
    (h : purpose.Leads limit kinds) (hlast : Expression limit .sum 0 last e) :
    Body limit (kinds ++ last) (purpose.complete e) := by
  cases purpose with
  | operand opcode before => exact h.body_argument (.sum hlast)
  | value mode before =>
    obtain ⟨harity, rest, hrest, rfl⟩ := h
    exact .list harity (hrest.separated hlast) (DataValue.ofValues?_snoc before e)
  | only mode =>
    obtain ⟨harity, rfl⟩ := h
    exact .single harity hlast

namespace Grammar

/-- What stands in front of the innermost group: for each group what waits around it and its
parenthesis. -/
def Around (limit : Option Nat) (purpose : Purpose) :
    List Pending → List TokenKind → Prop
  | [], kinds => purpose.Leads limit kinds
  | level :: levels, kinds =>
    ∃ front waiting, Around limit purpose levels front ∧
      level.Spelled limit levels.length waiting ∧ Opens limit levels.length ∧
      kinds = front ++ waiting ++ [.openParen]

/-- What stands in front of a value. -/
def Inside (limit : Option Nat) (purpose : Purpose) (inner : Pending) (outer : List Pending)
    (kinds : List TokenKind) : Prop :=
  ∃ front waiting, Around limit purpose outer front ∧
    inner.Spelled limit outer.length waiting ∧ kinds = front ++ waiting

theorem Inside.of_leads {purpose : Purpose} {kinds : List TokenKind}
    (h : purpose.Leads limit kinds) : Inside limit purpose {} [] kinds :=
  ⟨kinds, [], h, Pending.spelled_empty 0, (List.append_nil kinds).symm⟩

theorem Inside.group {purpose : Purpose} {inner : Pending} {outer : List Pending}
    {kinds : List TokenKind} (h : Inside limit purpose inner outer kinds)
    (hopens : Opens limit outer.length) :
    Inside limit purpose {} (inner :: outer) (kinds ++ [.openParen]) := by
  obtain ⟨front, waiting, hfront, hwaiting, rfl⟩ := h
  exact ⟨front ++ waiting ++ [.openParen], [], ⟨front, waiting, hfront, hwaiting, hopens, rfl⟩,
    Pending.spelled_empty _, (List.append_nil _).symm⟩

theorem Inside.operator {purpose : Purpose} {inner : Pending} {outer : List Pending}
    {kinds values : List TokenKind} {value : Operand}
    (h : Inside limit purpose inner outer kinds)
    (hvalue : Expression limit .value outer.length values value) (op : BinaryOperator) :
    Inside limit purpose (inner.push value op) outer (kinds ++ values ++ [op.tokenKind]) := by
  obtain ⟨front, waiting, hfront, hwaiting, rfl⟩ := h
  refine ⟨front, waiting ++ values ++ [op.tokenKind], hfront, hwaiting.push hvalue op, ?_⟩
  simp only [List.append_assoc]

/-- A closing parenthesis makes a group of the sum in front of it. -/
theorem Inside.close {purpose : Purpose} {inner level : Pending} {levels : List Pending}
    {kinds values : List TokenKind} {value : Operand}
    (h : Inside limit purpose inner (level :: levels) kinds)
    (hvalue : Expression limit .value (level :: levels).length values value) :
    ∃ front group, Inside limit purpose level levels front ∧
      Expression limit .value levels.length group (inner.sumOf value) ∧
      kinds ++ values ++ [.closeParen] = front ++ group := by
  -- The parenthesis that opened the group is the last token of what stands around it.
  obtain ⟨_, waiting, ⟨front, outside, hfront, houtside, hopens, rfl⟩, hwaiting, rfl⟩ := h
  refine ⟨front ++ outside, .openParen :: (waiting ++ values ++ [.closeParen]),
    ⟨front, outside, hfront, houtside, rfl⟩, .group hopens (hwaiting.sumOf hvalue), ?_⟩
  simp only [List.append_assoc, List.cons_append, List.nil_append]

/-- Outside all groups, a value completes a sum. -/
theorem Inside.sum {purpose : Purpose} {inner : Pending} {kinds values : List TokenKind}
    {value : Operand} (h : Inside limit purpose inner [] kinds)
    (hvalue : Expression limit .value 0 values value) :
    ∃ front sum, purpose.Leads limit front ∧
      Expression limit .sum 0 sum (inner.sumOf value) ∧ kinds ++ values = front ++ sum := by
  obtain ⟨front, waiting, hfront, hwaiting, rfl⟩ := h
  exact ⟨front, waiting ++ values, hfront, hwaiting.sumOf hvalue, List.append_assoc ..⟩

end Grammar

theorem DataMode.eq_name_of_ofName? {name : String} {mode : DataMode}
    (h : DataMode.ofName? name = some mode) : name = mode.name := by
  unfold DataMode.ofName? at h
  split at h <;> cases h <;> rfl

namespace Phase

/-- The kinds of tokens behind the labels of a line that a phase can stand for, as long as the
statement of the line is not complete. -/
def Reads (limit : Option Nat) : Phase → List TokenKind → Prop
  | beforeText mode, kinds => mode.arity = .text ∧ kinds = [.directive mode.name]
  | beforeOperand opcode before, kinds => (Purpose.operand opcode before).Leads limit kinds
  | groupOrBase opcode before, kinds =>
    ∃ front, (Purpose.operand opcode before).Leads limit front ∧ Opens limit 0 ∧
      kinds = front ++ [.openParen]
  | indirectBase opcode before base, kinds =>
    ∃ front name, (Purpose.operand opcode before).Leads limit front ∧ Opens limit 0 ∧
      base = .ofRegister name ∧ kinds = front ++ [.openParen, .register name]
  | beforeValue purpose inner outer, kinds => Inside limit purpose inner outer kinds
  | afterSign purpose inner outer, kinds =>
    ∃ front, Inside limit purpose inner outer front ∧ kinds = front ++ [.minus]
  | afterValue purpose inner outer value, kinds =>
    ∃ front values, Inside limit purpose inner outer front ∧
      Expression limit .value outer.length values value ∧ kinds = front ++ values
  | beforeBase opcode before offset, kinds =>
    ∃ front offsets, (Purpose.operand opcode before).Leads limit front ∧
      Expression limit .sum 0 offsets offset ∧ kinds = front ++ offsets ++ [.openParen]
  | indexedBase opcode before offset base, kinds =>
    ∃ front offsets name, (Purpose.operand opcode before).Leads limit front ∧
      Expression limit .sum 0 offsets offset ∧ base = .ofRegister name ∧
      kinds = front ++ offsets ++ [.openParen, .register name]
  | afterOperand opcode before operand, kinds =>
    ∃ front last, (Purpose.operand opcode before).Leads limit front ∧
      Argument limit last operand ∧ kinds = front ++ last
  | _, _ => False

/-- The tokens of a line that a phase can stand for, with the statements that they complete. -/
def ReadsLine (limit : Option Nat) : Phase → List Token → List Statement → Prop
  | lineStart, tokens, statements => tokens = [] ∧ statements = []
  | afterLabel, tokens, statements => tokens ≠ [] ∧ Labels tokens statements
  | named name position, tokens, statements =>
    ∃ labels, Labels labels statements ∧ tokens = labels ++ [⟨.identifier name, position⟩]
  | complete, tokens, statements => Line limit tokens statements
  | phase, tokens, statements =>
    ∃ labels body, Labels labels statements ∧ phase.Reads limit (body.map Token.kind) ∧
      tokens = labels ++ body

theorem reads_startValue {purpose : Purpose} {inner : Pending} {outer : List Pending}
    {token : Token} {q : Phase} {kinds : List TokenKind}
    (h : Inside limit purpose inner outer kinds)
    (hq : startValue limit purpose inner outer token = .ok q) :
    q.Reads limit (kinds ++ [token.kind]) := by
  unfold startValue at hq
  split at hq
  · next hkind =>
    cases hq
    exact ⟨kinds, h, by rw [hkind]⟩
  · next radix value hkind =>
    cases hq
    exact ⟨kinds, [.number radix value], h, .number radix value, by rw [hkind]⟩
  · next name hkind =>
    cases hq
    exact ⟨kinds, [.identifier name], h, .name name, by rw [hkind]⟩
  · next hkind =>
    unfold openGroup at hq
    split at hq
    · next hopens =>
      cases hq
      rw [hkind]
      exact h.group hopens
    · cases hq
  · cases hq

theorem reads_startOperand {opcode : String} {before : List Operand} {token : Token}
    {q : Phase} {kinds : List TokenKind}
    (h : (Purpose.operand opcode before).Leads limit kinds)
    (hq : startOperand limit opcode before token = .ok q) :
    q.Reads limit (kinds ++ [token.kind]) := by
  unfold startOperand at hq
  split at hq
  · next name hkind =>
    cases hq
    exact ⟨kinds, [.register name], h, .register name, by rw [hkind]⟩
  · next hkind =>
    unfold openGroup at hq
    split at hq
    · next hopens =>
      cases hq
      exact ⟨kinds, h, hopens, by rw [hkind]⟩
    · cases hq
  · exact reads_startValue (.of_leads h) hq

theorem reads_continueSum {purpose : Purpose} {inner : Pending} {outer : List Pending}
    {value : Operand} {token : Token} {q : Phase} {kinds values : List TokenKind}
    (h : Inside limit purpose inner outer kinds)
    (hvalue : Expression limit .value outer.length values value)
    (hq : continueSum purpose inner outer value token = .ok q) :
    q.Reads limit (kinds ++ values ++ [token.kind]) := by
  unfold continueSum at hq
  split at hq
  · next hoperator =>
    cases hq
    rw [BinaryOperator.eq_tokenKind_of_operator? hoperator]
    exact h.operator hvalue _
  · next level levels _ =>
    split at hq
    · next hkind =>
      cases hq
      rw [hkind]
      obtain ⟨front, group, hfront, hgroup, hkinds⟩ := h.close hvalue
      exact ⟨front, group, hfront, hgroup, hkinds⟩
    · cases hq
  · obtain ⟨front, sum, hfront, hsum, hkinds⟩ := h.sum hvalue
    rw [hkinds]
    split at hq
    · next opcode before hkind =>
      cases hq
      rw [hkind]
      exact ⟨front, sum, hfront, hsum, rfl⟩
    · next opcode before hkind =>
      cases hq
      obtain ⟨rest, hrest, rfl⟩ := hfront
      rw [hkind]
      exact ⟨rest ++ sum ++ [.comma], hrest.snoc (.sum hsum), rfl⟩
    · next mode before hkind =>
      cases hq
      obtain ⟨harity, rest, hrest, rfl⟩ := hfront
      rw [hkind]
      exact .of_leads ⟨harity, rest ++ sum ++ [.comma], hrest.snoc hsum, rfl⟩
    · cases hq

/-- One more token of a line whose statement is not complete. -/
theorem ReadsLine.of_reads {q : Phase} {labels body : List Token} {token : Token}
    {statements : List Statement} (hlabels : Labels labels statements)
    (h : q.Reads limit (body.map Token.kind ++ [token.kind])) :
    q.ReadsLine limit (labels ++ body ++ [token]) (statements ++ []) := by
  have hmap : (body ++ [token]).map Token.kind = body.map Token.kind ++ [token.kind] := by
    rw [List.map_append, List.map_singleton]
  rw [List.append_nil, List.append_assoc]
  cases q
  -- No part of a statement has been read in these phases, or all of it.
  case lineStart | afterLabel | named | complete => exact h.elim
  all_goals exact ⟨labels, body ++ [token], hlabels, hmap ▸ h, rfl⟩

theorem eq_of_map_ok {result : Except SyntaxError Phase} {q : Phase} {done : List Statement}
    (h : result.map (·, []) = .ok (q, done)) : result = .ok q ∧ done = [] := by
  obtain ⟨p, rfl, hp⟩ := exists_of_map_eq_ok h
  cases hp
  exact ⟨rfl, rfl⟩

theorem ReadsLine.startDirective {name : String} {position : Position} {q : Phase}
    {labels : List Token} {statements done : List Statement}
    (hlabels : Labels labels statements)
    (hq : startDirective name position = .ok (q, done)) :
    q.ReadsLine limit (labels ++ [⟨.directive name, position⟩]) (statements ++ done) := by
  unfold Phase.startDirective at hq
  split at hq
  · next hname =>
    cases hq
    exact .body hlabels (.segment hname)
  · split at hq
    · cases hq
    · next mode hmode =>
      have hname : name = mode.name := DataMode.eq_name_of_ofName? hmode
      subst hname
      rw [← List.append_nil labels]
      split at hq
      · next harity =>
        cases hq
        exact .of_reads hlabels ⟨harity, rfl⟩
      · next harity =>
        cases hq
        exact .of_reads hlabels (.of_leads ⟨harity, rfl⟩)
      · next harity =>
        cases hq
        exact .of_reads hlabels (.of_leads ⟨harity, [], .inl ⟨rfl, rfl⟩, rfl⟩)

/-- One token inside a statement is one more of what a phase stands for, or the last one of
the statement. -/
theorem Reads.within {p q : Phase} {token : Token} {kinds : List TokenKind}
    {done : List Statement} (h : p.Reads limit kinds)
    (hq : p.within limit token = .ok (q, done)) :
    q.Reads limit (kinds ++ [token.kind]) ∧ done = [] ∨
      ∃ statement, q = complete ∧ done = [statement] ∧
        Body limit (kinds ++ [token.kind]) statement := by
  unfold Phase.within at hq
  split at hq
  -- No part of a statement has been read at the start of a line or behind a name.
  case h_1 | h_2 | h_3 | h_4 | h_5 | h_6 => exact h.elim
  case h_18 => cases hq
  · next mode content hkind =>
    obtain ⟨harity, rfl⟩ := h
    cases hq
    rw [hkind]
    exact .inr ⟨_, rfl, rfl, .text content harity⟩
  · obtain ⟨hstart, rfl⟩ := eq_of_map_ok hq
    exact .inl ⟨reads_startOperand h hstart, rfl⟩
  -- A parenthesis at the start of an operand is one around a register or opens a sum.
  · next opcode before name hkind =>
    obtain ⟨front, hfront, hopens, rfl⟩ := h
    cases hq
    rw [hkind, List.append_assoc]
    exact .inl ⟨⟨front, name, hfront, hopens, rfl, rfl⟩, rfl⟩
  · obtain ⟨front, hfront, hopens, rfl⟩ := h
    obtain ⟨hstart, rfl⟩ := eq_of_map_ok hq
    exact .inl ⟨reads_startValue ((Inside.of_leads hfront).group hopens) hstart, rfl⟩
  · next opcode before base hkind =>
    obtain ⟨front, name, hfront, hopens, rfl, rfl⟩ := h
    cases hq
    rw [hkind, List.append_assoc]
    exact .inl ⟨⟨front, _, hfront, .indirect name hopens, rfl⟩, rfl⟩
  -- Inside a sum: a value, a number behind a sign, or what follows a value.
  · obtain ⟨hstart, rfl⟩ := eq_of_map_ok hq
    exact .inl ⟨reads_startValue h hstart, rfl⟩
  · next purpose inner outer radix value hkind =>
    obtain ⟨front, hfront, rfl⟩ := h
    cases hq
    rw [hkind, List.append_assoc]
    exact .inl ⟨⟨front, _, hfront, .negative radix value, rfl⟩, rfl⟩
  · obtain ⟨front, values, hfront, hvalue, rfl⟩ := h
    obtain ⟨hstart, rfl⟩ := eq_of_map_ok hq
    exact .inl ⟨reads_continueSum hfront hvalue hstart, rfl⟩
  -- A register in parentheses behind an offset.
  · next opcode before offset name hkind =>
    obtain ⟨front, offsets, hfront, hoffset, rfl⟩ := h
    cases hq
    rw [hkind, List.append_assoc]
    exact .inl ⟨⟨front, offsets, name, hfront, hoffset, rfl, rfl⟩, rfl⟩
  · next opcode before offset base hkind =>
    obtain ⟨front, offsets, name, hfront, hoffset, rfl, rfl⟩ := h
    cases hq
    refine .inl ⟨⟨front, _, hfront, .indexed name hoffset, ?_⟩, rfl⟩
    simp only [hkind, List.append_assoc, List.cons_append, List.nil_append]
  · next opcode before operand hkind =>
    obtain ⟨front, last, ⟨rest, hrest, rfl⟩, hlast, rfl⟩ := h
    cases hq
    rw [hkind]
    exact .inl ⟨⟨rest ++ last ++ [.comma], hrest.snoc hlast, rfl⟩, rfl⟩

/-- One more token of a statement behind labels. -/
theorem ReadsLine.of_reads_within {p q : Phase} {token : Token} {labels body : List Token}
    {statements done : List Statement} (hlabels : Labels labels statements)
    (h : p.Reads limit (body.map Token.kind)) (hq : p.within limit token = .ok (q, done)) :
    q.ReadsLine limit (labels ++ body ++ [token]) (statements ++ done) := by
  rcases h.within hq with ⟨hreads, rfl⟩ | ⟨statement, rfl, rfl, hstatement⟩
  · exact .of_reads hlabels hreads
  · rw [List.append_assoc]
    refine .body hlabels ?_
    rwa [List.map_append]

/-- The first token of a statement or of a label, behind other labels. -/
theorem ReadsLine.of_startsBody {p q : Phase} {token : Token} {labels : List Token}
    {statements done : List Statement} (hp : StartsBody p) (hlabels : Labels labels statements)
    (hq : p.within limit token = .ok (q, done)) :
    q.ReadsLine limit (labels ++ [token]) (statements ++ done) := by
  obtain ⟨kind, position⟩ := token
  cases kind
  case identifier name =>
    have hnamed : q = named name position ∧ done = [] := by
      rcases hp with rfl | rfl <;> cases hq <;> exact ⟨rfl, rfl⟩
    obtain ⟨rfl, rfl⟩ := hnamed
    exact ⟨labels, by rwa [List.append_nil], rfl⟩
  case directive name =>
    have hstart : Phase.startDirective name position = .ok (q, done) := by
      rcases hp with rfl | rfl <;> exact hq
    exact .startDirective hlabels hstart
  all_goals rcases hp with rfl | rfl <;> cases hq

/-- One token inside a line keeps what a phase stands for. -/
theorem ReadsLine.within {p q : Phase} {token : Token} {tokens : List Token}
    {statements done : List Statement} (h : p.ReadsLine limit tokens statements)
    (hq : p.within limit token = .ok (q, done)) :
    q.ReadsLine limit (tokens ++ [token]) (statements ++ done) := by
  cases p
  case lineStart =>
    obtain ⟨rfl, rfl⟩ := h
    exact .of_startsBody (.inl rfl) .nil hq
  case afterLabel => exact .of_startsBody (.inr rfl) h.2 hq
  case named name position =>
    obtain ⟨labels, hlabels, rfl⟩ := h
    by_cases hcolon : token.kind = .colon
    · obtain ⟨kind, colon⟩ := token
      obtain rfl : kind = .colon := hcolon
      cases hq
      rw [List.append_assoc]
      exact ⟨by simp, .snoc name position colon hlabels⟩
    · -- A name without a colon is an opcode, and the token belongs to its first operand.
      have hoperand : (startOperand limit name [] token).map (·, []) = .ok (q, done) := by
        obtain ⟨kind, start⟩ := token
        cases kind <;> first | exact hq | exact absurd rfl hcolon
      obtain ⟨hstart, rfl⟩ := eq_of_map_ok hoperand
      exact .of_reads hlabels (reads_startOperand ⟨[], .inl ⟨rfl, rfl⟩, rfl⟩ hstart)
  case complete => cases hq
  all_goals
    obtain ⟨labels, body, hlabels, hbody, rfl⟩ := h
    exact .of_reads_within hlabels hbody hq

/-- Where a line may end, its tokens are empty or derived. -/
theorem ReadsLine.line {p : Phase} {tokens : List Token} {statements rest : List Statement}
    (h : p.ReadsLine limit tokens statements) (hp : p.finish? = some rest) :
    tokens = [] ∧ statements ++ rest = [] ∨ Line limit tokens (statements ++ rest) := by
  unfold Phase.finish? at hp
  split at hp
  · obtain ⟨rfl, rfl⟩ := h
    cases hp
    exact .inl ⟨rfl, rfl⟩
  · obtain ⟨hne, hlabels⟩ := h
    cases hp
    rw [List.append_nil]
    exact .inr (.labels hlabels hne)
  · cases hp
    rw [List.append_nil]
    exact .inr h
  · obtain ⟨labels, hlabels, rfl⟩ := h
    cases hp
    exact .inr (.body hlabels (.opcode _))
  · obtain ⟨labels, body, hlabels, ⟨front, values, hfront, hvalue, hbody⟩, rfl⟩ := h
    obtain ⟨lead, sum, hlead, hsum, hkinds⟩ := hfront.sum hvalue
    cases hp
    refine .inr (.body hlabels ?_)
    rw [hbody, hkinds]
    exact hlead.body_sum hsum
  · obtain ⟨labels, body, hlabels, ⟨front, last, hfront, hlast, hbody⟩, rfl⟩ := h
    cases hp
    refine .inr (.body hlabels ?_)
    rw [hbody]
    exact hfront.body_argument hlast
  · cases hp

/-- A run that succeeds has a derivation behind it: what the phase stands for and the tokens
of the run make a source text. -/
theorem ReadsLine.source {p : Phase} {before tokens : List Token}
    {done statements : List Statement} {last : Position}
    (h : p.ReadsLine limit before done) (hrun : p.run limit last tokens = .ok statements) :
    Source limit (before ++ tokens) (done ++ statements) := by
  induction tokens generalizing p before done statements last with
  | nil =>
    unfold run at hrun
    split at hrun
    · next rest hp =>
      cases hrun
      rw [List.append_nil]
      rcases h.line hp with ⟨rfl, hnil⟩ | hline
      · rw [hnil]
        exact .nil
      · exact .last hline
    · cases hrun
  | cons token tokens ih =>
    obtain ⟨kind, position⟩ := token
    unfold run at hrun
    split at hrun
    · cases hrun
    · next q completed hnext =>
      obtain ⟨more, hmore, rfl⟩ := exists_of_map_eq_ok hrun
      rw [← List.append_assoc]
      unfold Phase.next at hnext
      split at hnext
      · next hkind =>
        obtain rfl : kind = .lineEnd := hkind
        split at hnext
        · next rest hp =>
          cases hnext
          -- The next line is read from its start, where nothing has been read yet.
          have hstart : lineStart.ReadsLine limit [] [] := ⟨rfl, rfl⟩
          have hrest : Source limit tokens more := ih hstart hmore
          rcases h.line hp with ⟨rfl, hnil⟩ | hline
          · rw [hnil]
            exact .blank position hrest
          · exact .line position hline hrest
        · cases hnext
      · have hstep := ih (h.within hnext) hmore
        rwa [List.append_assoc] at hstep

end Phase

/-- What the grammar derives is read, with the statements of the derivation. -/
theorem Grammar.Source.parseStatements_eq {tokens : List Token} {statements : List Statement}
    (h : Source (some maxDepth) tokens statements) : parseStatements tokens = .ok statements :=
  (parseStatements_eq_run tokens).trans (h.run {})

/-- What is read has a derivation with the same statements. -/
theorem source_of_parseStatements {tokens : List Token} {statements : List Statement}
    (h : parseStatements tokens = .ok statements) :
    Source (some maxDepth) tokens statements := by
  have hstart : Phase.lineStart.ReadsLine (some maxDepth) [] [] := ⟨rfl, rfl⟩
  rw [parseStatements_eq_run] at h
  exact hstart.source h

/-- Reading accepts exactly the rows of tokens that the grammar derives, and gives the
statements of the derivation, which are the same for all derivations of a row. -/
theorem parseStatements_eq_ok_iff (tokens : List Token) :
    (∀ statements, parseStatements tokens = .ok statements ↔
      Source (some maxDepth) tokens statements) ∧
    {statements | Source (some maxDepth) tokens statements}.Subsingleton := by
  refine ⟨fun statements => ⟨source_of_parseStatements, Source.parseStatements_eq⟩, ?_⟩
  intro statements h others h'
  have heq := h.parseStatements_eq.symm.trans h'.parseStatements_eq
  exact Except.ok.inj heq

end MipsAssembly
