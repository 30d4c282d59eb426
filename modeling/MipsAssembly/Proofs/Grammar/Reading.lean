import MipsAssembly.Proofs.Grammar
import MipsAssembly.Proofs.Statement.Reaches

/-!
# Derivations are read

Whatever the grammar derives is read, phase by phase, and read as what it stands for.  For
each rule of the grammar there is a run over its tokens: an expression leads from the phase
in which a value has to follow to one behind a value, where joining the left sides that wait
gives the operand of the derivation.

## Main definitions

- `Grammar.Level.Begins`, `Grammar.Level.Joins` — the left sides that wait before and behind
  an expression of a level.
- `Phase.Ends` — the phases in which an operand is complete.
-/

namespace MipsAssembly

open Phase (Reaches)

namespace Grammar

variable {limit : Option Nat}

/-- What may wait where an expression of a level begins. -/
def Level.Begins : Level → Pending → Prop
  | .sum, inner => inner = {}
  | .product, inner => inner.product = none
  | .value, _ => True

/-- What waits behind an expression of a level for `e` that began where `inner` waited: with
the last value it gives `e`. -/
def Level.Joins (inner after : Pending) (value e : Operand) : Level → Prop
  | .sum => after.sumOf value = e
  | .product => after.sum = inner.sum ∧ after.productOf value = e
  | .value => after = inner ∧ value = e

theorem exists_of_map_kind_cons {tokens : List Token} {kind : TokenKind}
    {kinds : List TokenKind} (h : tokens.map Token.kind = kind :: kinds) :
    ∃ position rest, tokens = ⟨kind, position⟩ :: rest ∧ rest.map Token.kind = kinds := by
  obtain ⟨⟨_, position⟩, rest, rfl, rfl, hrest⟩ := List.map_eq_cons_iff.mp h
  exact ⟨position, rest, rfl, hrest⟩

theorem exists_of_map_kind_singleton {tokens : List Token} {kind : TokenKind}
    (h : tokens.map Token.kind = [kind]) : ∃ position, tokens = [⟨kind, position⟩] := by
  obtain ⟨position, rest, rfl, hrest⟩ := exists_of_map_kind_cons h
  obtain rfl := List.map_eq_nil_iff.mp hrest
  exact ⟨position, rfl⟩

theorem push_of_level_sum {op : BinaryOperator} (h : op.level = .sum) (inner : Pending)
    (value : Operand) : inner.push value op = ⟨some (inner.sumOf value, op), none⟩ := by
  cases op <;> first | rfl | cases h

theorem push_of_level_product {op : BinaryOperator} (h : op.level = .product)
    (inner : Pending) (value : Operand) :
    inner.push value op = ⟨inner.sum, some (inner.productOf value, op)⟩ := by
  cases op <;> first | rfl | cases h

theorem reaches_operator (purpose : Purpose) (inner : Pending) (outer : List Pending)
    (value : Operand) (op : BinaryOperator) (position : Position) :
    Reaches limit (.afterValue purpose inner outer value) [⟨op.tokenKind, position⟩] []
      (.beforeValue purpose (inner.push value op) outer) := by
  apply Reaches.single
  cases op <;> rfl

theorem reaches_close (purpose : Purpose) (inner level : Pending) (outer : List Pending)
    (value : Operand) (position : Position) :
    Reaches limit (.afterValue purpose inner (level :: outer) value) [⟨.closeParen, position⟩] []
      (.afterValue purpose level outer (inner.sumOf value)) :=
  .single rfl

theorem Opens.openGroup {groups : Nat} (h : Opens limit groups) (token : Token) (phase : Phase) :
    Phase.openGroup limit groups token phase = .ok phase :=
  if_pos h

theorem reaches_open (purpose : Purpose) (inner : Pending) (outer : List Pending)
    (position : Position) (hopens : Opens limit outer.length) :
    Reaches limit (.beforeValue purpose inner outer) [⟨.openParen, position⟩] []
      (.beforeValue purpose {} (inner :: outer)) := by
  apply Reaches.single
  show (Phase.openGroup limit outer.length _ _).map _ = _
  rw [hopens.openGroup]
  rfl

/-- An expression is read where a value has to follow, whatever it is read for and however
many groups are open. -/
theorem Expression.reaches {level : Level} {groups : Nat} {kinds : List TokenKind}
    {e : Operand} (h : Expression limit level groups kinds e) {tokens : List Token}
    (htokens : tokens.map Token.kind = kinds) (purpose : Purpose) (inner : Pending)
    {outer : List Pending} (houter : outer.length = groups) (hbegins : level.Begins inner) :
    ∃ after value, level.Joins inner after value e ∧
      Reaches limit (.beforeValue purpose inner outer) tokens []
        (.afterValue purpose after outer value) := by
  induction h generalizing tokens inner outer with
  | number radix value =>
    obtain ⟨position, rfl⟩ := exists_of_map_kind_singleton htokens
    exact ⟨inner, .number radix value, ⟨rfl, rfl⟩, .single rfl⟩
  | negative radix value =>
    obtain ⟨sign, rest, rfl, hrest⟩ := exists_of_map_kind_cons htokens
    obtain ⟨position, rfl⟩ := exists_of_map_kind_singleton hrest
    have hminus : Phase.next limit (.beforeValue purpose inner outer) ⟨.minus, sign⟩ =
        .ok (.afterSign purpose inner outer, []) :=
      rfl
    have hnumber : Phase.next limit (.afterSign purpose inner outer)
        ⟨.number radix value, position⟩ =
        .ok (.afterValue purpose inner outer (.number radix value.negate), []) :=
      rfl
    exact ⟨inner, .number radix value.negate, ⟨rfl, rfl⟩, .step hminus (.single hnumber)⟩
  | name name =>
    obtain ⟨position, rfl⟩ := exists_of_map_kind_singleton htokens
    exact ⟨inner, .identifier name, ⟨rfl, rfl⟩, .single rfl⟩
  | @group groups kinds e hopens _ ih =>
    subst houter
    obtain ⟨start, rest, rfl, hrest⟩ := exists_of_map_kind_cons htokens
    obtain ⟨inside, last, rfl, hinside, hlast⟩ := List.map_eq_append_iff.mp hrest
    obtain ⟨stop, rfl⟩ := exists_of_map_kind_singleton hlast
    -- What waits outside is set aside for the group and comes back behind it.
    obtain ⟨after, value, hjoins, hreach⟩ :=
      ih hinside {} (show (inner :: outer).length = outer.length + 1 from rfl) rfl
    refine ⟨inner, e, ⟨rfl, rfl⟩, ?_⟩
    have hrun := ((reaches_open purpose inner outer start hopens).trans hreach).trans
      (reaches_close purpose after inner outer value stop)
    rwa [show after.sumOf value = e from hjoins] at hrun
  | value _ ih =>
    obtain ⟨after, value, ⟨rfl, rfl⟩, hreach⟩ := ih htokens inner houter trivial
    refine ⟨after, value, ⟨rfl, ?_⟩, hreach⟩
    rw [Pending.productOf, show after.product = none from hbegins]
    rfl
  | @times groups op lefts rights left right hop _ _ ihLeft ihRight =>
    obtain ⟨before, rest, rfl, hbefore, hrest⟩ := List.map_eq_append_iff.mp htokens
    obtain ⟨position, behind, rfl, hbehind⟩ := exists_of_map_kind_cons hrest
    -- The left side waits as a product while the value behind the operator is read.
    obtain ⟨mid, value, ⟨hsum, hproduct⟩, hleft⟩ := ihLeft hbefore inner houter hbegins
    obtain ⟨after, last, ⟨rfl, rfl⟩, hright⟩ :=
      ihRight hbehind (mid.push value op) houter trivial
    refine ⟨mid.push value op, last, ⟨?_, ?_⟩,
      hleft.trans ((reaches_operator purpose mid outer value op position).trans hright)⟩
    · rw [push_of_level_product hop, hsum]
    · rw [push_of_level_product hop, hproduct]
      rfl
  | product _ ih =>
    obtain rfl : inner = {} := hbegins
    obtain ⟨after, value, ⟨hsum, hproduct⟩, hreach⟩ := ih htokens {} houter rfl
    refine ⟨after, value, ?_, hreach⟩
    rw [Level.Joins, Pending.sumOf, hsum, hproduct]
    rfl
  | @plus groups op lefts rights left right hop _ _ ihLeft ihRight =>
    obtain ⟨before, rest, rfl, hbefore, hrest⟩ := List.map_eq_append_iff.mp htokens
    obtain ⟨position, behind, rfl, hbehind⟩ := exists_of_map_kind_cons hrest
    -- The left side waits as a sum, so a product may begin behind the operator.
    obtain ⟨mid, value, hsum, hleft⟩ := ihLeft hbefore inner houter hbegins
    have hpush := push_of_level_sum hop mid value
    obtain ⟨after, last, ⟨hafter, hproduct⟩, hright⟩ :=
      ihRight hbehind (mid.push value op) houter (by rw [hpush]; rfl)
    refine ⟨after, last, ?_,
      hleft.trans ((reaches_operator purpose mid outer value op position).trans hright)⟩
    rw [Level.Joins, Pending.sumOf, hafter, hproduct, hpush, show mid.sumOf value = left from hsum]
    rfl

end Grammar

namespace Phase

variable {limit : Option Nat}

/-- A phase in which an operand for the given purpose is complete, and it is `e`. -/
def Ends (purpose : Purpose) (e : Operand) : Phase → Prop
  | afterOperand opcode before operand => purpose = .operand opcode before ∧ operand = e
  | afterValue purpose' inner [] value => purpose' = purpose ∧ inner.sumOf value = e
  | _ => False

theorem Ends.finish? {purpose : Purpose} {e : Operand} {q : Phase} (h : q.Ends purpose e) :
    q.finish? = some [purpose.complete e] := by
  unfold Ends at h
  split at h
  · obtain ⟨rfl, rfl⟩ := h
    rfl
  · obtain ⟨rfl, rfl⟩ := h
    rfl
  · exact h.elim

theorem Ends.next_comma_operand {opcode : String} {before : List Operand} {e : Operand}
    {q : Phase} (h : q.Ends (.operand opcode before) e) (position : Position) :
    q.next limit ⟨.comma, position⟩ = .ok (.beforeOperand opcode (before ++ [e]), []) := by
  unfold Ends at h
  split at h
  · obtain ⟨hpurpose, rfl⟩ := h
    cases hpurpose
    rfl
  · obtain ⟨rfl, rfl⟩ := h
    rfl
  · exact h.elim

theorem Ends.next_comma_value {mode : DataMode} {before : List Operand} {e : Operand}
    {q : Phase} (h : q.Ends (.value mode before) e) (position : Position) :
    q.next limit ⟨.comma, position⟩ =
      .ok (.beforeValue (.value mode (before ++ [e])) {} [], []) := by
  unfold Ends at h
  split at h
  · cases h.1
  · obtain ⟨rfl, rfl⟩ := h
    rfl
  · exact h.elim

/-- Behind a parenthesis at the start of an operand, a sum is read as in any other group. -/
theorem next_groupOrBase {opcode : String} {before : List Operand} {token : Token}
    {result : Phase × List Statement}
    (h : (beforeValue (.operand opcode before) {} [{}]).next limit token = .ok result) :
    (groupOrBase opcode before).next limit token = .ok result := by
  obtain ⟨kind, position⟩ := token
  cases kind <;> first | exact h | cases h

/-- At the start of an operand, a sum that does not start with a parenthesis is read as
elsewhere. -/
theorem next_beforeOperand {opcode : String} {before : List Operand} {token : Token}
    {result : Phase × List Statement} (hopen : token.kind ≠ .openParen)
    (h : (beforeValue (.operand opcode before) {} []).next limit token = .ok result) :
    (beforeOperand opcode before).next limit token = .ok result := by
  obtain ⟨kind, position⟩ := token
  cases kind <;> first | exact h | cases h | exact absurd rfl hopen

/-- Behind a name, an operand is read as the first one of an instruction. -/
theorem next_named {name : String} (position : Position) {token : Token}
    {result : Phase × List Statement}
    (h : (beforeOperand name []).next limit token = .ok result) :
    (named name position).next limit token = .ok result := by
  obtain ⟨kind, start⟩ := token
  cases kind <;> first | exact h | cases h

theorem eq_of_next_open {purpose : Purpose} {inner : Pending} {outer : List Pending}
    {position : Position} {q : Phase} {statements : List Statement}
    (h : (beforeValue purpose inner outer).next limit ⟨.openParen, position⟩ =
      .ok (q, statements)) :
    q = beforeValue purpose {} (inner :: outer) ∧ statements = [] ∧
      Grammar.Opens limit outer.length := by
  have hstep : (beforeValue purpose inner outer).next limit ⟨.openParen, position⟩ =
      (openGroup limit outer.length ⟨.openParen, position⟩
        (beforeValue purpose {} (inner :: outer))).map (·, []) :=
    rfl
  rw [hstep, openGroup] at h
  by_cases hlimit : limit.all (outer.length < ·) = true
  · rw [if_pos hlimit] at h
    cases h
    exact ⟨rfl, rfl, hlimit⟩
  · rw [if_neg hlimit] at h
    cases h

theorem next_beforeOperand_open (opcode : String) (before : List Operand) (position : Position)
    (hopens : Grammar.Opens limit 0) :
    (beforeOperand opcode before).next limit ⟨.openParen, position⟩ =
      .ok (groupOrBase opcode before, []) := by
  show (openGroup limit 0 _ _).map _ = _
  rw [hopens.openGroup]
  rfl

/-- A sum is read at the start of an operand as it is read anywhere.  The two runs part at a
parenthesis in front and meet again at the token behind it. -/
theorem Reaches.of_beforeValue {opcode : String} {before : List Operand}
    {tokens : List Token} {statements : List Statement} {purpose : Purpose} {inner : Pending}
    {outer : List Pending} {value : Operand}
    (h : Reaches limit (beforeValue (.operand opcode before) {} []) tokens statements
      (afterValue purpose inner outer value)) :
    Reaches limit (beforeOperand opcode before) tokens statements
      (afterValue purpose inner outer value) := by
  cases h with
  | @step _ q _ token tokens done statements hstep hrest =>
    obtain ⟨kind, position⟩ := token
    by_cases hopen : kind = .openParen
    · subst hopen
      obtain ⟨rfl, rfl, hopens⟩ := eq_of_next_open hstep
      have hgroup := next_beforeOperand_open opcode before position hopens
      cases hrest with
      | step hstep' hrest' => exact .step hgroup (.step (next_groupOrBase hstep') hrest')
    · exact .step (next_beforeOperand hopen hstep) hrest

/-- A run inside a group is also one behind a parenthesis at the start of an operand, if there is a
token. -/
theorem Reaches.of_group {opcode : String} {before : List Operand} {tokens : List Token}
    {statements : List Statement} {q : Phase} (htokens : tokens ≠ [])
    (h : Reaches limit (beforeValue (.operand opcode before) {} [{}]) tokens statements q) :
    Reaches limit (groupOrBase opcode before) tokens statements q := by
  cases h with
  | refl => exact absurd rfl htokens
  | step hstep hrest => exact .step (next_groupOrBase hstep) hrest

/-- A run from the start of an operand is also one from a name, if there is a token. -/
theorem Reaches.of_beforeOperand {name : String} (position : Position) {tokens : List Token}
    {statements : List Statement} {q : Phase} (htokens : tokens ≠ [])
    (h : Reaches limit (beforeOperand name []) tokens statements q) :
    Reaches limit (named name position) tokens statements q := by
  cases h with
  | refl => exact absurd rfl htokens
  | step hstep hrest => exact .step (next_named position hstep) hrest

end Phase

namespace Grammar

variable {limit : Option Nat}

theorem reaches_base {opcode : String} {before : List Operand} {inner : Pending}
    {value offset : Operand} {name : String} {tokens : List Token}
    (hvalue : inner.sumOf value = offset)
    (h : tokens.map Token.kind = [.openParen, .register name, .closeParen]) :
    Reaches limit (.afterValue (.operand opcode before) inner [] value) tokens []
      (.afterOperand opcode before (.indexed offset (.ofRegister name))) := by
  obtain ⟨start, rest, rfl, hrest⟩ := exists_of_map_kind_cons h
  obtain ⟨position, last, rfl, hlast⟩ := exists_of_map_kind_cons hrest
  obtain ⟨stop, rfl⟩ := exists_of_map_kind_singleton hlast
  subst hvalue
  have hopen : Phase.next limit (.afterValue (.operand opcode before) inner [] value)
      ⟨.openParen, start⟩ = .ok (.beforeBase opcode before (inner.sumOf value), []) :=
    rfl
  have hregister : Phase.next limit (.beforeBase opcode before (inner.sumOf value))
      ⟨.register name, position⟩ =
      .ok (.indexedBase opcode before (inner.sumOf value) (.ofRegister name), []) :=
    rfl
  exact .step hopen (.step hregister (.single rfl))

theorem Argument.reaches {kinds : List TokenKind} {e : Operand}
    (h : Argument limit kinds e) {tokens : List Token}
    (htokens : tokens.map Token.kind = kinds) (opcode : String) (before : List Operand) :
    ∃ q : Phase, q.Ends (.operand opcode before) e ∧
      Reaches limit (.beforeOperand opcode before) tokens [] q := by
  cases h with
  | register name =>
    obtain ⟨position, rfl⟩ := exists_of_map_kind_singleton htokens
    exact ⟨.afterOperand opcode before (.ofRegister name), ⟨rfl, rfl⟩, .single rfl⟩
  | indirect name hopens =>
    obtain ⟨start, rest, rfl, hrest⟩ := exists_of_map_kind_cons htokens
    obtain ⟨position, last, rfl, hlast⟩ := exists_of_map_kind_cons hrest
    obtain ⟨stop, rfl⟩ := exists_of_map_kind_singleton hlast
    have hopen := Phase.next_beforeOperand_open opcode before start hopens
    have hregister : Phase.next limit (.groupOrBase opcode before) ⟨.register name, position⟩ =
        .ok (.indirectBase opcode before (.ofRegister name), []) :=
      rfl
    exact ⟨.afterOperand opcode before (.indirect (.ofRegister name)), ⟨rfl, rfl⟩,
      .step hopen (.step hregister (.single rfl))⟩
  | sum hsum =>
    obtain ⟨after, value, hjoins, hreach⟩ :=
      hsum.reaches htokens (.operand opcode before) {} List.length_nil rfl
    exact ⟨.afterValue (.operand opcode before) after [] value, ⟨rfl, hjoins⟩,
      hreach.of_beforeValue⟩
  | @indexed _ offset name hsum =>
    obtain ⟨front, behind, rfl, hfront, hbehind⟩ := List.map_eq_append_iff.mp htokens
    obtain ⟨after, value, hjoins, hreach⟩ :=
      hsum.reaches hfront (.operand opcode before) {} List.length_nil rfl
    exact ⟨.afterOperand opcode before (.indexed offset (.ofRegister name)), ⟨rfl, rfl⟩,
      hreach.of_beforeValue.trans (reaches_base hjoins hbehind)⟩

/-- A row of items is read item by item.  `start es` is the phase in which an item has to
follow the items `es`, and `purpose es` is what it is read for. -/
theorem Separated.reaches {item : List TokenKind → Operand → Prop}
    {start : List Operand → Phase} {purpose : List Operand → Purpose}
    (hitem : ∀ {kinds : List TokenKind} {e : Operand}, item kinds e →
      ∀ {tokens : List Token}, tokens.map Token.kind = kinds → ∀ before : List Operand,
        ∃ q : Phase, q.Ends (purpose before) e ∧ Reaches limit (start before) tokens [] q)
    (hcomma : ∀ {before : List Operand} {e : Operand} {q : Phase}, q.Ends (purpose before) e →
      ∀ position, q.next limit ⟨.comma, position⟩ = .ok (start (before ++ [e]), []))
    {kinds : List TokenKind} {es : List Operand} (h : Separated item kinds es)
    {tokens : List Token} (htokens : tokens.map Token.kind = kinds) :
    ∃ before last q, es = before ++ [last] ∧ q.Ends (purpose before) last ∧
      Reaches limit (start []) tokens [] q := by
  induction h generalizing tokens with
  | @single kinds e he =>
    obtain ⟨q, hends, hreach⟩ := hitem he htokens []
    exact ⟨[], e, q, rfl, hends, hreach⟩
  | @snoc before last es e _ hlast ih =>
    obtain ⟨front, behind, rfl, hfront, hbehind⟩ := List.map_eq_append_iff.mp htokens
    obtain ⟨position, tail, rfl, htail⟩ := exists_of_map_kind_cons hbehind
    obtain ⟨earlier, previous, q, rfl, hends, hreach⟩ := ih hfront
    obtain ⟨r, hends', hreach'⟩ := hitem hlast htail (earlier ++ [previous])
    exact ⟨earlier ++ [previous], e, r, rfl, hends',
      hreach.trans (.step (hcomma hends position) hreach')⟩

theorem Expression.reaches_ends {kinds : List TokenKind} {e : Operand}
    (h : Expression limit .sum 0 kinds e) {tokens : List Token}
    (htokens : tokens.map Token.kind = kinds) (purpose : Purpose) :
    ∃ q : Phase, q.Ends purpose e ∧ Reaches limit (.beforeValue purpose {} []) tokens [] q := by
  obtain ⟨after, value, hjoins, hreach⟩ := h.reaches htokens purpose {} List.length_nil rfl
  exact ⟨.afterValue purpose after [] value, ⟨rfl, hjoins⟩, hreach⟩

/-- The phase behind a data directive of the given arity. -/
def afterMode (mode : DataMode) : Arity → Phase
  | .text => .beforeText mode
  | .single => .beforeValue (.only mode) {} []
  | .list => .beforeValue (.value mode []) {} []

theorem startDirective_name (mode : DataMode) (position : Position) :
    Phase.startDirective mode.name position = .ok (afterMode mode mode.arity, []) := by
  have hsegment : ¬(mode.name = textSegment ∨ mode.name = dataSegment) := by
    cases mode <;> decide
  rw [Phase.startDirective, if_neg hsegment, DataMode.ofName?_name]
  cases mode <;> rfl

/-- A line may start in a phase in which no part of it but labels has been read. -/
def StartsBody (p : Phase) : Prop :=
  p = .lineStart ∨ p = .afterLabel

theorem StartsBody.next_identifier {p : Phase} (h : StartsBody p) (limit : Option Nat)
    (name : String) (position : Position) :
    p.next limit ⟨.identifier name, position⟩ = .ok (.named name position, []) := by
  rcases h with rfl | rfl <;> rfl

theorem StartsBody.next_directive {p : Phase} (h : StartsBody p) (limit : Option Nat)
    (name : String) (position : Position) :
    p.next limit ⟨.directive name, position⟩ = Phase.startDirective name position := by
  rcases h with rfl | rfl <;> rfl

theorem StartsBody.next_mode {p : Phase} (h : StartsBody p) (limit : Option Nat)
    {mode : DataMode} {arity : Arity} (harity : mode.arity = arity) (position : Position) :
    p.next limit ⟨.directive mode.name, position⟩ = .ok (afterMode mode arity, []) := by
  rw [h.next_directive, startDirective_name, harity]

/-- A directive or an instruction is read behind labels, up to a phase in which the line may
end.  Its statement is completed either there or by the end of the line. -/
theorem Body.reaches {kinds : List TokenKind} {statement : Statement}
    (h : Body limit kinds statement) {tokens : List Token}
    (htokens : tokens.map Token.kind = kinds) {p : Phase} (hp : StartsBody p) :
    ∃ done rest q, done ++ rest = [statement] ∧ q.finish? = some rest ∧
      Reaches limit p tokens done q := by
  cases h with
  | @segment name hname =>
    obtain ⟨position, rfl⟩ := exists_of_map_kind_singleton htokens
    refine ⟨[.segment name], [], .complete, rfl, rfl, .single ?_⟩
    rw [hp.next_directive, Phase.startDirective, if_pos hname]
  | @text mode content harity =>
    obtain ⟨position, rest, rfl, hrest⟩ := exists_of_map_kind_cons htokens
    obtain ⟨behind, rfl⟩ := exists_of_map_kind_singleton hrest
    have hstart := hp.next_mode limit harity position
    exact ⟨[.entry (.data ⟨mode, .scalar (.text content)⟩)], [], .complete, rfl, rfl,
      .step hstart (.single rfl)⟩
  | @single mode kinds e harity hsum =>
    obtain ⟨position, rest, rfl, hrest⟩ := exists_of_map_kind_cons htokens
    have hstart := hp.next_mode limit harity position
    obtain ⟨q, hends, hreach⟩ := hsum.reaches_ends hrest (.only mode)
    exact ⟨[], _, q, rfl, hends.finish?, .step hstart hreach⟩
  | @list mode kinds es value harity hvalues hvalue =>
    obtain ⟨position, rest, rfl, hrest⟩ := exists_of_map_kind_cons htokens
    have hstart := hp.next_mode limit harity position
    obtain ⟨before, last, q, rfl, hends, hreach⟩ :=
      hvalues.reaches (fun h _ hmap before => h.reaches_ends hmap (.value mode before))
        Phase.Ends.next_comma_value hrest
    rw [DataValue.ofValues?_snoc] at hvalue
    cases hvalue
    exact ⟨[], _, q, rfl, hends.finish?, .step hstart hreach⟩
  | opcode name =>
    obtain ⟨position, rfl⟩ := exists_of_map_kind_singleton htokens
    exact ⟨[], [.entry (.instruction (.ofOperands name []))], .named name position, rfl,
      rfl, .single (hp.next_identifier limit name position)⟩
  | @instruction name kinds es hoperands =>
    obtain ⟨position, rest, rfl, hrest⟩ := exists_of_map_kind_cons htokens
    obtain ⟨before, last, q, rfl, hends, hreach⟩ :=
      hoperands.reaches (fun h _ hmap before => h.reaches hmap name before)
        Phase.Ends.next_comma_operand hrest
    -- Without a token the run would end where it starts, and no operand is complete there.
    have hne : rest ≠ [] := by
      rintro rfl
      cases hreach
      exact hends
    exact ⟨[], _, q, rfl, hends.finish?,
      .step (hp.next_identifier limit name position) (hreach.of_beforeOperand position hne)⟩

theorem Labels.reaches {tokens : List Token} {statements : List Statement}
    (h : Labels tokens statements) (limit : Option Nat) :
    ∃ p, StartsBody p ∧ p.finish? = some [] ∧ Reaches limit .lineStart tokens statements p := by
  induction h with
  | nil => exact ⟨.lineStart, .inl rfl, rfl, .refl _⟩
  | snoc name position colon _ ih =>
    obtain ⟨p, hp, _, hreach⟩ := ih
    have hname := hp.next_identifier limit name position
    have hcolon : Phase.next limit (.named name position) ⟨.colon, colon⟩ =
        .ok (.afterLabel, [.label name position]) :=
      rfl
    exact ⟨.afterLabel, .inr rfl, rfl, hreach.trans (.step hname (.single hcolon))⟩

theorem Line.reaches {tokens : List Token} {statements : List Statement}
    (h : Line limit tokens statements) :
    ∃ done rest q, done ++ rest = statements ∧ q.finish? = some rest ∧
      Reaches limit .lineStart tokens done q := by
  cases h with
  | labels hlabels =>
    obtain ⟨p, _, hfinish, hreach⟩ := hlabels.reaches limit
    exact ⟨statements, [], p, List.append_nil _, hfinish, hreach⟩
  | @body _ _ before _ hlabels hbody =>
    obtain ⟨p, hp, _, hreach⟩ := hlabels.reaches limit
    obtain ⟨done, rest, q, hstatement, hfinish, hreach'⟩ := hbody.reaches rfl hp
    refine ⟨before ++ done, rest, q, ?_, hfinish, hreach.trans hreach'⟩
    rw [List.append_assoc, hstatement]

/-- A derived source text is accepted, with the statements of its derivation. -/
theorem Source.run {tokens : List Token} {statements : List Statement}
    (h : Source limit tokens statements) (last : Position) :
    Phase.lineStart.run limit last tokens = .ok statements := by
  induction h generalizing last with
  | nil => rfl
  | blank stop _ ih =>
    have hblank : Phase.next limit .lineStart ⟨.lineEnd, stop⟩ = .ok (.lineStart, []) :=
      rfl
    rw [Phase.run, hblank]
    simp [ih, Except.map]
  | last hline =>
    obtain ⟨done, rest, q, rfl, hfinish, hreach⟩ := hline.reaches
    have hrun := hreach.run_append last []
    rw [List.append_nil] at hrun
    rw [hrun, Phase.run, hfinish]
    rfl
  | line stop hline _ ih =>
    obtain ⟨done, rest, q, rfl, hfinish, hreach⟩ := hline.reaches
    have hstop : q.next limit ⟨.lineEnd, stop⟩ = .ok (.lineStart, rest) := by
      simp [Phase.next, hfinish]
    rw [hreach.run_append, Phase.run, hstop]
    simp [ih, Except.map, List.append_assoc]

end Grammar

end MipsAssembly
