import MipsAssembly.Proofs.Render.Integer
import MipsAssembly.Proofs.Text.Balanced

/-!
# No parenthesis is written in vain

An expression is written with as few parentheses as there can be.  What is left of it without one
matching pair is still an expression, with one group less, so it cannot be one for the same operand.

## Main definitions

- `Draft` — an expression as it is written, with a node for each pair of parentheses.
- `Operand.draft` — the draft of a written operand.
- `Grammar.Expression.groups_le` — no expression for an operand has fewer groups.
- `Draft.exists_of_encloses` — a draft without one of its pairs.
- `Grammar.Expression.exists_join` — two expressions with an operator between them are one.
- `statementsOf_without_parentheses` — without a pair, another operand is read.
-/

namespace MipsAssembly

open Grammar

/-- An expression as it is written, with a node for each pair of parentheses. -/
inductive Draft where
  | leaf (e : Operand)
  | group (inner : Draft)
  | binary (operator : BinaryOperator) (left right : Draft)

namespace Draft

def chars : Draft → List Char
  | leaf e => e.chars
  | group inner => inParens inner.chars
  | binary operator left right => left.chars ++ ([' ', operator.symbol, ' '] ++ right.chars)

/-- How many pairs of parentheses a draft has. -/
def groups : Draft → Nat
  | leaf _ => 0
  | group inner => inner.groups + 1
  | binary _ left right => left.groups + right.groups

/-- How deeply the parentheses of a draft are nested. -/
def depth : Draft → Nat
  | leaf _ => 0
  | group inner => inner.depth + 1
  | binary _ left right => max left.depth right.depth

/-- A draft whose leaves are numerals and names. -/
inductive Plain : Draft → Prop where
  | leaf {e : Operand} : e.Plain → e.level = .value → Plain (leaf e)
  | group {inner : Draft} : Plain inner → Plain (group inner)
  | binary {operator : BinaryOperator} {left right : Draft} :
    Plain left → Plain right → Plain (binary operator left right)

end Draft

/-! ## The drafts of operands -/

namespace Operand

/-- The draft of a written operand. -/
def draft : Operand → Draft
  | binary op left right =>
    .binary op (if op.level.Admits left.level then left.draft else .group left.draft)
      (if op.rightLevel.Admits right.level then right.draft else .group right.draft)
  | e => .leaf e

/-- The draft of an operand that is written at a level. -/
def draftAt (outer : Level) (e : Operand) : Draft :=
  if outer.Admits e.level then e.draft else .group e.draft

theorem draft_binary (op : BinaryOperator) (left right : Operand) :
    (binary op left right).draft =
      .binary op (left.draftAt op.level) (right.draftAt op.rightLevel) :=
  rfl

theorem draftAt_of_admits {outer : Level} {e : Operand} (h : outer.Admits e.level) :
    e.draftAt outer = e.draft :=
  if_pos h

theorem chars_draft (e : Operand) : e.draft.chars = e.chars := by
  have hwrapped (outer : Level) {e : Operand} (h : e.draft.chars = e.chars) :
      (e.draftAt outer).chars = e.charsAt outer := by
    unfold draftAt charsAt
    split
    · exact h
    · exact congrArg inParens h
  induction e with
  | binary op left right ihleft ihright =>
    rw [draft_binary, chars_binary, Draft.chars, hwrapped _ ihleft, hwrapped _ ihright,
      List.append_assoc]
  | register | number | identifier | text | indirect | indexed => rfl

theorem depth_draft (e : Operand) : e.draft.depth = e.depth := by
  have hwrapped (outer : Level) {e : Operand} (h : e.draft.depth = e.depth) :
      (e.draftAt outer).depth = e.depthAt outer := by
    unfold draftAt depthAt
    split
    · exact h
    · exact congrArg (· + 1) h
  induction e with
  | binary op left right ihleft ihright =>
    rw [draft_binary, depth_binary, Draft.depth, hwrapped _ ihleft, hwrapped _ ihright]
  | register | number | identifier | text | indirect | indexed => rfl

theorem Plain.draft {e : Operand} (h : e.Plain) : e.draft.Plain := by
  have hwrapped (outer : Level) {e : Operand} (h : e.draft.Plain) : (e.draftAt outer).Plain := by
    unfold draftAt
    split
    · exact h
    · exact .group h
  induction h with
  | number hvalue => exact .leaf (.number hvalue) rfl
  | negative hvalue => exact .leaf (.negative hvalue) rfl
  | identifier hname => exact .leaf (.identifier hname) rfl
  | @binary op left right _ _ ihleft ihright =>
    rw [draft_binary]
    exact .binary (hwrapped _ ihleft) (hwrapped _ ihright)

theorem groups_draftAt_le_succ (outer : Level) (e : Operand) :
    (e.draftAt outer).groups ≤ e.draft.groups + 1 := by
  unfold draftAt
  split
  · exact Nat.le_succ _
  · exact Nat.le_refl _

/-- Where more is admitted, no more parentheses are written. -/
theorem groups_draftAt_le {outer inner : Level} (h : outer.Admits inner) (e : Operand) :
    (e.draftAt outer).groups ≤ (e.draftAt inner).groups := by
  by_cases hinner : inner.Admits e.level
  · rw [draftAt_of_admits hinner, draftAt_of_admits (h.trans hinner)]
  · rw [draftAt, draftAt, if_neg hinner]
    split
    · exact Nat.le_succ _
    · exact Nat.le_refl _

end Operand

/-- An expression has no fewer parentheses than the operand that it stands for is written with. -/
theorem Grammar.Expression.groups_le {limit : Option Nat} {outer : Level} {groups : Nat}
    {kinds : List TokenKind} {e : Operand} (h : Expression limit outer groups kinds e) :
    (e.draftAt outer).groups ≤ kinds.count .openParen := by
  induction h with
  | number radix value => exact Nat.zero_le _
  | negative radix value => exact Nat.zero_le _
  | name name => exact Nat.zero_le _
  | @group groups kinds e _ _ ih =>
    -- The group at hand pays for the one that the operand may need at this level.
    have hinner : e.draft.groups ≤ kinds.count .openParen := ih
    have houter := e.groups_draftAt_le_succ .value
    simp only [List.count_cons, List.count_append, List.count_nil, beq_self_eq_true, if_true]
    omega
  | @value groups kinds e _ ih =>
    have hadmits : Level.product.Admits .value := by decide
    exact (e.groups_draftAt_le hadmits).trans ih
  | @product groups kinds e _ ih =>
    have hadmits : Level.sum.Admits .product := by decide
    exact (e.groups_draftAt_le hadmits).trans ih
  | @times groups op lefts rights left right hop _ _ ihleft ihright =>
    have hlevel : op.rightLevel = .value := by cases op <;> first | rfl | cases hop
    have hadmits : Level.product.Admits (Operand.binary op left right).level := by
      rw [Operand.level, hop]
      decide
    rw [Operand.draftAt_of_admits hadmits, Operand.draft_binary, Draft.groups, hop, hlevel,
      List.count_append, List.count_cons]
    omega
  | @plus groups op lefts rights left right hop _ _ ihleft ihright =>
    have hlevel : op.rightLevel = .product := by cases op <;> first | rfl | cases hop
    have hadmits : Level.sum.Admits (Operand.binary op left right).level := trivial
    rw [Operand.draftAt_of_admits hadmits, Operand.draft_binary, Draft.groups, hop, hlevel,
      List.count_append, List.count_cons]
    omega

/-! ## Drafts without one of their pairs -/

/-- Numerals and names are written without parentheses. -/
theorem Operand.Plain.ne_paren {e : Operand} (h : e.Plain) (hlevel : e.level = .value) :
    ∀ c ∈ e.chars, c ≠ '(' ∧ c ≠ ')' := by
  have hword {c : Char} (h : isWordChar c = true) : c ≠ '(' ∧ c ≠ ')' := by
    constructor <;> rintro rfl <;> cases h
  have hnumeral {radix : Radix} {value : Number} (h : value.Readable radix) :
      ∀ c ∈ value.charsIn radix, c ≠ '(' ∧ c ≠ ')' := by
    intro c hc
    rcases h.spelledBy_charsIn.mem_span c hc with hc | hc
    · exact hword hc
    · have hsigns : ∀ sign ∈ ['+', '-'], sign ≠ '(' ∧ sign ≠ ')' := by simp
      exact hsigns c hc
  cases h with
  | number hvalue => exact hnumeral hvalue
  | @negative radix value hvalue =>
    rw [Operand.chars]
    rcases hvalue.charsIn_negate with hzero | hchars
    · rw [hzero]
      exact hnumeral hvalue
    · rw [hchars]
      exact List.forall_mem_cons.mpr ⟨by decide, hnumeral hvalue⟩
  | identifier hname =>
    obtain ⟨c, word, hname, hfirst, hrest⟩ := hname
    rw [Operand.chars, hname]
    refine List.forall_mem_cons.mpr ⟨hword (isWordChar_of_starts_name hfirst), ?_⟩
    exact fun d hd => hword (hrest d hd)
  | @binary op left right _ _ => cases op <;> cases hlevel

/-- A text without parentheses has no pair of them. -/
theorem Encloses.mem {cs before inside after : List Char} (h : Encloses cs before inside after) :
    '(' ∈ cs := by
  rw [h.eq]
  exact List.mem_append_right _ List.mem_cons_self

namespace Draft

variable {d : Draft}

theorem ne_paren_of_mem_operator (op : BinaryOperator) :
    ∀ c ∈ [' ', op.symbol, ' '], c ≠ '(' ∧ c ≠ ')' := by
  cases op <;> simp [BinaryOperator.symbol]

theorem Plain.balanced (h : d.Plain) : Balanced d.chars := by
  induction h with
  | leaf he hlevel => exact balanced_of_forall (he.ne_paren hlevel)
  | group _ ih => exact ih.inParens
  | @binary op left right _ _ ihleft ihright =>
    exact ihleft.append ((balanced_of_forall (ne_paren_of_mem_operator op)).append ihright)

/-- A matching pair of a text in parentheses is the one around the text, or one of the text. -/
theorem encloses_inParens_cases {cs before inside after : List Char} (hcs : Balanced cs)
    (h : Encloses (inParens cs) before inside after) :
    (before = [] ∧ inside = cs ∧ after = []) ∨
      ∃ front rest, before = '(' :: front ∧ after = rest ++ [')'] ∧
        Encloses cs front inside rest := by
  obtain ⟨heq, hinside⟩ := h
  cases before with
  | nil =>
    have hclose := (List.cons.inj heq).2
    rcases List.append_eq_append_iff.mp hclose with ⟨tail, hin, htail⟩ | ⟨tail, hin, htail⟩
    · cases tail with
      | nil =>
        rw [List.append_nil] at hin
        exact .inl ⟨rfl, hin, (List.cons.inj htail).2.symm⟩
      | cons c tail => simp at htail
    · cases tail with
      | nil =>
        rw [List.append_nil] at hin
        exact .inl ⟨rfl, hin.symm, (List.cons.inj htail).2⟩
      | cons c tail =>
        -- The text would close a parenthesis that it does not open.
        obtain ⟨rfl, -⟩ := List.cons.inj htail
        rw [hin, Balanced, openBehind_append, hinside, Option.bind_some, openBehind] at hcs
        cases hcs
  | cons c front =>
    obtain ⟨rfl, hrest⟩ := List.cons.inj heq
    have hpair : Encloses (cs ++ [')']) front inside after := ⟨hrest, hinside⟩
    rcases hpair.append_cases hcs with ⟨rest, hin, rfl⟩ | ⟨rest, -, hout⟩
    · exact .inr ⟨front, rest, rfl, rfl, hin⟩
    · exact absurd hout.mem (by decide)

/-- Without a matching pair of parentheses, the text of a draft is that of a draft with one group
less. -/
theorem Plain.exists_of_encloses (h : d.Plain) {before inside after : List Char}
    (hpair : Encloses d.chars before inside after) :
    ∃ rest : Draft, rest.Plain ∧ rest.chars = before ++ (inside ++ after) ∧
      rest.groups + 1 = d.groups ∧ rest.depth ≤ d.depth := by
  induction h generalizing before inside after with
  | leaf he hlevel => exact absurd rfl (he.ne_paren hlevel _ hpair.mem).1
  | @group inner hinner ih =>
    rcases encloses_inParens_cases hinner.balanced hpair with
      ⟨rfl, rfl, rfl⟩ | ⟨front, behind, rfl, rfl, hin⟩
    · exact ⟨inner, hinner, by simp, rfl, Nat.le_succ _⟩
    · obtain ⟨rest, hrest, hchars, hgroups, hdepth⟩ := ih hin
      refine ⟨.group rest, .group hrest, ?_, congrArg (· + 1) hgroups, Nat.succ_le_succ hdepth⟩
      rw [chars, hchars, inParens]
      simp
  | @binary op left right hleft hright ihleft ihright =>
    have hoperator := ne_paren_of_mem_operator op
    rcases hpair.append_cases hleft.balanced with ⟨behind, hin, rfl⟩ | ⟨front, rfl, hout⟩
    · obtain ⟨rest, hrest, hchars, hgroups, hdepth⟩ := ihleft hin
      refine ⟨.binary op rest right, .binary hrest hright, ?_, ?_, ?_⟩
      · rw [chars, hchars]
        simp
      · simp only [groups]
        omega
      · simp only [depth]
        omega
    · rcases hout.append_cases (balanced_of_forall hoperator) with
        ⟨behind, hin, -⟩ | ⟨front, rfl, hin⟩
      · exact absurd rfl (hoperator _ hin.mem).1
      · obtain ⟨rest, hrest, hchars, hgroups, hdepth⟩ := ihright hin
        refine ⟨.binary op left rest, .binary hleft hrest, ?_, ?_, ?_⟩
        · rw [chars, hchars]
          simp
        · simp only [groups]
          omega
        · simp only [depth]
          omega

end Draft

/-! ## Drafts are expressions -/

namespace Grammar.Expression

variable {limit : Option Nat} {level : Level} {groups : Nat} {op : BinaryOperator}
  {lefts rights : List TokenKind} {left right : Operand}

/-- A sum goes on with a value behind an operator of products: the last product takes it. -/
theorem exists_times (hop : op.level = .product) (hleft : Expression limit .sum groups lefts left)
    (hright : Expression limit .value groups rights right) :
    ∃ e, Expression limit .sum groups (lefts ++ op.tokenKind :: rights) e := by
  cases hleft with
  | product hproduct => exact ⟨_, .product (.times hop hproduct hright)⟩
  | plus hsum hfirst hlast =>
    rw [List.append_assoc, List.cons_append]
    exact ⟨_, .plus hsum hfirst (.times hop hlast hright)⟩

theorem exists_value (op : BinaryOperator) (hleft : Expression limit .sum groups lefts left)
    (hright : Expression limit .value groups rights right) :
    ∃ e, Expression limit .sum groups (lefts ++ op.tokenKind :: rights) e := by
  cases hop : op.level with
  | sum => exact ⟨_, .plus hop hleft (.value hright)⟩
  | product => exact exists_times hop hleft hright
  | value => cases op <;> cases hop

/-- Two expressions with an operator between them are an expression, if not for the operands of
the two. -/
theorem exists_join (op : BinaryOperator) (hleft : Expression limit .sum groups lefts left)
    (hright : Expression limit level groups rights right) :
    ∃ e, Expression limit .sum groups (lefts ++ op.tokenKind :: rights) e := by
  induction hright with
  | number radix value => exact exists_value op hleft (.number radix value)
  | negative radix value => exact exists_value op hleft (.negative radix value)
  | name name => exact exists_value op hleft (.name name)
  | group hopens hinner _ => exact exists_value op hleft (.group hopens hinner)
  | value _ ih => exact ih hleft
  | product _ ih => exact ih hleft
  | times hop _ hlast ihfirst _ =>
    obtain ⟨e, hfirst⟩ := ihfirst hleft
    rw [List.append_cons, ← List.append_assoc, List.append_assoc _ [_], List.singleton_append]
    exact exists_times hop hfirst hlast
  | plus hop _ hlast ihfirst _ =>
    obtain ⟨e, hfirst⟩ := ihfirst hleft
    rw [List.append_cons, ← List.append_assoc, List.append_assoc _ [_], List.singleton_append]
    exact ⟨_, .plus hop hfirst hlast⟩

end Grammar.Expression

/-- The text of a draft is cut into the tokens of an expression with as many groups, for some
operand. -/
theorem Draft.Plain.exists_expression {d : Draft} (h : d.Plain) {limit groups : Nat}
    (hdepth : groups + d.depth ≤ limit) :
    ∃ kinds e, Expression (some limit) .sum groups kinds e ∧ Spells d.chars kinds ∧
      kinds.count .openParen = d.groups := by
  induction h generalizing groups with
  | leaf he hlevel =>
    obtain ⟨kinds, hexpression, hspells, hparen⟩ := he.exists_value hlevel
    exact ⟨kinds, _, .product (.value (hexpression _ groups)), hspells,
      List.count_eq_zero.mpr hparen⟩
  | @group inner _ ih =>
    rw [depth] at hdepth
    have hinner : groups + 1 + inner.depth ≤ limit := by omega
    obtain ⟨kinds, e, hexpression, hspells, hcount⟩ := ih hinner
    have hopens : Opens (some limit) groups := by
      simp only [Opens, Option.all_some, decide_eq_true_eq]
      omega
    refine ⟨_, e, .product (.value (.group hopens hexpression)), hspells.inParens, ?_⟩
    simp [hcount, Draft.groups]
  | @binary op left right _ _ ihleft ihright =>
    rw [depth] at hdepth
    have hdepthleft : groups + left.depth ≤ limit := by omega
    have hdepthright : groups + right.depth ≤ limit := by omega
    obtain ⟨lefts, _, hleft, hspellsleft, hcountleft⟩ := ihleft hdepthleft
    obtain ⟨rights, _, hright, hspellsright, hcountright⟩ := ihright hdepthright
    obtain ⟨e, hexpression⟩ := hleft.exists_join op hright
    have hoperator : TokenKind.ofPunctuation? op.symbol = some op.tokenKind := by cases op <;> rfl
    have hbehind := (Spells.punctuation hoperator hspellsright.space).space
    refine ⟨_, e, hexpression, hspellsleft.append hbehind (by simp; decide), ?_⟩
    have hparen : op.tokenKind ≠ .openParen := by cases op <;> simp [BinaryOperator.tokenKind]
    rw [List.count_append, List.count_cons_of_ne hparen, hcountleft, hcountright, Draft.groups]

/-! ## Reading -/

/-- A text that is cut into the tokens of a directive or an instruction is read as it. -/
theorem statementsOf_of_spells {cs : List Char} {kinds : List TokenKind} {statement : Statement}
    (hspells : Spells cs kinds) (hne : cs ≠ []) (hbody : Body (some maxDepth) kinds statement) :
    statementsOf (String.ofList cs) = .ok [statement] := by
  obtain ⟨tokens, stop, rfl, hlex⟩ := hspells.exists_lex hne
  have hsource : Source (some maxDepth) (tokens ++ [⟨.lineEnd, stop⟩]) [statement] :=
    .line stop (.body .nil hbody) .nil
  exact statementsOf_eq_ok_iff.mpr ⟨_, hlex, hsource.parseStatements_eq⟩

/-- Behind a name, a text that is cut into the tokens of an expression is read as the operand for
which it stands. -/
theorem Operand.IsAlone.statementsOf_of_spells {e : Operand} {name : String} {entry : Entry}
    {cs : List Char} {kinds : List TokenKind} (h : e.IsAlone name entry)
    (hexpression : Expression (some maxDepth) .sum 0 kinds e) (hspells : Spells cs kinds) :
    statementsOf (String.ofList (name.toList ++ ' ' :: cs)) = .ok [.entry entry] := by
  have hblank : Stops isWordChar (' ' :: cs) := by
    rw [Stops.cons_iff]
    rfl
  cases h with
  | instruction hname =>
    have htext := (Spells.identifier hname).append hspells.space hblank
    exact MipsAssembly.statementsOf_of_spells htext (by simp)
      (.instruction name (.single (.sum hexpression)))
  | word =>
    have htext := (Spells.dataMode .word).append hspells.space hblank
    exact MipsAssembly.statementsOf_of_spells htext (by simp)
      (.list rfl (.single hexpression) rfl)

/-- The value of a `.word` directive that was read is that of an expression. -/
theorem exists_expression_of_word {source : String} {e : Operand}
    (h : statementsOf source = .ok [.entry (.data ⟨.word, .scalar e⟩)]) :
    ∃ kinds, Expression (some maxDepth) .sum 0 kinds e ∧ ∀ kind ∈ kinds, kind.Lexical := by
  obtain ⟨tokens, hlex, hparse⟩ := statementsOf_eq_ok_iff.mp h
  obtain ⟨part, hpart, hinside⟩ :=
    (source_of_parseStatements hparse).exists_part List.mem_cons_self
  have hlexical : ∀ kind ∈ part.map Token.kind, kind.Lexical :=
    List.forall_mem_map.mpr fun token htoken => lex_lexical hlex token (hinside.mem htoken)
  cases hpart with
  | body hbody =>
    generalize part.map Token.kind = kinds at hbody hlexical
    cases hbody with
    | single hmode => cases hmode
    | @list _ kinds es _ _ hvalues hvalue =>
      have hone : [e] = es := DataValue.values_of_ofValues? hvalue
      cases hvalues with
      | single hexpression =>
        cases hone
        exact ⟨kinds, hexpression, (List.forall_mem_cons.mp hlexical).2⟩
      | snoc hbefore _ =>
        have hlength := congrArg List.length hone
        exact absurd (by simpa using hlength) hbefore.ne_nil
    | text _ hmode => cases hmode

/-- Every pair of parentheses in a written expression is needed.

Take an expression that was read, the text that it is written as, and a matching pair of
parentheses in this text.  What is left without the pair is read, too, as the operand of an
instruction and as the value of a directive, and what is read is another expression. -/
theorem statementsOf_without_parentheses {source : String} {e : Operand}
    (h : statementsOf source = .ok [.entry (.data ⟨.word, .scalar e⟩)])
    {before inside after : String}
    (hpair : e.render = before ++ "(" ++ inside ++ ")" ++ after) (hinside : Balanced inside.toList) :
    ∃ other, other ≠ e ∧ ∀ name entry, other.IsAlone name entry →
      statementsOf (name ++ " " ++ (before ++ inside ++ after)) = .ok [.entry entry] := by
  obtain ⟨kinds, hexpression, hlexical⟩ := exists_expression_of_word h
  have hplain := hexpression.plain hlexical
  have hdepth := hexpression.depthAt_le (Nat.zero_le _)
  have hsum (e : Operand) : Level.sum.Admits e.level := trivial
  rw [Operand.depthAt_of_admits (hsum e), ← e.depth_draft] at hdepth
  have hencloses : Encloses e.draft.chars before.toList inside.toList after.toList := by
    have htext := congrArg String.toList hpair
    rw [Operand.render, String.toList_ofList, ← e.chars_draft] at htext
    exact ⟨by simpa using htext, hinside⟩
  obtain ⟨rest, hrest, hchars, hgroups, hle⟩ := hplain.draft.exists_of_encloses hencloses
  have hlimit : 0 + rest.depth ≤ maxDepth := by omega
  obtain ⟨others, other, hother, hspells, hcount⟩ := hrest.exists_expression hlimit
  refine ⟨other, ?_, ?_⟩
  · rintro rfl
    -- The operand would have an expression with fewer groups than it is written with.
    have hminimal := hother.groups_le
    rw [Operand.draftAt_of_admits (hsum other)] at hminimal
    omega
  · intro name entry halone
    have hread := halone.statementsOf_of_spells hother hspells
    rw [hchars] at hread
    rw [← hread]
    congr 1
    apply String.toList_injective
    simp

/-- The inner pair of two that are nested on the right of a minus sign. -/
theorem statementsOf_without_parentheses_of_nested_pairs :
    let e : Operand := .binary .mul (.int 2)
      (.binary .sub (.identifier "a") (.binary .sub (.int (-1)) (.int 3)))
    let source := ".word 2*(a-(-1-3))"
    statementsOf source = .ok [.entry (.data ⟨.word, .scalar e⟩)] ∧
    e.render = "2 * (a - " ++ "(" ++ "-1 - 3" ++ ")" ++ ")" ∧ Balanced "-1 - 3".toList ∧
    ∃ other, other ≠ e ∧ ∀ name entry, other.IsAlone name entry →
      statementsOf (name ++ " " ++ ("2 * (a - " ++ "-1 - 3" ++ ")")) = .ok [.entry entry] := by
  intro e source
  have hread : statementsOf source = .ok [.entry (.data ⟨.word, .scalar e⟩)] := by
    decide +kernel +zetaReduce
  have htext : e.render = "2 * (a - " ++ "(" ++ "-1 - 3" ++ ")" ++ ")" := by decide +kernel
  have hinside : Balanced "-1 - 3".toList := by decide
  exact ⟨hread, htext, hinside, statementsOf_without_parentheses hread htext hinside⟩

end MipsAssembly
