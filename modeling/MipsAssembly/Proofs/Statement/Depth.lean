import MipsAssembly.Proofs.Grammar.Reading
import MipsAssembly.Proofs.Statement.Counter

/-!
# The depth of groups

The depth of a cursor goes up and down with the groups of the phase, so it stays within its limit
and has its old value again behind every group and every line.  What is nested too deeply is refused
at the first parenthesis that opens such a group, and without one the limit changes nothing.

## Main definitions

- `Phase.Counts` — the effect of a row of tokens on phase and depth.
- `Phase.Counts.depth_eq` — the depth goes with the groups of the phase.
- `Phase.IsGroup` — tokens that are a group where they are read.
- `parse_of_depth` — reading at any depth.
-/

namespace MipsAssembly

/-- Entering and leaving groups leads from one cursor to another. -/
inductive Cursor.MovesTo (start : Cursor) : Cursor → Prop where
  | refl : MovesTo start start
  | enter {c inside : Cursor} : MovesTo start c → c.enter = .ok inside → MovesTo start inside
  | leave {c : Cursor} : MovesTo start c → MovesTo start c.leave

/-- Every depth up to the limit is reached at the start of some tokens. -/
theorem Cursor.movesTo_of_le (tokens : List Token) {depth : Nat} (h : depth ≤ maxDepth) :
    (ofTokens tokens).MovesTo { unread := tokens, depth := depth } := by
  induction depth with
  | zero => exact .refl
  | succ depth ih => exact .enter (ih (Nat.le_of_succ_le h)) (if_pos h)

namespace Phase

/-! ## Counting -/

/-- `p.Counts depth tokens statements q depth'`: the tokens lead from the phase `p` to the phase
`q`, and a cursor over them from `depth` to `depth'`. -/
inductive Counts : Phase → Nat → List Token → List Statement → Phase → Nat → Prop where
  | refl (p : Phase) (depth : Nat) : Counts p depth [] [] p depth
  | step {p q r : Phase} {before depth behind : Nat} {token : Token} {tokens : List Token}
      {done statements : List Statement} :
    Cursor.step { unread := token :: tokens, depth := before } p token = .ok (q, depth, done) →
    Counts q depth tokens statements r behind →
    Counts p before (token :: tokens) (done ++ statements) r behind

variable {p q : Phase} {base depth behind : Nat} {token : Token} {tokens : List Token}
  {done statements : List Statement}

theorem groups_le_of_next {bound : Nat} (hp : p.groups ≤ bound)
    (h : p.next (some bound) token = .ok (q, done)) : q.groups ≤ bound := by
  by_cases hopen : p.opensGroup token.kind = true
  · obtain ⟨-, inside, hinside, hnext⟩ := next_of_opensGroup hopen
    rw [hnext] at h
    split at h
    · next hroom =>
      cases h
      have hroom : p.groups < bound := by simpa using hroom
      omega
    · cases h
  · rw [groups_eq_countAfter h, countAfter, if_neg hopen]
    split <;> omega

/-- The depth goes with the groups of the phase, and it stays within the limit. -/
theorem Counts.depth_eq (h : Counts p (base + p.groups) tokens statements q behind)
    (hdepth : base + p.groups ≤ maxDepth) : behind = base + q.groups ∧ behind ≤ maxDepth := by
  generalize hstart : base + p.groups = start at h
  induction h with
  | refl p start => exact ⟨hstart.symm, hstart ▸ hdepth⟩
  | step hstep _ ih =>
    subst hstart
    rw [Cursor.step_eq rfl rfl] at hstep
    obtain ⟨⟨q, done⟩, hnext, heq⟩ := exists_of_map_eq_ok hstep
    cases heq
    have hgroups := groups_le_of_next (by omega) hnext
    exact ih (by omega) rfl

/-- A token in front that completes no statement. -/
theorem Counts.silent {r : Phase} {before : Nat}
    (hstep : Cursor.step { unread := token :: tokens, depth := before } p token =
      .ok (q, depth, []))
    (h : Counts q depth tokens statements r behind) :
    Counts p before (token :: tokens) statements r behind :=
  .step hstep h

theorem Counts.reaches (h : Counts p depth tokens statements q behind) :
    Reaches none p tokens statements q := by
  induction h with
  | refl p depth => exact .refl p
  | step hstep _ ih =>
    refine .step ?_ ih
    rw [Cursor.step] at hstep
    split at hstep
    · cases hstep
    · obtain ⟨⟨q, done⟩, hnext, heq⟩ := exists_of_map_eq_ok hstep
      cases heq
      exact hnext

/-! ## Groups -/

/-- Tokens are a group where they are read: a sum in parentheses, or a register in parentheses in
the place of an operand. -/
inductive IsGroup : Phase → List TokenKind → Prop where
  | sum {p : Phase} {kinds : List TokenKind} {e : Operand} :
    p.opensGroup .openParen = true → Grammar.Expression none .sum (p.groups + 1) kinds e →
    IsGroup p (.openParen :: (kinds ++ [.closeParen]))
  | first (opcode : String) (position : Position) (register : String) :
    IsGroup (.named opcode position) [.openParen, .register register, .closeParen]
  | operand (opcode : String) (before : List Operand) (register : String) :
    IsGroup (.beforeOperand opcode before) [.openParen, .register register, .closeParen]

/-- In the place of an operand, a register in parentheses is a group. -/
theorem exists_reaches_indirect {register : String}
    (h : tokens.map Token.kind = [.openParen, .register register, .closeParen]) (opcode : String)
    (before : List Operand) :
    ∃ q : Phase, q.groups = 0 ∧ Reaches none (beforeOperand opcode before) tokens [] q := by
  have hgroup : Grammar.Argument none _ _ := .indirect register rfl
  obtain ⟨q, hends, hreach⟩ := hgroup.reaches h opcode before
  have hfinish : q.finish? ≠ none := by
    rw [hends.finish?]
    exact Option.some_ne_none _
  exact ⟨q, groups_eq_zero_of_finish? hfinish, hreach⟩

/-- Behind a group as many groups are open as in front of it. -/
theorem IsGroup.reaches (h : p.IsGroup (tokens.map Token.kind)) :
    ∃ q : Phase, q.groups = p.groups ∧ Reaches none p tokens [] q := by
  generalize hkinds : tokens.map Token.kind = kinds at h
  have hne : tokens ≠ [] := by
    rintro rfl
    cases hkinds
    cases h
  cases h with
  | @sum p kinds e hopens hsum =>
    have hgroup : Grammar.Expression none .value p.groups _ e := .group rfl hsum
    cases p with
    | named name position =>
      obtain ⟨after, value, ⟨rfl, rfl⟩, hreach⟩ :=
        hgroup.reaches hkinds (.operand name []) {} List.length_nil trivial
      exact ⟨.afterValue _ _ _ _, rfl, hreach.of_beforeValue.of_beforeOperand position hne⟩
    | beforeOperand opcode before =>
      obtain ⟨after, value, ⟨rfl, rfl⟩, hreach⟩ :=
        hgroup.reaches hkinds (.operand opcode before) {} List.length_nil trivial
      exact ⟨.afterValue _ _ _ _, rfl, hreach.of_beforeValue⟩
    | groupOrBase opcode before =>
      obtain ⟨after, value, ⟨rfl, rfl⟩, hreach⟩ :=
        hgroup.reaches hkinds (.operand opcode before) {}
          (show [({} : Pending)].length = 1 from rfl) trivial
      exact ⟨.afterValue _ _ _ _, rfl, hreach.of_group hne⟩
    | beforeValue purpose inner outer =>
      obtain ⟨after, value, ⟨rfl, rfl⟩, hreach⟩ := hgroup.reaches hkinds purpose inner rfl trivial
      exact ⟨.afterValue _ _ _ _, rfl, hreach⟩
    | _ => cases hopens
  | first opcode position register =>
    obtain ⟨q, hq, hreach⟩ := exists_reaches_indirect hkinds opcode []
    exact ⟨q, hq, hreach.of_beforeOperand position hne⟩
  | operand opcode before register => exact exists_reaches_indirect hkinds opcode before

/-- A group leaves the depth as it was. -/
theorem IsGroup.depth_eq (h : p.IsGroup (tokens.map Token.kind))
    (hcounts : Counts p (base + p.groups) tokens done q behind)
    (hdepth : base + p.groups ≤ maxDepth) : behind = base + p.groups := by
  obtain ⟨r, hr, hreach⟩ := h.reaches
  obtain ⟨-, rfl⟩ := hcounts.reaches.unique hreach
  rw [(hcounts.depth_eq hdepth).1, hr]

end Phase

/-- Tokens are read at any depth that is reached by entering and leaving groups as they are where
nothing limits groups, if no group is nested too deeply at that depth.  Otherwise the first
parenthesis that opens such a group is refused.  This is what a limit gives that is lower by the
depth.  The depth itself stays within the limit, and it is back at its value behind every line and
every group. -/
theorem parse_of_depth (tokens : List Token) (depth : Nat) (h : depth ≤ maxDepth) :
    let c : Cursor := { unread := tokens, depth := depth }
    let openings := Phase.lineStart.openings 0 tokens
    (Cursor.ofTokens tokens).MovesTo c ∧
    ((∀ opening ∈ openings, opening.nesting ≤ maxDepth - depth) →
      c.parse = Phase.lineStart.run none {} tokens) ∧
    (∀ before opening after, openings = before ++ opening :: after →
      (∀ earlier ∈ before, earlier.nesting ≤ maxDepth - depth) →
      maxDepth - depth < opening.nesting →
      c.parse = .error (.unexpectedToken "shallower expression" .openParen
        opening.parenthesis.position)) ∧
    c.parse = Phase.lineStart.run (some (maxDepth - depth)) {} tokens ∧
    ∀ front statements p count, front <+: tokens →
      Phase.Counts .lineStart depth front statements p count →
      count ≤ maxDepth ∧ (p.finish? ≠ none → count = depth) ∧
      ∀ group done q behind, p.IsGroup (group.map Token.kind) →
        Phase.Counts p count group done q behind → behind = count := by
  intro c openings
  have hparse : c.parse = Phase.cutOff (maxDepth - depth) openings
      (Phase.lineStart.run none {} tokens) :=
    c.parse_eq.trans (Phase.run_some (Nat.zero_le _) {} tokens)
  refine ⟨Cursor.movesTo_of_le tokens h, fun hall => ?_, fun before opening after hsplit hbefore
    hdeep => ?_, c.parse_eq,
    fun front statements p count _ hcounts => ?_⟩
  · rw [hparse, Phase.cutOff_of_forall_le hall]
  · rw [hparse, hsplit, Phase.cutOff_of_first hbefore hdeep]
  · obtain ⟨rfl, hcount⟩ := Phase.Counts.depth_eq hcounts h
    refine ⟨hcount, fun hfinish => ?_, fun group done q behind hgroup hbehind => ?_⟩
    · rw [Phase.groups_eq_zero_of_finish? hfinish, Nat.add_zero]
    · exact hgroup.depth_eq hbehind hcount

/-- `lw ((8))($2)` opens two groups, since the parenthesis in front of the base register opens none.
They have room at depth 254, and the depth is the same behind them; at depth 255 the second one is
refused. -/
theorem parse_of_depth_of_two_groups :
    let group : List Token := [⟨.openParen, ⟨1, 4⟩⟩, ⟨.openParen, ⟨1, 5⟩⟩,
      ⟨.number .decimal (.integer 8), ⟨1, 6⟩⟩, ⟨.closeParen, ⟨1, 7⟩⟩, ⟨.closeParen, ⟨1, 8⟩⟩]
    let tokens : List Token := ⟨.identifier "lw", ⟨1, 1⟩⟩ :: (group ++ [⟨.openParen, ⟨1, 9⟩⟩,
      ⟨.register "$2", ⟨1, 10⟩⟩, ⟨.closeParen, ⟨1, 12⟩⟩, ⟨.lineEnd, ⟨1, 13⟩⟩])
    let p : Phase := .named "lw" ⟨1, 1⟩
    (254 ≤ maxDepth ∧ 255 ≤ maxDepth) ∧
    Phase.lineStart.openings 0 tokens =
      [⟨⟨.openParen, ⟨1, 4⟩⟩, 1⟩, ⟨⟨.openParen, ⟨1, 5⟩⟩, 2⟩] ∧
    ({ unread := tokens, depth := 254 } : Cursor).parse = Phase.lineStart.run none {} tokens ∧
    ({ unread := tokens, depth := 255 } : Cursor).parse =
      .error (.unexpectedToken "shallower expression" .openParen ⟨1, 5⟩) ∧
    p.IsGroup (group.map Token.kind) ∧
    ∃ q behind, Phase.Counts p 254 group [] q behind ∧ behind = 254 := by
  intro group tokens p
  have hopenings : Phase.lineStart.openings 0 tokens =
      [⟨⟨.openParen, ⟨1, 4⟩⟩, 1⟩, ⟨⟨.openParen, ⟨1, 5⟩⟩, 2⟩] :=
    rfl
  have hinner : Grammar.Expression none .value 1
      (.openParen :: ([.number .decimal (.integer 8)] ++ [.closeParen])) _ :=
    .group rfl (.product (.value (.number .decimal (.integer 8))))
  have hgroup : p.IsGroup
      (.openParen :: ([.openParen, .number .decimal (.integer 8), .closeParen] ++ [.closeParen])) :=
    .sum rfl (.product (.value hinner))
  have hfront : Phase.Counts .lineStart 254 [⟨.identifier "lw", ⟨1, 1⟩⟩] [] p 254 :=
    .silent rfl (.refl p 254)
  have hinside : Phase.Counts p 254 group []
      (.afterValue (.operand "lw" []) {} [] (.number .decimal (.integer 8))) 254 :=
    .silent rfl (.silent rfl (.silent rfl (.silent rfl (.silent rfl (.refl _ 254)))))
  obtain ⟨-, hroom, -, -, hcounts⟩ := parse_of_depth tokens 254 (by decide)
  obtain ⟨-, -, hdeep, -⟩ := parse_of_depth tokens 255 (by decide)
  obtain ⟨-, -, hback⟩ := hcounts _ _ _ _ (List.prefix_append _ _) hfront
  refine ⟨by decide, hopenings, hroom ?_,
    hdeep [⟨⟨.openParen, ⟨1, 4⟩⟩, 1⟩] _ [] hopenings ?_ (by decide), hgroup,
    _, _, hinside, hback group _ _ _ hgroup hinside⟩
  · rw [hopenings]
    decide
  · decide

end MipsAssembly
