import MipsAssembly.Proofs.Statement.Reaches

/-!
# Groups that are nested too deeply

A parenthesis in the place of an operand or of a value opens a group, and its counterpart closes
it.  Counted from token to token, so many groups are open as the phase tells.  A limit is looked at
only where a group is opened, so it refuses the first one that is nested too deeply, and without
such a group it changes nothing.

## Main definitions

- `Phase.groups` — how many groups are open in a phase.
- `Phase.next_of_opensGroup`, `Phase.next_of_closesGroup` — tokens that open and close groups.
- `Phase.groups_eq_countAfter` — groups are counted from token to token.
- `Phase.openings` — the groups that are opened where nothing limits them.
- `Phase.run_some` — what a limit changes.
-/

namespace MipsAssembly

namespace Phase

/-! ## Groups -/

/-- How many groups are open in a phase. -/
def groups : Phase → Nat
  | groupOrBase _ _ | indirectBase _ _ _ => 1
  | beforeValue _ _ outer | afterSign _ _ outer | afterValue _ _ outer _ => outer.length
  | _ => 0

variable {limit limit' : Option Nat} {p q : Phase} {token : Token} {done : List Statement}

/-- A token that opens no group is read in the same way whatever the limit. -/
theorem next_of_not_opensGroup (h : p.opensGroup token.kind = false) :
    p.next limit token = p.next limit' token := by
  obtain ⟨kind, position⟩ := token
  cases p <;> cases kind <;> first | rfl | cases h

theorem map_openGroup (limit : Option Nat) (groups : Nat) (position : Position) (q : Phase) :
    (openGroup limit groups ⟨.openParen, position⟩ q).map (·, ([] : List Statement)) =
      if limit.all (groups < ·) then .ok (q, [])
      else .error (.unexpectedToken "shallower expression" .openParen position) := by
  unfold openGroup
  split <;> rfl

/-- A token that opens a group is a parenthesis, and it is refused where the limit is reached. -/
theorem next_of_opensGroup (h : p.opensGroup token.kind = true) :
    token.kind = .openParen ∧ ∃ q : Phase, q.groups = p.groups + 1 ∧ ∀ limit : Option Nat,
      p.next limit token = if limit.all (p.groups < ·) then .ok (q, [])
        else .error (.unexpectedToken "shallower expression" .openParen token.position) := by
  obtain ⟨kind, position⟩ := token
  cases kind
  case openParen =>
    refine ⟨rfl, ?_⟩
    cases p with
    | named name start => exact ⟨groupOrBase name [], rfl, fun limit => map_openGroup limit 0 _ _⟩
    | beforeOperand opcode before =>
      exact ⟨groupOrBase opcode before, rfl, fun limit => map_openGroup limit 0 _ _⟩
    | groupOrBase opcode before =>
      exact ⟨beforeValue (.operand opcode before) {} [{}, {}], rfl,
        fun limit => map_openGroup limit 1 _ _⟩
    | beforeValue purpose inner outer =>
      exact ⟨beforeValue purpose {} (inner :: outer), rfl,
        fun limit => map_openGroup limit outer.length _ _⟩
    | _ => cases h
  all_goals cases p <;> cases h

/-- A token that closes a group does so whatever the limit. -/
theorem next_of_closesGroup (h : p.closesGroup token.kind = true) :
    ∃ q : Phase, q.groups + 1 = p.groups ∧
      ∀ limit : Option Nat, p.next limit token = .ok (q, []) := by
  obtain ⟨kind, position⟩ := token
  cases kind
  case closeParen =>
    cases p with
    | indirectBase opcode before base =>
      exact ⟨afterOperand opcode before (.indirect base), rfl, fun _ => rfl⟩
    | afterValue purpose inner outer value =>
      cases outer with
      | nil => cases h
      | cons level levels =>
        exact ⟨afterValue purpose level levels (inner.sumOf value), rfl, fun _ => rfl⟩
    | _ => cases h
  all_goals cases p <;> cases h

theorem groups_eq_zero_of_finish? (h : p.finish? ≠ none) : p.groups = 0 := by
  cases p with
  | afterValue purpose inner outer value =>
    cases outer with
    | nil => rfl
    | cons level levels => exact absurd rfl h
  | lineStart | afterLabel | named | complete | afterOperand => rfl
  | _ => exact absurd rfl h

theorem groups_startDirective {name : String} {position : Position}
    (h : startDirective name position = .ok (q, done)) : q.groups = 0 := by
  unfold startDirective at h
  split at h
  · cases h
    rfl
  · split at h
    · cases h
    · split at h <;> cases h <;> rfl

theorem groups_startValue {purpose : Purpose} {inner : Pending} {outer : List Pending}
    (hopen : token.kind ≠ .openParen) (h : startValue limit purpose inner outer token = .ok q) :
    q.groups = outer.length := by
  unfold startValue at h
  split at h
  case h_4 hkind => exact absurd hkind hopen
  all_goals
    cases h
    try rfl

theorem groups_startOperand {opcode : String} {before : List Operand}
    (hopen : token.kind ≠ .openParen) (h : startOperand limit opcode before token = .ok q) :
    q.groups = 0 := by
  unfold startOperand at h
  split at h
  · cases h
    rfl
  · next hkind => exact absurd hkind hopen
  · exact groups_startValue hopen h

theorem groups_continueSum {purpose : Purpose} {inner : Pending} {outer : List Pending}
    {value : Operand}
    (hclose : (afterValue purpose inner outer value).closesGroup token.kind = false)
    (h : continueSum purpose inner outer value token = .ok q) : q.groups = outer.length := by
  unfold continueSum at h
  split at h
  · cases h
    rfl
  · split at h
    · next hkind =>
      rw [hkind] at hclose
      cases hclose
    · cases h
  · split at h
    · cases h
      rfl
    · cases h
      rfl
    · cases h
      rfl
    · cases h

/-- All other tokens leave as many groups open as there are. -/
theorem groups_next (hopen : p.opensGroup token.kind = false)
    (hclose : p.closesGroup token.kind = false) (h : p.next limit token = .ok (q, done)) :
    q.groups = p.groups := by
  have hparen (hopens : p.opensGroup .openParen = true) : token.kind ≠ .openParen := by
    intro hkind
    rw [hkind, hopens] at hopen
    cases hopen
  unfold next at h
  split at h
  · split at h
    · next hfinish =>
      cases h
      exact (groups_eq_zero_of_finish? (by rw [hfinish]; exact Option.some_ne_none _)).symm
    · cases h
  · unfold within at h
    split at h
    case h_3 | h_4 => exact groups_startDirective h
    case h_6 | h_8 =>
      obtain ⟨q', hq, hpair⟩ := exists_of_map_eq_ok h
      cases hpair
      exact groups_startOperand (hparen rfl) hq
    case h_10 | h_12 =>
      obtain ⟨q', hq, hpair⟩ := exists_of_map_eq_ok h
      cases hpair
      exact groups_startValue (hparen rfl) hq
    case h_11 hkind =>
      rw [hkind] at hclose
      cases hclose
    case h_14 =>
      obtain ⟨q', hq, hpair⟩ := exists_of_map_eq_ok h
      cases hpair
      exact groups_continueSum hclose hq
    all_goals
      cases h
      try rfl

/-- The number of open groups behind a token, given that in front of it. -/
def countAfter (p : Phase) (kind : TokenKind) (count : Nat) : Nat :=
  if p.opensGroup kind then count + 1
  else if p.closesGroup kind then count - 1
  else count

/-- The groups that are open in phases are counted from token to token. -/
theorem groups_eq_countAfter (h : p.next limit token = .ok (q, done)) :
    q.groups = p.countAfter token.kind p.groups := by
  unfold countAfter
  split
  · next hopen =>
    obtain ⟨-, r, hr, hnext⟩ := next_of_opensGroup hopen
    rw [hnext] at h
    split at h
    · cases h
      exact hr
    · cases h
  · next hopen =>
    split
    · next hclose =>
      obtain ⟨r, hr, hnext⟩ := next_of_closesGroup hclose
      rw [hnext] at h
      cases h
      omega
    · next hclose => exact groups_next (by simpa using hopen) (by simpa using hclose) h

/-- A parenthesis that opens a group, and how many groups are open behind it. -/
structure Opening where
  parenthesis : Token
  nesting : Nat

/-- The groups that are opened where nothing limits them, from a phase on in which `count` groups
are open. -/
def openings (p : Phase) (count : Nat) : List Token → List Opening
  | [] => []
  | token :: tokens =>
    match p.next none token with
    | .error _ => []
    | .ok (q, _) =>
      let behind := q.openings (p.countAfter token.kind count) tokens
      if p.opensGroup token.kind then ⟨token, count + 1⟩ :: behind else behind

/-- What reading gives with a limit, given the groups that are opened without one: if one of them
is nested too deeply, the first one that is so is refused. -/
def cutOff {α : Type} (limit : Nat) (openings : List Opening) (result : Except SyntaxError α) :
    Except SyntaxError α :=
  match openings.find? (limit < ·.nesting) with
  | some opening =>
    .error (.unexpectedToken "shallower expression" .openParen opening.parenthesis.position)
  | none => result

section cutOff

variable {α : Type} {bound : Nat} {opening : Opening} {openings : List Opening}
  {result : Except SyntaxError α}

theorem cutOff_cons_of_le (h : opening.nesting ≤ bound) :
    cutOff bound (opening :: openings) result = cutOff bound openings result := by
  have hnot : ¬bound < opening.nesting := Nat.not_lt.mpr h
  simp [cutOff, hnot]

theorem cutOff_cons_of_lt (h : bound < opening.nesting) :
    cutOff bound (opening :: openings) result = .error (.unexpectedToken "shallower expression"
      .openParen opening.parenthesis.position) := by
  simp [cutOff, h]

theorem cutOff_of_forall_le (h : ∀ opening ∈ openings, opening.nesting ≤ bound) :
    cutOff bound openings result = result := by
  have hnone : openings.find? (bound < ·.nesting) = none :=
    List.find?_eq_none.mpr fun opening hmem => by simpa using h opening hmem
  rw [cutOff, hnone]

theorem cutOff_of_first {before after : List Opening}
    (hbefore : ∀ earlier ∈ before, earlier.nesting ≤ bound) (h : bound < opening.nesting) :
    cutOff bound (before ++ opening :: after) result = .error (.unexpectedToken
      "shallower expression" .openParen opening.parenthesis.position) := by
  induction before with
  | nil => exact cutOff_cons_of_lt h
  | cons first before ih =>
    obtain ⟨hfirst, hbefore⟩ := List.forall_mem_cons.mp hbefore
    rw [List.cons_append, cutOff_cons_of_le hfirst, ih hbefore]

theorem map_cutOff {β : Type} (f : α → β) :
    (cutOff bound openings result).map f = cutOff bound openings (result.map f) := by
  unfold cutOff
  split <;> rfl

end cutOff

/-- A limit cuts off what is nested deeper, and changes nothing else. -/
theorem run_some {bound : Nat} (hgroups : p.groups ≤ bound) (last : Position)
    (tokens : List Token) :
    p.run (some bound) last tokens =
      cutOff bound (p.openings p.groups tokens) (p.run none last tokens) := by
  induction tokens generalizing p last with
  | nil => rfl
  | cons token tokens ih =>
    by_cases hopen : p.opensGroup token.kind = true
    · obtain ⟨-, q, hq, hnext⟩ := next_of_opensGroup hopen
      have hfree : p.next none token = .ok (q, []) := hnext none
      have hcount : p.countAfter token.kind p.groups = q.groups :=
        (groups_eq_countAfter hfree).symm
      simp only [run, openings, hfree, hcount, if_pos hopen]
      by_cases hroom : p.groups < bound
      · have hstep : p.next (some bound) token = .ok (q, []) := by
          rw [hnext, if_pos (by simpa using hroom)]
        have hrest := ih (p := q) (by omega) token.position
        rw [cutOff_cons_of_le hroom, hstep]
        dsimp only
        rw [hrest, map_cutOff]
      · have hstep : p.next (some bound) token = .error (.unexpectedToken "shallower expression"
            .openParen token.position) := by
          rw [hnext, if_neg (by simpa using hroom)]
        rw [cutOff_cons_of_lt (Nat.lt_succ_of_le (Nat.not_lt.mp hroom)), hstep]
    · have hkept : p.opensGroup token.kind = false := by simpa using hopen
      have hsame : p.next (some bound) token = p.next none token := next_of_not_opensGroup hkept
      cases hfree : p.next none token with
      | error e =>
        simp only [run, openings, hsame, hfree]
        rfl
      | ok effect =>
        obtain ⟨q, done⟩ := effect
        have hcount : p.countAfter token.kind p.groups = q.groups :=
          (groups_eq_countAfter hfree).symm
        have hq : q.groups ≤ bound := by
          rw [← hcount, countAfter, if_neg hopen]
          split <;> omega
        simp only [run, openings, hsame, hfree, hcount, if_neg hopen]
        rw [ih hq, map_cutOff]

end Phase

end MipsAssembly
