import MipsAssembly.Statement.Cursor.Call

/-!
# Cursors lose no token

Whatever is asked of a cursor, the tokens that it hands out are those of its list, in order, and
the others are still unread.  Only a call that takes a token moves it on.  Its depth stays within
the limit, and what it blames is the next token, or the end of the input at the position of the
last token taken.

## Main definitions

- `Cursor.Effect` — what a call can do.
- `Cursor.Behind` — a cursor stands behind the tokens that were taken.
- `Cursor.Behind.call`, `Cursor.Behind.callAll` — one call keeps it there, and so do all.
- `calls_lose_no_token` — what holds behind any calls.
-/

namespace MipsAssembly

namespace Cursor

/-- The tokens that a call takes where they come next.  Most calls take none. -/
def Call.wants : Call → Token → Bool
  | next => fun _ => true
  | consume wanted | expect wanted _ => wanted
  | _ => fun _ => false

/-- What has to come next where a call is made, if the call can be refused. -/
def Call.expected? : Call → Option String
  | expect _ expected | unexpected expected => some expected
  | enter => some "shallower expression"
  | _ => none

/-- The token that was taken. -/
def Answer.token? : Answer → Option Token
  | taken token => token
  | expected (.ok token) => some token
  | _ => none

/-- The error that was made. -/
def Answer.error? : Answer → Option SyntaxError
  | expected (.error e) | blamed e | entered (.error e) => some e
  | _ => none

/-! ## One call -/

/-- `c.Effect call (answer, next)`: a call takes the next token if it wants it, and else changes
nothing, makes an error and changes nothing, or moves the depth. -/
inductive Effect (c : Cursor) : Call → Answer × Cursor → Prop where
  | take {call : Call} {answer : Answer} {token : Token} {rest : List Token} :
    call.wants token = true → answer.token? = some token → answer.error? = none →
    c.unread = token :: rest →
    Effect c call (answer, { c with unread := rest, last := token.position })
  | keep {call : Call} {answer : Answer} :
    c.unread.head?.filter call.wants = none → answer.token? = none → answer.error? = none →
    Effect c call (answer, c)
  | blame {call : Call} {answer : Answer} {expected : String} :
    c.unread.head?.filter call.wants = none → call.expected? = some expected →
    answer.token? = none → answer.error? = some (c.unexpected expected) →
    Effect c call (answer, c)
  | enter : c.depth < maxDepth →
    Effect c .enter (.entered (.ok ()), { c with depth := c.depth + 1 })
  | leave : Effect c .leave (.left, { c with depth := c.depth - 1 })

variable {tokens taken : List Token} {c : Cursor}

theorem next?_cases (c : Cursor) :
    (c.next? = (none, c) ∧ c.unread = []) ∨ ∃ token rest, c.unread = token :: rest ∧
      c.next? = (some token, { c with unread := rest, last := token.position }) := by
  obtain ⟨unread, last, depth⟩ := c
  cases unread with
  | nil => exact .inl ⟨rfl, rfl⟩
  | cons token rest => exact .inr ⟨token, rest, rfl, rfl⟩

/-- A token that is not wanted stays unread. -/
theorem consumeIf?_cases (wanted : Token → Bool) (c : Cursor) :
    (c.consumeIf? wanted = (none, c) ∧ c.unread.head?.filter wanted = none) ∨
      ∃ token rest, c.unread = token :: rest ∧ wanted token = true ∧
        c.consumeIf? wanted = (some token, { c with unread := rest, last := token.position }) := by
  obtain ⟨unread, last, depth⟩ := c
  cases unread with
  | nil => exact .inl ⟨rfl, rfl⟩
  | cons token rest =>
    by_cases hwanted : wanted token = true
    · exact .inr ⟨token, rest, rfl, hwanted, if_pos hwanted⟩
    · exact .inl ⟨if_neg hwanted, by simp [Option.filter, hwanted]⟩

theorem call_enter_of_lt (h : c.depth < maxDepth) :
    c.call .enter = (.entered (.ok ()), { c with depth := c.depth + 1 }) := by
  rw [call, enter, if_pos h]

theorem call_enter_of_le (h : maxDepth ≤ c.depth) :
    c.call .enter = (.entered (.error (c.unexpected "shallower expression")), c) := by
  rw [call, enter, if_neg (Nat.not_lt.mpr h)]

theorem filter_false (token : Option Token) : token.filter (fun _ => false) = none := by
  cases token <;> rfl

/-- Every call does one of these things. -/
theorem effect_call (c : Cursor) (call : Call) : c.Effect call (c.call call) := by
  cases call with
  | peek | check => exact .keep (filter_false _) rfl rfl
  | next =>
    rcases c.next?_cases with ⟨hnext, hunread⟩ | ⟨token, rest, hunread, hnext⟩
    · rw [Cursor.call, hnext]
      exact .keep (by rw [hunread]; rfl) rfl rfl
    · rw [Cursor.call, hnext]
      exact .take rfl rfl rfl hunread
  | consume wanted =>
    rcases c.consumeIf?_cases wanted with ⟨hconsume, hnone⟩ |
      ⟨token, rest, hunread, hwanted, hconsume⟩
    · rw [Cursor.call, hconsume]
      exact .keep hnone rfl rfl
    · rw [Cursor.call, hconsume]
      exact .take hwanted rfl rfl hunread
  | expect wanted expected =>
    rw [Cursor.call, expectIf]
    rcases c.consumeIf?_cases wanted with ⟨hconsume, hnone⟩ |
      ⟨token, rest, hunread, hwanted, hconsume⟩
    · rw [hconsume]
      exact .blame hnone rfl rfl rfl
    · rw [hconsume]
      exact .take hwanted rfl rfl hunread
  | unexpected expected => exact .blame (filter_false _) rfl rfl rfl
  | enter =>
    rcases Nat.lt_or_ge c.depth maxDepth with hlt | hle
    · rw [call_enter_of_lt hlt]
      exact .enter hlt
    · rw [call_enter_of_le hle]
      exact .blame (filter_false _) rfl rfl rfl
  | leave => exact .leave

namespace Effect

variable {call : Call} {answer : Answer} {next : Cursor} (h : c.Effect call (answer, next))

include h

/-- The next token is taken exactly if it is wanted. -/
theorem token?_eq : answer.token? = c.unread.head?.filter call.wants := by
  cases h with
  | take hwants htoken _ hunread =>
    rw [htoken, hunread, List.head?_cons, Option.filter_some, if_pos hwants]
  | keep hnone htoken _ | blame hnone _ htoken _ => rw [hnone, htoken]
  | enter | leave => exact (filter_false _).symm

/-- Without a token that is taken, the cursor stays where it is. -/
theorem kept (hkept : answer.token? = none) : next.unread = c.unread ∧ next.last = c.last := by
  cases h with
  | take _ htoken _ _ =>
    rw [htoken] at hkept
    cases hkept
  | keep | blame | enter | leave => exact ⟨rfl, rfl⟩

/-- An error tells what had to come next. -/
theorem error {e : SyntaxError} (he : answer.error? = some e) :
    ∃ expected, call.expected? = some expected ∧ e = c.unexpected expected := by
  cases h with
  | take _ _ herror _ | keep _ _ herror =>
    rw [herror] at he
    cases he
  | blame _ hexpected _ herror =>
    rw [herror] at he
    exact ⟨_, hexpected, (Option.some.inj he).symm⟩
  | enter | leave => cases he

end Effect

/-! ## All calls -/

/-- A cursor stands behind the tokens that were taken, and its depth is within the limit. -/
structure Behind (tokens taken : List Token) (c : Cursor) : Prop where
  taken_append_unread : taken ++ c.unread = tokens
  last : c.last = (taken.getLast?.map Token.position).getD ⟨0, 0⟩
  depth_le : c.depth ≤ maxDepth

theorem behind_ofTokens (tokens : List Token) : Behind tokens [] (ofTokens tokens) :=
  ⟨rfl, rfl, Nat.zero_le _⟩

namespace Behind

variable (h : Behind tokens taken c)

include h

/-- A call moves a cursor behind the token that it takes, if it takes one. -/
theorem call (call : Call) :
    Behind tokens (taken ++ (c.call call).1.token?.toList) (c.call call).2 := by
  cases hcall : c.call call with
  | mk answer next =>
    have heffect := c.effect_call call
    rw [hcall] at heffect
    cases heffect with
    | take _ htoken _ hunread =>
      have htokens := h.taken_append_unread
      rw [hunread, List.append_cons] at htokens
      rw [htoken]
      exact ⟨htokens, by simp, h.depth_le⟩
    | keep _ htoken _ | blame _ _ htoken _ =>
      rw [htoken, Option.toList_none, List.append_nil]
      exact h
    | enter hlt =>
      have hnone : (Answer.entered (.ok ())).token? = none := rfl
      rw [hnone, Option.toList_none, List.append_nil]
      exact ⟨h.taken_append_unread, h.last, hlt⟩
    | leave =>
      have hnone : Answer.left.token? = none := rfl
      rw [hnone, Option.toList_none, List.append_nil]
      exact ⟨h.taken_append_unread, h.last, Nat.le_trans (Nat.sub_le _ _) h.depth_le⟩

theorem callAll (calls : List Call) :
    Behind tokens (taken ++ (c.callAll calls).1.filterMap Answer.token?) (c.callAll calls).2 := by
  induction calls generalizing taken c with
  | nil => simpa [Cursor.callAll] using h
  | cons call calls ih =>
    have hrest := ih (h.call call)
    have htoken : (taken ++ (c.call call).1.token?.toList) ++
        ((c.call call).2.callAll calls).1.filterMap Answer.token? =
        taken ++ (c.callAll (call :: calls)).1.filterMap Answer.token? := by
      rw [Cursor.callAll, List.append_assoc, List.filterMap_cons]
      cases (c.call call).1.token? <;> rfl
    rwa [htoken] at hrest

/-- An error names the next token, or the end of the input at the last token taken. -/
theorem unexpected_eq (expected : String) : c.unexpected expected =
    match c.unread with
    | token :: _ => .unexpectedToken expected token.kind token.position
    | [] => .unexpectedEnd expected ((taken.getLast?.map Token.position).getD ⟨0, 0⟩) := by
  rw [unexpected, h.last]
  cases c.unread <;> rfl

end Behind

theorem callAll_cons (c : Cursor) (call : Call) (calls : List Call) :
    c.callAll (call :: calls) =
      ((c.call call).1 :: ((c.call call).2.callAll calls).1, ((c.call call).2.callAll calls).2) :=
  rfl

/-- The last call is made to the cursor behind the others. -/
theorem callAll_concat (c : Cursor) (calls : List Call) (call : Call) :
    c.callAll (calls ++ [call]) =
      ((c.callAll calls).1 ++ [((c.callAll calls).2.call call).1],
        ((c.callAll calls).2.call call).2) := by
  induction calls generalizing c with
  | nil => rfl
  | cons first calls ih =>
    rw [List.cons_append, callAll_cons, ih, callAll_cons]
    rfl

end Cursor

/-- Behind any calls, the tokens that were taken, followed by those that are unread, are the list of
all tokens, and the depth is within the limit.

The next call takes the next token if it wants it, which peeking, checking, making errors, entering
and leaving never do, and else it leaves the unread tokens and the last position alone.  Entering
fails exactly at the limit and then changes nothing, and leaving stops at zero.  An error that is
made names the next unread token, or the end of the input at the last token that was taken. -/
theorem calls_lose_no_token (tokens : List Token) (calls : List Cursor.Call) :
    let answers := ((Cursor.ofTokens tokens).callAll calls).1
    let c := ((Cursor.ofTokens tokens).callAll calls).2
    let taken := answers.filterMap Cursor.Answer.token?
    taken ++ c.unread = tokens ∧ c.depth ≤ maxDepth ∧
    ∀ call : Cursor.Call,
      let answer := (c.call call).1
      let next := (c.call call).2
      (Cursor.ofTokens tokens).callAll (calls ++ [call]) = (answers ++ [answer], next) ∧
      answer.token? = c.unread.head?.filter call.wants ∧
      (answer.token? = none → next.unread = c.unread ∧ next.last = c.last) ∧
      (call = .enter → ((∃ e, answer = .entered (.error e)) ↔ c.depth = maxDepth) ∧
        next = if c.depth = maxDepth then c else { c with depth := c.depth + 1 }) ∧
      (call = .leave → next = { c with depth := c.depth - 1 }) ∧
      ∀ e, answer.error? = some e → ∃ expected, call.expected? = some expected ∧ e =
        match c.unread with
        | token :: _ => .unexpectedToken expected token.kind token.position
        | [] => .unexpectedEnd expected ((taken.getLast?.map Token.position).getD ⟨0, 0⟩) := by
  intro answers c taken
  have h : Cursor.Behind tokens taken c := (Cursor.behind_ofTokens tokens).callAll calls
  refine ⟨h.taken_append_unread, h.depth_le, fun call => ?_⟩
  intro answer next
  have heffect : c.Effect call (answer, next) := c.effect_call call
  refine ⟨Cursor.callAll_concat _ calls call, heffect.token?_eq, heffect.kept, ?_, ?_,
    fun e he => ?_⟩
  · rintro rfl
    rcases Nat.lt_or_ge c.depth maxDepth with hlt | hle
    · have hcall := Cursor.call_enter_of_lt hlt
      have hne : c.depth ≠ maxDepth := Nat.ne_of_lt hlt
      simp [answer, next, hcall, hne]
    · have hcall := Cursor.call_enter_of_le hle
      have hlimit : c.depth = maxDepth := Nat.le_antisymm h.depth_le hle
      simp [answer, next, hcall, hlimit]
  · rintro rfl
    rfl
  · obtain ⟨expected, hexpected, rfl⟩ := heffect.error he
    exact ⟨expected, hexpected, h.unexpected_eq expected⟩

/-- A colon is taken, a second one is not found and changes nothing, and behind the comma, too, the
error has the position of the last token. -/
theorem calls_lose_no_token_of_missing_colon :
    let tokens : List Token := [⟨.colon, ⟨1, 1⟩⟩, ⟨.comma, ⟨1, 2⟩⟩]
    let isColon (token : Token) : Bool := token.kind = .colon
    let calls : List Cursor.Call :=
      [.peek, .expect isColon "a colon", .consume isColon, .leave, .enter, .next]
    let answers := ((Cursor.ofTokens tokens).callAll calls).1
    let c := ((Cursor.ofTokens tokens).callAll calls).2
    let missing := c.call (.expect isColon "a colon")
    answers.filterMap Cursor.Answer.token? = tokens ∧
      answers.filterMap Cursor.Answer.token? ++ c.unread = tokens ∧
      c.depth = 1 ∧ c.depth ≤ maxDepth ∧
      missing.1.token? = none ∧ missing.2.unread = c.unread ∧ missing.2.last = c.last ∧
      missing.1.error? = some (.unexpectedEnd "a colon" ⟨1, 2⟩) ∧
      (c.call .enter).2 = { c with depth := 2 } ∧ (c.call .leave).2 = { c with depth := 0 } := by
  intro tokens isColon calls answers c missing
  obtain ⟨hsplit, hdepth, hcalls⟩ := calls_lose_no_token tokens calls
  obtain ⟨-, -, hkept, -, -, herror⟩ := hcalls (.expect isColon "a colon")
  obtain ⟨hunread, hlast⟩ := hkept rfl
  obtain ⟨expected, hexpected, heq⟩ := herror _ rfl
  obtain rfl := Option.some.inj hexpected
  have henter := ((hcalls .enter).2.2.2.1 rfl).2
  have hleave := (hcalls .leave).2.2.2.2.1 rfl
  exact ⟨rfl, hsplit, rfl, hdepth, rfl, hunread, hlast, congrArg some heq, henter, hleave⟩

end MipsAssembly
