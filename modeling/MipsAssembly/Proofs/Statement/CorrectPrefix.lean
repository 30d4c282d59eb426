import MipsAssembly.Proofs.Statement.Counter

/-!
# Errors at the first hopeless token

Every phase can be completed: a few tokens close the groups that are open and give the line
what it still lacks.  So the tokens that have been read without an error are the start of a
row that is accepted, and a syntax error stands at the first token behind which no row is.

## Main definitions

- `TokenKind.Negatable` — numerals whose opposite fits 64 bits as well.
- `Completable` — rows of tokens that some accepted row starts with.
- `SyntaxError.Blames` — the token that an error names.
- `SyntaxError.Rejects` — the errors that a token is refused with.
-/

namespace MipsAssembly

/-- The integers of a numeral and its opposite fit 64 bits with a sign. -/
def TokenKind.Negatable : TokenKind → Prop
  | .number _ (.integer value) => fits64 value ∧ fits64 (-value)
  | _ => True

/-- Some row that starts with these tokens is accepted, where the tokens behind them hold no
numeral that cannot be negated. -/
def Completable (tokens : List Token) : Prop :=
  ∃ rest statements, (∀ token ∈ rest, token.kind.Negatable) ∧
    parseStatements (tokens ++ rest) = .ok statements

/-- An error names this token: what was found there, or the directive, and its position. -/
def SyntaxError.Blames : SyntaxError → Token → Prop
  | unexpectedToken _ found position, token => found = token.kind ∧ position = token.position
  | unknownDirective name position, token =>
    token.kind = .directive name ∧ position = token.position
  | unexpectedEnd _ _, _ => False

/-- An error that names a token stands there. -/
theorem SyntaxError.Blames.position_eq {e : SyntaxError} {token : Token} (h : e.Blames token) :
    e.position = token.position := by
  cases e with
  | unexpectedToken | unknownDirective => exact h.2
  | unexpectedEnd => cases h

namespace Phase

variable {limit : Option Nat}

/-- Some tokens lead from a phase to one in which the input may end. -/
def HasCompletion (limit : Option Nat) (p : Phase) : Prop :=
  ∃ tokens statements q, (∀ token ∈ tokens, token.kind.Negatable) ∧
    Reaches limit p tokens statements q ∧ q.finish? ≠ none

theorem hasCompletion_of_finish? {p : Phase} (h : p.finish? ≠ none) : p.HasCompletion limit :=
  ⟨[], [], p, by simp, .refl p, h⟩

/-- A phase can be completed if a token leads to one that can. -/
theorem HasCompletion.step {p q : Phase} {done : List Statement} (kind : TokenKind)
    (hkind : kind.Negatable) (h : q.HasCompletion limit)
    (hstep : p.next limit ⟨kind, {}⟩ = .ok (q, done)) : p.HasCompletion limit := by
  obtain ⟨tokens, statements, r, htokens, hreach, hfinish⟩ := h
  refine ⟨⟨kind, {}⟩ :: tokens, done ++ statements, r, ?_, .step hstep hreach, hfinish⟩
  intro token hmem
  rcases List.mem_cons.mp hmem with rfl | hmem
  · exact hkind
  · exact htokens token hmem

/-- Behind a value, the open groups are closed one by one. -/
theorem hasCompletion_afterValue (purpose : Purpose) (inner : Pending) (outer : List Pending)
    (value : Operand) : (afterValue purpose inner outer value).HasCompletion limit := by
  induction outer generalizing inner value with
  | nil => exact hasCompletion_of_finish? (Option.some_ne_none _)
  | cons level levels ih =>
    have hclose : (afterValue purpose inner (level :: levels) value).next limit
        ⟨.closeParen, {}⟩ = .ok (afterValue purpose level levels (inner.sumOf value), []) :=
      rfl
    exact (ih level (inner.sumOf value)).step .closeParen trivial hclose

/-- Every phase can be completed, whatever the limit: no token that is missing opens a
group. -/
theorem hasCompletion (p : Phase) : p.HasCompletion limit := by
  -- A zero stands in for a value that is missing, a register for an operand or a base.
  have hzero : (TokenKind.number .decimal (.integer 0)).Negatable := by
    simp [TokenKind.Negatable, fits64, integerBound]
  have hlast (opcode before operand) :
      (afterOperand opcode before operand).HasCompletion limit :=
    hasCompletion_of_finish? (Option.some_ne_none _)
  have hindexed (opcode before offset base) :
      (indexedBase opcode before offset base).HasCompletion limit :=
    (hlast opcode before (.indexed offset base)).step .closeParen trivial rfl
  cases p with
  | lineStart | afterLabel | named | complete =>
    exact hasCompletion_of_finish? (Option.some_ne_none _)
  | beforeText mode =>
    have hcomplete : complete.HasCompletion limit :=
      hasCompletion_of_finish? (Option.some_ne_none _)
    exact hcomplete.step (.text "") trivial rfl
  | beforeOperand opcode before =>
    exact (hlast opcode before (.ofRegister "$0")).step (.register "$0") trivial rfl
  | groupOrBase opcode before =>
    exact (hasCompletion_afterValue (.operand opcode before) {} [{}] _).step _ hzero rfl
  | indirectBase opcode before base =>
    exact (hlast opcode before (.indirect base)).step .closeParen trivial rfl
  | beforeValue purpose inner outer =>
    exact (hasCompletion_afterValue purpose inner outer _).step _ hzero rfl
  | afterSign purpose inner outer =>
    exact (hasCompletion_afterValue purpose inner outer _).step _ hzero rfl
  | afterValue purpose inner outer value =>
    exact hasCompletion_afterValue purpose inner outer value
  | beforeBase opcode before offset =>
    exact (hindexed opcode before offset (.ofRegister "$0")).step (.register "$0") trivial rfl
  | indexedBase opcode before offset base => exact hindexed opcode before offset base
  | afterOperand opcode before operand => exact hlast opcode before operand

/-- Tokens that are read without an error are the start of an accepted row. -/
theorem Reaches.completable {tokens : List Token} {statements : List Statement} {q : Phase}
    (h : Reaches (some maxDepth) lineStart tokens statements q) : Completable tokens := by
  obtain ⟨rest, more, r, hrest, hreach, hfinish⟩ : q.HasCompletion (some maxDepth) :=
    q.hasCompletion
  obtain ⟨completed, hcompleted⟩ := Option.ne_none_iff_exists'.mp hfinish
  have hrun := (h.trans hreach).run_append {} []
  rw [List.append_nil, run, hcompleted] at hrun
  exact ⟨rest, _, hrest, (parseStatements_eq_run _).trans hrun⟩

end Phase

/-! ## The token that is refused -/

/-- An error that a token is refused with: something else is expected in a phase, or a group less,
or there is no directive of that name. -/
inductive SyntaxError.Rejects : SyntaxError → Token → Prop where
  | refuse (p : Phase) (token : Token) :
    Rejects (.unexpectedToken p.expected token.kind token.position) token
  | openGroup (token : Token) :
    Rejects (.unexpectedToken "shallower expression" token.kind token.position) token
  | directive {name : String} {token : Token} :
    token.kind = .directive name → Rejects (.unknownDirective name token.position) token

theorem SyntaxError.Rejects.blames {e : SyntaxError} {token : Token} (h : e.Rejects token) :
    e.Blames token := by
  cases h with
  | refuse | openGroup => exact ⟨rfl, rfl⟩
  | directive hkind => exact ⟨hkind, rfl⟩

namespace Phase

variable {limit : Option Nat}

theorem rejects_refuse {α : Type} {p : Phase} {token : Token} {e : SyntaxError}
    (h : (refuse p token : Except SyntaxError α) = .error e) : e.Rejects token := by
  cases h
  exact .refuse p token

theorem rejects_openGroup {groups : Nat} {p : Phase} {token : Token} {e : SyntaxError}
    (h : openGroup limit groups token p = .error e) : e.Rejects token := by
  unfold openGroup at h
  split at h
  · cases h
  · cases h
    exact .openGroup token

theorem rejects_startValue {purpose : Purpose} {inner : Pending} {outer : List Pending}
    {token : Token} {e : SyntaxError}
    (h : startValue limit purpose inner outer token = .error e) : e.Rejects token := by
  unfold startValue at h
  split at h
  · cases h
  · cases h
  · cases h
  · exact rejects_openGroup h
  · exact rejects_refuse h

theorem rejects_startOperand {opcode : String} {before : List Operand} {token : Token}
    {e : SyntaxError} (h : startOperand limit opcode before token = .error e) :
    e.Rejects token := by
  unfold startOperand at h
  split at h
  · cases h
  · exact rejects_openGroup h
  · exact rejects_startValue h

theorem rejects_continueSum {purpose : Purpose} {inner : Pending} {outer : List Pending}
    {value : Operand} {token : Token} {e : SyntaxError}
    (h : continueSum purpose inner outer value token = .error e) : e.Rejects token := by
  unfold continueSum at h
  split at h
  · cases h
  · split at h
    · cases h
    · exact rejects_refuse h
  · split at h
    · cases h
    · cases h
    · cases h
    · exact rejects_refuse h

theorem rejects_startDirective {name : String} {token : Token} {e : SyntaxError}
    (hkind : token.kind = .directive name)
    (h : startDirective name token.position = .error e) : e.Rejects token := by
  unfold startDirective at h
  split at h
  · cases h
  · split at h
    · cases h
      exact .directive hkind
    · split at h <;> cases h

/-- A token that cannot be read is rejected. -/
theorem rejects_next {p : Phase} {token : Token} {e : SyntaxError}
    (h : p.next limit token = .error e) : e.Rejects token := by
  unfold next at h
  split at h
  · split at h
    · cases h
    · exact rejects_refuse h
  · unfold within at h
    split at h
    case h_3 hkind | h_4 hkind => exact rejects_startDirective hkind h
    case h_6 | h_8 => exact rejects_startOperand (eq_error_of_map_eq_error h)
    case h_10 | h_12 => exact rejects_startValue (eq_error_of_map_eq_error h)
    case h_14 => exact rejects_continueSum (eq_error_of_map_eq_error h)
    case h_18 => exact rejects_refuse h
    all_goals cases h

/-- A token that cannot be read is the one that the error names. -/
theorem blames_next {p : Phase} {token : Token} {e : SyntaxError}
    (h : p.next limit token = .error e) : e.Blames token :=
  (rejects_next h).blames

end Phase

/-- A syntax error stands at the first token behind which no accepted row is left.

Either it names a token: the tokens in front of it start an accepted row, and with the token
included every row is refused with this same error.  Or the input ends too early: then the
position is that of the last token, and the tokens start an accepted row. -/
theorem parseStatements_error_is_first_hopeless (tokens : List Token) (e : SyntaxError)
    (h : parseStatements tokens = .error e) :
    (∃ k token, tokens[k]? = some token ∧ e.Blames token ∧ Completable (tokens.take k) ∧
      ∀ rest, parseStatements (tokens.take (k + 1) ++ rest) = .error e) ∨
    (∃ expected token, e = .unexpectedEnd expected token.position ∧
      tokens.getLast? = some token ∧ Completable tokens) := by
  rw [parseStatements_eq_run] at h
  rcases Phase.eq_error_of_run h with
    ⟨before, token, rest, statements, q, rfl, hreach, hnext⟩ | ⟨statements, q, hreach, hq, rfl⟩
  · refine .inl ⟨before.length, token, by simp, Phase.blames_next hnext, ?_, ?_⟩
    · rw [List.take_left]
      exact hreach.completable
    · intro others
      have htake : (before ++ token :: rest).take (before.length + 1) = before ++ [token] := by
        rw [List.append_cons, List.take_left' (by simp)]
      -- Whatever follows, the run meets the token in the same phase as before.
      have hrun := hreach.run_append {} (token :: others)
      rw [Phase.run, hnext] at hrun
      rw [htake, List.append_assoc, parseStatements_eq_run]
      exact hrun
  · have hne : tokens ≠ [] := by
      rintro rfl
      cases hreach
      cases hq
    obtain ⟨token, hlast, hposition⟩ := Phase.exists_getLast?_lastPosition {} hne
    exact .inr ⟨q.expected, token, by rw [hposition], hlast, hreach.completable⟩

/-- In `add (1+$t1` the register is hopeless, whatever follows. -/
theorem register_in_group_is_hopeless :
    let tokens : List Token := [⟨.identifier "add", ⟨1, 1⟩⟩, ⟨.openParen, ⟨1, 5⟩⟩,
      ⟨.number .decimal (.integer 1), ⟨1, 6⟩⟩, ⟨.plus, ⟨1, 7⟩⟩, ⟨.register "$t1", ⟨1, 8⟩⟩]
    let e : SyntaxError :=
      .unexpectedToken "number, identifier or `(`" (.register "$t1") ⟨1, 8⟩
    parseStatements tokens = .error e ∧
    ((∃ k token, tokens[k]? = some token ∧ e.Blames token ∧ Completable (tokens.take k) ∧
      ∀ rest, parseStatements (tokens.take (k + 1) ++ rest) = .error e) ∨
    (∃ expected token, e = .unexpectedEnd expected token.position ∧
      tokens.getLast? = some token ∧ Completable tokens)) :=
  ⟨by rfl, parseStatements_error_is_first_hopeless _ _ (by rfl)⟩

end MipsAssembly
