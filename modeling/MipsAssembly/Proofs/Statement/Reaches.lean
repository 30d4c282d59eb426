import MipsAssembly.Proofs.Except
import MipsAssembly.Statement.Phase

/-!
# Runs over rows of tokens

A run reads tokens phase by phase, where no more groups may be open at once than a limit tells.
`Phase.Reaches` relates a phase, the tokens that are read from there on, the statements that
they complete and the phase they lead to.  A run over tokens is cut into such parts: what
follows a row of tokens is read from the phase that the row leads to, and a run that fails
does so at one token or at the end.

## Main definitions

- `Phase.run` — the statements of a list of tokens.
- `Phase.lastPosition` — the position of the last token read.
- `Phase.Reaches` — the effect of a row of tokens.
-/

namespace MipsAssembly

namespace Phase

/-- The statements of a list of tokens, from a phase on, with a limit for the groups that are open
at once.  The position is that of the last token before them. -/
def run (limit : Option Nat) : Phase → Position → List Token →
    Except SyntaxError (List Statement)
  | phase, last, [] =>
    match phase.finish? with
    | some statements => .ok statements
    | none => .error (.unexpectedEnd phase.expected last)
  | phase, _, token :: tokens =>
    match phase.next limit token with
    | .error e => .error e
    | .ok (phase, statements) => (run limit phase token.position tokens).map (statements ++ ·)

/-- The position of the last of some tokens, or the one given if there are none. -/
def lastPosition (last : Position) : List Token → Position
  | [] => last
  | token :: tokens => lastPosition token.position tokens

theorem exists_getLast?_lastPosition (last : Position) {tokens : List Token}
    (h : tokens ≠ []) :
    ∃ token, tokens.getLast? = some token ∧ lastPosition last tokens = token.position := by
  induction tokens generalizing last with
  | nil => exact absurd rfl h
  | cons token tokens ih =>
    cases tokens with
    | nil => exact ⟨token, rfl, rfl⟩
    | cons next rest =>
      obtain ⟨found, hfound, hlast⟩ := ih token.position (List.cons_ne_nil next rest)
      exact ⟨found, by rw [List.getLast?_cons_cons, hfound], hlast⟩

/-- `p.Reaches limit tokens statements q`: the tokens lead from the phase `p` to the phase `q`
and complete the statements on the way. -/
inductive Reaches (limit : Option Nat) :
    Phase → List Token → List Statement → Phase → Prop where
  | refl (p : Phase) : Reaches limit p [] [] p
  | step {p q r : Phase} {token : Token} {tokens : List Token}
      {done statements : List Statement} :
    p.next limit token = .ok (q, done) → Reaches limit q tokens statements r →
    Reaches limit p (token :: tokens) (done ++ statements) r

variable {limit : Option Nat} {p q r : Phase} {tokens more : List Token}
  {statements others : List Statement}

theorem Reaches.single {token : Token} (h : p.next limit token = .ok (q, statements)) :
    Reaches limit p [token] statements q := by
  have hs := Reaches.step h (.refl q)
  rwa [List.append_nil] at hs

theorem Reaches.trans (h : Reaches limit p tokens statements q)
    (h' : Reaches limit q more others r) :
    Reaches limit p (tokens ++ more) (statements ++ others) r := by
  induction h with
  | refl p => exact h'
  | step hstep _ ih =>
    rw [List.append_assoc]
    exact .step hstep (ih h')

/-- A row of tokens leads to one phase only. -/
theorem Reaches.unique (h : Reaches limit p tokens statements q)
    (h' : Reaches limit p tokens others r) : statements = others ∧ q = r := by
  induction h generalizing others with
  | refl p =>
    cases h'
    exact ⟨rfl, rfl⟩
  | step hstep _ ih =>
    cases h' with
    | step hstep' hrest' =>
      rw [hstep] at hstep'
      cases hstep'
      obtain ⟨rfl, rfl⟩ := ih hrest'
      exact ⟨rfl, rfl⟩

/-- What follows a row of tokens is read from the phase that the row leads to. -/
theorem Reaches.run_append (h : Reaches limit p tokens statements q) (last : Position)
    (rest : List Token) :
    p.run limit last (tokens ++ rest) =
      (q.run limit (lastPosition last tokens) rest).map (statements ++ ·) := by
  induction h generalizing last with
  | refl p =>
    simp only [List.nil_append, lastPosition]
    exact (map_nil_append _).symm
  | @step p q r token tokens done statements hstep _ ih =>
    simp only [List.cons_append, run, hstep, ih, lastPosition]
    exact map_append_append done statements _

/-- A run that fails reads some tokens and then either refuses the next one or stops at the
end of the tokens, where something is missing. -/
theorem eq_error_of_run {e : SyntaxError} {last : Position} {tokens : List Token}
    (h : p.run limit last tokens = .error e) :
    (∃ before token rest statements q, tokens = before ++ token :: rest ∧
      Reaches limit p before statements q ∧ q.next limit token = .error e) ∨
    (∃ statements q, Reaches limit p tokens statements q ∧ q.finish? = none ∧
      e = .unexpectedEnd q.expected (lastPosition last tokens)) := by
  induction tokens generalizing p last with
  | nil =>
    simp only [run] at h
    split at h
    · cases h
    · next hfinish => exact .inr ⟨[], p, .refl p, hfinish, (Except.error.inj h).symm⟩
  | cons token tokens ih =>
    simp only [run] at h
    split at h
    · next e' hstep =>
      cases h
      exact .inl ⟨[], token, tokens, [], p, rfl, .refl p, hstep⟩
    · next q done hstep =>
      have hq : q.run limit token.position tokens = .error e := eq_error_of_map_eq_error h
      rcases ih hq with ⟨before, next, rest, statements, r, rfl, hreach, hnext⟩ | hend
      · exact .inl ⟨token :: before, next, rest, done ++ statements, r, rfl,
          .step hstep hreach, hnext⟩
      · obtain ⟨statements, r, hreach, hfinish, rfl⟩ := hend
        exact .inr ⟨done ++ statements, r, .step hstep hreach, hfinish, rfl⟩

end Phase

end MipsAssembly
