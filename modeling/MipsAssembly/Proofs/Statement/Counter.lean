import MipsAssembly.Proofs.Statement.Nesting
import MipsAssembly.Statement.Cursor

/-!
# Reading with a depth counter

A cursor counts the groups that are open.  It enters one with each parenthesis that opens it, and
leaves it with the one that closes it, so its counter goes up and down with the groups of the phase,
and the groups that were open from the start come on top.  So reading from a cursor gives what a run
gives whose limit is lower by those.

## Main definitions

- `Cursor.step_eq` — the counter goes with the groups of the phase.
- `Cursor.readFrom_eq`, `Cursor.parse_eq` — reading with a counter is a run with a limit.
- `parseStatements_eq_run` — reading from the start.
-/

namespace MipsAssembly

namespace Cursor

variable {c : Cursor} {p : Phase} {base : Nat} {token : Token} {tokens : List Token}

theorem move_of_opensGroup (hopen : p.opensGroup token.kind = true)
    (hunread : c.unread = token :: tokens) :
    c.move p token.kind = if c.depth < maxDepth then .ok { c with depth := c.depth + 1 }
      else .error (.unexpectedToken "shallower expression" token.kind token.position) := by
  rw [move, if_pos hopen, enter, unexpected, hunread]
  rfl

theorem move_of_not_opensGroup (hopen : p.opensGroup token.kind = false)
    (hdepth : c.depth = base + p.groups) :
    c.move p token.kind = .ok { c with depth := base + p.countAfter token.kind p.groups } := by
  obtain ⟨unread, last, depth⟩ := c
  obtain rfl : depth = base + p.groups := hdepth
  rw [move, Phase.countAfter, hopen]
  by_cases hclose : p.closesGroup token.kind = true
  · obtain ⟨inside, hinside, -⟩ := Phase.next_of_closesGroup hclose
    have hleave : base + p.groups - 1 = base + (p.groups - 1) := by omega
    rw [hclose]
    exact congrArg (fun depth => Except.ok (⟨unread, last, depth⟩ : Cursor)) hleave
  · simp only [hclose]
    rfl

/-- The counter goes with the groups of the phase, and those that were open before come on top. -/
theorem step_eq (hunread : c.unread = token :: tokens) (hdepth : c.depth = base + p.groups) :
    c.step p token =
      (p.next (some (maxDepth - base)) token).map fun (q, done) => (q, base + q.groups, done) := by
  by_cases hopen : p.opensGroup token.kind = true
  · obtain ⟨hkind, q, hq, hnext⟩ := Phase.next_of_opensGroup hopen
    have hfree : p.next none token = .ok (q, []) := hnext none
    rw [step, move_of_opensGroup hopen hunread, hfree, hnext, hdepth]
    by_cases hroom : base + p.groups < maxDepth
    · have hlimit : (some (maxDepth - base)).all (p.groups < ·) = true := by
        simpa using Nat.lt_sub_iff_add_lt'.mpr hroom
      have hgroups : base + p.groups + 1 = base + q.groups := by omega
      rw [if_pos hroom, if_pos hlimit]
      exact congrArg (fun groups => Except.ok (q, groups, [])) hgroups
    · have hlimit : ¬(some (maxDepth - base)).all (p.groups < ·) = true := by
        simpa [Nat.add_comm] using Nat.le_of_not_lt hroom
      rw [if_neg hroom, if_neg hlimit, hkind]
      rfl
  · have hkept : p.opensGroup token.kind = false := by simpa using hopen
    have hsame : p.next (some (maxDepth - base)) token = p.next none token :=
      Phase.next_of_not_opensGroup hkept
    rw [step, move_of_not_opensGroup hkept hdepth, hsame]
    cases hfree : p.next none token with
    | error e => rfl
    | ok effect =>
      obtain ⟨q, done⟩ := effect
      rw [← Phase.groups_eq_countAfter hfree]
      rfl

/-- Reading with a depth counter is reading with a limit that is lower by the groups that were open
before. -/
theorem readFrom_eq (base : Nat) (p : Phase) (last : Position) (tokens : List Token) :
    readFrom p (base + p.groups) last tokens = p.run (some (maxDepth - base)) last tokens := by
  induction tokens generalizing p last with
  | nil => rfl
  | cons token tokens ih =>
    rw [readFrom, step_eq rfl rfl, Phase.run]
    cases p.next (some (maxDepth - base)) token with
    | error e => rfl
    | ok effect => simp only [Except.map, ih]

theorem parse_eq (c : Cursor) :
    c.parse = Phase.lineStart.run (some (maxDepth - c.depth)) c.last c.unread :=
  readFrom_eq c.depth .lineStart c.last c.unread

end Cursor

theorem parseStatements_eq_run (tokens : List Token) :
    parseStatements tokens = Phase.lineStart.run (some maxDepth) {} tokens :=
  (Cursor.ofTokens tokens).parse_eq

end MipsAssembly
