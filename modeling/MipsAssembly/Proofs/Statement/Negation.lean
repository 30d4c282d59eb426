import MipsAssembly.Proofs.Assembly.Stages
import MipsAssembly.Proofs.Program.Export
import MipsAssembly.Proofs.Resolution.Origins
import MipsAssembly.Proofs.Statement.Counter
import MipsAssembly.Proofs.Token.Spelling

/-!
# Signs in front of numbers

A minus sign in the place of a value belongs to the number behind it.  So each number that has been
read is that of its token or the opposite one, and no number changes later on.  As the integers of
tokens have no sign of their own, their opposites fit 64 bits: the least integer of 64 bits, which
has no opposite, is never negated.

## Main definitions

- `Phase.numbers` — the numbers that have been read for the statement at hand.
- `Phase.numbers_next` — a token adds its own number and leaves the others as they are.
- `Number.negate64?`, `Phase.run64?` — negation with 64 bits, and reading with it.
- `negation_stays_in_range` — reading a source text negates only what has an opposite.
-/

namespace MipsAssembly

/-! ## Numbers in order -/

namespace TokenKind

/-- The number of a token, if it is a numeral. -/
def number? : TokenKind → Option Number
  | number _ value => some value
  | _ => none

end TokenKind

/-- The numbers of tokens, in order. -/
def numbersOf (tokens : List Token) : List Number :=
  tokens.filterMap fun token => token.kind.number?

def Statement.numbers : Statement → List Number
  | entry e => e.numbers
  | _ => []

/-- The numbers on the left of an operator that waits for its right side. -/
def Pending.numbersIn (waiting : Option (Operand × BinaryOperator)) : List Number :=
  waiting.elim [] fun (left, _) => left.numbers

def Pending.numbers (pending : Pending) : List Number :=
  numbersIn pending.sum ++ numbersIn pending.product

def Purpose.numbers : Purpose → List Number
  | operand _ before | value _ before => before.flatMap Operand.numbers
  | only _ => []

namespace Phase

/-- The numbers of a statement that is being read, up to the value that comes next: the groups
around it come first. -/
def numbersInside (purpose : Purpose) (inner : Pending) (outer : List Pending) : List Number :=
  purpose.numbers ++ (outer.reverse.flatMap Pending.numbers ++ inner.numbers)

/-- The numbers that have been read for the statement at hand, in order. -/
def numbers : Phase → List Number
  | lineStart | afterLabel | named _ _ | complete | beforeText _ => []
  | beforeOperand _ before | groupOrBase _ before => before.flatMap Operand.numbers
  | indirectBase _ before base => before.flatMap Operand.numbers ++ base.numbers
  | beforeValue purpose inner outer | afterSign purpose inner outer =>
    numbersInside purpose inner outer
  | afterValue purpose inner outer value => numbersInside purpose inner outer ++ value.numbers
  | beforeBase _ before offset => before.flatMap Operand.numbers ++ offset.numbers
  | indexedBase _ before offset base =>
    before.flatMap Operand.numbers ++ (offset.numbers ++ base.numbers)
  | afterOperand _ before operand => before.flatMap Operand.numbers ++ operand.numbers

/-- The number that a phase takes from a token: behind a sign, the opposite one. -/
def taken : Phase → TokenKind → List Number
  | afterSign _ _ _, .number _ value => [value.negate]
  | _, .number _ value => [value]
  | _, _ => []

end Phase

namespace Pending

variable (pending : Pending) (value : Operand)

theorem numbers_productOf :
    (pending.productOf value).numbers = numbersIn pending.product ++ value.numbers := by
  unfold productOf
  cases pending.product <;> rfl

theorem numbers_sumOf : (pending.sumOf value).numbers = pending.numbers ++ value.numbers := by
  rw [sumOf, numbers, List.append_assoc, ← numbers_productOf]
  cases pending.sum <;> rfl

theorem numbers_push (operator : BinaryOperator) :
    (pending.push value operator).numbers = pending.numbers ++ value.numbers := by
  cases operator with
  | add | sub => simp [push, numbers, numbersIn, numbers_sumOf]
  | mul | div | mod => simp [push, numbers, numbersIn, numbers_productOf]

end Pending

theorem Purpose.numbers_complete (purpose : Purpose) (last : Operand) :
    (purpose.complete last).numbers = purpose.numbers ++ last.numbers := by
  cases purpose with
  | operand opcode before =>
    simp [complete, Statement.numbers, Entry.numbers, Entry.operands, numbers]
  | value mode before =>
    simp [complete, Statement.numbers, Entry.numbers, Entry.operands, numbers]
  | only mode =>
    simp [complete, Statement.numbers, Entry.numbers, Entry.operands, numbers, DataValue.values]

namespace Phase

variable {limit : Option Nat} {p q : Phase} {token : Token} {done : List Statement}
  {purpose : Purpose} {inner : Pending} {outer : List Pending} {value : Operand}

/-- At the start of an operand there are no numbers but those of the operands before it. -/
theorem numbersInside_operand (opcode : String) (before : List Operand) :
    numbersInside (.operand opcode before) {} [] = before.flatMap Operand.numbers :=
  List.append_nil _

theorem numbersInside_group (opcode : String) (before : List Operand) :
    numbersInside (.operand opcode before) {} [{}] = before.flatMap Operand.numbers :=
  List.append_nil _

/-! ## The effect of a token -/

theorem taken_of_number?_eq_none {kind : TokenKind} (h : kind.number? = none) :
    p.taken kind = [] := by
  cases kind with
  | number => cases h
  | _ => cases p <;> rfl

/-- A line ends with the numbers that have been read for it. -/
theorem numbers_finish? (h : p.finish? = some done) :
    done.flatMap Statement.numbers = p.numbers := by
  cases p with
  | lineStart | afterLabel | complete =>
    cases h
    rfl
  | named name position =>
    cases h
    simp [Statement.numbers, Entry.numbers, Entry.operands, numbers]
  | afterValue purpose inner outer value =>
    cases outer with
    | nil =>
      cases h
      simp [numbers, numbersInside, Purpose.numbers_complete, Pending.numbers_sumOf]
    | cons level levels => cases h
  | afterOperand opcode before operand =>
    cases h
    simp [numbers, Purpose.numbers_complete, Purpose.numbers]
  | _ => cases h

theorem numbers_openGroup {groups : Nat} (h : openGroup limit groups token p = .ok q) :
    q.numbers = p.numbers := by
  unfold openGroup at h
  split at h
  · cases h
    rfl
  · cases h

theorem numbers_startValue (h : startValue limit purpose inner outer token = .ok q) :
    q.numbers = numbersInside purpose inner outer ++
      (beforeValue purpose inner outer).taken token.kind := by
  unfold startValue at h
  split at h
  · next hkind =>
    cases h
    simp [hkind, taken, numbers]
  · next hkind =>
    cases h
    simp [hkind, taken, numbers, Operand.numbers]
  · next hkind =>
    cases h
    simp [hkind, taken, numbers, Operand.numbers]
  · next hkind =>
    have hgroup : ({} : Pending).numbers = [] := rfl
    rw [numbers_openGroup h, hkind]
    simp [taken, numbers, numbersInside, hgroup]
  · cases h

theorem numbers_startOperand {opcode : String} {before : List Operand}
    (h : startOperand limit opcode before token = .ok q) :
    q.numbers = before.flatMap Operand.numbers ++
      (beforeOperand opcode before).taken token.kind := by
  unfold startOperand at h
  split at h
  · next hkind =>
    cases h
    simp [hkind, taken, numbers, Operand.ofRegister, Operand.numbers]
  · next hkind =>
    rw [numbers_openGroup h, hkind]
    simp [taken, numbers]
  · rw [numbers_startValue h, numbersInside_operand]
    cases token.kind <;> rfl

/-- Behind a value, no number is taken. -/
theorem numbers_continueSum (h : continueSum purpose inner outer value token = .ok q) :
    q.numbers = (afterValue purpose inner outer value).numbers ∧ token.kind.number? = none := by
  unfold continueSum at h
  split at h
  · next operator levels hoperator =>
    cases h
    refine ⟨by simp [numbers, numbersInside, Pending.numbers_push], ?_⟩
    cases hkind : token.kind <;> first | rfl | (rw [hkind] at hoperator; cases hoperator)
  · split at h
    · next hkind =>
      cases h
      exact ⟨by simp [numbers, numbersInside, Pending.numbers_sumOf], by rw [hkind]; rfl⟩
    · cases h
  · split at h
    · next hkind =>
      cases h
      refine ⟨?_, by rw [hkind]; rfl⟩
      simp [numbers, numbersInside, Purpose.numbers, Pending.numbers_sumOf]
    · next hkind =>
      cases h
      refine ⟨?_, by rw [hkind]; rfl⟩
      simp [numbers, numbersInside, Purpose.numbers, Pending.numbers_sumOf]
    · next hkind =>
      have hgroup : ({} : Pending).numbers = [] := rfl
      cases h
      refine ⟨?_, by rw [hkind]; rfl⟩
      simp [numbers, numbersInside, Purpose.numbers, Pending.numbers_sumOf, hgroup]
    · cases h

theorem numbers_startDirective {name : String} {position : Position}
    (h : startDirective name position = .ok (q, done)) :
    done.flatMap Statement.numbers ++ q.numbers = [] := by
  unfold startDirective at h
  split at h
  · cases h
    rfl
  · split at h
    · cases h
    · split at h <;> cases h <;> rfl

/-- A token adds the number that is taken from it, and all other numbers stay as they are. -/
theorem numbers_next (h : p.next limit token = .ok (q, done)) :
    done.flatMap Statement.numbers ++ q.numbers = p.numbers ++ p.taken token.kind := by
  unfold next at h
  split at h
  · next hend =>
    have htaken : p.taken token.kind = [] := taken_of_number?_eq_none (by rw [hend]; rfl)
    split at h
    · next hfinish =>
      cases h
      rw [htaken, numbers_finish? hfinish]
      rfl
    · cases h
  · unfold within at h
    split at h
    case h_3 hkind | h_4 hkind =>
      rw [numbers_startDirective h, hkind]
      rfl
    case h_6 =>
      obtain ⟨q', hq, hpair⟩ := exists_of_map_eq_ok h
      cases hpair
      have htaken := numbers_startOperand hq
      cases hkind : token.kind <;> rw [hkind] at htaken <;> exact htaken
    case h_8 =>
      obtain ⟨q', hq, hpair⟩ := exists_of_map_eq_ok h
      cases hpair
      exact numbers_startOperand hq
    case h_10 =>
      obtain ⟨q', hq, hpair⟩ := exists_of_map_eq_ok h
      cases hpair
      have htaken := numbers_startValue hq
      rw [numbersInside_group] at htaken
      cases hkind : token.kind <;> rw [hkind] at htaken <;> exact htaken
    case h_12 =>
      obtain ⟨q', hq, hpair⟩ := exists_of_map_eq_ok h
      cases hpair
      exact numbers_startValue hq
    case h_14 =>
      obtain ⟨q', hq, hpair⟩ := exists_of_map_eq_ok h
      cases hpair
      obtain ⟨hnumbers, hnone⟩ := numbers_continueSum hq
      rw [taken_of_number?_eq_none hnone, List.append_nil]
      exact hnumbers
    case h_1 hkind | h_2 hkind | h_5 hkind | h_7 hkind | h_13 hkind =>
      cases h
      rw [hkind]
      rfl
    case h_9 hkind | h_11 hkind | h_15 hkind | h_16 hkind | h_17 hkind =>
      cases h
      simp [hkind, numbers, taken, Operand.numbers, Operand.ofRegister]
    case h_18 => cases h

end Phase

/-! ## Literals and what is read for them -/

/-- The number that is read for a literal is its own or the opposite one. -/
def Number.ReadFor (literal value : Number) : Prop :=
  value = literal ∨ value = literal.negate

/-- An integer is read for an integer. -/
theorem Number.ReadFor.exists_integer {literal : Number} {i : Int}
    (h : literal.ReadFor (.integer i)) : ∃ j, literal = .integer j ∧ (i = j ∨ i = -j) := by
  rcases h with rfl | hnegate
  · exact ⟨i, rfl, .inl rfl⟩
  · cases literal with
    | integer j => exact ⟨j, rfl, .inr (integer.inj hnegate)⟩
    | real value => cases hnegate

theorem numbersOf_cons (token : Token) (tokens : List Token) :
    numbersOf (token :: tokens) = token.kind.number?.toList ++ numbersOf tokens := by
  unfold numbersOf
  cases h : token.kind.number? with
  | none => simp [h]
  | some value => simp [h]

namespace Phase

variable {limit : Option Nat} {p q : Phase} {tokens : List Token} {statements : List Statement}

theorem readFor_taken (p : Phase) (kind : TokenKind) :
    List.Forall₂ Number.ReadFor kind.number?.toList (p.taken kind) := by
  cases kind with
  | number radix value =>
    cases p with
    | afterSign => exact .cons (.inr rfl) .nil
    | _ => exact .cons (.inl rfl) .nil
  | _ => cases p <;> exact .nil

/-- The numbers that tokens add are read for their literals, one for each, in order. -/
theorem Reaches.readFor_numbers (h : p.Reaches limit tokens statements q) :
    ∃ read, List.Forall₂ Number.ReadFor (numbersOf tokens) read ∧
      statements.flatMap Statement.numbers ++ q.numbers = p.numbers ++ read := by
  induction h with
  | refl p => exact ⟨[], .nil, (List.append_nil _).symm⟩
  | @step p q r token tokens done statements hstep _ ih =>
    obtain ⟨read, hread, hnumbers⟩ := ih
    refine ⟨p.taken token.kind ++ read, ?_, ?_⟩
    · rw [numbersOf_cons]
      exact List.rel_append (p.readFor_taken token.kind) hread
    · rw [List.flatMap_append, List.append_assoc, hnumbers, ← List.append_assoc,
        numbers_next hstep, List.append_assoc]

/-- A run that succeeds reaches the end of a line. -/
theorem exists_reaches_of_run {last : Position} (h : p.run limit last tokens = .ok statements) :
    ∃ done rest q, p.Reaches limit tokens done q ∧ q.finish? = some rest ∧
      statements = done ++ rest := by
  induction tokens generalizing p last statements with
  | nil =>
    simp only [run] at h
    split at h
    · next rest hfinish =>
      cases h
      exact ⟨[], _, p, .refl p, hfinish, rfl⟩
    · cases h
  | cons token tokens ih =>
    simp only [run] at h
    split at h
    · cases h
    · next q done hstep =>
      obtain ⟨more, hmore, rfl⟩ := exists_of_map_eq_ok h
      obtain ⟨others, rest, r, hreach, hfinish, rfl⟩ := ih hmore
      exact ⟨done ++ others, rest, r, .step hstep hreach, hfinish, by simp⟩

/-- The numbers of statements are read for the literals of their tokens. -/
theorem readFor_of_run {last : Position} (hp : p.numbers = [])
    (h : p.run limit last tokens = .ok statements) :
    List.Forall₂ Number.ReadFor (numbersOf tokens) (statements.flatMap Statement.numbers) := by
  obtain ⟨done, rest, q, hreach, hfinish, rfl⟩ := exists_reaches_of_run h
  obtain ⟨read, hread, hnumbers⟩ := hreach.readFor_numbers
  rw [hp, List.nil_append] at hnumbers
  rw [List.flatMap_append, numbers_finish? hfinish, hnumbers]
  exact hread

end Phase

/-! ## Negation with 64 bits -/

/-- The opposite number, where integers have 64 bits: the least integer has none. -/
def Number.negate64? : Number → Option Number
  | integer value => if fits64 (-value) then some (integer (-value)) else none
  | real value => some (real value.negate)

theorem Number.Readable.negate64?_eq {radix : Radix} {value : Number}
    (h : value.Readable radix) : value.negate64? = some value.negate := by
  cases value with
  | real value => rfl
  | integer value =>
    obtain ⟨n, hn, rfl⟩ := h
    have hfits : fits64 (-(n : Int)) = true := by
      simp only [fits64, Bool.and_eq_true, decide_eq_true_eq]
      omega
    exact if_pos hfits

namespace Phase

variable {limit : Option Nat} {p : Phase}

/-- The effect of a token where integers have 64 bits, or none where negation goes wrong. -/
def next64? (limit : Option Nat) (p : Phase) (token : Token) :
    Option (Except SyntaxError (Phase × List Statement)) :=
  match p, token.kind with
  | afterSign purpose inner outer, .number radix value =>
    value.negate64?.map fun negated =>
      .ok (afterValue purpose inner outer (.number radix negated), [])
  | _, _ => some (p.next limit token)

/-- The statements of a list of tokens where integers have 64 bits, or none where negation goes
wrong. -/
def run64? (limit : Option Nat) :
    Phase → Position → List Token → Option (Except SyntaxError (List Statement))
  | p, last, [] => some (p.run limit last [])
  | p, _, token :: tokens =>
    match p.next64? limit token with
    | none => none
    | some (.error e) => some (.error e)
    | some (.ok (q, statements)) =>
      (run64? limit q token.position tokens).map fun rest => rest.map (statements ++ ·)

/-- What a token leads to fits 64 bits. -/
theorem next64?_eq {token : Token} (h : token.kind.Lexical) :
    p.next64? limit token = some (p.next limit token) := by
  obtain ⟨kind, position⟩ := token
  unfold next64?
  split
  · next purpose inner outer radix value hkind =>
    obtain rfl : kind = .number radix value := hkind
    have hreadable : value.Readable radix := h
    rw [hreadable.negate64?_eq]
    rfl
  · rfl

/-- Reading the tokens of a source text never leaves 64 bits. -/
theorem run64?_eq {last : Position} {tokens : List Token}
    (h : ∀ token ∈ tokens, token.kind.Lexical) :
    p.run64? limit last tokens = some (p.run limit last tokens) := by
  induction tokens generalizing p last with
  | nil => rfl
  | cons token tokens ih =>
    obtain ⟨hfirst, hrest⟩ := List.forall_mem_cons.mp h
    rw [run64?, run, next64?_eq hfirst]
    cases p.next limit token with
    | error e => rfl
    | ok result => simp only [ih hrest, Option.map_some]

end Phase

/-! ## Source texts -/

theorem exists_integer_of_mem_numbersOf {tokens : List Token}
    (h : ∀ token ∈ tokens, token.kind.Lexical) {i : Int} (hi : .integer i ∈ numbersOf tokens) :
    ∃ n : Nat, n < integerBound ∧ i = n := by
  obtain ⟨⟨kind, position⟩, htoken, hnumber⟩ := List.mem_filterMap.mp hi
  have hlexical := h _ htoken
  cases kind with
  | number radix value =>
    obtain rfl := Option.some.inj hnumber
    exact hlexical
  | _ => cases hnumber

/-- A number that has been read stands behind a literal. -/
theorem exists_readFor_of_mem {literals read : List Number}
    (h : List.Forall₂ Number.ReadFor literals read) {value : Number} (hvalue : value ∈ read) :
    ∃ literal ∈ literals, literal.ReadFor value := by
  induction h with
  | nil => cases hvalue
  | cons hfirst _ ih =>
    rcases List.mem_cons.mp hvalue with rfl | hrest
    · exact ⟨_, List.mem_cons_self, hfirst⟩
    · obtain ⟨literal, hmem, hliteral⟩ := ih hrest
      exact ⟨literal, List.mem_cons_of_mem _ hmem, hliteral⟩

/-- The numbers of a program are those of its statements. -/
theorem Program.StemsFrom.mem_numbers {p : Program} {statements : List Statement}
    (h : p.StemsFrom statements) {value : Number} (hvalue : value ∈ p.numbers) :
    value ∈ statements.flatMap Statement.numbers := by
  obtain ⟨⟨name, s⟩, hsegment, hvalue⟩ := List.mem_flatMap.mp hvalue
  obtain ⟨entry, hentry, hvalue⟩ := List.mem_flatMap.mp hvalue
  exact List.mem_flatMap.mpr ⟨.entry entry, h.entries name s hsegment entry hentry, hvalue⟩

/-- Negation never leaves 64 bits on the way from a source text to its program.  The integers of
tokens have no sign, so reading them with 64 bits gives what reading gives.  At every moment, the
numbers that have been read are those of the tokens, in order, each with its own value or with the
opposite one; and no integer of a program is the least one. -/
theorem negation_stays_in_range (source : String) :
    (∀ tokens, lex source = .ok tokens →
      (∀ i, .integer i ∈ numbersOf tokens → 0 ≤ i ∧ i ≤ 2 ^ 63 - 1) ∧
      Phase.lineStart.run64? (some maxDepth) {} tokens = some (parseStatements tokens) ∧
      (∀ front behind statements q, tokens = front ++ behind →
        Phase.lineStart.Reaches (some maxDepth) front statements q →
        List.Forall₂ Number.ReadFor (numbersOf front)
          (statements.flatMap Statement.numbers ++ q.numbers)) ∧
      (∀ statements, parseStatements tokens = .ok statements →
        List.Forall₂ Number.ReadFor (numbersOf tokens)
          (statements.flatMap Statement.numbers))) ∧
    (∀ p, parse source = .ok p →
      ∀ i, .integer i ∈ p.numbers → -(2 ^ 63 - 1) ≤ i ∧ i ≤ 2 ^ 63 - 1) := by
  have hbound : integerBound = 2 ^ 63 := rfl
  refine ⟨fun tokens hlex => ⟨?_, ?_, ?_, ?_⟩, ?_⟩
  · intro i hi
    obtain ⟨n, hn, rfl⟩ := exists_integer_of_mem_numbersOf (lex_lexical hlex) hi
    omega
  · rw [parseStatements_eq_run]
    exact Phase.run64?_eq (lex_lexical hlex)
  · rintro front behind statements q rfl hreach
    obtain ⟨read, hread, hnumbers⟩ := hreach.readFor_numbers
    exact hnumbers ▸ hread
  · exact fun statements hparse =>
      Phase.readFor_of_run rfl ((parseStatements_eq_run tokens).symm.trans hparse)
  · intro p hp i hi
    obtain ⟨statements, hstatements, hresolve⟩ := parse_eq_ok_iff.mp hp
    obtain ⟨tokens, hlex, hparse⟩ := statementsOf_eq_ok_iff.mp hstatements
    rw [parseStatements_eq_run] at hparse
    have hmem := (stemsFrom_of_resolve hresolve).mem_numbers hi
    obtain ⟨literal, hliteral, hread⟩ :=
      exists_readFor_of_mem (Phase.readFor_of_run rfl hparse) hmem
    obtain ⟨j, rfl, hsign⟩ := hread.exists_integer
    obtain ⟨n, hn, rfl⟩ := exists_integer_of_mem_numbersOf (lex_lexical hlex) hliteral
    omega

/-- The greatest integer behind two signs, of which the first one is an operator. -/
theorem negation_stays_in_range_of_greatest_integer :
    let source := ".word 2 - -0x7FFFFFFFFFFFFFFF"
    let greatest : Number := .integer 9223372036854775807
    let tokens : List Token :=
      [⟨.directive ".word", ⟨1, 1⟩⟩, ⟨.number .decimal (.integer 2), ⟨1, 7⟩⟩, ⟨.minus, ⟨1, 9⟩⟩,
        ⟨.minus, ⟨1, 11⟩⟩, ⟨.number .hexadecimal greatest, ⟨1, 12⟩⟩, ⟨.lineEnd, ⟨1, 30⟩⟩]
    let statements : List Statement :=
      [.entry (.data ⟨.word, .scalar
        (.binary .sub (.int 2) (.number .hexadecimal greatest.negate))⟩)]
    let p : Program := (statements.foldl Immediate.step {}).program
    lex source = .ok tokens ∧
      Phase.lineStart.run64? (some maxDepth) {} tokens = some (.ok statements) ∧
      List.Forall₂ Number.ReadFor [.integer 2, greatest] [.integer 2, greatest.negate] ∧
      parse source = .ok p ∧ .integer (-9223372036854775807) ∈ p.numbers ∧
      ∀ i, .integer i ∈ p.numbers → -(2 ^ 63 - 1) ≤ i ∧ i ≤ 2 ^ 63 - 1 := by
  intro source greatest tokens statements p
  have hlex : lex source = .ok tokens := by decide +kernel +zetaReduce
  have hparse : parseStatements tokens = .ok statements := by decide +kernel +zetaReduce
  have hread : statementsOf source = .ok statements :=
    statementsOf_eq_ok_iff.mpr ⟨tokens, hlex, hparse⟩
  have hp : parse source = .ok p :=
    parse_eq_ok_iff.mpr ⟨statements, hread, resolve_eq_ok_iff.mpr ⟨by decide, rfl⟩⟩
  obtain ⟨hreading, hprogram⟩ := negation_stays_in_range source
  obtain ⟨-, hrun, -, hliterals⟩ := hreading tokens hlex
  exact ⟨hlex, hrun.trans (congrArg some hparse), hliterals statements hparse, hp,
    by decide +kernel +zetaReduce, hprogram p hp⟩

end MipsAssembly
