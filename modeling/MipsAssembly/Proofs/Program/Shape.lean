import MipsAssembly.Proofs.Assembly.Stages
import MipsAssembly.Proofs.Grammar.Parts
import MipsAssembly.Proofs.Grammar.Recognition
import MipsAssembly.Proofs.Render.Operand
import MipsAssembly.Proofs.Resolution.Origins

/-!
# The shape of programs that are read

The types of programs allow more than source texts can say: a register inside an expression, a
directive with a value that it does not take, a name with blanks in it.  None of this is in a
program that is read.  Each statement has the shape that its production gives it, and a program
has no pieces but those of its statements.

## Main definitions

- `IsName`, `Operand.IsRegister`, `Operand.IsExpression`, `Operand.IsArgument` — names and the
  operands that are written.
- `Instruction.WellShaped`, `Data.WellShaped`, `Statement.WellShaped`, `Program.WellShaped` — the
  shape of what is built from them.
- `Grammar.Part.wellShaped` — every production makes statements of this shape.
- `parse_wellShaped` — the shape of a program that is read.
-/

namespace MipsAssembly

open Grammar

/-! ## Shapes -/

/-- A name: letters, digits, `_` and `.`, all of them ASCII, and at least one of them.  It starts
neither with a digit nor with a point. -/
structure IsName (name : String) : Prop where
  ne_nil : name.toList ≠ []
  isWordChar : ∀ c ∈ name.toList, isWordChar c = true
  head : ∀ c ∈ name.toList.head?, c.isDigit = false ∧ c ≠ '.'

namespace Operand

/-- A register: a dollar sign and ASCII letters and digits, at least one.  It is numbered exactly
if they are all digits. -/
inductive IsRegister : Operand → Prop where
  | intro {name : String} {kind : RegisterKind} (run : List Char) :
    name.toList = '$' :: run → run ≠ [] → (∀ c ∈ run, c.isAlphanum = true) →
    (kind = .numbered ↔ ∀ c ∈ run, c.isDigit = true) → IsRegister (.register name kind)

/-- An expression: numbers and names with operators between them.  Integers are smaller than the
bound in both directions, real numbers are finite and never in base sixteen. -/
inductive IsExpression : Operand → Prop where
  | integer (radix : Radix) {value : Int} :
    value.natAbs < integerBound → IsExpression (.number radix (.integer value))
  | real {value : Binary64} : value.isFinite = true → IsExpression (.number .decimal (.real value))
  | identifier {name : String} : IsName name → IsExpression (.identifier name)
  | binary (op : BinaryOperator) {left right : Operand} :
    IsExpression left → IsExpression right → IsExpression (.binary op left right)

/-- An argument of an instruction: a register, an expression, or the memory at a register with an
expression for its offset, if it has one. -/
inductive IsArgument : Operand → Prop where
  | register {e : Operand} : e.IsRegister → IsArgument e
  | expression {e : Operand} : e.IsExpression → IsArgument e
  | indirect {base : Operand} : base.IsRegister → IsArgument (.indirect base)
  | indexed {offset base : Operand} :
    offset.IsExpression → base.IsRegister → IsArgument (.indexed offset base)

end Operand

structure Instruction.WellShaped (i : Instruction) : Prop where
  opcode : IsName i.opcode
  /-- Without operands there is no list of them. -/
  ne_nil : i.operandList ≠ some []
  arguments : ∀ e ∈ i.operands, e.IsArgument

/-- What a directive takes: a text, an expression, or one or more expressions, of which one alone
makes no list. -/
def Data.WellShaped (d : Data) : Prop :=
  match d.mode with
  | .ascii | .asciiz => ∃ content, d.value = .scalar (.text content)
  | .space => ∃ e, d.value = .scalar e ∧ e.IsExpression
  | .word | .half | .byte | .float | .double =>
    (∃ e, d.value = .scalar e ∧ e.IsExpression) ∨
      ∃ es, d.value = .list es ∧ 2 ≤ es.length ∧ ∀ e ∈ es, e.IsExpression

def Entry.WellShaped : Entry → Prop
  | instruction i => i.WellShaped
  | data d => d.WellShaped

def Statement.WellShaped : Statement → Prop
  | segment name => name = textSegment ∨ name = dataSegment
  | label name _ => IsName name
  | entry e => e.WellShaped

structure Program.WellShaped (p : Program) : Prop where
  segments : ∀ name ∈ p.segments.keys, name = textSegment ∨ name = dataSegment
  entries : ∀ name s, (name, s) ∈ p.segments.entries → ∀ entry ∈ s.entries, entry.WellShaped
  labels : ∀ name ∈ p.labels.keys, IsName name
  switches : ∀ name ∈ p.switches, name = textSegment ∨ name = dataSegment

/-! ## Tokens -/

/-- The name of a token is one. -/
theorem TokenKind.Lexical.isName {name : String} (h : (identifier name).Lexical) :
    IsName name := by
  obtain ⟨c, word, hname, hfirst, hword⟩ := h
  have hstart : c.isDigit = false ∧ c ≠ '.' := by
    rcases Bool.or_eq_true_iff.mp hfirst with halpha | hunderscore
    · refine ⟨isDigit_of_isAlpha halpha, ?_⟩
      rintro rfl
      cases halpha
    · rw [of_decide_eq_true hunderscore]
      decide
  refine ⟨?_, ?_, ?_⟩
  · rw [hname]
    exact List.cons_ne_nil c word
  · rw [hname, List.forall_mem_cons]
    exact ⟨isWordChar_of_starts_name hfirst, hword⟩
  · intro d hd
    rw [hname, List.head?_cons, Option.mem_some_iff] at hd
    rwa [← hd]

/-- A register is numbered if there are only digits behind its dollar sign. -/
theorem RegisterKind.ofRegister_eq_numbered_iff {name : String} {run : List Char}
    (hname : name.toList = '$' :: run) (hne : run ≠ []) (hrun : ∀ c ∈ run, c.isAlphanum = true) :
    ofRegister name = numbered ↔ ∀ c ∈ run, c.isDigit = true := by
  have hdrop : run.dropWhile (· = '$') = run := by
    cases run with
    | nil => rfl
    | cons c run =>
      have hc : c ≠ '$' := by
        rintro rfl
        cases hrun '$' List.mem_cons_self
      simp [hc]
  have hrest : name.toList.dropWhile (· = '$') = run := by
    rw [hname, List.dropWhile_cons_of_pos (by simp), hdrop]
  rw [ofRegister, hrest, ← List.all_eq_true]
  simp [hne]

theorem Operand.isRegister_ofRegister {name : String} (h : (TokenKind.register name).Lexical) :
    (ofRegister name).IsRegister := by
  obtain ⟨run, hname, hne, hrun⟩ := h
  exact .intro run hname hne hrun (RegisterKind.ofRegister_eq_numbered_iff hname hne hrun)

/-- The number of a token, with a minus sign or without, is an expression. -/
theorem Number.Readable.isExpression {radix : Radix} {value : Number}
    (h : value.Readable radix) :
    (Operand.number radix value).IsExpression ∧
      (Operand.number radix value.negate).IsExpression := by
  cases value with
  | integer value =>
    obtain ⟨n, hn, rfl⟩ := h
    exact ⟨.integer radix (by rwa [Int.natAbs_natCast]),
      .integer radix (by rwa [Int.natAbs_neg, Int.natAbs_natCast])⟩
  | real value =>
    cases radix with
    | decimal =>
      obtain ⟨m, rfl⟩ := h
      exact ⟨.real rfl, .real rfl⟩
    | hexadecimal => exact h.elim

theorem Operand.Plain.isExpression {e : Operand} (h : e.Plain) : e.IsExpression := by
  induction h with
  | number hvalue => exact hvalue.isExpression.1
  | negative hvalue => exact hvalue.isExpression.2
  | identifier hname => exact .identifier hname.isName
  | binary _ _ ihleft ihright => exact .binary _ ihleft ihright

/-! ## Productions -/

theorem Grammar.Expression.isExpression {limit : Option Nat} {level : Level} {groups : Nat}
    {kinds : List TokenKind} {e : Operand} (h : Expression limit level groups kinds e)
    (hkinds : ∀ kind ∈ kinds, kind.Lexical) : e.IsExpression :=
  (h.plain hkinds).isExpression

theorem Grammar.Argument.isArgument {limit : Option Nat} {kinds : List TokenKind} {e : Operand}
    (h : Argument limit kinds e) (hkinds : ∀ kind ∈ kinds, kind.Lexical) : e.IsArgument := by
  cases h with
  | register name => exact .register (Operand.isRegister_ofRegister (hkinds _ (by simp)))
  | indirect name _ =>
    exact .indirect (Operand.isRegister_ofRegister (hkinds (.register name) (by simp)))
  | sum hsum => exact .expression (hsum.isExpression hkinds)
  | indexed name hsum =>
    obtain ⟨hoffset, hbase⟩ := List.forall_mem_append.mp hkinds
    exact .indexed (hsum.isExpression hoffset)
      (Operand.isRegister_ofRegister (hbase (.register name) (by simp)))

/-- What holds of each item of spelled tokens holds of all that are separated by commas. -/
theorem Grammar.Separated.forall_mem {item : List TokenKind → Operand → Prop}
    {kinds : List TokenKind} {es : List Operand} {P : Operand → Prop}
    (h : Separated item kinds es) (hkinds : ∀ kind ∈ kinds, kind.Lexical)
    (hitem : ∀ kinds e, item kinds e → (∀ kind ∈ kinds, kind.Lexical) → P e) :
    ∀ e ∈ es, P e := by
  induction h with
  | single hlast =>
    rw [List.forall_mem_singleton]
    exact hitem _ _ hlast hkinds
  | snoc _ hlast ih =>
    obtain ⟨hbefore, hbehind⟩ := List.forall_mem_append.mp hkinds
    refine List.forall_mem_append.mpr ⟨ih hbefore, ?_⟩
    rw [List.forall_mem_singleton]
    exact hitem _ _ hlast (List.forall_mem_cons.mp hbehind).2

theorem Instruction.wellShaped_ofOperands {name : String} {es : List Operand} (hname : IsName name)
    (hes : ∀ e ∈ es, e.IsArgument) : (ofOperands name es).WellShaped where
  opcode := hname
  ne_nil := by cases es <;> simp [ofOperands]
  arguments := by rwa [operands_ofOperands]

/-- Expressions make a value that is single or a list of at least two. -/
theorem DataValue.cases_of_ofValues? {es : List Operand} {value : DataValue}
    (h : ofValues? es = some value) :
    (∃ e, value = .scalar e ∧ es = [e]) ∨ value = .list es ∧ 2 ≤ es.length := by
  rcases es with _ | ⟨first, _ | ⟨second, rest⟩⟩
  · cases h
  · exact .inl ⟨first, (Option.some.inj h).symm, rfl⟩
  · exact .inr ⟨(Option.some.inj h).symm, by simp⟩

theorem Grammar.Body.wellShaped {limit : Option Nat} {kinds : List TokenKind}
    {statement : Statement} (h : Body limit kinds statement)
    (hkinds : ∀ kind ∈ kinds, kind.Lexical) : statement.WellShaped := by
  cases h with
  | segment hname => exact hname
  | @text mode content hmode =>
    cases mode <;> first | exact ⟨content, rfl⟩ | cases hmode
  | @single mode kinds e hmode hsum =>
    have he := hsum.isExpression (List.forall_mem_cons.mp hkinds).2
    cases mode <;> first | exact ⟨e, rfl, he⟩ | cases hmode
  | @list mode kinds es value hmode hvalues hvalue =>
    have hes := hvalues.forall_mem (List.forall_mem_cons.mp hkinds).2
      fun _ _ hsum hkinds => hsum.isExpression hkinds
    have hshape : (∃ e, value = .scalar e ∧ e.IsExpression) ∨
        ∃ es, value = .list es ∧ 2 ≤ es.length ∧ ∀ e ∈ es, e.IsExpression := by
      rcases DataValue.cases_of_ofValues? hvalue with ⟨e, hscalar, rfl⟩ | ⟨hlist, hlength⟩
      · exact .inl ⟨e, hscalar, hes e List.mem_cons_self⟩
      · exact .inr ⟨es, hlist, hlength, hes⟩
    cases mode <;> first | exact hshape | cases hmode
  | opcode name =>
    have hname : (TokenKind.identifier name).Lexical := hkinds _ List.mem_cons_self
    exact Instruction.wellShaped_ofOperands hname.isName (by simp)
  | @instruction name kinds es hoperands =>
    obtain ⟨hname, hrest⟩ := List.forall_mem_cons.mp hkinds
    exact Instruction.wellShaped_ofOperands hname.isName
      (hoperands.forall_mem hrest fun _ _ hargument hkinds => hargument.isArgument hkinds)

/-- Every production makes statements of this shape. -/
theorem Grammar.Part.wellShaped {limit : Option Nat} {part : List Token} {statement : Statement}
    (h : Part limit part statement) (hpart : ∀ token ∈ part, token.kind.Lexical) :
    statement.WellShaped := by
  cases h with
  | label name position colon =>
    have hname : (TokenKind.identifier name).Lexical := hpart _ List.mem_cons_self
    exact hname.isName
  | body hbody => exact hbody.wellShaped (List.forall_mem_map.mpr hpart)

theorem wellShaped_of_statementsOf {source : String} {statements : List Statement}
    (h : statementsOf source = .ok statements) :
    ∀ statement ∈ statements, statement.WellShaped := by
  obtain ⟨tokens, hlex, hparse⟩ := statementsOf_eq_ok_iff.mp h
  intro statement hmem
  obtain ⟨part, hpart, hinside⟩ := (source_of_parseStatements hparse).exists_part hmem
  exact hpart.wellShaped fun token htoken => lex_lexical hlex token (hinside.mem htoken)

/-! ## Programs -/

/-- A program has the shape of the statements that it stems from. -/
theorem Program.StemsFrom.wellShaped {p : Program} {statements : List Statement}
    (h : p.StemsFrom statements) (hshaped : ∀ statement ∈ statements, statement.WellShaped) :
    p.WellShaped where
  segments := by
    intro name hname
    rcases h.segments name hname with htext | hmem
    · exact .inl htext
    · exact hshaped _ hmem
  entries := fun name s hs entry hentry => hshaped _ (h.entries name s hs entry hentry)
  labels := by
    intro name hname
    obtain ⟨position, hmem⟩ := h.labels name hname
    exact hshaped _ hmem
  switches := fun name hname => hshaped _ (h.switches name hname)

/-- A program that is read is well shaped: its segments are those of instructions and of data,
each directive has a value of the kind that it takes, instructions have registers, expressions and
memory accesses for arguments, expressions are made of numbers and names only, and all names are
spelled as names. -/
theorem parse_wellShaped (source : String) (p : Program) (h : parse source = .ok p) :
    p.WellShaped := by
  obtain ⟨statements, hread, hp⟩ := parse_eq_ok_iff.mp h
  exact (stemsFrom_of_resolve hp).wellShaped (wellShaped_of_statementsOf hread)

/-- All kinds of arguments and of values in one source text, a label and a constant that start and
go on as names may, and a segment that is switched to. -/
theorem parse_wellShaped_of_all_kinds :
    let source :=
      "_l.1: lw $t0, 4+k*-2($29), ($sp), x\n.data\n.word 1, -0x1F, -1.5\n.space n_2\n.ascii \"a\""
    let statements : List Statement :=
      [.label "_l.1" ⟨1, 1⟩,
        .entry (.instruction ⟨"lw", some
          [.register "$t0" .named,
            .indexed (.binary .add (.int 4) (.binary .mul (.identifier "k") (.int (-2))))
              (.register "$29" .numbered),
            .indirect (.register "$sp" .named), .identifier "x"]⟩),
        .segment ".data",
        .entry (.data ⟨.word, .list
          [.int 1, .hex (-31), .float (.finite true ⟨4609434218613702656, by decide⟩)]⟩),
        .entry (.data ⟨.space, .scalar (.identifier "n_2")⟩),
        .entry (.data ⟨.ascii, .scalar (.text "a")⟩)]
    let p : Program := (statements.foldl Immediate.step {}).program
    parse source = .ok p ∧ p.WellShaped := by
  intro source statements p
  have hread : statementsOf source = .ok statements := by decide +kernel +zetaReduce
  have hresolve : resolve statements = .ok p := resolve_eq_ok_iff.mpr ⟨by decide, rfl⟩
  have hparse : parse source = .ok p := parse_eq_ok_iff.mpr ⟨statements, hread, hresolve⟩
  exact ⟨hparse, parse_wellShaped source p hparse⟩

end MipsAssembly
