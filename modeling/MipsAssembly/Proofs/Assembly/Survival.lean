import MipsAssembly.Proofs.Assembly.Size
import MipsAssembly.Proofs.Program.Nesting
import MipsAssembly.Proofs.Program.Shape
import MipsAssembly.Proofs.Render.Program

/-!
# Which programs come back from their JSON text

The numbers and addresses of a program that is read can all be told in JSON.  What may keep its
text from being read is the height of its operands: source texts limit how deep groups are nested,
but the tree of a chain of operators grows with every operator, and no chain is too long for a
source text.

## Main definitions

- `Program.WellShaped.portable` — the numbers of a program that is read.
- `chainSource`, `parse_chainSource` — chains of operators of any length are read.
- `importProgram_chainProgram` — from a length on, they do not come back.
- `importProgram_of_parse` — which programs that are read come back.
-/

namespace MipsAssembly

/-! ## Numbers -/

theorem Operand.IsRegister.numbers_eq_nil {e : Operand} (h : e.IsRegister) : e.numbers = [] := by
  cases h
  rfl

theorem Operand.IsExpression.portable {e : Operand} (h : e.IsExpression) :
    ∀ number ∈ e.numbers, number.Portable := by
  induction h with
  | @integer radix value hbound =>
    rw [numbers, List.forall_mem_singleton]
    have hlow : -(integerBound : Int) ≤ value := by omega
    have hhigh : value < (integerBound : Int) := by omega
    exact Bool.and_eq_true_iff.mpr ⟨decide_eq_true hlow, decide_eq_true hhigh⟩
  | real hfinite =>
    rw [numbers, List.forall_mem_singleton]
    exact hfinite
  | identifier _ => simp [numbers]
  | binary _ _ _ ihleft ihright => exact List.forall_mem_append.mpr ⟨ihleft, ihright⟩

theorem Operand.IsArgument.portable {e : Operand} (h : e.IsArgument) :
    ∀ number ∈ e.numbers, number.Portable := by
  cases h with
  | register hregister => simp [hregister.numbers_eq_nil]
  | expression hexpression => exact hexpression.portable
  | indirect hbase => simp [numbers, hbase.numbers_eq_nil]
  | indexed hoffset hbase => simpa [numbers, hbase.numbers_eq_nil] using hoffset.portable

/-- What a directive takes are texts and expressions. -/
theorem Data.WellShaped.portable {d : Data} (h : d.WellShaped) :
    ∀ e ∈ d.value.values, ∀ number ∈ e.numbers, number.Portable := by
  obtain ⟨mode, value⟩ := d
  have hlist (hvalue : (∃ e, value = .scalar e ∧ e.IsExpression) ∨
      ∃ es, value = .list es ∧ 2 ≤ es.length ∧ ∀ e ∈ es, e.IsExpression) :
      ∀ e ∈ value.values, ∀ number ∈ e.numbers, number.Portable := by
    rcases hvalue with ⟨e, rfl, he⟩ | ⟨es, rfl, -, hes⟩
    · exact List.forall_mem_singleton.mpr he.portable
    · exact fun e hmem => (hes e hmem).portable
  cases mode with
  | ascii | asciiz =>
    obtain ⟨content, rfl⟩ : ∃ content, value = .scalar (.text content) := h
    simp [DataValue.values, Operand.numbers]
  | space => exact hlist (.inl h)
  | word | half | byte | float | double => exact hlist h

theorem Program.WellShaped.portable {p : Program} (h : p.WellShaped) :
    ∀ number ∈ p.numbers, number.Portable := by
  intro number hnumber
  obtain ⟨⟨name, s⟩, hsegment, hofsegment⟩ := List.mem_flatMap.mp hnumber
  obtain ⟨entry, hentry, hofentry⟩ := List.mem_flatMap.mp hofsegment
  obtain ⟨e, he, hofoperand⟩ := List.mem_flatMap.mp hofentry
  have hshaped := h.entries name s hsegment entry hentry
  cases entry with
  | instruction i =>
    have hi : i.WellShaped := hshaped
    exact (hi.arguments e he).portable number hofoperand
  | data d =>
    have hd : d.WellShaped := hshaped
    exact hd.portable e he number hofoperand

theorem portable_of_parse {source : String} {p : Program} (h : parse source = .ok p) :
    ∀ number ∈ p.numbers, number.Portable := by
  obtain ⟨statements, hread, hp⟩ := parse_eq_ok_iff.mp h
  exact ((stemsFrom_of_resolve hp).wellShaped (wellShaped_of_statementsOf hread)).portable

/-! ## Chains of operators -/

namespace Operand

/-- One, and one added to it so many times. -/
def chain : Nat → Operand
  | 0 => int 1
  | n + 1 => binary .add (chain n) (int 1)

theorem height_chain (n : Nat) : (chain n).height = n + 1 := by
  induction n with
  | zero => rfl
  | succ n ih =>
    have hone : (int 1).height = 1 := rfl
    rw [chain, height, ih, hone]
    omega

theorem plain_chain (n : Nat) : (chain n).Plain := by
  have hone : (int 1).Plain := .number ⟨1, by decide, rfl⟩
  induction n with
  | zero => exact hone
  | succ n ih => exact .binary ih hone

/-- A chain is written without a group. -/
theorem depth_chain (n : Nat) : (chain n).depth = 0 := by
  induction n with
  | zero => rfl
  | succ n ih =>
    have hadmits : Grammar.Level.sum.Admits (chain n).level := trivial
    show max ((chain n).depthAt .sum) 0 = 0
    rw [depthAt_of_admits hadmits, ih]
    rfl

theorem chars_chain (n : Nat) :
    (chain n).chars = '1' :: (List.replicate n " + 1".toList).flatten := by
  induction n with
  | zero => rfl
  | succ n ih =>
    have hleft : (chain n).charsAt .sum = (chain n).chars := charsAt_of_admits trivial
    have hright : (int 1).charsAt .product = ['1'] := rfl
    rw [chain, chars_binary]
    show (chain n).charsAt .sum ++ [' ', '+', ' '] ++ (int 1).charsAt .product = _
    rw [hleft, hright, ih, List.replicate_succ', List.flatten_append]
    simp

end Operand

/-- The source text of a directive for as much space as a chain says. -/
def chainSource (n : Nat) : String :=
  String.ofList (".space 1".toList ++ (List.replicate n " + 1".toList).flatten ++ ['\n'])

theorem length_chainSource (n : Nat) : (chainSource n).length = 4 * n + 9 := by
  have hlength : (chainSource n).length =
      (".space 1".toList ++ (List.replicate n " + 1".toList).flatten ++ ['\n']).length :=
    String.length_ofList
  rw [hlength]
  simp
  omega

/-- The statement of that source text. -/
def chainStatement (n : Nat) : Statement :=
  .entry (.data ⟨.space, .scalar (Operand.chain n)⟩)

/-- The program of that source text. -/
def chainProgram (n : Nat) : Program :=
  ([chainStatement n].foldl Immediate.step {}).program

theorem sourceText_chainStatement (n : Nat) :
    Statement.sourceText [chainStatement n] = chainSource n := by
  have hchars : (chainStatement n).chars =
      DataMode.space.name.toList ++ ' ' :: (Operand.chain n).chars := by
    simp [chainStatement, Statement.chars, Entry.chars, Data.chars, withOperands, commaSeparated,
      DataValue.values]
  have hfront : ".space 1".toList = DataMode.space.name.toList ++ [' ', '1'] := by decide
  refine congrArg String.ofList ?_
  rw [List.flatMap_singleton, hchars, Operand.chars_chain, hfront]
  simp

theorem isWritten_chainStatement (n : Nat) : (chainStatement n).IsWritten maxDepth := by
  have hwritten : (Operand.chain n).IsWritten maxDepth := (Operand.plain_chain n).isWritten
  obtain ⟨kinds, hexpression, hspells⟩ := hwritten 0 (by simp [Operand.depth_chain])
  have hsum : Grammar.Level.sum.Admits (Operand.chain n).level := trivial
  refine ⟨_, Spells.data .space (.scalar (Operand.chain n)) (List.cons_ne_nil _ _) hspells, ?_⟩
  intro tokens htokens
  have hbody : Grammar.Body (some maxDepth) (tokens.map Token.kind) (chainStatement n) := by
    rw [htokens]
    exact .single rfl (hexpression.ofAdmits hsum)
  exact ⟨chainStatement n, rfl, .body .nil hbody⟩

/-- A chain of any length is read. -/
theorem parse_chainSource (n : Nat) : parse (chainSource n) = .ok (chainProgram n) := by
  obtain ⟨again, hread, hunplaced⟩ := exists_statementsOf_of_isWritten
    (List.forall_mem_singleton.mpr (isWritten_chainStatement n))
  have hresolve : resolve [chainStatement n] = .ok (chainProgram n) :=
    resolve_eq_ok_iff.mpr ⟨.nil, rfl⟩
  rw [← sourceText_chainStatement]
  exact parse_eq_ok_iff.mpr ⟨again, hread, resolve_of_unplaced_eq hunplaced hresolve⟩

theorem shallow_chainProgram_iff (n : Nat) : (chainProgram n).Shallow ↔ n < maxNesting - 5 := by
  have hsegments : (chainProgram n).segments.entries =
      [(textSegment, ⟨[.data ⟨.space, .scalar (Operand.chain n)⟩]⟩)] := rfl
  rw [Program.Shallow, hsegments]
  simp only [List.forall_mem_singleton, Entry.operands, DataValue.values, Operand.height_chain]
  exact Nat.succ_le_iff

/-- A chain that is long enough is read, but the text of its program is refused. -/
theorem importProgram_chainProgram {n : Nat} (h : maxNesting - 5 ≤ n) :
    importProgram (chainProgram n).exportJson = .error .malformed := by
  have hlabels : (chainProgram n).labels.entries = [] := rfl
  have hdeep : ¬ (chainProgram n).Shallow := by
    rw [shallow_chainProgram_iff]
    exact Nat.not_lt.mpr h
  exact importProgram_of_not_shallow (portable_of_parse (parse_chainSource n))
    (by simp [hlabels]) hdeep

/-! ## Programs that are read -/

/-- A program that is read comes back from its JSON text, with the same segments and switches, if
none of its operands is too high, and else its text is refused.  The length of the source text,
which fits a signed number of 64 bits, is what bounds its addresses. -/
theorem importProgram_of_parse (source : String) (p : Program) (h : parse source = .ok p)
    (hlength : source.length < integerBound) :
    (p.Shallow → ∃ q, importProgram p.exportJson = .ok q ∧ q.segments = p.segments ∧
      q.switches = p.switches) ∧
    (¬ p.Shallow → importProgram p.exportJson = .error .malformed) := by
  have hnumbers := portable_of_parse h
  have haddresses : ∀ label ∈ p.labels.entries, label.2.address < 2 * integerBound := by
    intro label hlabel
    have haddress := address_le_of_parse h label hlabel
    omega
  exact ⟨exists_importProgram_of_shallow hnumbers haddresses,
    importProgram_of_not_shallow hnumbers haddresses⟩

/-- A sum of 122 terms comes back. -/
theorem importProgram_of_parse_of_122_terms :
    let p := chainProgram 121
    parse (chainSource 121) = .ok p ∧ (chainSource 121).length < integerBound ∧ p.Shallow ∧
    ∃ q, importProgram p.exportJson = .ok q ∧ q.segments = p.segments ∧
      q.switches = p.switches := by
  intro p
  have hparse : parse (chainSource 121) = .ok p := parse_chainSource 121
  have hlength : (chainSource 121).length < integerBound := by
    rw [length_chainSource]
    decide
  have hshallow : p.Shallow := (shallow_chainProgram_iff 121).mpr (by decide)
  exact ⟨hparse, hlength, hshallow,
    (importProgram_of_parse (chainSource 121) p hparse hlength).1 hshallow⟩

/-- A sum of 123 terms is read, but the text of its program is refused. -/
theorem chain_of_123_terms_is_lost :
    parse (chainSource 122) = .ok (chainProgram 122) ∧
      importProgram (chainProgram 122).exportJson = .error .malformed :=
  ⟨parse_chainSource 122, importProgram_chainProgram (Nat.le_refl 122)⟩

end MipsAssembly
