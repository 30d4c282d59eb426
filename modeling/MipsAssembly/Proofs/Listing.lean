import Mathlib.Data.List.Forall2
import MipsAssembly.Listing
import MipsAssembly.Proofs.Program.Shape
import MipsAssembly.Proofs.Render.Program
import MipsAssembly.Proofs.Text.Style

/-!
# Listings tell programs apart

Every line of a listing shows one piece of the program: the heading of a segment, a label, or an
entry.  What is shown can be told from the line: the first character tells the kind of the piece,
names end where padding or a colour begins, and what is left of the colours of an entry is its text
as it is read.  So the lines of a listing give the pieces of the program, and these give the
program.

## Main definitions

- `Listing.Shows` — a line shows a piece of a program.
- `Listing.leftUnique_shows` — a line shows one piece only.
- `Program.forall₂_shows` — a listing shows the pieces of its program.
- `eq_of_listing_eq` — programs with the same listing are the same.
-/

namespace MipsAssembly

open Grammar

/-! ## Texts of entries -/

/-- A text is cut into tokens of certain kinds only. -/
theorem Spells.unique {cs : List Char} {kinds others : List TokenKind} (h : Spells cs kinds)
    (h' : Spells cs others) : kinds = others := by
  obtain ⟨tokens, rfl, hlex⟩ := h.lexFrom_append 1 1 [] (Stops.nil isWordChar)
  obtain ⟨more, rfl, hlex'⟩ := h'.lexFrom_append 1 1 [] (Stops.nil isWordChar)
  rw [hlex] at hlex'
  have htokens := Except.ok.inj hlex'
  rw [List.append_cancel_right htokens]

/-- A row of tokens is a line for one statement only. -/
theorem Grammar.Line.statement_unique {tokens : List Token} {s t : Statement}
    (h : Line (some maxDepth) tokens [s]) (h' : Line (some maxDepth) tokens [t]) : s = t := by
  have hread := (Source.last h).parseStatements_eq
  rw [(Source.last h').parseStatements_eq] at hread
  exact (List.singleton_inj.mp (Except.ok.inj hread)).symm

namespace Entry

/-- The name that an entry starts with. -/
def nameChars : Entry → List Char
  | instruction i => i.opcode.toList
  | data d => d.mode.name.toList

/-- The text behind the name of an entry. -/
def operandChars : Entry → List Char
  | instruction i => commaSeparated (i.operands.map Operand.chars)
  | data d => commaSeparated (d.value.values.map Operand.chars)

theorem isWordChar_of_mem_nameChars {e : Entry} (h : e.WellShaped) :
    ∀ c ∈ e.nameChars, isWordChar c = true := by
  cases e with
  | instruction i => exact h.opcode.isWordChar
  | data d =>
    show ∀ c ∈ d.mode.name.toList, isWordChar c = true
    cases d.mode <;> exact List.all_eq_true.mp rfl

/-- A blank behind a name is none of the text, so it may stand there without operands, too. -/
theorem spells_spaced {e : Entry} {kinds : List TokenKind} (h : Spells e.chars kinds) :
    Spells (e.nameChars ++ ' ' :: e.operandChars) kinds := by
  have hblank : Spells (e.chars ++ [' ']) (kinds ++ []) :=
    h.append Spells.nil.space (by simp; decide)
  have hspaced (name : List Char) (operands : List Operand)
      (hchars : e.chars = withOperands name operands) :
      Spells (name ++ ' ' :: commaSeparated (operands.map Operand.chars)) kinds := by
    by_cases hnil : operands = []
    · simpa [hchars, withOperands, hnil, commaSeparated] using hblank
    · simpa [hchars, withOperands, hnil] using h
  cases e with
  | instruction i => exact hspaced i.opcode.toList i.operands rfl
  | data d => exact hspaced d.mode.name.toList d.value.values rfl

/-- An entry that is read from its text is told by the two parts of the text. -/
theorem eq_of_isWritten {e e' : Entry} (h : (Statement.entry e).IsWritten maxDepth)
    (h' : (Statement.entry e').IsWritten maxDepth) (hname : e.nameChars = e'.nameChars)
    (hoperands : e.operandChars = e'.operandChars) : e = e' := by
  obtain ⟨kinds, hspells, hline⟩ := h
  obtain ⟨others, hspells', hline'⟩ := h'
  have hkinds : kinds = others := by
    have hspaced := spells_spaced hspells
    rw [hname, hoperands] at hspaced
    exact hspaced.unique (spells_spaced hspells')
  subst hkinds
  have htokens : (kinds.map (⟨·, {}⟩ : TokenKind → Token)).map Token.kind = kinds := by
    simp [Function.comp_def]
  obtain ⟨again, hagain, hread⟩ := hline _ htokens
  obtain ⟨again', hagain', hread'⟩ := hline' _ htokens
  rw [hread.statement_unique hread', hagain'] at hagain
  exact (Statement.entry.inj hagain).symm

end Entry

namespace Listing

/-! ## Lines -/

/-- A line shows a piece of a program. -/
inductive Shows : Statement → List Char → Prop where
  | segment (name : String) : Shows (.segment name) (heading name)
  | label (name : String) : Shows (.label name {}) (labelLine name)
  | entry (address : Nat) (e : Entry) : Shows (.entry e) (entryLine address e)

/-- The first character of the lines that show a piece. -/
def mark : Statement → Char
  | .segment _ => '-'
  | .label _ _ => ' '
  | .entry _ => '['

theorem Shows.head?_eq {s : Statement} {line : List Char} (h : Shows s line) :
    line.head? = some (mark s) := by
  cases h <;> rfl

/-- The headings of the segments are different. -/
theorem heading_inj {name name' : String} (h : name = textSegment ∨ name = dataSegment)
    (h' : name' = textSegment ∨ name' = dataSegment) (heq : heading name = heading name') :
    name = name' := by
  have hne : heading textSegment ≠ heading dataSegment := by decide +kernel
  rcases h with rfl | rfl <;> rcases h' with rfl | rfl
  · rfl
  · exact absurd heq hne
  · exact absurd heq.symm hne
  · rfl

theorem labelLine_inj {name name' : String} (h : labelLine name = labelLine name') :
    name = name' := by
  have hpaint : Style.green.paint (name.toList ++ [':']) =
      Style.green.paint (name'.toList ++ [':']) :=
    (List.append_right_inj "       | ".toList).mp h
  have hname := List.append_cancel_left (List.append_cancel_right hpaint)
  exact String.toList_inj.mp (List.append_cancel_right hname)

/-- Behind the digits of the address there is a bracket, and the text of the entry behind that. -/
theorem dropWhile_entryLine (address : Nat) (e : Entry) :
    (entryLine address e).tail.dropWhile Char.isDigit = "] |   ".toList ++ entryText e := by
  have hdigits : ∀ c ∈ padLeft 4 '0' (Numeral.decimal address), c.isDigit = true := by
    intro c hc
    rcases mem_padLeft hc with rfl | hdigit
    · rfl
    · exact Numeral.isDigit_of_mem_decimal address c hdigit
  have hbracket : "] |   ".toList = [']', ' ', '|', ' ', ' ', ' '] := rfl
  have hstops : Stops Char.isDigit ("] |   ".toList ++ entryText e) := by
    rw [hbracket]
    exact Stops.cons_iff.mpr rfl
  have htail : (entryLine address e).tail =
      padLeft 4 '0' (Numeral.decimal address) ++ ("] |   ".toList ++ entryText e) :=
    List.append_assoc _ _ _
  rw [htail, hstops.dropWhile_append hdigits]

/-- In the colours of a name and of operands, the name ends where the padding or the second colour
begins. -/
theorem coloured_inj {nameStyle operandStyle : Style} {name name' : List Char}
    {operands operands' : List Operand} (hname : ∀ c ∈ name, isWordChar c = true)
    (hname' : ∀ c ∈ name', isWordChar c = true)
    (h : coloured nameStyle operandStyle name operands =
      coloured nameStyle operandStyle name' operands') :
    name = name' ∧ commaSeparated (operands.map Operand.chars) =
      commaSeparated (operands'.map Operand.chars) := by
  have hstops (count : Nat) (rest : List Char) :
      Stops isWordChar (List.replicate count ' ' ++ (operandStyle.on ++ rest)) := by
    cases count with
    | zero => cases operandStyle <;> exact Stops.cons_iff.mpr rfl
    | succ count => exact Stops.cons_iff.mpr rfl
  simp only [coloured, padRight, Style.paint, List.append_assoc] at h
  have hbehind := List.append_cancel_left h
  have htake := congrArg (List.takeWhile isWordChar) hbehind
  rw [(hstops _ _).takeWhile_append hname, (hstops _ _).takeWhile_append hname'] at htake
  subst htake
  have htext := List.append_cancel_left (List.append_cancel_left (List.append_cancel_left hbehind))
  exact ⟨rfl, List.append_cancel_right htext⟩

/-- The colours of an entry tell its kind, and its text is told from them. -/
theorem entryText_inj {e e' : Entry} (he : e.WellShaped) (he' : e'.WellShaped)
    (h : entryText e = entryText e') :
    e.nameChars = e'.nameChars ∧ e.operandChars = e'.operandChars := by
  have hname := Entry.isWordChar_of_mem_nameChars he
  have hname' := Entry.isWordChar_of_mem_nameChars he'
  cases e with
  | instruction i =>
    cases e' with
    | instruction j => exact coloured_inj hname hname' h
    | data d => cases h
  | data d =>
    cases e' with
    | instruction i => cases h
    | data f => exact coloured_inj hname hname' h

/-- A piece that may stem from a source text: it has the shape of what is read, and it is read from
its own text. -/
structure Legible (s : Statement) : Prop where
  wellShaped : s.WellShaped
  isWritten : s.IsWritten maxDepth

/-- A line shows one piece only. -/
theorem leftUnique_shows : Relator.LeftUnique fun s line => Legible s ∧ Shows s line := by
  rintro s t line ⟨hs, h⟩ ⟨ht, h'⟩
  have hmark : mark s = mark t := Option.some.inj (h.head?_eq.symm.trans h'.head?_eq)
  generalize hline : line = other at h'
  cases h with
  | segment name =>
    cases h' with
    | segment name' => rw [heading_inj hs.wellShaped ht.wellShaped hline]
    | label | entry => cases hmark
  | label name =>
    cases h' with
    | label name' => rw [labelLine_inj hline]
    | segment | entry => cases hmark
  | entry address e =>
    cases h' with
    | entry address' e' =>
      have hdrop := congrArg (fun line => line.tail.dropWhile Char.isDigit) hline
      simp only [dropWhile_entryLine] at hdrop
      obtain ⟨hname, hoperands⟩ :=
        entryText_inj hs.wellShaped ht.wellShaped (List.append_cancel_left hdrop)
      rw [Entry.eq_of_isWritten hs.isWritten ht.isWritten hname hoperands]
    | segment | label => cases hmark

theorem lineFeed_not_mem_coloured {nameStyle operandStyle : Style} {name : List Char}
    {operands : List Operand} (hname : '\n' ∉ name)
    (hoperands : '\n' ∉ commaSeparated (operands.map Operand.chars)) :
    '\n' ∉ coloured nameStyle operandStyle name operands := by
  have hpadded : '\n' ∉ padRight 8 ' ' name := by
    intro hmem
    rcases mem_padRight hmem with hblank | hmem
    · cases hblank
    · exact hname hmem
  simp [coloured, hpadded, hoperands]

theorem lineFeed_not_mem_entryText {e : Entry} (h : '\n' ∉ e.nameChars ++ ' ' :: e.operandChars) :
    '\n' ∉ entryText e := by
  rw [List.mem_append, not_or, List.mem_cons, not_or] at h
  obtain ⟨hname, -, hoperands⟩ := h
  cases e <;> exact lineFeed_not_mem_coloured hname hoperands

theorem Shows.ne_nil {s : Statement} {line : List Char} (h : Shows s line) : line ≠ [] := by
  rintro rfl
  cases h.head?_eq

/-- What is shown stays on its line. -/
theorem Shows.lineFeed_not_mem {s : Statement} {line : List Char} (h : Shows s line)
    (hs : Legible s) : '\n' ∉ line := by
  cases h with
  | segment name => rcases hs.wellShaped with hname | hname <;> rw [hname] <;> decide +kernel
  | label name =>
    have hname : '\n' ∉ name.toList := fun hmem =>
      (ne_lineEnd_of_isWordChar (IsName.isWordChar hs.wellShaped _ hmem)).1 rfl
    unfold labelLine
    simp [hname]
  | entry address e =>
    obtain ⟨kinds, hspells, -⟩ := hs.isWritten
    have hline := (Entry.spells_spaced hspells).ne_lineEnd
    have haddress : '\n' ∉ padLeft 4 '0' (Numeral.decimal address) :=
      not_mem_padLeft_decimal (by decide) rfl address
    have htext : '\n' ∉ entryText e := lineFeed_not_mem_entryText fun hmem => (hline _ hmem).1 rfl
    simp [entryLine, haddress, htext]

theorem forall₂_shows_addressLines (p : Program) (name : String) (s : Segment) (address : Nat) :
    List.Forall₂ Shows (p.piecesAt name s address)
      (addressLines (p.labelsAt ⟨address, name⟩) address (s.get? address)) := by
  apply List.rel_append
  · rw [List.forall₂_map_left_iff, List.forall₂_map_right_iff, List.forall₂_same]
    exact fun label _ => .label label
  · rw [List.forall₂_map_left_iff, List.forall₂_map_right_iff, List.forall₂_same]
    exact fun entry _ => .entry address entry

end Listing

/-- A listing shows the pieces of its program, one on each line. -/
theorem Program.forall₂_shows (p : Program) :
    List.Forall₂ Listing.Shows p.pieces p.listingLines := by
  have hsame {α : Type} (l : List α) : List.Forall₂ (· = ·) l l :=
    List.forall₂_same.mpr fun _ _ => rfl
  have hsegment (name : String) (s : Segment) : List.Forall₂ Listing.Shows
      (p.segmentPieces name s) (Listing.segmentLines p.labelsByAddress name s) := by
    refine .cons (.segment name) (List.rel_flatMap (hsame _) ?_)
    rintro address _ rfl
    exact Listing.forall₂_shows_addressLines p name s address
  refine List.rel_flatMap (hsame p.segments.entries) ?_
  rintro ⟨name, s⟩ _ rfl
  exact hsegment name s

/-- The pieces of a program that is read may stem from a source text. -/
theorem legible_of_mem_pieces {source : String} {p : Program} (h : parse source = .ok p) :
    ∀ piece ∈ p.pieces, Listing.Legible piece := by
  obtain ⟨statements, hread, hp⟩ := parse_eq_ok_iff.mp h
  have hstems := stemsFrom_of_resolve hp
  intro piece hpiece
  refine ⟨?_, isWritten_of_mem_pieces hstems (isWritten_of_statementsOf hread) piece hpiece⟩
  exact hstems.forall_mem_pieces (wellShaped_of_statementsOf hread) (.inl rfl)
    (fun _ _ hname => hname) piece hpiece

/-- The lines of a listing show what may stem from a source text, if the program does. -/
theorem forall₂_shows_of_parse {source : String} {p : Program} (h : parse source = .ok p) :
    List.Forall₂ (fun s line => Listing.Legible s ∧ Listing.Shows s line)
      p.pieces p.listingLines :=
  (List.forall₂_and_left _ _).mpr ⟨legible_of_mem_pieces h, p.forall₂_shows⟩

theorem ne_nil_and_not_mem_of_mem_listingLines {source : String} {p : Program}
    (h : parse source = .ok p) : ∀ line ∈ p.listingLines, line ≠ [] ∧ '\n' ∉ line := by
  intro line hline
  obtain ⟨hlength, hshows⟩ := List.forall₂_iff_get.mp (forall₂_shows_of_parse h)
  obtain ⟨i, hi, rfl⟩ := List.mem_iff_getElem.mp hline
  obtain ⟨hlegible, hshown⟩ := hshows i (hlength ▸ hi) hi
  exact ⟨hshown.ne_nil, hshown.lineFeed_not_mem hlegible⟩

/-- Programs that are read and have the same listing have the same segments and, up to their
order, the same labels. -/
theorem eq_of_listing_eq (source other : String) (p q : Program) (hp : parse source = .ok p)
    (hq : parse other = .ok q) (h : p.listing = q.listing) :
    p.segments = q.segments ∧ p.labels.entries.Perm q.labels.entries := by
  have hlines : p.listingLines = q.listingLines :=
    joinLines_inj (ne_nil_and_not_mem_of_mem_listingLines hp)
      (ne_nil_and_not_mem_of_mem_listingLines hq) (String.ofList_injective h)
  have hshows := forall₂_shows_of_parse hp
  rw [hlines] at hshows
  have hpieces : p.pieces = q.pieces :=
    List.left_unique_forall₂' Listing.leftUnique_shows hshows (forall₂_shows_of_parse hq)
  -- The same pieces make up both programs.
  obtain ⟨statements, -, hresolve⟩ := parse_eq_ok_iff.mp hp
  obtain ⟨statements', -, hresolve'⟩ := parse_eq_ok_iff.mp hq
  obtain ⟨again, hagain, hsegments, hlabels⟩ :=
    Program.exists_resolve_pieces (Immediate.labelsInside_of_resolve hresolve)
  obtain ⟨again', hagain', hsegments', hlabels'⟩ :=
    Program.exists_resolve_pieces (Immediate.labelsInside_of_resolve hresolve')
  rw [hpieces, hagain'] at hagain
  obtain rfl := Except.ok.inj hagain
  exact ⟨hsegments.symm.trans hsegments', hlabels.symm.trans hlabels'⟩

/-- Two orders of the segments, and so of the labels, in source texts with one listing. -/
theorem eq_of_listing_eq_of_reordered_labels :
    let source := "t: lw $t0, -2($sp)\n.data\nd: .float -0.0"
    let other := ".text\n.data\nd: .float -0.0\n.text\nt: lw $t0, -2($sp)"
    let load : Statement := .entry (.instruction ⟨"lw", some
      [.register "$t0" .named, .indexed (.int (-2)) (.register "$sp" .named)]⟩)
    let zero : Statement := .entry (.data ⟨.float, .scalar (.float (.finite true ⟨0, by decide⟩))⟩)
    let statements : List Statement := [.label "t" ⟨1, 1⟩, load, .segment ".data",
      .label "d" ⟨3, 1⟩, zero]
    let others : List Statement := [.segment ".text", .segment ".data", .label "d" ⟨3, 1⟩, zero,
      .segment ".text", .label "t" ⟨5, 1⟩, load]
    let p : Program := (statements.foldl Immediate.step {}).program
    let q : Program := (others.foldl Immediate.step {}).program
    parse source = .ok p ∧ parse other = .ok q ∧ p.listing = q.listing ∧ p.labels ≠ q.labels ∧
      p.segments = q.segments ∧ p.labels.entries.Perm q.labels.entries := by
  intro source other load zero statements others p q
  have hread : statementsOf source = .ok statements := by decide +kernel +zetaReduce
  have hread' : statementsOf other = .ok others := by decide +kernel +zetaReduce
  have hp : parse source = .ok p :=
    parse_eq_ok_iff.mpr ⟨statements, hread, resolve_eq_ok_iff.mpr ⟨by decide, rfl⟩⟩
  have hq : parse other = .ok q :=
    parse_eq_ok_iff.mpr ⟨others, hread', resolve_eq_ok_iff.mpr ⟨by decide, rfl⟩⟩
  have hlisting : p.listing = q.listing := by decide +kernel +zetaReduce
  have hlabels : p.labels ≠ q.labels := by decide +kernel +zetaReduce
  exact ⟨hp, hq, hlisting, hlabels, eq_of_listing_eq source other p q hp hq hlisting⟩

end MipsAssembly
