import MipsAssembly.Proofs.Render.Statement
import MipsAssembly.Proofs.Resolution.Origins
import MipsAssembly.Proofs.Resolution.Rebuilding

/-!
# Programs written piece by piece

The pieces of a program that was read can be written one on each line: every segment, label and
entry of the program stems from a statement of its source text.  Reading the lines gives the
pieces again, up to the positions of labels, and these do not matter for the program.

## Main definitions

- `resolve_of_unplaced_eq` — positions do not matter for a program.
- `isWritten_of_mem_pieces` — the pieces of a program that was read can be written.
- `parse_sourceText_pieces` — reading the written pieces gives the program again.
-/

namespace MipsAssembly

/-! ## Positions do not matter -/

theorem Statement.unplaced_eq_mapPosition : unplaced = mapPosition .forget := by
  funext statement
  cases statement <;> rfl

/-- Statements that differ in the positions of labels only make the same program. -/
theorem resolve_of_unplaced_eq {statements others : List Statement} {p : Program}
    (h : others.map Statement.unplaced = statements.map Statement.unplaced)
    (hp : resolve statements = .ok p) : resolve others = .ok p := by
  rw [Statement.unplaced_eq_mapPosition] at h
  have hsame := resolve_mapPosition .forget others
  rw [h, resolve_mapPosition, hp] at hsame
  exact eq_ok_of_mapError_eq_ok hsame.symm

/-! ## Writing the pieces -/

theorem Statement.IsWritten.label_congr {limit : Nat} {name : String} {position : Position}
    (h : (Statement.label name position).IsWritten limit) (position' : Position) :
    (Statement.label name position').IsWritten limit :=
  h

/-- What holds of the statements that a program stems from holds of its pieces, if it does not
depend on positions and holds of the segment that is current at the start. -/
theorem Program.StemsFrom.forall_mem_pieces {P : Statement → Prop} {statements : List Statement}
    {p : Program} (h : p.StemsFrom statements) (hP : ∀ statement ∈ statements, P statement)
    (hstart : P (.segment textSegment))
    (hlabel : ∀ name position, P (.label name position) → P (.label name {})) :
    ∀ piece ∈ p.pieces, P piece := by
  intro piece hpiece
  obtain ⟨⟨name, s⟩, hsegment, hpiece⟩ := List.mem_flatMap.mp hpiece
  rcases List.mem_cons.mp hpiece with rfl | hpiece
  · rcases h.segments name (List.mem_map_of_mem hsegment) with rfl | hmem
    · exact hstart
    · exact hP _ hmem
  obtain ⟨address, -, hpiece⟩ := List.mem_flatMap.mp hpiece
  rcases List.mem_append.mp hpiece with hpiece | hpiece
  · obtain ⟨label, hname, rfl⟩ := List.mem_map.mp hpiece
    rw [Program.labelsAt_eq_filter] at hname
    obtain ⟨place, hplace, rfl⟩ := List.mem_map.mp hname
    have hkey := List.mem_map_of_mem (f := Prod.fst) (List.mem_filter.mp hplace).1
    obtain ⟨position, hmem⟩ := h.labels place.1 hkey
    exact hlabel place.1 position (hP _ hmem)
  · obtain ⟨entry, hat, rfl⟩ := List.mem_map.mp hpiece
    have hget : s.get? address = some entry := Option.mem_toList.mp hat
    exact hP _ (h.entries name s hsegment entry (List.mem_of_getElem? hget))

/-- The pieces of a program are written as lines if the statements are that it was made of. -/
theorem isWritten_of_mem_pieces {limit : Nat} {statements : List Statement} {p : Program}
    (hp : p.StemsFrom statements)
    (hwritten : ∀ statement ∈ statements, statement.IsWritten limit) :
    ∀ piece ∈ p.pieces, piece.IsWritten limit := by
  -- The segment that is current at the start need not be switched to.
  have hstart : (Statement.segment textSegment).IsWritten limit :=
    Statement.isWritten_of_body (.segment (.inl rfl)) (by simp [TokenKind.Lexical])
  exact hp.forall_mem_pieces hwritten hstart fun _ _ hlabel => hlabel.label_congr {}

/-! ## Reading the written pieces -/

theorem isWritten_of_statementsOf {source : String} {statements : List Statement}
    (h : statementsOf source = .ok statements) :
    ∀ statement ∈ statements, statement.IsWritten maxDepth := by
  obtain ⟨tokens, hlex, hparse⟩ := statementsOf_eq_ok_iff.mp h
  exact (source_of_parseStatements hparse).isWritten (lex_lexical hlex)

theorem exists_statementsOf_of_isWritten {statements : List Statement}
    (h : ∀ statement ∈ statements, statement.IsWritten maxDepth) :
    ∃ again, statementsOf (Statement.sourceText statements) = .ok again ∧
      again.map Statement.unplaced = statements.map Statement.unplaced := by
  obtain ⟨written, again, hlexes, hagain, hsource⟩ := Statement.exists_source_of_isWritten h 1
  have hwords : lex (Statement.sourceText statements) = .ok written := by
    rw [lex, sourceLines_sourceText h, hlexes]
  exact ⟨again, statementsOf_eq_ok_iff.mpr ⟨written, hwords, hsource.parseStatements_eq⟩, hagain⟩

/-- The pieces of a program that was read, one on each line, are read as a program with the same
segments and, up to their order, the same labels. -/
theorem parse_sourceText_pieces (source : String) (p : Program) (h : parse source = .ok p) :
    ∃ q, parse (Statement.sourceText p.pieces) = .ok q ∧ q.segments = p.segments ∧
      q.labels.entries.Perm p.labels.entries := by
  obtain ⟨statements, hread, hp⟩ := parse_eq_ok_iff.mp h
  have hinside : Immediate.LabelsInside p := by
    obtain ⟨-, rfl⟩ := resolve_eq_ok_iff.mp hp
    exact Immediate.labelsInside_foldl fun label hlabel => by cases hlabel
  obtain ⟨q, hq, hsegments, hlabels⟩ := Program.exists_resolve_pieces hinside
  -- What is read differs from the pieces in the positions of labels.
  have hwritten :=
    isWritten_of_mem_pieces (stemsFrom_of_resolve hp) (isWritten_of_statementsOf hread)
  obtain ⟨again, hagain, hunplaced⟩ := exists_statementsOf_of_isWritten hwritten
  have hresolve := resolve_of_unplaced_eq hunplaced hq
  exact ⟨q, parse_eq_ok_iff.mpr ⟨again, hagain, hresolve⟩, hsegments, hlabels⟩

/-- Labels behind the last entries of both segments, one of them declared between other segments. -/
theorem parse_sourceText_pieces_of_trailing_labels :
    let source := "a: b: add $t0, 4($sp)\nc:\n.data\nd: .asciiz \"x\\n\"\nf:\n.text\ng: nop\nh:"
    let statements : List Statement :=
      [.label "a" ⟨1, 1⟩, .label "b" ⟨1, 4⟩,
        .entry (.instruction ⟨"add", some
          [.register "$t0" .named, .indexed (.int 4) (.register "$sp" .named)]⟩),
        .label "c" ⟨2, 1⟩, .segment ".data", .label "d" ⟨4, 1⟩,
        .entry (.data ⟨.asciiz, .scalar (.text "x\n")⟩), .label "f" ⟨5, 1⟩,
        .segment ".text", .label "g" ⟨7, 1⟩, .entry (.instruction ⟨"nop", none⟩),
        .label "h" ⟨8, 1⟩]
    let p : Program := (statements.foldl Immediate.step {}).program
    parse source = .ok p ∧
    ∃ q, parse (Statement.sourceText p.pieces) = .ok q ∧ q.segments = p.segments ∧
      q.labels.entries.Perm p.labels.entries := by
  intro source statements p
  have hread : statementsOf source = .ok statements := by decide +kernel +zetaReduce
  have hresolve : resolve statements = .ok p := resolve_eq_ok_iff.mpr ⟨by decide, rfl⟩
  have hparse : parse source = .ok p := parse_eq_ok_iff.mpr ⟨statements, hread, hresolve⟩
  exact ⟨hparse, parse_sourceText_pieces source p hparse⟩

end MipsAssembly
