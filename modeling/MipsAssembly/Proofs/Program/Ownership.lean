import MipsAssembly.Proofs.Assembly.Survival
import MipsAssembly.Proofs.Listing.Rows
import MipsAssembly.Proofs.Program.Addresses

/-!
# Labels that have lost their segments

The JSON text of a program does not tell the segments of its labels, so they come back in a segment
without a name, which no program that is read has.  Such labels have no lines in the listing and no
entries, and those of one address are in one group, whatever their segments were.

## Main definitions

- `Program.rows_bare` — the rows that are left.
- `Program.listing_bare` — the lines that are left.
- `Program.labelEntry?_bare` — the labels point at nothing.
- `Program.namesAt_bareLabels` — the labels of an address are in one group.
- `importProgram_forgets_owners` — what is left of a program that is read.
-/

namespace MipsAssembly

open Listing (Row)

/-- Is this the row of a label? -/
def Listing.Row.isLabel : Row → Bool
  | label _ _ => true
  | heading _ | entry _ _ => false

namespace Program

variable {p : Program} {name : String}

/-! ## Rows -/

theorem labelRows_bare (h : name ≠ "") (address : Nat) :
    p.bare.labelRows ⟨address, name⟩ = [] := by
  rw [labelRows, entries_labels_bare, List.map_eq_nil_iff, List.filter_eq_nil_iff]
  intro label hlabel
  obtain ⟨owned, -, rfl⟩ := List.mem_map.mp hlabel
  simp [Label.bare, Ne.symm h]

theorem filter_labelRows (p : Program) (place : Label) :
    (p.labelRows place).filter (fun row => !row.isLabel) = [] := by
  rw [labelRows, List.filter_eq_nil_iff]
  intro row hrow
  obtain ⟨label, -, rfl⟩ := List.mem_map.mp hrow
  simp [Row.isLabel]

theorem rowsAt_bare (h : name ≠ "") (s : Segment) (address : Nat) :
    p.bare.rowsAt name s address = (p.rowsAt name s address).filter fun row => !row.isLabel := by
  have hentry : ((s.get? address).toList.map (Row.entry ⟨address, name⟩)).filter
      (fun row => !row.isLabel) = (s.get? address).toList.map (Row.entry ⟨address, name⟩) := by
    rw [List.filter_eq_self]
    intro row hrow
    obtain ⟨e, -, rfl⟩ := List.mem_map.mp hrow
    rfl
  rw [rowsAt, rowsAt, labelRows_bare h, List.filter_append, filter_labelRows, hentry]

/-- Without the segments of labels the rows of labels are missing, and no others. -/
theorem rows_bare (h : "" ∉ p.segments.keys) :
    p.bare.rows = p.rows.filter fun row => !row.isLabel := by
  rw [rows, rows, List.filter_flatMap]
  refine List.flatMap_congr ?_
  rintro ⟨name, s⟩ hsegment
  have hname : name ≠ "" := by
    rintro rfl
    exact h (List.mem_map_of_mem hsegment)
  show p.bare.segmentRows name s = (p.segmentRows name s).filter fun row => !row.isLabel
  rw [segmentRows, segmentRows, List.filter_cons_of_pos rfl, List.filter_flatMap]
  exact congrArg _ (List.flatMap_congr fun address _ => rowsAt_bare hname s address)

/-- The first character tells the line of a label from all others. -/
theorem not_mem_map_labelLine {line : List Char} (h : line.head? ≠ some ' ')
    (names : List String) : line ∉ names.map Listing.labelLine := by
  intro hline
  obtain ⟨name, -, rfl⟩ := List.mem_map.mp hline
  exact h rfl

theorem mem_keys_of_label_mem_rows {place : Label} (h : .label name place ∈ p.rows) :
    name ∈ p.labels.keys := by
  obtain ⟨segment, -, hsegment⟩ := List.mem_flatMap.mp h
  rcases List.mem_cons.mp hsegment with hheading | hrows
  · cases hheading
  obtain ⟨address, -, hat⟩ := List.mem_flatMap.mp hrows
  rcases List.mem_append.mp hat with hrow | hentry
  · obtain ⟨label, hlabel, heq⟩ := List.mem_map.mp hrow
    cases heq
    exact List.mem_map_of_mem (List.mem_filter.mp hlabel).1
  · obtain ⟨e, -, heq⟩ := List.mem_map.mp hentry
    cases heq

/-- The rows of labels are those whose lines are the lines of labels. -/
theorem isLabel_eq_of_mem_rows {row : Row} (h : row ∈ p.rows) :
    row.isLabel = decide (row.line ∈ p.labels.keys.map Listing.labelLine) := by
  cases row with
  | heading segment =>
    have hdash : (Row.heading segment).line.head? = some '-' := rfl
    exact (decide_eq_false (not_mem_map_labelLine (by simp [hdash]) _)).symm
  | entry place e =>
    have hbracket : (Row.entry place e).line.head? = some '[' := rfl
    exact (decide_eq_false (not_mem_map_labelLine (by simp [hbracket]) _)).symm
  | label name place =>
    exact (decide_eq_true (List.mem_map_of_mem (mem_keys_of_label_mem_rows h))).symm

/-! ## Lines -/

/-- The lines of the listing without the segments of labels are the others than those of labels. -/
theorem listingLines_bare (h : "" ∉ p.segments.keys) :
    p.bare.listingLines =
      p.listingLines.filter fun line => line ∉ p.labels.keys.map Listing.labelLine := by
  rw [← map_line_rows, ← map_line_rows, rows_bare h, List.filter_map]
  refine congrArg _ (List.filter_congr fun row hrow => ?_)
  rw [isLabel_eq_of_mem_rows hrow, Function.comp_apply, decide_not]

theorem listingLines_eq_nil_iff : p.listingLines = [] ↔ p.segments.entries = [] := by
  rw [listingLines, List.flatMap_eq_nil_iff]
  constructor
  · intro h
    refine List.eq_nil_iff_forall_not_mem.mpr fun segment hsegment => ?_
    exact List.cons_ne_nil _ _ (h segment hsegment)
  · intro h
    simp [h]

/-- The lines of a listing whose lines have no line ends; there is an empty one if there are no
segments. -/
theorem splitOn_listing (h : ∀ line ∈ p.listingLines, '\n' ∉ line) :
    p.listing.toList.splitOn '\n' =
      if p.segments.entries = [] then [[]] else p.listingLines := by
  rw [listing, String.toList_ofList]
  split
  · next hnone =>
    rw [listingLines_eq_nil_iff.mpr hnone]
    rfl
  · next hsome => exact splitOn_joinLines h fun hnil => hsome (listingLines_eq_nil_iff.mp hnil)

theorem listing_bare (h : "" ∉ p.segments.keys) (hlines : ∀ line ∈ p.listingLines, '\n' ∉ line) :
    p.bare.listing.toList.splitOn '\n' = (p.listing.toList.splitOn '\n').filter fun line =>
      line ∉ p.labels.keys.map Listing.labelLine := by
  have hbare : ∀ line ∈ p.bare.listingLines, '\n' ∉ line := by
    intro line hline
    rw [listingLines_bare h] at hline
    exact hlines line (List.mem_filter.mp hline).1
  have hsegments : p.bare.segments = p.segments := rfl
  rw [splitOn_listing hbare, splitOn_listing hlines, hsegments, listingLines_bare h]
  split
  · -- A line of a label is not empty.
    refine (List.filter_eq_self.mpr fun line hline => ?_).symm
    rw [List.mem_singleton.mp hline]
    exact decide_eq_true (not_mem_map_labelLine (by decide) _)
  · rfl

/-! ## Labels -/

theorem label?_bare (p : Program) (name : String) :
    p.bare.label? name = (p.label? name).map Label.bare := by
  rw [label?, OrderedMap.get?, entries_labels_bare]
  exact OrderedMap.lookup_map p.labels.entries Label.bare name

/-- A label without its segment points at nothing. -/
theorem labelEntry?_bare (h : "" ∉ p.segments.keys) (name : String) :
    p.bare.labelEntry? name = none := by
  have hsegment : p.bare.segment? "" = none := OrderedMap.lookup_eq_none_iff.mpr h
  unfold labelEntry?
  rw [label?_bare]
  cases p.label? name with
  | none => rfl
  | some label =>
    rw [Option.map_some, Option.bind_some, Label.bare, hsegment]
    rfl

/-- All labels of an address are in one group. -/
theorem namesAt_bareLabels (p : Program) (place : Label) :
    namesAt p.bareLabels place = if place.segment = "" then
      p.labels.keys.filter fun name => (p.label? name).any fun l => l.address = place.address
    else [] := by
  have hplaces (label : String × Label) : decide (label.2.bare = place) =
      (decide (place.segment = "") && decide (label.2.address = place.address)) := by
    obtain ⟨address, segment⟩ := place
    simp [Label.bare, eq_comm, Bool.and_comm]
  have hnames : namesAt p.bareLabels place = (p.labels.entries.filter fun label =>
      decide (place.segment = "") && decide (label.2.address = place.address)).map Prod.fst := by
    rw [namesAt, bareLabels, List.filter_map, List.map_map]
    refine congrArg _ (List.filter_congr fun label _ => hplaces label)
  rw [hnames]
  split
  · next hsegment =>
    simp only [hsegment, decide_true, Bool.true_and]
    exact p.labels.map_fst_filter fun l => l.address = place.address
  · next hsegment => simp [hsegment]

/-- No segment of a program that is read is without a name. -/
theorem WellShaped.empty_not_mem_segments (h : p.WellShaped) : "" ∉ p.segments.keys := by
  intro hmem
  rcases h.segments "" hmem with htext | hdata
  · exact absurd htext (by decide)
  · exact absurd hdata (by decide)

end Program

/-- If the text of a program that is read is accepted, what comes back has lost the segments of its
labels, and nothing else.

Its listing is the same without the lines of labels, and what is left are the rows of segments and
entries.  No label points at an entry.  Each group of labels has an address and no segment, and is
made up of all labels of that address, in the order of their declarations. -/
theorem importProgram_forgets_owners (source : String) (p q : Program) (h : parse source = .ok p)
    (hq : importProgram p.exportJson = .ok q) :
    q.segments = p.segments ∧ q.switches = p.switches ∧ q.exportJson = p.exportJson ∧
    q.labels.entries = p.labels.entries.map (fun (name, l) => (name, ⟨l.address, ""⟩)) ∧
    q.listing.toList.splitOn '\n' = (p.listing.toList.splitOn '\n').filter (fun line =>
      line ∉ p.labels.keys.map Listing.labelLine) ∧
    p.listingLines = p.rows.map Row.line ∧
    q.listingLines = (p.rows.filter fun row => !row.isLabel).map Row.line ∧
    p.listing.toList = joinLines (p.rows.map Row.line) ∧
    q.listing.toList = joinLines ((p.rows.filter fun row => !row.isLabel).map Row.line) ∧
    (∀ name, q.labelEntry? name = none) ∧
    (q.labelsByAddress.map Prod.fst).Nodup ∧
    ∃ statements, statementsOf source = .ok statements ∧
      ∀ place names, (place, names) ∈ q.labelsByAddress ↔
        names ≠ [] ∧ place.segment = "" ∧ names = (declaredNames statements).filter fun name =>
          (p.label? name).any fun l => l.address = place.address := by
  obtain ⟨statements, hread, hresolve⟩ := parse_eq_ok_iff.mp h
  have hshaped := (stemsFrom_of_resolve hresolve).wellShaped (wellShaped_of_statementsOf hread)
  have hsegments := hshaped.empty_not_mem_segments
  have hexportable := Program.exportable_of_importProgram hshaped.portable hq
  obtain rfl : p.bare = q := Except.ok.inj (hexportable.importProgram_eq.symm.trans hq)
  have hkeys : p.labels.keys = declaredNames statements := by
    obtain ⟨hnodup, rfl⟩ := resolve_eq_ok_iff.mp hresolve
    exact Immediate.keys_foldl hnodup
  have htext : p.bare.toJson = p.toJson :=
    Program.toJson_eq_of_bareLabels rfl rfl p.entries_labels_bare
  have hlines : ∀ line ∈ p.listingLines, '\n' ∉ line := fun line hline =>
    (ne_nil_and_not_mem_of_mem_listingLines h line hline).2
  have hindex := p.bare.isIndex_labelsByAddress
  refine ⟨rfl, rfl, congrArg JsonValue.write htext, p.entries_labels_bare,
    Program.listing_bare hsegments hlines, p.map_line_rows.symm, ?_, p.listing_eq_joinLines, ?_,
    Program.labelEntry?_bare hsegments, hindex.nodup, statements, hread, fun place names => ?_⟩
  · rw [← Program.map_line_rows, Program.rows_bare hsegments]
  · rw [Program.listing_eq_joinLines, Program.rows_bare hsegments]
  · rw [hindex.mem_iff, Program.entries_labels_bare, Program.namesAt_bareLabels, hkeys]
    split
    · next hplace => simp [hplace]
    · next hplace =>
      constructor
      · rintro ⟨hne, hnames⟩
        exact absurd hnames hne
      · rintro ⟨-, hempty, -⟩
        exact absurd hempty hplace

/-- Labels of two segments come to stand at one address, stacked above an entry or behind the last
one, and none of them is listed any more. -/
theorem importProgram_forgets_owners_of_shared_addresses :
    let source := "a:\nb: nop\n.data\nc: .word 1\nd:\ne:"
    let nop : Entry := .instruction (.ofOperands "nop" [])
    let word : Entry := .data ⟨.word, .scalar (.int 1)⟩
    let statements : List Statement :=
      [.label "a" ⟨1, 1⟩, .label "b" ⟨2, 1⟩, .entry nop, .segment ".data", .label "c" ⟨4, 1⟩,
        .entry word, .label "d" ⟨5, 1⟩, .label "e" ⟨6, 1⟩]
    let p : Program := (statements.foldl Immediate.step {}).program
    ∃ q, parse source = .ok p ∧ importProgram p.exportJson = .ok q ∧
      q.listing.toList.splitOn '\n' = (p.listing.toList.splitOn '\n').filter (fun line =>
        line ∉ p.labels.keys.map Listing.labelLine) ∧
      q.listingLines = [.heading ".text", .entry ⟨0, ".text"⟩ nop, .heading ".data",
        .entry ⟨0, ".data"⟩ word].map Row.line ∧
      q.listing.toList = joinLines q.listingLines ∧
      p.labelEntry? "c" = some word ∧ q.labelEntry? "c" = none ∧
      p.labelsByAddress = [(⟨0, ".text"⟩, ["a", "b"]), (⟨0, ".data"⟩, ["c"]),
        (⟨1, ".data"⟩, ["d", "e"])] ∧
      q.labelsByAddress = [(⟨0, ""⟩, ["a", "b", "c"]), (⟨1, ""⟩, ["d", "e"])] := by
  intro source nop word statements p
  have hread : statementsOf source = .ok statements := by decide +kernel +zetaReduce
  have hp : parse source = .ok p :=
    parse_eq_ok_iff.mpr ⟨statements, hread, resolve_eq_ok_iff.mpr ⟨by decide, rfl⟩⟩
  have hexportable : p.Exportable :=
    ⟨by decide +kernel +zetaReduce, by decide +kernel +zetaReduce, by decide +kernel +zetaReduce⟩
  have hq : importProgram p.exportJson = .ok p.bare := hexportable.importProgram_eq
  obtain ⟨-, -, -, -, hlisting, -, hkept, -, htext, hentry, -⟩ :=
    importProgram_forgets_owners source p p.bare hp hq
  have hrows : p.rows.filter (fun row => !row.isLabel) = [.heading ".text",
      .entry ⟨0, ".text"⟩ nop, .heading ".data", .entry ⟨0, ".data"⟩ word] := by
    decide +kernel +zetaReduce
  rw [hrows] at hkept htext
  exact ⟨p.bare, hp, hq, hlisting, hkept, hkept ▸ htext, by decide +kernel +zetaReduce, hentry "c",
    by decide +kernel +zetaReduce, by decide +kernel +zetaReduce⟩

end MipsAssembly
