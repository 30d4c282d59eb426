import MipsAssembly.Proofs.Listing

/-!
# The rows of a listing

A listing has one line for each segment, each label and each entry of its program, and no other
lines.  Segment by segment and address by address, the labels of a place stand on the lines above
its entry, in the order of their declarations, and those behind the last entry stand at the end of
their segment.

## Main definitions

- `Listing.Row`, `Program.rows` — the rows of a listing, in order.
- `Listing.ShowsEntry` — a line shows the address and the text of an entry.
- `Program.rows_perm` — the rows are the segments, the labels and the entries.
- `Program.exists_below_label` — what stands below the row of a label.
- `listing_shows_everything_once` — the lines of the listing of a program that is read.
-/

namespace MipsAssembly

namespace Listing

/-- A row of a listing. -/
inductive Row where
  | heading (segment : String)
  | label (name : String) (place : Label)
  | entry (place : Label) (e : Entry)
  deriving DecidableEq

/-- The line that a row is shown on. -/
def Row.line : Row → List Char
  | heading segment => Listing.heading segment
  | label name _ => labelLine name
  | entry place e => entryLine place.address e

/-- A line shows an entry at its address: first the address in at least four digits, then the name
of the entry in at least eight characters and its operands, in a colour each. -/
def ShowsEntry (address : Nat) (e : Entry) (line : List Char) : Prop :=
  ∃ nameStyle operandStyle : Style,
    line = '[' :: padLeft 4 '0' (Numeral.decimal address) ++ "] |   ".toList ++
      (nameStyle.on ++ padRight 8 ' ' e.nameChars ++ operandStyle.paint e.operandChars)

theorem showsEntry_entryLine (address : Nat) (e : Entry) :
    ShowsEntry address e (entryLine address e) := by
  cases e with
  | instruction i => exact ⟨.red, .blue, rfl⟩
  | data d => exact ⟨.cyan, .yellow, rfl⟩

end Listing

open Listing (Row)

namespace Program

/-- The rows of the labels of a place, in the order of the labels. -/
def labelRows (p : Program) (place : Label) : List Row :=
  (p.labels.entries.filter fun label => label.2 = place).map fun label => .label label.1 label.2

/-- The rows of an address: its labels and its entry, if there is one. -/
def rowsAt (p : Program) (name : String) (s : Segment) (address : Nat) : List Row :=
  p.labelRows ⟨address, name⟩ ++ (s.get? address).toList.map (.entry ⟨address, name⟩)

/-- The rows of a segment: its heading and those of its addresses, up to the one behind the last
entry. -/
def segmentRows (p : Program) (name : String) (s : Segment) : List Row :=
  .heading name :: (List.range (s.length + 1)).flatMap (p.rowsAt name s)

/-- The rows of a listing. -/
def rows (p : Program) : List Row :=
  p.segments.entries.flatMap fun (name, s) => p.segmentRows name s

/-- The rows of all entries. -/
def entryRows (p : Program) : List Row :=
  p.segments.entries.flatMap fun (name, s) =>
    s.entries.zipIdx.map fun (e, address) => .entry ⟨address, name⟩ e

variable {p : Program} {name : String} {s : Segment} {address : Nat}

/-! ## Rows and lines -/

theorem map_line_labelRows (p : Program) (place : Label) :
    (p.labelRows place).map Row.line = (p.labelsAt place).map Listing.labelLine := by
  rw [labelRows, labelsAt_eq_filter, List.map_map, List.map_map]
  rfl

theorem map_line_rowsAt (p : Program) (name : String) (s : Segment) (address : Nat) :
    (p.rowsAt name s address).map Row.line =
      Listing.addressLines (p.labelsAt ⟨address, name⟩) address (s.get? address) := by
  rw [rowsAt, List.map_append, map_line_labelRows, List.map_map]
  rfl

/-- The lines of a listing show its rows. -/
theorem map_line_rows (p : Program) : p.rows.map Row.line = p.listingLines := by
  have hsegment (name : String) (s : Segment) :
      (p.segmentRows name s).map Row.line =
        Listing.segmentLines p.labelsByAddress name s := by
    rw [segmentRows, List.map_cons, List.map_flatMap]
    simp only [map_line_rowsAt]
    rfl
  rw [rows, List.map_flatMap]
  simp only [hsegment]
  rfl

/-- A listing is made up of the lines of its rows. -/
theorem listing_eq_joinLines (p : Program) : p.listing.toList = joinLines (p.rows.map Row.line) := by
  rw [listing, String.toList_ofList, map_line_rows]

/-! ## Every piece has a row -/

/-- The entries of a list at the addresses up to the one behind the last. -/
theorem flatMap_getElem?_range (entries : List Entry) (row : Nat → Entry → Row) {count : Nat}
    (hcount : entries.length ≤ count) :
    (List.range count).flatMap (fun address => entries[address]?.toList.map (row address)) =
      entries.zipIdx.map fun (e, address) => row address e := by
  induction entries generalizing row count with
  | nil => simp
  | cons e entries ih =>
    cases count with
    | zero => exact absurd hcount (Nat.not_succ_le_zero entries.length)
    | succ count =>
      have hrest := ih (fun address => row (address + 1)) (Nat.le_of_succ_le_succ hcount)
      simp only [List.range_succ_eq_map, List.flatMap_cons, List.flatMap_map,
        List.getElem?_cons_zero, List.getElem?_cons_succ, Nat.succ_eq_add_one, hrest]
      rw [List.zipIdx_cons, List.zipIdx_succ, List.map_cons, List.map_map]
      rfl

theorem map_labelsBelow (p : Program) (name : String) (address : Nat) :
    (p.labelsBelow name address).map (fun label => Row.label label.1 label.2) =
      (List.range address).flatMap fun address => p.labelRows ⟨address, name⟩ := by
  simp only [labelsBelow, map_labelsAt, List.map_flatMap, labelRows]

/-- The rows of a segment are its heading, its labels and its entries. -/
theorem segmentRows_perm (p : Program) (name : String) (s : Segment) :
    (p.segmentRows name s).Perm
      ([.heading name] ++ ((p.labelsBelow name (s.length + 1)).map
          (fun label => .label label.1 label.2) ++
        s.entries.zipIdx.map fun (e, address) => .entry ⟨address, name⟩ e)) := by
  have hentries := flatMap_getElem?_range s.entries (fun address => Row.entry ⟨address, name⟩)
    (Nat.le_succ s.entries.length)
  rw [map_labelsBelow, ← hentries]
  exact (List.flatMap_append_perm _ _ _).symm.cons _

/-- The rows of a listing are the headings of the segments, the labels and the entries. -/
theorem rows_perm (h : Immediate.LabelsInside p) :
    p.rows.Perm (p.segments.keys.map .heading ++
      (p.labels.entries.map (fun label => .label label.1 label.2) ++ p.entryRows)) := by
  have hheadings : p.segments.entries.flatMap (fun (name, _) => [Row.heading name]) =
      p.segments.keys.map .heading := by
    rw [OrderedMap.keys, List.map_map, List.map_eq_flatMap]
    rfl
  have hlabels : (p.segments.entries.flatMap fun (name, s) =>
      (p.labelsBelow name (s.length + 1)).map fun label => Row.label label.1 label.2).Perm
      (p.labels.entries.map fun label => .label label.1 label.2) := by
    rw [← List.map_flatMap]
    exact (placedLabels_perm h).map _
  -- Segment by segment, the rows are sorted by their kinds, and then the kinds are put together.
  have hsegments : p.rows.Perm (p.segments.entries.flatMap fun (name, s) =>
      [Row.heading name] ++ ((p.labelsBelow name (s.length + 1)).map
          (fun label => .label label.1 label.2) ++
        s.entries.zipIdx.map fun (e, address) => .entry ⟨address, name⟩ e)) :=
    List.Perm.flatMap_left _ fun segment _ => p.segmentRows_perm segment.1 segment.2
  refine hsegments.trans ((List.flatMap_append_perm _ _ _).symm.trans ?_)
  rw [hheadings]
  refine List.Perm.append_left _ ((List.flatMap_append_perm _ _ _).symm.trans ?_)
  exact hlabels.append_right _

theorem nodup_entryRows (p : Program) : p.entryRows.Nodup := by
  refine List.nodup_flatMap.mpr ⟨?_, ?_⟩
  · rintro ⟨name, s⟩ -
    have hindices : (s.entries.zipIdx.map Prod.snd).Nodup := by
      rw [List.zipIdx_map_snd]
      exact List.nodup_range'
    refine hindices.of_map.map ?_
    rintro ⟨e, address⟩ ⟨e', address'⟩ heq
    cases heq
    rfl
  · refine (List.pairwise_map.mp p.segments.nodup).imp ?_
    rintro ⟨name, s⟩ ⟨name', s'⟩ hne row hrow hrow'
    obtain ⟨⟨e, address⟩, -, rfl⟩ := List.mem_map.mp hrow
    obtain ⟨⟨e', address'⟩, -, heq⟩ := List.mem_map.mp hrow'
    cases heq
    exact hne rfl

theorem exists_of_mem_entryRows {row : Row} (h : row ∈ p.entryRows) :
    ∃ place e, row = .entry place e := by
  obtain ⟨⟨name, s⟩, -, hsegment⟩ := List.mem_flatMap.mp h
  obtain ⟨⟨e, address⟩, -, rfl⟩ := List.mem_map.mp hsegment
  exact ⟨_, _, rfl⟩

/-- No row comes twice. -/
theorem nodup_rows (h : Immediate.LabelsInside p) : p.rows.Nodup := by
  have hheadings : (p.segments.keys.map Row.heading).Nodup :=
    p.segments.nodup.map fun _ _ => Row.heading.inj
  have hlabels : (p.labels.entries.map fun label => Row.label label.1 label.2).Nodup := by
    refine p.labels.nodup.of_map.map ?_
    rintro ⟨name, place⟩ ⟨name', place'⟩ heq
    cases heq
    rfl
  rw [(rows_perm h).nodup_iff, List.nodup_append, List.nodup_append]
  refine ⟨hheadings, ⟨hlabels, p.nodup_entryRows, ?_⟩, ?_⟩
  · intro row hlabel other hentry
    obtain ⟨label, -, rfl⟩ := List.mem_map.mp hlabel
    obtain ⟨place, e, rfl⟩ := exists_of_mem_entryRows hentry
    exact Row.noConfusion
  · intro row hheading other hother
    obtain ⟨segment, -, rfl⟩ := List.mem_map.mp hheading
    rcases List.mem_append.mp hother with hlabel | hentry
    · obtain ⟨label, -, rfl⟩ := List.mem_map.mp hlabel
      exact Row.noConfusion
    · obtain ⟨place, e, rfl⟩ := exists_of_mem_entryRows hentry
      exact Row.noConfusion

/-! ## What stands below a label -/

theorem ne_heading_of_mem_rowsAt {row : Row} (h : row ∈ p.rowsAt name s address)
    (segment : String) : row ≠ .heading segment := by
  rcases List.mem_append.mp h with hlabel | hentry
  · obtain ⟨label, -, rfl⟩ := List.mem_map.mp hlabel
    exact Row.noConfusion
  · obtain ⟨e, -, rfl⟩ := List.mem_map.mp hentry
    exact Row.noConfusion

/-- Behind the rows of a segment the listing ends, or there is the heading of the next one. -/
theorem exists_rows_eq_of_mem (h : (name, s) ∈ p.segments.entries) :
    ∃ before behind, p.rows = before ++ (p.segmentRows name s ++ behind) ∧
      (behind = [] ∨ ∃ segment rest, behind = .heading segment :: rest) := by
  obtain ⟨front, back, hsegments⟩ := List.append_of_mem h
  let rowsOf (segments : List (String × Segment)) : List Row :=
    segments.flatMap fun (name, s) => p.segmentRows name s
  refine ⟨rowsOf front, rowsOf back, ?_, ?_⟩
  · rw [rows, hsegments, List.flatMap_append, List.flatMap_cons]
  · cases back with
    | nil => exact .inl rfl
    | cons segment back => exact .inr ⟨_, _, rfl⟩

/-- The rows of a place that a label stands for: other labels may stand above and below it, and
the entry comes behind them all. -/
theorem exists_rowsAt_eq {place : Label} (h : (name, place) ∈ p.labels.entries) :
    ∃ above stacked, p.labelRows place = above ++ .label name place :: stacked ∧
      ∀ row ∈ stacked, ∃ other, row = .label other place := by
  have hmem : (name, place) ∈ p.labels.entries.filter fun label => label.2 = place :=
    List.mem_filter.mpr ⟨h, decide_eq_true rfl⟩
  obtain ⟨above, stacked, hlabels⟩ := List.append_of_mem hmem
  refine ⟨_, _, by rw [labelRows, hlabels, List.map_append, List.map_cons], ?_⟩
  intro row hrow
  obtain ⟨label, hlabel, rfl⟩ := List.mem_map.mp hrow
  have hfilter : label ∈ p.labels.entries.filter fun label => label.2 = place := by
    rw [hlabels]
    simp [hlabel]
  obtain ⟨-, hplace⟩ := List.mem_filter.mp hfilter
  exact ⟨label.1, by rw [of_decide_eq_true hplace]⟩

/-- The addresses of a segment from one of them on. -/
theorem range_length_succ {length address : Nat} (h : address ≤ length) :
    List.range (length + 1) = List.range address ++
      address :: (List.range (length - address)).map (address + 1 + ·) := by
  obtain ⟨more, rfl⟩ := Nat.exists_eq_add_of_le h
  rw [Nat.add_assoc, List.range_add, List.range_succ_eq_map, List.map_cons, List.map_map,
    Nat.add_sub_cancel_left]
  simp [Function.comp_def, Nat.add_assoc, Nat.add_comm 1]

/-- The row of a label stands below the heading of its segment.  Below it there are only labels of
the same place, and then the entry that the label points at; if it points at none, its segment ends
there. -/
def ShowsLabel (p : Program) (name : String) (place : Label) : Prop :=
  ∃ before inside stacked below,
    p.rows = before ++ .heading place.segment ::
      (inside ++ .label name place :: (stacked ++ below)) ∧
    (∀ row ∈ inside, ∀ segment, row ≠ .heading segment) ∧
    (∀ row ∈ stacked, ∃ other, row = .label other place) ∧
    (∀ e, p.labelEntry? name = some e → ∃ rest, below = .entry place e :: rest) ∧
    (p.labelEntry? name = none →
      below = [] ∨ ∃ segment rest, below = .heading segment :: rest)

theorem showsLabel_of_mem (h : Immediate.LabelsInside p) {place : Label}
    (hlabel : (name, place) ∈ p.labels.entries) : p.ShowsLabel name place := by
  obtain ⟨hsegment, haddress⟩ := h _ hlabel
  set s := p.segmentD place.segment with hs
  have hmem : (place.segment, s) ∈ p.segments.entries :=
    OrderedMap.mem_of_get? (p.segment?_eq_some _ hsegment)
  have hentry : p.labelEntry? name = s.get? place.address := by
    have hname : p.label? name = some place := OrderedMap.get?_of_mem hlabel
    unfold labelEntry?
    rw [hname, Option.bind_some, p.segment?_eq_some _ hsegment]
    rfl
  obtain ⟨before, behind, hrows, hbehind⟩ := exists_rows_eq_of_mem hmem
  obtain ⟨above, stacked, hlabels, hstacked⟩ := exists_rowsAt_eq hlabel
  let lower := (List.range place.address).flatMap (p.rowsAt place.segment s)
  let upper := ((List.range (s.length - place.address)).map (place.address + 1 + ·)).flatMap
    (p.rowsAt place.segment s)
  refine ⟨before, lower ++ above, stacked,
    (s.get? place.address).toList.map (.entry place) ++ (upper ++ behind), ?_, ?_, hstacked, ?_, ?_⟩
  · rw [hrows, segmentRows, range_length_succ haddress, List.flatMap_append, List.flatMap_cons,
      rowsAt, hlabels]
    simp [lower, upper]
  · intro row hrow
    rcases List.mem_append.mp hrow with hlower | habove
    · obtain ⟨address, -, hrow⟩ := List.mem_flatMap.mp hlower
      exact ne_heading_of_mem_rowsAt hrow
    · have hplace : row ∈ p.labelRows place := by
        rw [hlabels]
        exact List.mem_append_left _ habove
      have hat : row ∈ p.rowsAt place.segment s place.address := List.mem_append_left _ hplace
      exact ne_heading_of_mem_rowsAt hat
  · intro e he
    rw [← hentry, he]
    exact ⟨upper ++ behind, rfl⟩
  · intro hnone
    -- Without an entry there, the address is the one behind the last.
    have hend : s.length - place.address = 0 := by
      rw [hentry, Segment.get?, List.getElem?_eq_none_iff] at hnone
      exact Nat.sub_eq_zero_of_le hnone
    have hupper : upper = [] := by
      simp only [upper, hend]
      rfl
    rw [← hentry, hnone, hupper]
    exact hbehind

/-! ## Lines that come once -/

/-- The line of a label comes once. -/
theorem count_labelLine (h : Immediate.LabelsInside p) {place : Label}
    (hlabel : (name, place) ∈ p.labels.entries) :
    p.listingLines.count (Listing.labelLine name) = 1 := by
  -- The first character tells a heading, a label and an entry apart.
  have hheadings : Listing.labelLine name ∉ (p.segments.keys.map Row.heading).map Row.line := by
    intro hmem
    obtain ⟨row, hrow, hline⟩ := List.mem_map.mp hmem
    obtain ⟨segment, -, rfl⟩ := List.mem_map.mp hrow
    cases congrArg List.head? hline
  have hentries : Listing.labelLine name ∉ p.entryRows.map Row.line := by
    intro hmem
    obtain ⟨row, hrow, hline⟩ := List.mem_map.mp hmem
    obtain ⟨place, e, rfl⟩ := exists_of_mem_entryRows hrow
    cases congrArg List.head? hline
  have hlines : (p.labels.entries.map fun label => Row.label label.1 label.2).map Row.line =
      p.labels.keys.map Listing.labelLine := by
    rw [OrderedMap.keys, List.map_map, List.map_map]
    rfl
  have hnodup : (p.labels.keys.map Listing.labelLine).Nodup :=
    p.labels.nodup.map fun _ _ => Listing.labelLine_inj
  have hname : name ∈ p.labels.keys := List.mem_map.mpr ⟨_, hlabel, rfl⟩
  rw [← map_line_rows, ((rows_perm h).map Row.line).count_eq, List.map_append, List.map_append,
    List.count_append, List.count_append, List.count_eq_zero_of_not_mem hheadings,
    List.count_eq_zero_of_not_mem hentries, hlines,
    List.count_eq_one_of_mem hnodup (List.mem_map_of_mem hname)]

theorem length_entryRows (p : Program) :
    p.entryRows.length = (p.segments.entries.map fun (_, s) => s.length).sum := by
  simp [entryRows, List.length_flatMap, Segment.length]

end Program

/-- The lines of the listing of a program that is read, if it has a segment at all, are its rows.
The rows are the segments, the labels and the entries, each of them once, so there are as many lines
as these are together.  Every label has a line of its own, above the entry that it points at or at
the end of its segment, and the labels of a place come in the order of their declarations.  Every
entry is shown with its address and its text. -/
theorem listing_shows_everything_once (source : String) (p : Program) (h : parse source = .ok p)
    (hne : p.segments.entries ≠ []) :
    p.listing.toList.splitOn '\n' = p.rows.map Row.line ∧
    p.rows.Perm (p.segments.keys.map .heading ++
      (p.labels.entries.map (fun label => .label label.1 label.2) ++ p.entryRows)) ∧
    p.rows.Nodup ∧
    (p.listing.toList.splitOn '\n').length = p.segments.size + p.labels.size +
      (p.segments.entries.map fun (_, s) => s.length).sum ∧
    (∀ name place, (name, place) ∈ p.labels.entries →
      (p.listing.toList.splitOn '\n').count (Listing.labelLine name) = 1 ∧
        p.ShowsLabel name place) ∧
    (∀ place e, .entry place e ∈ p.rows →
      Listing.ShowsEntry place.address e (Row.entry place e).line) ∧
    ∃ statements, statementsOf source = .ok statements ∧
      p.labels.keys = declaredNames statements := by
  obtain ⟨statements, hread, hresolve⟩ := parse_eq_ok_iff.mp h
  have hinside := Immediate.labelsInside_of_resolve hresolve
  have hlines : p.listingLines ≠ [] := by
    obtain ⟨segment, segments, hsegments⟩ := List.exists_cons_of_ne_nil hne
    rw [Program.listingLines, hsegments]
    exact List.cons_ne_nil _ _
  have hlisting : p.listing.toList.splitOn '\n' = p.listingLines := by
    rw [Program.listing, String.toList_ofList]
    exact splitOn_joinLines
      (fun line hline => (ne_nil_and_not_mem_of_mem_listingLines h line hline).2) hlines
  have hperm := Program.rows_perm hinside
  refine ⟨by rw [hlisting, p.map_line_rows], hperm, Program.nodup_rows hinside, ?_, ?_,
    fun place e _ => Listing.showsEntry_entryLine place.address e, statements, hread, ?_⟩
  · rw [hlisting, ← p.map_line_rows, List.length_map, hperm.length_eq, List.length_append,
      List.length_append, List.length_map, List.length_map, p.length_entryRows, OrderedMap.keys,
      List.length_map, ← Nat.add_assoc]
    rfl
  · intro name place hlabel
    rw [hlisting]
    exact ⟨Program.count_labelLine hinside hlabel, Program.showsLabel_of_mem hinside hlabel⟩
  · obtain ⟨hnodup, rfl⟩ := resolve_eq_ok_iff.mp hresolve
    exact Immediate.keys_foldl hnodup

/-- Two labels above one entry, and two others behind the last entry of their segment. -/
theorem listing_shows_everything_once_with_stacked_labels :
    let source := "a:\nb: nop\n.data\nc: .word 1\nd:\ne:"
    let nop : Entry := .instruction (.ofOperands "nop" [])
    let word : Entry := .data ⟨.word, .scalar (.int 1)⟩
    let statements : List Statement :=
      [.label "a" ⟨1, 1⟩, .label "b" ⟨2, 1⟩, .entry nop, .segment ".data", .label "c" ⟨4, 1⟩,
        .entry word, .label "d" ⟨5, 1⟩, .label "e" ⟨6, 1⟩]
    let p : Program := (statements.foldl Immediate.step {}).program
    parse source = .ok p ∧ p.segments.entries ≠ [] ∧
      p.rows = [.heading ".text", .label "a" ⟨0, ".text"⟩, .label "b" ⟨0, ".text"⟩,
        .entry ⟨0, ".text"⟩ nop, .heading ".data", .label "c" ⟨0, ".data"⟩,
        .entry ⟨0, ".data"⟩ word, .label "d" ⟨1, ".data"⟩, .label "e" ⟨1, ".data"⟩] ∧
      p.listing.toList.splitOn '\n' = p.rows.map Row.line ∧ p.rows.Nodup ∧
      p.ShowsLabel "a" ⟨0, ".text"⟩ ∧ p.ShowsLabel "d" ⟨1, ".data"⟩ ∧
      Listing.ShowsEntry 0 word (Row.entry ⟨0, ".data"⟩ word).line ∧
      visible (Row.entry ⟨0, ".data"⟩ word).line = "[0000] |   .word   1".toList := by
  intro source nop word statements p
  have hread : statementsOf source = .ok statements := by decide +kernel +zetaReduce
  have hp : parse source = .ok p :=
    parse_eq_ok_iff.mpr ⟨statements, hread, resolve_eq_ok_iff.mpr ⟨by decide, rfl⟩⟩
  have hne : p.segments.entries ≠ [] := List.cons_ne_nil _ _
  obtain ⟨hlines, -, hnodup, -, hlabels, hentries, -⟩ :=
    listing_shows_everything_once source p hp hne
  have ha : ("a", (⟨0, ".text"⟩ : Label)) ∈ p.labels.entries := by decide +kernel +zetaReduce
  have hd : ("d", (⟨1, ".data"⟩ : Label)) ∈ p.labels.entries := by decide +kernel +zetaReduce
  have hword : Row.entry ⟨0, ".data"⟩ word ∈ p.rows := by decide +kernel +zetaReduce
  exact ⟨hp, hne, by decide +kernel +zetaReduce, hlines, hnodup, (hlabels _ _ ha).2,
    (hlabels _ _ hd).2, hentries _ _ hword, by decide +kernel +zetaReduce⟩

end MipsAssembly
