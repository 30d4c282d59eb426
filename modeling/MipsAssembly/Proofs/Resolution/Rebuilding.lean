import Mathlib.Data.List.Nodup
import MipsAssembly.Proofs.Program.LabelGroups
import MipsAssembly.Proofs.Resolution.Labels

/-!
# Programs rebuilt from their pieces

The pieces of a program are statements: for each segment a switch to it, and then for each
address, the one behind the last entry included, the labels that stand there and the entry.
They make the program again: segment by segment, every entry comes to its address, and every
label is declared where its segment has as many entries as its address tells.

## Main definitions

- `Program.pieces` — the statements that rebuild a program.
- `Program.placedLabels` — the labels in the order of their places.
- `Immediate.Shows` — a program in the making of which the last segment is current.
- `Program.exists_resolve_pieces` — the pieces make the segments and the labels again.
-/

namespace MipsAssembly

namespace Program

/-- The statements of an address: its labels and its entry. -/
def piecesAt (p : Program) (name : String) (s : Segment) (address : Nat) : List Statement :=
  (p.labelsAt ⟨address, name⟩).map (.label · {}) ++ (s.get? address).toList.map .entry

/-- The statements of a segment. -/
def segmentPieces (p : Program) (name : String) (s : Segment) : List Statement :=
  .segment name :: (List.range (s.length + 1)).flatMap (p.piecesAt name s)

/-- The statements that rebuild a program. -/
def pieces (p : Program) : List Statement :=
  p.segments.entries.flatMap fun (name, s) => p.segmentPieces name s

/-- The labels that stand for places in a segment, below an address. -/
def labelsBelow (p : Program) (name : String) (address : Nat) : List (String × Label) :=
  (List.range address).flatMap fun address =>
    (p.labelsAt ⟨address, name⟩).map (·, ⟨address, name⟩)

/-- The labels in the order of their places. -/
def placedLabels (p : Program) : List (String × Label) :=
  p.segments.entries.flatMap fun (name, s) => p.labelsBelow name (s.length + 1)

end Program

namespace Immediate

/-- The segments in front are complete, and the current one behind them has some entries. -/
structure Shows (i : Immediate) (front : List (String × Segment)) (name : String)
    (entries : List Entry) (labels : List (String × Label)) : Prop where
  current : i.current = name
  segments : i.program.segments.entries = front ++ [(name, ⟨entries⟩)]
  labels : i.program.labels.entries = labels

namespace Shows

variable {i : Immediate} {front : List (String × Segment)} {name : String}
  {entries : List Entry} {labels : List (String × Label)}

theorem not_mem (h : i.Shows front name entries labels) : name ∉ front.map Prod.fst := by
  have hnodup := i.program.segments.nodup
  rw [h.segments, List.map_append, List.nodup_append] at hnodup
  exact fun hmem => hnodup.2.2 name hmem name (by simp) rfl

theorem segmentD (h : i.Shows front name entries labels) :
    i.program.segmentD name = ⟨entries⟩ := by
  rw [Program.segmentD, OrderedMap.get?, h.segments, List.lookup_append,
    OrderedMap.lookup_eq_none_iff.mpr h.not_mem, List.lookup_cons_self]
  rfl

/-- Opening the current segment changes nothing. -/
theorem openSegment (h : i.Shows front name entries labels) :
    (i.program.openSegment name).segments.entries = front ++ [(name, ⟨entries⟩)] := by
  show OrderedMap.put name (i.program.segmentD name) i.program.segments.entries = _
  rw [h.segments, OrderedMap.put_append h.not_mem, h.segmentD]
  simp [OrderedMap.put]

theorem label {label : String} (h : i.Shows front name entries labels)
    (hnew : label ∉ labels.map Prod.fst) (position : Position) :
    (i.step (.label label position)).Shows front name entries
      (labels ++ [(label, ⟨entries.length, name⟩)]) := by
  refine ⟨h.current, ?_, ?_⟩
  · have hopen := h.openSegment
    rw [← h.current] at hopen ⊢
    rw [step_label]
    exact hopen
  · rw [labels_step_label]
    show OrderedMap.put label _ i.program.labels.entries = _
    rw [h.labels, h.current, h.segmentD]
    exact OrderedMap.put_of_not_mem hnew _

theorem entry (h : i.Shows front name entries labels) (entry : Entry) :
    (i.step (.entry entry)).Shows front name (entries ++ [entry]) labels := by
  refine ⟨h.current, ?_, h.labels⟩
  obtain rfl := h.current
  rw [step_entry]
  show OrderedMap.put i.current _ i.program.segments.entries = _
  rw [h.segments, OrderedMap.put_append h.not_mem, h.segmentD]
  simp [OrderedMap.put]

/-- Labels that wait for one place. -/
theorem foldl_labels {names : List String} (h : i.Shows front name entries labels)
    (hnodup : (labels.map Prod.fst ++ names).Nodup) :
    ((names.map (.label · {})).foldl step i).Shows front name entries
      (labels ++ names.map (·, ⟨entries.length, name⟩)) := by
  induction names generalizing i labels with
  | nil => simpa using h
  | cons label names ih =>
    have hnew : label ∉ labels.map Prod.fst := fun hmem =>
      (List.nodup_append.mp hnodup).2.2 label hmem label List.mem_cons_self rfl
    have hnext : ((labels ++ [(label, (⟨entries.length, name⟩ : Label))]).map Prod.fst
        ++ names).Nodup := by
      simpa using hnodup
    have hrest := ih (h.label hnew {}) hnext
    rwa [List.append_assoc] at hrest

theorem foldl_entry (h : i.Shows front name entries labels) (entry : Option Entry) :
    ((entry.toList.map .entry).foldl step i).Shows front name (entries ++ entry.toList) labels := by
  cases entry with
  | none => simpa using h
  | some entry => exact h.entry entry

variable {p : Program} {s : Segment} {address : Nat}

theorem foldl_piecesAt (h : i.Shows front name (s.entries.take address) labels)
    (haddress : address ≤ s.length)
    (hnodup : (labels.map Prod.fst ++ p.labelsAt ⟨address, name⟩).Nodup) :
    ((p.piecesAt name s address).foldl step i).Shows front name (s.entries.take (address + 1))
      (labels ++ (p.labelsAt ⟨address, name⟩).map (·, ⟨address, name⟩)) := by
  have hlength : (s.entries.take address).length = address := by
    rw [List.length_take]
    exact Nat.min_eq_left haddress
  have hlabels := h.foldl_labels hnodup
  rw [hlength] at hlabels
  rw [Program.piecesAt, List.foldl_append, List.take_add_one]
  exact hlabels.foldl_entry (s.get? address)

/-- Address by address, the entries and the labels of a segment are put in. -/
theorem foldl_addresses (h : i.Shows front name [] labels) (haddress : address ≤ s.length + 1)
    (hnodup : ((labels ++ p.labelsBelow name address).map Prod.fst).Nodup) :
    (((List.range address).flatMap (p.piecesAt name s)).foldl step i).Shows front name
      (s.entries.take address) (labels ++ p.labelsBelow name address) := by
  induction address with
  | zero => simpa [Program.labelsBelow] using h
  | succ address ih =>
    have hbelow : p.labelsBelow name (address + 1) = p.labelsBelow name address ++
        (p.labelsAt ⟨address, name⟩).map (·, ⟨address, name⟩) := by
      simp [Program.labelsBelow, List.range_succ]
    rw [hbelow, ← List.append_assoc, List.map_append] at hnodup
    have hshows := ih (by omega) (List.nodup_append.mp hnodup).1
    rw [List.range_succ, List.flatMap_append, List.foldl_append, List.flatMap_singleton, hbelow,
      ← List.append_assoc]
    apply hshows.foldl_piecesAt (by omega)
    simpa [Function.comp_def] using hnodup

end Shows

variable {i : Immediate} {p : Program} {front : List (String × Segment)}
  {labels : List (String × Label)}

theorem shows_segment {name : String} (hsegments : i.program.segments.entries = front)
    (hlabels : i.program.labels.entries = labels) (hnew : name ∉ front.map Prod.fst) :
    (i.step (.segment name)).Shows front name [] labels := by
  subst hsegments
  rw [step_segment]
  refine ⟨rfl, ?_, hlabels⟩
  have hempty : i.program.segmentD name = ⟨[]⟩ := by
    rw [Program.segmentD, OrderedMap.get?, OrderedMap.lookup_eq_none_iff.mpr hnew]
    rfl
  show OrderedMap.put name (i.program.segmentD name) i.program.segments.entries = _
  rw [hempty]
  exact OrderedMap.put_of_not_mem hnew _

/-- Segment by segment, a program is put together. -/
theorem foldl_segmentPieces (p : Program) (rest : List (String × Segment))
    (hsegments : i.program.segments.entries = front)
    (hlabels : i.program.labels.entries = labels)
    (hnames : ((front ++ rest).map Prod.fst).Nodup)
    (hnodup : ((labels ++ rest.flatMap fun (name, s) =>
      p.labelsBelow name (s.length + 1)).map Prod.fst).Nodup) :
    let last := (rest.flatMap fun (name, s) => p.segmentPieces name s).foldl step i
    last.program.segments.entries = front ++ rest ∧
      last.program.labels.entries = labels ++ rest.flatMap fun (name, s) =>
        p.labelsBelow name (s.length + 1) := by
  induction rest generalizing i front labels with
  | nil => simp [hsegments, hlabels]
  | cons segment rest ih =>
    obtain ⟨name, s⟩ := segment
    have hnew : name ∉ front.map Prod.fst := by
      rw [List.map_append, List.nodup_append] at hnames
      exact fun hmem => hnames.2.2 name hmem name (by simp) rfl
    simp only [List.flatMap_cons, ← List.append_assoc] at hnodup ⊢
    have hfirst : ((labels ++ p.labelsBelow name (s.length + 1)).map Prod.fst).Nodup := by
      rw [List.map_append] at hnodup
      exact (List.nodup_append.mp hnodup).1
    have hshows := (shows_segment hsegments hlabels hnew).foldl_addresses
      (p := p) (s := s) (Nat.le_refl _) hfirst
    have hall : s.entries.take (s.length + 1) = s.entries :=
      List.take_of_length_le (Nat.le_succ s.entries.length)
    rw [hall] at hshows
    rw [List.foldl_append, List.append_cons]
    exact ih hshows.segments hshows.labels (by simpa using hnames) hnodup

/-! ## Every label is placed -/

/-- Every label stands for a place in a segment that exists. -/
def LabelsInside (p : Program) : Prop :=
  ∀ label ∈ p.labels.entries, label.2.segment ∈ p.segments.keys ∧
    label.2.address ≤ (p.segmentD label.2.segment).length

theorem length_le_step (i : Immediate) (statement : Statement) (name : String) :
    (i.program.segmentD name).length ≤ ((i.step statement).program.segmentD name).length := by
  rw [Segment.length, Segment.length, entries_step, List.length_append]
  exact Nat.le_add_right _ _

theorem labelsInside_step {statement : Statement} (h : LabelsInside i.program) :
    LabelsInside (i.step statement).program := by
  intro label hlabel
  -- Segments stay and only grow, so an old label stays inside.
  have hold (hmem : label ∈ i.program.labels.entries) :
      label.2.segment ∈ (i.step statement).program.segments.keys ∧
        label.2.address ≤ ((i.step statement).program.segmentD label.2.segment).length := by
    obtain ⟨hsegment, haddress⟩ := h label hmem
    have hkept : label.2.segment ∈ ([statement].foldl step i).program.segments.keys :=
      mem_keys_foldl hsegment
    exact ⟨hkept, Nat.le_trans haddress (length_le_step i statement _)⟩
  cases statement with
  | segment name => exact hold hlabel
  | entry entry => exact hold hlabel
  | label name position =>
    rw [labels_step_label] at hlabel
    rcases OrderedMap.mem_put hlabel with rfl | hmem
    · exact ⟨i.current_mem_keys_step_label name position, length_le_step i _ i.current⟩
    · exact hold hmem

theorem labelsInside_foldl {statements : List Statement} (h : LabelsInside i.program) :
    LabelsInside (statements.foldl step i).program := by
  induction statements generalizing i with
  | nil => exact h
  | cons statement rest ih => exact ih (labelsInside_step h)

theorem labelsInside_of_resolve {statements : List Statement} (h : resolve statements = .ok p) :
    LabelsInside p := by
  obtain ⟨-, rfl⟩ := resolve_eq_ok_iff.mp h
  exact labelsInside_foldl fun label hlabel => by cases hlabel

end Immediate

namespace Program

/-- The places of a program: the addresses of its segments, with those behind the last entries. -/
def places (p : Program) : List Label :=
  p.segments.entries.flatMap fun (name, s) => (List.range (s.length + 1)).map (⟨·, name⟩)

theorem nodup_places (p : Program) : p.places.Nodup := by
  refine List.nodup_flatMap.mpr ⟨?_, ?_⟩
  · rintro ⟨name, s⟩ -
    refine List.nodup_range.map ?_
    intro address address' h
    exact congrArg Label.address h
  · have hnames := List.pairwise_map.mp p.segments.nodup
    refine hnames.imp ?_
    rintro ⟨name, s⟩ ⟨name', s'⟩ hne place hplace hplace'
    obtain ⟨address, -, rfl⟩ := List.mem_map.mp hplace
    obtain ⟨address', -, heq⟩ := List.mem_map.mp hplace'
    exact hne (congrArg Label.segment heq).symm

theorem placedLabels_eq (p : Program) :
    p.placedLabels = p.places.flatMap fun place =>
      p.labels.entries.filter fun label => label.2 = place := by
  simp only [placedLabels, places, labelsBelow, List.flatMap_assoc, List.flatMap_map, map_labelsAt]

/-- The labels that stand for places are all labels, if each of them stands for one. -/
theorem placedLabels_perm {p : Program} (h : Immediate.LabelsInside p) :
    p.placedLabels.Perm p.labels.entries := by
  rw [placedLabels_eq]
  apply flatMap_filter_perm Prod.snd p.nodup_places
  intro label hlabel
  obtain ⟨hsegment, haddress⟩ := h label hlabel
  have hmem := OrderedMap.mem_of_get? (p.segment?_eq_some _ hsegment)
  refine List.mem_flatMap.mpr ⟨_, hmem, List.mem_map.mpr ⟨label.2.address, ?_, rfl⟩⟩
  rw [List.mem_range]
  exact Nat.lt_succ_of_le haddress

theorem declaredNames_flatMap {α : Type} (f : α → List Statement) (l : List α) :
    declaredNames (l.flatMap f) = l.flatMap fun a => declaredNames (f a) := by
  induction l with
  | nil => rfl
  | cons a l ih => rw [List.flatMap_cons, declaredNames_append, ih, List.flatMap_cons]

theorem declaredNames_piecesAt (p : Program) (name : String) (s : Segment) (address : Nat) :
    declaredNames (p.piecesAt name s address) = p.labelsAt ⟨address, name⟩ := by
  have hlabels (names : List String) :
      declaredNames (names.map (Statement.label · {})) = names := by
    induction names with
    | nil => rfl
    | cons name names ih => exact congrArg (name :: ·) ih
  have hentry : declaredNames ((s.get? address).toList.map .entry) = [] := by
    cases s.get? address <;> rfl
  rw [piecesAt, declaredNames_append, hlabels, hentry, List.append_nil]

/-- The pieces of a program declare its labels in the order of their places. -/
theorem declaredNames_pieces (p : Program) :
    declaredNames p.pieces = p.placedLabels.map Prod.fst := by
  have hsegment (name : String) (s : Segment) : declaredNames (p.segmentPieces name s) =
      (p.labelsBelow name (s.length + 1)).map Prod.fst := by
    rw [segmentPieces, declaredNames, declaredNames_flatMap, labelsBelow, List.map_flatMap]
    simp [declaredNames_piecesAt, Function.comp_def]
  rw [pieces, declaredNames_flatMap, placedLabels, List.map_flatMap]
  simp only [hsegment]

/-- The pieces of a program whose labels stand for places make its segments and its labels. -/
theorem exists_resolve_pieces {p : Program} (h : Immediate.LabelsInside p) :
    ∃ q, resolve p.pieces = .ok q ∧ q.segments = p.segments ∧
      q.labels.entries.Perm p.labels.entries := by
  have hperm := placedLabels_perm h
  have hnodup : (p.placedLabels.map Prod.fst).Nodup :=
    (hperm.map Prod.fst).nodup_iff.mpr p.labels.nodup
  have hnames : (declaredNames p.pieces).Nodup := by rwa [declaredNames_pieces]
  have hempty : ({} : Immediate).program.segments.entries = [] := rfl
  obtain ⟨hsegments, hlabels⟩ :=
    Immediate.foldl_segmentPieces p p.segments.entries hempty rfl p.segments.nodup hnodup
  refine ⟨_, resolve_eq_ok_iff.mpr ⟨hnames, rfl⟩, OrderedMap.ext hsegments, ?_⟩
  exact (List.Perm.of_eq hlabels).trans hperm

end Program

end MipsAssembly
