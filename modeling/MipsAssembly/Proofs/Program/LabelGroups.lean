import Mathlib.Data.List.Nodup
import Mathlib.Data.List.Perm.Basic
import MipsAssembly.Proofs.OrderedMap
import MipsAssembly.Program

/-!
# Labels by their places

The labels of a program are grouped by their places.  The group of a place has the names of the
labels there, in the order of the labels, so the groups of all places that labels have make up
the labels again.

## Main definitions

- `flatMap_filter_perm` — a list is made up of its parts by a key.
- `Program.IsIndex` — groups are the index of labels.
- `Program.IsIndex.add` — an index of one label more.
- `Program.labelsAt` — the names of the labels of a place.
- `labelsByAddress_partition` — the groups of a program are an exact partition of its labels.
-/

namespace MipsAssembly

/-- The parts of a list by a key make up the list, if every key of the list is given once. -/
theorem flatMap_filter_perm {α β : Type} [DecidableEq β] (key : α → β) {keys : List β}
    (hnodup : keys.Nodup) {l : List α} (hkeys : ∀ a ∈ l, key a ∈ keys) :
    (keys.flatMap fun k => l.filter fun a => key a = k).Perm l := by
  induction keys generalizing l with
  | nil =>
    have hnil : l = [] := List.eq_nil_iff_forall_not_mem.mpr fun a ha => by simpa using hkeys a ha
    rw [hnil]
    rfl
  | cons k keys ih =>
    obtain ⟨hk, hrest⟩ := List.nodup_cons.mp hnodup
    -- The parts of the other keys are those of what is left without the first part.
    have hothers : (keys.flatMap fun k' => l.filter fun a => key a = k') = keys.flatMap fun k' =>
        (l.filter fun a => !decide (key a = k)).filter fun a => key a = k' := by
      apply List.flatMap_congr
      intro k' hk'
      rw [List.filter_filter]
      apply List.filter_congr
      intro a _
      have hne : key a = k' → key a ≠ k := by
        rintro rfl rfl
        exact hk hk'
      by_cases h : key a = k' <;> simp [h]
      simpa [h] using hne h
    have hleft := ih hrest (l := l.filter fun a => !decide (key a = k)) (by
      intro a ha
      obtain ⟨hmem, hne⟩ := List.mem_filter.mp ha
      have hcons := hkeys a hmem
      simp only [Bool.not_eq_true', decide_eq_false_iff_not] at hne
      exact (List.mem_cons.mp hcons).resolve_left hne)
    rw [List.flatMap_cons, hothers]
    exact (hleft.append_left _).trans (List.filter_append_perm _ l)

namespace Program

/-- The names of the labels of a place, in the order of the labels. -/
def namesAt (labels : List (String × Label)) (place : Label) : List String :=
  (labels.filter fun label => label.2 = place).map Prod.fst

/-- Groups are the index of labels: their places are those of the labels, each of them once, and
the group of a place has the names of its labels. -/
structure IsIndex (labels : List (String × Label)) (groups : List (Label × List String)) :
    Prop where
  nodup : (groups.map Prod.fst).Nodup
  mem_places_iff : ∀ place, place ∈ groups.map Prod.fst ↔ place ∈ labels.map Prod.snd
  lookup : ∀ place, (groups.lookup place).getD [] = namesAt labels place

variable {labels : List (String × Label)} {groups : List (Label × List String)} {place : Label}
  {name : String}

/-! ## Adding labels -/

theorem map_fst_addToGroup (place : Label) (name : String) (groups : List (Label × List String)) :
    (addToGroup place name groups).map Prod.fst =
      if place ∈ groups.map Prod.fst then groups.map Prod.fst
      else groups.map Prod.fst ++ [place] := by
  induction groups with
  | nil => rfl
  | cons group groups ih =>
    obtain ⟨key, names⟩ := group
    by_cases h : key = place
    · simp [addToGroup, h]
    · rw [addToGroup, if_neg h, List.map_cons, ih]
      simp only [List.map_cons, List.mem_cons, Ne.symm h, false_or]
      split <;> rfl

theorem lookup_addToGroup (place other : Label) (name : String)
    (groups : List (Label × List String)) :
    ((addToGroup place name groups).lookup other).getD [] =
      (groups.lookup other).getD [] ++ if place = other then [name] else [] := by
  induction groups with
  | nil =>
    by_cases h : other = place
    · simp [addToGroup, h]
    · have hne : (other == place) = false := by simpa using h
      simp [addToGroup, List.lookup_cons, hne, Ne.symm h]
  | cons group groups ih =>
    obtain ⟨key, names⟩ := group
    by_cases hkey : key = place
    · subst hkey
      by_cases h : other = key
      · simp [addToGroup, h]
      · have hne : (other == key) = false := by simpa using h
        simp [addToGroup, List.lookup_cons, hne, Ne.symm h]
    · rw [addToGroup, if_neg hkey]
      by_cases h : other = key
      · subst h
        simp [Ne.symm hkey]
      · have hne : (other == key) = false := by simpa using h
        simp only [List.lookup_cons, hne, ih]

namespace IsIndex

theorem empty : IsIndex [] [] :=
  ⟨.nil, fun _ => Iff.rfl, fun _ => rfl⟩

/-- A label is added to the group of its place, which is new if no label had the place before. -/
theorem add (h : IsIndex labels groups) (name : String) (place : Label) :
    IsIndex (labels ++ [(name, place)]) (addToGroup place name groups) where
  nodup := by
    rw [map_fst_addToGroup]
    split
    · exact h.nodup
    · next hnew =>
      have hdisjoint : ∀ key ∈ groups.map Prod.fst, ∀ other ∈ [place], key ≠ other := by
        intro key hkey other hother hne
        rw [List.mem_singleton.mp hother] at hne
        exact hnew (hne ▸ hkey)
      exact List.nodup_append.mpr ⟨h.nodup, by simp, hdisjoint⟩
  mem_places_iff key := by
    rw [map_fst_addToGroup, List.map_append, List.mem_append, ← h.mem_places_iff]
    split
    · next hold =>
      refine ⟨.inl, ?_⟩
      rintro (hkey | hkey)
      · exact hkey
      · rwa [List.mem_singleton.mp hkey]
    · rw [List.mem_append]
      rfl
  lookup key := by
    rw [lookup_addToGroup, h.lookup, namesAt, namesAt, List.filter_append, List.map_append]
    by_cases hkey : place = key <;> simp [hkey]

theorem foldl (h : IsIndex labels groups) (more : List (String × Label)) :
    IsIndex (labels ++ more)
      (more.foldl (fun groups (name, place) => addToGroup place name groups) groups) := by
  induction more generalizing labels groups with
  | nil => rwa [List.append_nil]
  | cons label more ih =>
    have hrest := ih (h.add label.1 label.2)
    rwa [List.append_assoc] at hrest

end IsIndex

/-- The groups of a program are the index of its labels. -/
theorem isIndex_labelsByAddress (p : Program) : IsIndex p.labels.entries p.labelsByAddress :=
  IsIndex.empty.foldl p.labels.entries

/-! ## Single groups -/

theorem mem_namesAt_iff : name ∈ namesAt labels place ↔ (name, place) ∈ labels := by
  rw [namesAt, List.mem_map]
  constructor
  · rintro ⟨label, hlabel, rfl⟩
    obtain ⟨hmem, hplace⟩ := List.mem_filter.mp hlabel
    rwa [← of_decide_eq_true hplace]
  · intro h
    exact ⟨(name, place), List.mem_filter.mpr ⟨h, decide_eq_true rfl⟩, rfl⟩

/-- Names that all differ come once among those of a place. -/
theorem nodup_namesAt (h : (labels.map Prod.fst).Nodup) (place : Label) :
    (namesAt labels place).Nodup :=
  (List.filter_sublist.map Prod.fst).nodup h

theorem namesAt_ne_nil_iff : namesAt labels place ≠ [] ↔ place ∈ labels.map Prod.snd := by
  rw [List.mem_map]
  constructor
  · intro h
    obtain ⟨name, hname⟩ := List.exists_mem_of_ne_nil _ h
    exact ⟨(name, place), mem_namesAt_iff.mp hname, rfl⟩
  · rintro ⟨⟨name, place'⟩, hlabel, rfl⟩
    exact List.ne_nil_of_mem (mem_namesAt_iff.mpr hlabel)

/-- The groups are the places that labels have, with the names of the labels there. -/
theorem IsIndex.mem_iff (h : IsIndex labels groups) {names : List String} :
    (place, names) ∈ groups ↔ names ≠ [] ∧ names = namesAt labels place := by
  constructor
  · intro hmem
    have hlookup : groups.lookup place = some names := OrderedMap.lookup_of_mem h.nodup hmem
    have hnames := h.lookup place
    rw [hlookup, Option.getD_some] at hnames
    have hplace : place ∈ labels.map Prod.snd :=
      (h.mem_places_iff place).mp (List.mem_map_of_mem hmem)
    rw [hnames]
    exact ⟨namesAt_ne_nil_iff.mpr hplace, rfl⟩
  · rintro ⟨hne, rfl⟩
    have hlookup := h.lookup place
    cases hgroup : groups.lookup place with
    | none =>
      rw [hgroup] at hlookup
      exact absurd hlookup.symm hne
    | some names =>
      rw [hgroup, Option.getD_some] at hlookup
      exact hlookup ▸ OrderedMap.mem_of_lookup hgroup

/-- The groups together have every name as often as the labels have. -/
theorem IsIndex.flatMap_perm (h : IsIndex labels groups) :
    (groups.flatMap Prod.snd).Perm (labels.map Prod.fst) := by
  have hgroups : groups.flatMap Prod.snd =
      ((groups.map Prod.fst).flatMap fun place => labels.filter fun label => label.2 = place).map
        Prod.fst := by
    rw [List.flatMap_map, List.map_flatMap]
    refine List.flatMap_congr fun group hgroup => ?_
    exact (h.mem_iff.mp hgroup).2
  rw [hgroups]
  refine (flatMap_filter_perm Prod.snd h.nodup fun label hlabel => ?_).map Prod.fst
  exact (h.mem_places_iff label.2).mpr (List.mem_map_of_mem hlabel)

/-- The names of the labels of a place. -/
def labelsAt (p : Program) (place : Label) : List String :=
  (p.labelsByAddress.lookup place).getD []

/-- The group of a place has the labels there, in the order of the labels. -/
theorem labelsAt_eq_filter (p : Program) (place : Label) :
    p.labelsAt place = (p.labels.entries.filter fun label => label.2 = place).map Prod.fst :=
  p.isIndex_labelsByAddress.lookup place

/-- The labels of a place with the place. -/
theorem map_labelsAt (p : Program) (place : Label) :
    (p.labelsAt place).map (·, place) = p.labels.entries.filter fun label => label.2 = place := by
  rw [labelsAt_eq_filter, List.map_map]
  refine (List.map_congr_left fun label hlabel => ?_).trans (List.map_id _)
  obtain ⟨-, hplace⟩ := List.mem_filter.mp hlabel
  exact congrArg (label.1, ·) (of_decide_eq_true hplace).symm

end Program

/-- The groups of a program are an exact partition of its labels.  Their places are those of the
labels, each once.  Each group has the names of the labels of its place, in the order of the labels,
and none is empty.  So every name is in one group only, and once there, and the groups together are
the names. -/
theorem labelsByAddress_partition (p : Program) :
    (p.labelsByAddress.map Prod.fst).Nodup ∧
    (∀ segment address, ⟨address, segment⟩ ∈ p.labelsByAddress.map Prod.fst ↔
      ∃ name, p.label? name = some ⟨address, segment⟩) ∧
    (∀ place names, (place, names) ∈ p.labelsByAddress →
      names = (p.labels.entries.filter fun label => label.2 = place).map Prod.fst ∧ names ≠ []) ∧
    (∀ name ∈ p.labels.keys, ∃ group ∈ p.labelsByAddress, group.2.count name = 1 ∧
      ∀ other ∈ p.labelsByAddress, name ∈ other.2 → other = group) ∧
    (p.labelsByAddress.flatMap Prod.snd).Perm p.labels.keys := by
  have h := p.isIndex_labelsByAddress
  refine ⟨h.nodup, fun segment address => ?_, fun place names hgroup => ?_, fun name hname => ?_,
    h.flatMap_perm⟩
  · rw [h.mem_places_iff, List.mem_map]
    constructor
    · rintro ⟨⟨name, place⟩, hlabel, rfl⟩
      exact ⟨name, OrderedMap.get?_of_mem hlabel⟩
    · rintro ⟨name, hlabel⟩
      exact ⟨_, OrderedMap.mem_of_get? hlabel, rfl⟩
  · obtain ⟨hne, hnames⟩ := h.mem_iff.mp hgroup
    exact ⟨hnames, hne⟩
  · obtain ⟨⟨name, place⟩, hlabel, rfl⟩ := List.mem_map.mp hname
    have hmem : name ∈ Program.namesAt p.labels.entries place :=
      Program.mem_namesAt_iff.mpr hlabel
    refine ⟨(place, _), h.mem_iff.mpr ⟨List.ne_nil_of_mem hmem, rfl⟩,
      List.count_eq_one_of_mem (Program.nodup_namesAt p.labels.nodup place) hmem, ?_⟩
    rintro ⟨place', names⟩ hgroup hname'
    -- A name has one place, and a place has one group.
    obtain ⟨-, rfl⟩ := h.mem_iff.mp hgroup
    have hplace := OrderedMap.get?_of_mem (Program.mem_namesAt_iff.mp hname')
    rw [OrderedMap.get?_of_mem hlabel] at hplace
    rw [Option.some.inj hplace]

/-- Two labels of one place, with others of its address and of its segment between them. -/
theorem labelsByAddress_partition_of_shared_places :
    let p : Program := { labels := .ofList [("a", ⟨0, ".text"⟩), ("b", ⟨0, ""⟩),
      ("c", ⟨1, ".text"⟩), ("d", ⟨0, ".text"⟩)] }
    p.labelsByAddress =
      [(⟨0, ".text"⟩, ["a", "d"]), (⟨0, ""⟩, ["b"]), (⟨1, ".text"⟩, ["c"])] ∧
    (∃ name, p.label? name = some ⟨1, ".text"⟩) ∧
    ["a", "d"] = (p.labels.entries.filter fun label => label.2 = ⟨0, ".text"⟩).map Prod.fst ∧
    (∃ group ∈ p.labelsByAddress, group.2.count "d" = 1 ∧
      ∀ other ∈ p.labelsByAddress, "d" ∈ other.2 → other = group) ∧
    (p.labelsByAddress.flatMap Prod.snd).Perm p.labels.keys := by
  intro p
  have hgroups : p.labelsByAddress =
      [(⟨0, ".text"⟩, ["a", "d"]), (⟨0, ""⟩, ["b"]), (⟨1, ".text"⟩, ["c"])] := by
    decide +kernel +zetaReduce
  obtain ⟨-, hplaces, hnames, honce, hperm⟩ := labelsByAddress_partition p
  refine ⟨hgroups, (hplaces ".text" 1).mp ?_, (hnames ⟨0, ".text"⟩ _ ?_).1,
    honce "d" (by decide +kernel +zetaReduce), hperm⟩
  · rw [hgroups]
    decide
  · rw [hgroups]
    exact List.mem_cons_self

end MipsAssembly
