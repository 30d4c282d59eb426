import MipsAssembly.Proofs.Json.Walk
import MipsAssembly.Proofs.OrderedMap

/-!
# Records with a tag

The fields of a record are found by their names.  A record with a tag that is an object may have
the tag anywhere among its fields; one that is a list has it in front, and it tells the names of the
values behind it.  Either way such a record is read as the fields that its value has.

## Main definitions

- `JsonRecord.listed?_eq_some_iff` — the fields of a record that is a list.
- `Document.recordFields?` — the fields of a record by its value.
- `Document.tagged_eq_ok_iff` — records with a tag are read as their values.
-/

namespace MipsAssembly

/-! ## Fields by their names -/

namespace JsonRecord

variable {α : Type}

theorem valuesOf_append (name : String) (front behind : List (String × α)) :
    valuesOf name (front ++ behind) = valuesOf name front ++ valuesOf name behind := by
  simp [valuesOf]

theorem valuesOf_cons_self (name : String) (a : α) (fields : List (String × α)) :
    valuesOf name ((name, a) :: fields) = a :: valuesOf name fields := by
  simp [valuesOf]

theorem valuesOf_cons_of_ne {name key : String} (h : key ≠ name) (a : α)
    (fields : List (String × α)) : valuesOf name ((key, a) :: fields) = valuesOf name fields := by
  simp [valuesOf, h]

theorem mem_valuesOf {name : String} {a : α} {fields : List (String × α)}
    (h : (name, a) ∈ fields) : a ∈ valuesOf name fields := by
  simpa [valuesOf] using h

/-- The fields of another name may be left aside. -/
theorem valuesOf_filter_ne {name other : String} (h : name ≠ other) (fields : List (String × α)) :
    valuesOf name (fields.filter fun field => field.1 ≠ other) = valuesOf name fields := by
  rw [valuesOf, List.filter_filter]
  refine congrArg _ (List.filter_congr fun field _ => ?_)
  by_cases hfield : field.1 = name
  · simp [hfield, h]
  · simp [hfield]

theorem valuesOf_perm {fields fields' : List (String × α)} (name : String)
    (h : fields.Perm fields') : (valuesOf name fields).Perm (valuesOf name fields') :=
  (h.filter _).map _

theorem required?_eq_some_iff {name : String} {fields : List (String × α)} {a : α} :
    required? name fields = some a ↔ valuesOf name fields = [a] := by
  unfold required?
  split
  · next value hvalue => simp [hvalue]
  · next hother => exact ⟨fun h => (by cases h), fun h => absurd h (hother a)⟩

/-! ## Records that are lists -/

variable {names : List String} {values items : List α} {fields : List (String × α)}

theorem named?_eq_some_iff : named? names values = some fields ↔
    values.length ≤ names.length ∧ fields = names.zip values := by
  rw [named?]
  split <;> simp_all [eq_comm]

theorem listed?_eq_some_iff {kinds : Kinds} {tag? : α → Option String} :
    listed? kinds tag? items = some fields ↔ ∃ first values tag names, items = first :: values ∧
      tag? first = some tag ∧ kinds.lookup tag = some names ∧ values.length ≤ names.length ∧
      fields = ("type", first) :: names.zip values := by
  cases items with
  | nil => simp [listed?]
  | cons first values =>
    simp only [listed?, Option.bind_eq_bind, Option.bind_eq_some_iff, named?_eq_some_iff,
      Option.pure_def, Option.some.injEq, List.cons.injEq]
    constructor
    · rintro ⟨tag, htag, names, hnames, _, ⟨hlength, rfl⟩, rfl⟩
      exact ⟨first, values, tag, names, ⟨rfl, rfl⟩, htag, hnames, hlength, rfl⟩
    · rintro ⟨_, _, tag, names, ⟨rfl, rfl⟩, htag, hnames, hlength, rfl⟩
      exact ⟨tag, htag, names, hnames, _, ⟨hlength, rfl⟩, rfl⟩

theorem ne_of_mem_zip {name : String} (h : name ∉ names) :
    ∀ field ∈ names.zip values, field.1 ≠ name := by
  rintro ⟨other, a⟩ hfield rfl
  exact h (List.of_mem_zip hfield).1

theorem valuesOf_zip_of_not_mem {name : String} (h : name ∉ names) (values : List α) :
    valuesOf name (names.zip values) = [] := by
  rw [valuesOf, List.filter_eq_nil_iff.mpr (by simpa using ne_of_mem_zip h)]
  rfl

theorem isSome_lookup_of_listed? {kinds : Kinds} {tag? : α → Option String} {first : α}
    {tag : String} (h : listed? kinds tag? items = some (("type", first) :: fields))
    (htag : tag? first = some tag) : (kinds.lookup tag).isSome := by
  obtain ⟨first', values, tag', names, -, htag', hnames, -, hfields⟩ := listed?_eq_some_iff.mp h
  obtain ⟨hpair, -⟩ := List.cons.inj hfields
  obtain ⟨-, rfl⟩ := Prod.mk.inj hpair
  obtain rfl : tag = tag' := Option.some.inj (htag.symm.trans htag')
  exact Option.isSome_of_mem hnames

/-- The first item of a list is the only tag among the fields. -/
theorem exists_first_of_listed? {kinds : Kinds} {tag? : α → Option String}
    (hkinds : ∀ kind ∈ kinds, "type" ∉ kind.2) (h : listed? kinds tag? items = some fields) :
    ∃ first, valuesOf "type" fields = [first] ∧
      ("type", first) :: fields.filter (fun field => field.1 ≠ "type") = fields := by
  obtain ⟨first, values, tag, names, -, -, hnames, -, rfl⟩ := listed?_eq_some_iff.mp h
  have hnot : "type" ∉ names := hkinds _ (OrderedMap.mem_of_lookup hnames)
  refine ⟨first, ?_, ?_⟩
  · rw [valuesOf_cons_self, valuesOf_zip_of_not_mem hnot]
  · rw [List.filter_cons_of_neg (by simp),
      List.filter_eq_self.mpr (by simpa using ne_of_mem_zip hnot)]

end JsonRecord

namespace Document

open JsonRecord

/-! ## Records with a tag -/

variable {d : Document} {room : Nat} {kinds : Kinds}

/-- What is known of the tag in front of some values of the field `type`, and behind them. -/
inductive TagRead (kinds : Kinds) :
    Option String → List JsonValue → Option String → Prop where
  | keep (tag : Option String) : TagRead kinds tag [] tag
  | set {tag : String} (h : (kinds.lookup tag).isSome) : TagRead kinds none [.text tag] (some tag)

theorem orMismatched_eq_ok_iff {α : Type} {o : Option α} {a : α} :
    orMismatched o = .ok a ↔ o = some a := by
  cases o <;> simp [orMismatched]

theorem takeTagged_eq_ok_iff {parts next : Tagged} {key : String} :
    Tagged.take kinds room parts key d = .ok next ↔ ∃ v, d.value room = .ok v ∧
      (key = "type" ∧ parts.tag = none ∧
          (∃ tag, v = .text tag ∧ (kinds.lookup tag).isSome ∧ next = ⟨some tag, parts.fields⟩) ∨
        key ≠ "type" ∧ next = ⟨parts.tag, parts.fields ++ [(key, v)]⟩) := by
  obtain ⟨before, fields⟩ := parts
  rw [Tagged.take]
  split
  case isTrue hkey =>
    subst hkey
    cases before with
    | some tag => simp
    | none =>
      constructor
      · intro h
        obtain ⟨tag, htag, h⟩ := exists_of_bind_eq_ok h
        obtain ⟨names, hnames, h⟩ := exists_of_bind_eq_ok h
        have hvalue : d.value room = .ok (.text tag) :=
          value_eq_text_iff.mpr (asText_eq_ok_iff.mp htag)
        have hknown := Option.isSome_of_mem (orMismatched_eq_ok_iff.mp hnames)
        exact ⟨_, hvalue, .inl ⟨rfl, rfl, tag, rfl, hknown, (Except.ok.inj h).symm⟩⟩
      · rintro ⟨_, hvalue, ⟨-, -, tag, rfl, hknown, rfl⟩ | ⟨hne, -⟩⟩
        · have htag := asText_eq_ok_iff.mpr (value_eq_text_iff.mp hvalue)
          show (d.asText >>= _) = _
          obtain ⟨names, hnames⟩ := Option.isSome_iff_exists.mp hknown
          rw [htag]
          show (orMismatched (kinds.lookup tag) >>= _) = _
          rw [hnames]
          rfl
        · exact absurd rfl hne
  case isFalse hkey =>
    constructor
    · intro h
      obtain ⟨v, hv, h⟩ := exists_of_bind_eq_ok h
      exact ⟨v, hv, .inr ⟨hkey, (Except.ok.inj h).symm⟩⟩
    · rintro ⟨v, hv, ⟨htype, -⟩ | ⟨-, rfl⟩⟩
      · exact absurd htype hkey
      · rw [hv]
        rfl

theorem foldlM_takeTagged_iff {fields : List Field} {before after : Option String}
    {front others : List (String × JsonValue)} :
    fields.foldlM (takeField (Tagged.take kinds room)) ⟨before, front⟩ = .ok ⟨after, others⟩ ↔
      ∃ values, fields.mapM (readField (value room)) = .ok values ∧
        TagRead kinds before (valuesOf "type" values) after ∧
        others = front ++ values.filter fun field => field.1 ≠ "type" := by
  induction fields generalizing before front with
  | nil =>
    constructor
    · rintro h
      obtain ⟨rfl, rfl⟩ := Tagged.mk.inj (Except.ok.inj h)
      exact ⟨[], rfl, .keep before, (List.append_nil front).symm⟩
    · rintro ⟨_, hvalues, htag, rfl⟩
      obtain rfl := Except.ok.inj hvalues
      cases htag
      show Except.ok (⟨after, front⟩ : Tagged) = .ok ⟨after, front ++ []⟩
      rw [List.append_nil]
  | cons field fields ih =>
    obtain ⟨key, d⟩ := field
    rw [List.foldlM_cons]
    constructor
    · intro h
      obtain ⟨⟨tag, front'⟩, hnext, hrest⟩ := exists_of_bind_eq_ok h
      obtain ⟨name, rfl, hnext⟩ := takeField_eq_ok_iff.mp hnext
      obtain ⟨v, hv, hnext⟩ := takeTagged_eq_ok_iff.mp hnext
      obtain ⟨values, hvalues, htag, rfl⟩ := ih.mp hrest
      refine ⟨(name, v) :: values, mapM_cons_eq_ok_iff.mpr
        ⟨_, values, readField_eq_ok_iff.mpr ⟨rfl, hv⟩, hvalues, rfl⟩, ?_⟩
      rcases hnext with ⟨rfl, rfl, tag', rfl, hknown, hnext⟩ | ⟨hne, hnext⟩
      · obtain ⟨rfl, rfl⟩ := Tagged.mk.inj hnext
        rw [valuesOf_cons_self]
        -- No other tag may come behind the first one.
        generalize valuesOf "type" values = tags at htag
        cases htag with
        | keep => exact ⟨.set hknown, by simp⟩
      · obtain ⟨rfl, rfl⟩ := Tagged.mk.inj hnext
        rw [valuesOf_cons_of_ne hne]
        exact ⟨htag, by simp [hne]⟩
    · rintro ⟨_, hread, htag, rfl⟩
      obtain ⟨⟨name, v⟩, values, hfield, hvalues, rfl⟩ := mapM_cons_eq_ok_iff.mp hread
      obtain ⟨hkey, hv⟩ := readField_eq_ok_iff.mp hfield
      by_cases hne : name = "type"
      · subst hne
        rw [valuesOf_cons_self] at htag
        generalize htags : valuesOf "type" values = tags at htag
        cases htag with
        | @set tag hknown =>
          have htake : Tagged.take kinds room ⟨none, front⟩ "type" d = .ok ⟨some tag, front⟩ :=
            takeTagged_eq_ok_iff.mpr ⟨_, hv, .inl ⟨rfl, rfl, tag, rfl, hknown, rfl⟩⟩
          rw [takeField_eq_ok_iff.mpr ⟨_, hkey, htake⟩]
          exact ih.mpr ⟨values, hvalues, htags ▸ .keep _, by simp⟩
      · rw [valuesOf_cons_of_ne hne] at htag
        have htake : Tagged.take kinds room ⟨before, front⟩ name d =
            .ok ⟨before, front ++ [(name, v)]⟩ :=
          takeTagged_eq_ok_iff.mpr ⟨_, hv, .inr ⟨hne, rfl⟩⟩
        rw [takeField_eq_ok_iff.mpr ⟨_, hkey, htake⟩]
        exact ih.mpr ⟨values, hvalues, htag, by simp [hne]⟩

/-- The fields of the value of a record with a tag. -/
def recordFields? (kinds : Kinds) : JsonValue → Option (List (String × JsonValue))
  | .object fields => some fields
  | .array items => listed? kinds JsonValue.asText? items
  | _ => none

theorem tagged_object_eq_ok_iff {fields : List Field} {fault : Option JsonFault} {tag : String}
    {others : List (String × JsonValue)} :
    (object fields fault).tagged kinds room = .ok (tag, others) ↔ (kinds.lookup tag).isSome ∧
      ∃ values, (object fields fault).value (room + 1) = .ok (.object values) ∧
        valuesOf "type" values = [.text tag] ∧
        others = values.filter fun field => field.1 ≠ "type" := by
  constructor
  · intro h
    obtain ⟨⟨before, kept⟩, hparts, h⟩ := exists_of_bind_eq_ok h
    obtain ⟨rfl, hread⟩ := foldFields_eq_ok_iff.mp hparts
    obtain ⟨values, hvalues, htag, hkept⟩ := foldlM_takeTagged_iff.mp hread
    have hvalue : (object fields none).value (room + 1) = .ok (.object values) :=
      value_object_eq_ok_iff.mpr ⟨Nat.succ_ne_zero room, rfl, values, hvalues, rfl⟩
    cases before with
    | none => cases h
    | some found =>
      obtain ⟨rfl, rfl⟩ := Prod.mk.inj (Except.ok.inj h)
      generalize htags : valuesOf "type" values = tags at htag
      cases htag with
      | set hknown => exact ⟨hknown, values, hvalue, htags, hkept⟩
  · rintro ⟨hknown, values, hvalue, htags, rfl⟩
    obtain ⟨-, rfl, values', hvalues, hobject⟩ := value_object_eq_ok_iff.mp hvalue
    obtain rfl : values' = values := JsonValue.object.inj hobject
    have hparts : foldFields (Tagged.take kinds room) {} fields none =
        .ok ⟨some tag, values'.filter fun field => field.1 ≠ "type"⟩ := by
      refine foldFields_eq_ok_iff.mpr ⟨rfl, foldlM_takeTagged_iff.mpr ⟨values', hvalues, ?_, rfl⟩⟩
      rw [htags]
      exact .set hknown
    rw [tagged, hparts]
    rfl

theorem tagged_array_eq_ok_iff {items : List Document} {fault : Option JsonFault} {tag : String}
    {others : List (String × JsonValue)} :
    (array items fault).tagged kinds room = .ok (tag, others) ↔
      ∃ values, (array items fault).value (room + 1) = .ok (.array values) ∧
        listed? kinds JsonValue.asText? values = some (("type", .text tag) :: others) := by
  cases items with
  | nil =>
    constructor
    · intro h
      obtain ⟨-, -, h⟩ := exists_of_bind_eq_ok h
      cases h
    · rintro ⟨values, hvalue, hlisted⟩
      obtain ⟨-, -, _, hitems, harray⟩ := value_array_eq_ok_iff.mp hvalue
      obtain rfl := Except.ok.inj hitems
      obtain rfl := JsonValue.array.inj harray
      cases hlisted
  | cons first items =>
    constructor
    · intro h
      obtain ⟨tag', htag, h⟩ := exists_of_bind_eq_ok h
      obtain ⟨names, hnames, h⟩ := exists_of_bind_eq_ok h
      obtain ⟨values, hlist, h⟩ := exists_of_bind_eq_ok h
      obtain ⟨others', hothers, h⟩ := exists_of_bind_eq_ok h
      obtain ⟨rfl, rfl⟩ := Prod.mk.inj (Except.ok.inj h)
      obtain rfl := asText_eq_ok_iff.mp htag
      obtain ⟨rfl, hvalues⟩ := asList_array_eq_ok_iff.mp hlist
      obtain ⟨hlength, rfl⟩ := named?_eq_some_iff.mp (orMismatched_eq_ok_iff.mp hothers)
      refine ⟨.text tag' :: values, value_array_eq_ok_iff.mpr ⟨Nat.succ_ne_zero room, rfl, _,
        mapM_cons_eq_ok_iff.mpr ⟨_, values, rfl, hvalues, rfl⟩, rfl⟩, ?_⟩
      exact listed?_eq_some_iff.mpr
        ⟨_, _, tag', names, rfl, rfl, orMismatched_eq_ok_iff.mp hnames, hlength, rfl⟩
    · rintro ⟨_, hvalue, hlisted⟩
      obtain ⟨-, rfl, _, hitems, harray⟩ := value_array_eq_ok_iff.mp hvalue
      obtain rfl := JsonValue.array.inj harray
      obtain ⟨w, values, hfirst, hvalues, rfl⟩ := mapM_cons_eq_ok_iff.mp hitems
      obtain ⟨_, _, tag', names, hcons, htag, hnames, hlength, hfields⟩ :=
        listed?_eq_some_iff.mp hlisted
      obtain ⟨rfl, rfl⟩ := List.cons.inj hcons
      obtain ⟨hpair, rfl⟩ := List.cons.inj hfields
      obtain ⟨-, rfl⟩ := Prod.mk.inj hpair
      obtain rfl := Option.some.inj htag
      obtain rfl := value_eq_text_iff.mp hfirst
      have hnames := orMismatched_eq_ok_iff.mpr hnames
      have hvalues := asList_array_eq_ok_iff.mpr ⟨rfl, hvalues⟩
      have hothers := orMismatched_eq_ok_iff.mpr (named?_eq_some_iff.mpr ⟨hlength, rfl⟩)
      -- The tag is read, then the names are found, and then the values are read.
      exact bind_eq_ok rfl (bind_eq_ok hnames (bind_eq_ok hvalues (bind_eq_ok hothers rfl)))

/-- A tagged record is read exactly if the field `type` is there once among its fields and holds a
known tag. -/
theorem tagged_eq_ok_iff (hkinds : ∀ kind ∈ kinds, "type" ∉ kind.2) {tag : String}
    {others : List (String × JsonValue)} :
    d.tagged kinds room = .ok (tag, others) ↔ (kinds.lookup tag).isSome ∧
      ∃ v values, d.value (room + 1) = .ok v ∧ recordFields? kinds v = some values ∧
        valuesOf "type" values = [.text tag] ∧
        others = values.filter fun field => field.1 ≠ "type" := by
  cases d with
  | object fields fault =>
    rw [tagged_object_eq_ok_iff]
    constructor
    · rintro ⟨hknown, values, hvalue, htag, hothers⟩
      exact ⟨hknown, _, values, hvalue, rfl, htag, hothers⟩
    · rintro ⟨hknown, v, values, hvalue, hfields, htag, hothers⟩
      obtain ⟨-, -, values', -, rfl⟩ := value_object_eq_ok_iff.mp hvalue
      obtain rfl := Option.some.inj hfields
      exact ⟨hknown, _, hvalue, htag, hothers⟩
  | array items fault =>
    rw [tagged_array_eq_ok_iff]
    constructor
    · rintro ⟨values, hvalue, hlisted⟩
      obtain ⟨first, hfirst, hfields⟩ := exists_first_of_listed? hkinds hlisted
      obtain ⟨hpair, hothers⟩ := List.cons.inj hfields
      obtain ⟨-, rfl⟩ := Prod.mk.inj hpair
      exact ⟨isSome_lookup_of_listed? hlisted rfl, _, _, hvalue, hlisted, hfirst, hothers.symm⟩
    · rintro ⟨-, v, fields, hvalue, hlisted, htag, rfl⟩
      obtain ⟨-, -, values, -, rfl⟩ := value_array_eq_ok_iff.mp hvalue
      obtain ⟨first, hfirst, hfields⟩ := exists_first_of_listed? hkinds hlisted
      obtain rfl := List.singleton_inj.mp (hfirst.symm.trans htag)
      exact ⟨values, hvalue, hlisted.trans (congrArg some hfields.symm)⟩
  | word w =>
    refine ⟨fun h => (by cases h), fun ⟨_, v, values, hvalue, hfields, _⟩ => ?_⟩
    obtain ⟨b, -, rfl⟩ := exists_of_map_eq_ok hvalue
    cases b <;> cases hfields
  | number n =>
    refine ⟨fun h => (by cases h), fun ⟨_, v, values, hvalue, hfields, _⟩ => ?_⟩
    obtain ⟨b, -, rfl⟩ := exists_of_map_eq_ok hvalue
    cases hfields
  | text s =>
    refine ⟨fun h => (by cases h), fun ⟨_, v, values, hvalue, hfields, _⟩ => ?_⟩
    obtain ⟨b, -, rfl⟩ := exists_of_map_eq_ok hvalue
    cases hfields
  | missing f => exact ⟨fun h => (by cases h), fun ⟨_, _, _, h, _⟩ => (by cases h)⟩

end Document

end MipsAssembly
