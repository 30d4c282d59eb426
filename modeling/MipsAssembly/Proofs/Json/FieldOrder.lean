import MipsAssembly.Proofs.Json.TaggedRecord

/-!
# Edited records

The fields of a record may be put in another order, fields that it does not use may be inserted,
and the values of the fields that it uses may themselves be edited.  A record whose fields are taken
one by one does not see the difference if two fields can be taken in either order.  A record whose
fields are kept until it is closed is told by the values of the fields that it uses, and these come
back as they were or edited.

## Main definitions

- `Document.FieldsEdit` — an edit of the fields of a record.
- `Document.FieldsEdit.named` — an edited value of a record that is a list.
- `Document.foldRecord_of_edit` — records whose fields are taken one by one.
- `JsonRecord.Agree` — records that have the same values in the fields that are used.
- `Document.FieldsEdit.exists_agree` — records whose fields are kept.
-/

namespace MipsAssembly

open JsonRecord

/-- The fields that a record uses, and what can be edited in their values if anything can. -/
abbrev JsonRecord.Usage (ι : Type) :=
  List (String × Option ι)

namespace Document

variable {ι σ : Type} {room : Nat} {used : Usage ι} {edit : ι → Document → Document → Prop}
  {fields fields' : List Field}

/-- An edit of the fields of a record: they are put in another order, a field that is not used is
inserted, or the value of a field that is used is edited.  Lists and objects may be nested so many
times in the record. -/
inductive FieldsEdit (room : Nat) (used : Usage ι) (edit : ι → Document → Document → Prop) :
    List Field → List Field → Prop where
  | permute {fields fields' : List Field} (h : fields.Perm fields') :
    FieldsEdit room used edit fields fields'
  | insert (front behind : List Field) {name : String} {value : JsonValue}
      (hname : used.lookup name = none) (hroom : value.nesting < room) :
    FieldsEdit room used edit (front ++ behind) (front ++ (.ok name, ofJson value) :: behind)
  | change (front behind : List Field) {name : String} {inner : ι} {d d' : Document}
      (hname : used.lookup name = some (some inner)) (h : edit inner d d') :
    FieldsEdit room used edit (front ++ (.ok name, d) :: behind) (front ++ (.ok name, d') :: behind)

/-! ## Records that are lists -/

theorem zip_append_cons {α β : Type} {as : List α} {a : α} {front : List β}
    (h : as[front.length]? = some a) (b : β) (behind : List β) :
    as.zip (front ++ b :: behind) =
      as.zip front ++ (a, b) :: (as.drop (front.length + 1)).zip behind := by
  induction front generalizing as with
  | nil =>
    cases as with
    | nil => cases h
    | cons a' as =>
      obtain rfl : a' = a := Option.some.inj h
      rfl
  | cons c front ih =>
    cases as with
    | nil => cases h
    | cons a' as =>
      rw [List.cons_append, List.zip_cons_cons, ih h]
      rfl

/-- An edited value of a record that is a list is the value of a field. -/
theorem FieldsEdit.named {front : List Document} {name : String} {inner : ι} {d d' : Document}
    (hnodup : (used.map Prod.fst).Nodup) (hname : used[front.length]? = some (name, some inner))
    (h : edit inner d d') (behind : List Document) :
    FieldsEdit room used edit (named (used.map Prod.fst) (front ++ d :: behind))
      (named (used.map Prod.fst) (front ++ d' :: behind)) := by
  have hplace : ((used.map Prod.fst).map .ok)[front.length]? =
      some (.ok name : Except JsonFault String) := by
    simp [hname]
  rw [Document.named, Document.named, zip_append_cons hplace, zip_append_cons hplace]
  exact .change _ _ (OrderedMap.lookup_of_mem hnodup (List.mem_of_getElem? hname)) h

/-- The fields of a record that is a list, one value of which is edited. -/
theorem exists_fields?_of_edit (room : Nat) {front : List Document} {name : String} {inner : ι}
    {d d' : Document} (hnodup : (used.map Prod.fst).Nodup)
    (hname : used[front.length]? = some (name, some inner)) (h : edit inner d d')
    (behind : List Document) (fields : List Field)
    (hfields : (array (front ++ d :: behind) none).fields? (used.map Prod.fst) = some fields) :
    ∃ fields', (array (front ++ d' :: behind) none).fields? (used.map Prod.fst) = some fields' ∧
      FieldsEdit room used edit fields fields' := by
  obtain ⟨hlength, rfl⟩ := fields?_array_eq_some_iff.mp hfields
  refine ⟨_, fields?_array_eq_some_iff.mpr ⟨?_, rfl⟩, .named hnodup hname h behind⟩
  simpa using hlength

/-! ## Records whose fields are taken one by one -/

/-- Two fields can be taken in either order, fields that are not used are passed over, and an edited
value is taken like the value that it was. -/
structure TakesAnyOrder (take : σ → String → Document → Except JsonFault σ) (used : Usage ι)
    (edit : ι → Document → Document → Prop) : Prop where
  swap : ∀ {parts parts₁ parts₂ key key' d d'}, take parts key d = .ok parts₁ →
    take parts₁ key' d' = .ok parts₂ →
    ∃ parts', take parts key' d' = .ok parts' ∧ take parts' key d = .ok parts₂
  pass : ∀ {parts key d}, key ∉ used.map Prod.fst → d.skip = .ok () →
    take parts key d = .ok parts
  change : ∀ {parts next key inner d d'}, (key, some inner) ∈ used → edit inner d d' →
    take parts key d = .ok next → take parts key d' = .ok next

/-- Fields that are edited are taken as before. -/
theorem foldlM_of_edit {take : σ → String → Document → Except JsonFault σ} {start result : σ}
    (htake : TakesAnyOrder take used edit) (h : FieldsEdit room used edit fields fields')
    (hread : fields.foldlM (takeField take) start = .ok result) :
    fields'.foldlM (takeField take) start = .ok result := by
  cases h with
  | permute hperm =>
    refine foldlM_eq_ok_of_perm (fun hfirst hsecond => ?_) hperm hread
    obtain ⟨key, hkey, hfirst⟩ := takeField_eq_ok_iff.mp hfirst
    obtain ⟨key', hkey', hsecond⟩ := takeField_eq_ok_iff.mp hsecond
    obtain ⟨parts', hfirst', hsecond'⟩ := htake.swap hfirst hsecond
    exact ⟨parts', takeField_eq_ok_iff.mpr ⟨key', hkey', hfirst'⟩,
      takeField_eq_ok_iff.mpr ⟨key, hkey, hsecond'⟩⟩
  | @insert front behind name value hname =>
    rw [List.foldlM_append] at hread ⊢
    obtain ⟨parts, hfront, hbehind⟩ := exists_of_bind_eq_ok hread
    rw [hfront]
    show ((.ok name, ofJson value) :: behind).foldlM (takeField take) parts = _
    have hpass : takeField take parts (.ok name, ofJson value) = .ok parts :=
      htake.pass (OrderedMap.lookup_eq_none_iff.mp hname) (skip_ofJson value)
    rw [List.foldlM_cons, hpass]
    exact hbehind
  | @change front behind name inner d d' hname hedit =>
    rw [List.foldlM_append] at hread ⊢
    obtain ⟨parts, hfront, hbehind⟩ := exists_of_bind_eq_ok hread
    rw [List.foldlM_cons] at hbehind
    obtain ⟨next, hnext, hbehind⟩ := exists_of_bind_eq_ok hbehind
    rw [hfront]
    show ((.ok name, d') :: behind).foldlM (takeField take) parts = _
    have hchanged : takeField take parts (.ok name, d') = .ok next :=
      htake.change (OrderedMap.mem_of_lookup hname) hedit hnext
    rw [List.foldlM_cons, hchanged]
    exact hbehind

/-- A record is read as what it was read as before its fields were edited. -/
theorem foldRecord_of_edit {names : List String}
    {take : σ → String → Document → Except JsonFault σ} {start result : σ} {d d' : Document}
    (htake : TakesAnyOrder take used edit)
    (h : ∀ fields, d.fields? names = some fields →
      ∃ fields', d'.fields? names = some fields' ∧ FieldsEdit room used edit fields fields')
    (hread : d.foldRecord names take start = .ok result) :
    d'.foldRecord names take start = .ok result := by
  obtain ⟨fields, hfields, hread⟩ := foldRecord_eq_ok_iff.mp hread
  obtain ⟨fields', hfields', hedit⟩ := h fields hfields
  exact foldRecord_eq_ok_iff.mpr ⟨fields', hfields', foldlM_of_edit htake hedit hread⟩

end Document

/-! ## Records whose fields are kept -/

namespace JsonRecord

variable {ι : Type} {used : Usage ι} {same : ι → JsonValue → JsonValue → Prop}
  {fields fields' : List (String × JsonValue)}

/-- Records that have the same values in the fields that are used, but for edits of values. -/
structure Agree (used : Usage ι) (same : ι → JsonValue → JsonValue → Prop)
    (fields fields' : List (String × JsonValue)) : Prop where
  absent : ∀ {name use}, used.lookup name = some use →
    valuesOf name fields = [] → valuesOf name fields' = []
  plain : ∀ {name}, used.lookup name = some none →
    ∀ {value}, valuesOf name fields = [value] → valuesOf name fields' = [value]
  inner : ∀ {name inner}, used.lookup name = some (some inner) →
    ∀ {value}, valuesOf name fields = [value] →
      ∃ value', valuesOf name fields' = [value'] ∧ same inner value value'

namespace Agree

variable {name : String} {value value' : JsonValue} {inner : ι}

theorem of_eq (hrefl : ∀ inner value, same inner value value)
    (h : ∀ {name use}, used.lookup name = some use →
      ∀ {values}, valuesOf name fields = values → values.length ≤ 1 →
        valuesOf name fields' = values) : Agree used same fields fields' where
  absent hname hvalues := h hname hvalues (Nat.zero_le 1)
  plain hname _ hvalues := h hname hvalues le_rfl
  inner hname value hvalues := ⟨value, h hname hvalues le_rfl, hrefl _ value⟩

theorem of_perm (hrefl : ∀ inner value, same inner value value) (h : fields.Perm fields') :
    Agree used same fields fields' := by
  refine of_eq hrefl ?_
  rintro name use - values hvalues hlength
  have hperm := valuesOf_perm name h
  rw [hvalues] at hperm
  -- A single value cannot be put in another order.
  match values, hlength with
  | [], _ => exact hperm.nil_eq.symm
  | [v], _ => exact List.perm_singleton.mp hperm.symm

theorem insert (hrefl : ∀ inner value, same inner value value) (hname : used.lookup name = none)
    (value : JsonValue) (front behind : List (String × JsonValue)) :
    Agree used same (front ++ behind) (front ++ (name, value) :: behind) := by
  refine of_eq hrefl ?_
  rintro other use hother values hvalues -
  have hne : name ≠ other := by
    rintro rfl
    rw [hname] at hother
    cases hother
  rw [valuesOf_append, valuesOf_cons_of_ne hne, ← valuesOf_append, hvalues]

/-- A field that is used once has the edited value as its only one. -/
theorem change (hrefl : ∀ inner value, same inner value value)
    (hname : used.lookup name = some (some inner)) (h : same inner value value')
    (front behind : List (String × JsonValue)) :
    Agree used same (front ++ (name, value) :: behind) (front ++ (name, value') :: behind) := by
  have hothers {other : String} (hne : name ≠ other) :
      valuesOf other (front ++ (name, value') :: behind) =
        valuesOf other (front ++ (name, value) :: behind) := by
    simp only [valuesOf_append, valuesOf_cons_of_ne hne]
  have hself (v : JsonValue) : valuesOf name (front ++ (name, v) :: behind) =
      valuesOf name front ++ v :: valuesOf name behind := by
    rw [valuesOf_append, valuesOf_cons_self]
  refine ⟨?absent, ?plain, ?inner⟩
  case absent =>
    intro other use hother hvalues
    by_cases hne : name = other
    · subst hne
      rw [hself] at hvalues
      simp at hvalues
    · rw [hothers hne, hvalues]
  case plain =>
    intro other hother v hvalues
    by_cases hne : name = other
    · subst hne
      rw [hname] at hother
      cases hother
    · rw [hothers hne, hvalues]
  case inner =>
    intro other inner' hother v hvalues
    by_cases hne : name = other
    · subst hne
      obtain rfl : inner = inner' := by simpa [hname] using hother
      rw [hself, List.append_eq_singleton_iff] at hvalues
      simp only [List.cons_ne_nil, and_false, or_false, List.cons.injEq] at hvalues
      obtain ⟨hfront, rfl, hbehind⟩ := hvalues
      exact ⟨value', by rw [hself, hfront, hbehind]; rfl, h⟩
    · exact ⟨v, by rw [hothers hne, hvalues], hrefl inner' v⟩

end Agree

end JsonRecord

namespace Document

variable {ι : Type} {room : Nat} {used : Usage ι} {edit : ι → Document → Document → Prop}
  {fields fields' : List Field} {same : ι → JsonValue → JsonValue → Prop}

/-- An edited document has a value that is the same as before but for edits. -/
def KeepsValue (room : Nat) (same : JsonValue → JsonValue → Prop) (d d' : Document) : Prop :=
  ∀ value, d.value room = .ok value → ∃ value', d'.value room = .ok value' ∧ same value value'

/-- The fields of an edited record are kept with the values that they had, but for edits. -/
theorem FieldsEdit.exists_agree (h : FieldsEdit (room + 1) used edit fields fields')
    (hrefl : ∀ inner value, same inner value value)
    (hinner : ∀ {name inner}, used.lookup name = some (some inner) →
      ∀ {d d'}, edit inner d d' → KeepsValue room (same inner) d d')
    {values : List (String × JsonValue)}
    (hread : fields.mapM (readField (value room)) = .ok values) :
    ∃ values', fields'.mapM (readField (value room)) = .ok values' ∧
      Agree used same values values' := by
  cases h with
  | permute hperm =>
    obtain ⟨values', hread', hvalues⟩ := exists_mapM_of_perm hperm hread
    exact ⟨values', hread', .of_perm hrefl hvalues⟩
  | @insert front behind name v hname hroom =>
    obtain ⟨as, bs, has, hbs, rfl⟩ := mapM_append_eq_ok_iff.mp hread
    have hfield : readField (value room) (.ok name, ofJson v) = .ok (name, v) :=
      readField_eq_ok_iff.mpr ⟨rfl, value_ofJson (Nat.le_of_lt_succ hroom)⟩
    have hbehind := mapM_cons_eq_ok_iff.mpr ⟨_, bs, hfield, hbs, rfl⟩
    exact ⟨_, mapM_append_eq_ok_iff.mpr ⟨as, _, has, hbehind, rfl⟩, .insert hrefl hname v as bs⟩
  | @change front behind name inner d d' hname hedit =>
    obtain ⟨⟨key, v⟩, as, bs, hfield, rfl, -, hreplaced⟩ := exists_of_mapM_append_cons hread
    obtain ⟨hkey, hv⟩ := readField_eq_ok_iff.mp hfield
    obtain rfl := Except.ok.inj hkey
    obtain ⟨v', hv', hsame⟩ := hinner hname hedit v hv
    have hfield' : readField (value room) (.ok name, d') = .ok (name, v') :=
      readField_eq_ok_iff.mpr ⟨rfl, hv'⟩
    exact ⟨_, hreplaced hfield', .change hrefl hname hsame as bs⟩

end Document

end MipsAssembly
