import MipsAssembly.Proofs.Json.BrokenDocument
import MipsAssembly.Proofs.Json.TaggedRecord

/-!
# Walking over documents of texts that break off

A document that can be read without a fault is cut short.  Walking over what is left comes to the
place where the text ends and to no fault in front of it, since everything there is as it was.  Only
a number of which some digits are left can be read, and a value that is not asked for; then the end
of the text is found behind it.

## Main definitions

- `Document.RefusesLeftover` — what is left is refused because the text ends.
- `Document.NoOtherFault` — what is left is refused for no other reason.
- `Document.refusesLeftover_asList`, `Document.refusesLeftover_asFields` — lists and objects.
- `Document.noOtherFault_value` — values that are kept.
- `Document.refusesLeftover_foldRecord`, `Document.refusesLeftover_tagged` — records.
-/

namespace MipsAssembly

namespace Document

variable {α β γ σ : Type} {read : Document → Except JsonFault α} {d : Document}

/-- What is left of a document that can be read is refused because the text ends. -/
def RefusesLeftover (read : Document → Except JsonFault α) (d : Document) : Prop :=
  (∃ a, read d = .ok a) → ∀ {f left}, Leftover f d left → read left = .error .truncated

/-- Reading comes to no other fault than that the text ends, in a document or behind it. -/
def EndsIn (f : JsonFault) (result : Except JsonFault α) : Prop :=
  result = .error .truncated ∨ f = .truncated ∧ ∃ a, result = .ok a

/-- What is left of a document that can be read is refused because the text ends, or it can be read
and the text ends behind it. -/
def NoOtherFault (read : Document → Except JsonFault α) (d : Document) : Prop :=
  (∃ a, read d = .ok a) → ∀ {f left}, Leftover f d left → EndsIn f (read left)

theorem RefusesLeftover.noOtherFault (h : RefusesLeftover read d) : NoOtherFault read d :=
  fun hread _ _ hleft => .inl (h hread hleft)

theorem RefusesLeftover.bind (h : RefusesLeftover read d) (next : α → Except JsonFault β) :
    RefusesLeftover (fun d => read d >>= next) d := by
  rintro ⟨b, hb⟩ f left hleft
  obtain ⟨a, ha, -⟩ := exists_of_bind_eq_ok hb
  have hrefused := h ⟨a, ha⟩ hleft
  simp only [hrefused]
  rfl

theorem NoOtherFault.map (h : NoOtherFault read d) (g : α → β) :
    NoOtherFault (fun d => (read d).map g) d := by
  rintro ⟨b, hb⟩ f left hleft
  obtain ⟨a, ha, -⟩ := exists_of_map_eq_ok hb
  rcases h ⟨a, ha⟩ hleft with hrefused | ⟨hf, a', hread⟩
  · simp only [hrefused]
    exact .inl rfl
  · simp only [hread]
    exact .inr ⟨hf, _, rfl⟩

/-! ### Texts and numbers -/

theorem refusesLeftover_asText (d : Document) : RefusesLeftover asText d := by
  rintro ⟨content, hread⟩ f left hleft
  cases hleft with
  | missing | text => rfl
  | _ => cases hread

theorem noOtherFault_asNatural (bound : Nat) (d : Document) :
    NoOtherFault (asNatural bound) d := by
  rintro ⟨n, hread⟩ f left hleft
  cases hleft with
  | missing | number => exact .inl rfl
  | @digits m whole hbegins =>
    cases whole with
    | real x => cases hread
    | integer i =>
      rw [asNatural] at hread
      split at hread
      · next hrange =>
        obtain ⟨j, hj, rfl⟩ := hbegins i.toNat (by rw [Int.toNat_of_nonneg hrange.1])
        have hrange' : (0 : Int) ≤ j ∧ (j : Int) < bound := by omega
        exact .inr ⟨rfl, _, if_pos hrange'⟩
      · cases hread
  | _ => cases hread

/-- A text whose value is not asked for. -/
theorem noOtherFault_skip_text (content : String) : NoOtherFault skip (text (.ok content)) := by
  rintro - f left hleft
  cases hleft with
  | missing => exact .inl rfl
  | text => exact .inr ⟨rfl, (), rfl⟩

/-! ### Lists and objects -/

/-- The text ends behind some of many parts. -/
theorem closeWith_mapM_front {g : β → Except JsonFault γ} {front behind : List β}
    (hall : ∀ b ∈ front ++ behind, ∃ c, g b = .ok c) (next : List γ → α) :
    (front.mapM g >>= fun cs => closeWith (some .truncated) (next cs)) = .error .truncated := by
  have hfront : ∀ b ∈ front, ∃ c, g b = .ok c := fun b hb => hall b (List.mem_append_left _ hb)
  obtain ⟨cs, hcs⟩ := exists_mapM_eq_ok_iff.mpr hfront
  rw [hcs]
  rfl

/-- The text ends inside one of many parts. -/
theorem closeWith_mapM_inside {g : β → Except JsonFault γ} {front behind : List β} {part : β}
    {f : JsonFault} (hall : ∀ b ∈ front ++ behind, ∃ c, g b = .ok c)
    (hpart : EndsIn f (g part))
    (next : List γ → α) :
    ((front ++ [part]).mapM g >>= fun cs => closeWith (some f) (next cs)) = .error .truncated := by
  have hfront : ∀ b ∈ front, ∃ c, g b = .ok c := fun b hb => hall b (List.mem_append_left _ hb)
  rcases hpart with hrefused | ⟨rfl, hread⟩
  · rw [mapM_append_cons_eq_error hfront hrefused]
    rfl
  · have hboth : ∀ b ∈ front ++ [part], ∃ c, g b = .ok c :=
      List.forall_mem_append.mpr ⟨hfront, List.forall_mem_singleton.mpr hread⟩
    obtain ⟨cs, hcs⟩ := exists_mapM_eq_ok_iff.mpr hboth
    rw [hcs]
    rfl

/-- A list whose items are read one by one. -/
theorem refusesLeftover_asList {items : List Document}
    (h : ∀ item ∈ items, NoOtherFault read item) :
    RefusesLeftover (asList read) (array items none) := by
  rintro ⟨as, hread⟩ f left hleft
  obtain ⟨bs, hitems, -⟩ := exists_of_bind_eq_ok hread
  have hall := exists_mapM_eq_ok_iff.mp ⟨bs, hitems⟩
  cases hleft with
  | missing => rfl
  | array front behind => exact closeWith_mapM_front hall id
  | @item _ d _ front behind hleft =>
    have hmem : d ∈ front ++ d :: behind := by simp
    exact closeWith_mapM_inside hall (h _ hmem (hall _ hmem) hleft) id

theorem EndsIn.readField {key : Except JsonFault String} {f : JsonFault} {left : Document}
    (h : (∃ a, read d = .ok a) → EndsIn f (read left))
    (hread : ∃ b, readField read (key, d) = .ok b) : EndsIn f (readField read (key, left)) := by
  obtain ⟨⟨name, a⟩, hb⟩ := hread
  obtain ⟨hkey, ha⟩ := readField_eq_ok_iff.mp hb
  have hkey : key = .ok name := hkey
  subst hkey
  rcases h ⟨a, ha⟩ with hrefused | ⟨hf, a', hread⟩
  · simp only [Document.readField, hrefused]
    exact .inl rfl
  · simp only [Document.readField, hread]
    exact .inr ⟨hf, _, rfl⟩

/-- An object whose fields are read one by one. -/
theorem refusesLeftover_asFields {fields : List Field}
    (h : ∀ field ∈ fields, NoOtherFault read field.2) :
    RefusesLeftover (asFields read) (object fields none) := by
  rintro ⟨as, hread⟩ f left hleft
  obtain ⟨bs, hfields, -⟩ := exists_of_bind_eq_ok hread
  have hall : ∀ field ∈ fields, ∃ b, readField read field = .ok b :=
    exists_mapM_eq_ok_iff.mp ⟨bs, hfields⟩
  cases hleft with
  | missing => rfl
  | object front behind => exact closeWith_mapM_front hall id
  | key front field behind =>
    exact closeWith_mapM_inside hall (.inl rfl) id
  | @field _ d _ front key behind hleft =>
    have hmem : (key, d) ∈ front ++ (key, d) :: behind := by simp
    exact closeWith_mapM_inside hall (.readField (h _ hmem · hleft) (hall _ hmem)) id

theorem exists_value_array {room : Nat} {items : List Document}
    (h : ∃ v, (array items none).value room = .ok v) :
    room ≠ 0 ∧ ∀ item ∈ items, ∃ v, item.value (room - 1) = .ok v := by
  obtain ⟨v, h⟩ := h
  obtain ⟨hroom, -, vs, hvs, -⟩ := value_array_eq_ok_iff.mp h
  exact ⟨hroom, exists_mapM_eq_ok_iff.mp ⟨vs, hvs⟩⟩

theorem exists_value_object {room : Nat} {fields : List Field}
    (h : ∃ v, (object fields none).value room = .ok v) :
    room ≠ 0 ∧ ∀ field ∈ fields, ∃ v, readField (value (room - 1)) field = .ok v := by
  obtain ⟨v, h⟩ := h
  obtain ⟨hroom, -, vs, hvs, -⟩ := value_object_eq_ok_iff.mp h
  exact ⟨hroom, exists_mapM_eq_ok_iff.mp ⟨vs, hvs⟩⟩

/-- A value that is kept until more is known. -/
theorem noOtherFault_value (room : Nat) (d : Document) : NoOtherFault (value room) d := by
  suffices h : ∀ {f d left}, Leftover f d left →
      ∀ room, (∃ v, d.value room = .ok v) → EndsIn f (left.value room) from
    fun hread _ _ hleft => h hleft room hread
  intro f d left hleft
  induction hleft with
  | missing | word | text | number => exact fun _ _ => .inl rfl
  | digits => exact fun _ _ => .inr ⟨rfl, _, rfl⟩
  | array front behind =>
    intro room hread
    obtain ⟨hroom, hall⟩ := exists_value_array hread
    rw [value_array hroom]
    exact .inl (closeWith_mapM_front hall _)
  | @item _ d _ front behind _ ih =>
    intro room hread
    obtain ⟨hroom, hall⟩ := exists_value_array hread
    have hmem : d ∈ front ++ d :: behind := by simp
    rw [value_array hroom]
    exact .inl (closeWith_mapM_inside hall (ih (room - 1) (hall d hmem)) _)
  | object front behind =>
    intro room hread
    obtain ⟨hroom, hall⟩ := exists_value_object hread
    rw [value_object hroom]
    exact .inl (closeWith_mapM_front hall _)
  | key front field behind =>
    intro room hread
    obtain ⟨hroom, hall⟩ := exists_value_object hread
    rw [value_object hroom]
    exact .inl (closeWith_mapM_inside hall (.inl rfl) _)
  | @field _ d _ front key behind _ ih =>
    intro room hread
    obtain ⟨hroom, hall⟩ := exists_value_object hread
    have hmem : (key, d) ∈ front ++ (key, d) :: behind := by simp
    rw [value_object hroom]
    exact .inl (closeWith_mapM_inside hall (.readField (ih (room - 1)) (hall _ hmem)) _)

/-! ### Records -/

/-- A record whose fields are taken one by one. -/
theorem refusesLeftover_foldRecord {names : List String}
    {take : σ → String → Document → Except JsonFault σ} {fields : List Field}
    (h : ∀ key d, (.ok key, d) ∈ fields → ∀ parts, NoOtherFault (take parts key) d) (start : σ) :
    RefusesLeftover (foldRecord names take start) (object fields none) := by
  -- The fields in front of the place where the text ends are taken.
  have hfront {front behind : List Field} {result : σ}
      (hread : (front ++ behind).foldlM (takeField take) start = .ok result) :
      ∃ parts, front.foldlM (takeField take) start = .ok parts ∧
        behind.foldlM (takeField take) parts = .ok result := by
    rw [List.foldlM_append] at hread
    exact exists_of_bind_eq_ok hread
  rintro ⟨result, hread⟩ f left hleft
  obtain ⟨_, hobject, hfields⟩ := foldRecord_eq_ok_iff.mp hread
  obtain rfl := Option.some.inj hobject
  cases hleft with
  | missing => rfl
  | object front behind =>
    obtain ⟨parts, hparts, -⟩ := hfront hfields
    show (front.foldlM (takeField take) start >>= _) = _
    rw [hparts]
    rfl
  | key front field behind =>
    obtain ⟨parts, hparts, -⟩ := hfront hfields
    show ((front ++ [_]).foldlM (takeField take) start >>= _) = _
    rw [List.foldlM_append, hparts]
    rfl
  | @field _ d left front key behind hleft =>
    obtain ⟨parts, hparts, hbehind⟩ := hfront hfields
    rw [List.foldlM_cons] at hbehind
    obtain ⟨next, hnext, -⟩ := exists_of_bind_eq_ok hbehind
    obtain ⟨name, rfl, hnext⟩ := takeField_eq_ok_iff.mp hnext
    have hmem : (.ok name, d) ∈ front ++ (.ok name, d) :: behind := by simp
    show ((front ++ [_]).foldlM (takeField take) start >>= _) = _
    rw [List.foldlM_append, hparts]
    show (take parts name left >>= _ ) >>= _ = _
    rcases h name d hmem parts ⟨next, hnext⟩ hleft with hrefused | ⟨rfl, parts', htaken⟩
    · rw [hrefused]
      rfl
    · rw [htaken]
      rfl

theorem noOtherFault_take (kinds : JsonRecord.Kinds) (room : Nat) (parts : Tagged) (key : String)
    (d : Document) : NoOtherFault (Tagged.take kinds room parts key) d := by
  unfold Tagged.take
  split
  · split
    · rintro ⟨_, hread⟩
      cases hread
    · exact ((refusesLeftover_asText d).bind _).noOtherFault
  · exact (noOtherFault_value room d).map fun value =>
      { parts with fields := parts.fields ++ [(key, value)] }

/-- A record with a tag that is an object. -/
theorem refusesLeftover_tagged_object (kinds : JsonRecord.Kinds) (room : Nat)
    (fields : List Field) : RefusesLeftover (tagged kinds room) (object fields none) := by
  have hfields : RefusesLeftover (foldRecord [] (Tagged.take kinds room) {}) (object fields none) :=
    refusesLeftover_foldRecord (fun key d _ parts => noOtherFault_take kinds room parts key d) {}
  intro hread f left hleft
  have hrefused := hfields.bind _ hread hleft
  cases hleft with
  | missing => exact hrefused
  | object | key | field => exact hrefused

/-- A list behind its tag is refused for the rest of its items. -/
theorem tagged_array_eq_error {kinds : JsonRecord.Kinds} {room : Nat} {first : Document}
    {items items' : List Document} {fault : Option JsonFault} {f : JsonFault}
    (hread : ∃ a, (array (first :: items) none).tagged kinds room = .ok a)
    (h : (∃ values, (array items none).asList (value room) = .ok values) →
      (array items' fault).asList (value room) = .error f) :
    (array (first :: items') fault).tagged kinds room = .error f := by
  obtain ⟨a, hread⟩ := hread
  obtain ⟨tag, htag, hread⟩ := exists_of_bind_eq_ok hread
  obtain ⟨names, hnames, hread⟩ := exists_of_bind_eq_ok hread
  obtain ⟨values, hvalues, -⟩ := exists_of_bind_eq_ok hread
  rw [tagged, htag]
  show (orMismatched (kinds.lookup tag) >>= _) = _
  rw [hnames]
  show ((array items' fault).asList (value room) >>= _) = _
  rw [h ⟨values, hvalues⟩]
  rfl

/-- A record with a tag that is a list. -/
theorem refusesLeftover_tagged_array (kinds : JsonRecord.Kinds) (room : Nat)
    (items : List Document) : RefusesLeftover (tagged kinds room) (array items none) := by
  have hvalues (items : List Document) : RefusesLeftover (asList (value room)) (array items none) :=
    refusesLeftover_asList fun d _ => noOtherFault_value room d
  intro hread f left hleft
  cases hleft with
  | missing => rfl
  | array front behind =>
    cases front with
    | nil => rfl
    | cons first front =>
      exact tagged_array_eq_error hread fun hread => hvalues _ hread (.array front behind)
  | @item _ d left front behind hleft =>
    cases front with
    | nil =>
      -- The tag itself breaks off.
      obtain ⟨a, hread⟩ := hread
      obtain ⟨tag, htag, -⟩ := exists_of_bind_eq_ok hread
      have hrefused : left.asText = .error .truncated :=
        refusesLeftover_asText d ⟨tag, htag⟩ hleft
      show (left.asText >>= _) = _
      rw [hrefused]
      rfl
    | cons first front =>
      exact tagged_array_eq_error hread fun hread => hvalues _ hread (.item front behind hleft)

/-- A record with a tag. -/
theorem refusesLeftover_tagged (kinds : JsonRecord.Kinds) (room : Nat) (d : Document) :
    RefusesLeftover (tagged kinds room) d := by
  intro hread
  obtain ⟨⟨tag, others⟩, htagged⟩ := hread
  cases d with
  | object fields fault =>
    obtain ⟨parts, hparts, -⟩ := exists_of_bind_eq_ok htagged
    obtain ⟨rfl, -⟩ := foldFields_eq_ok_iff.mp hparts
    exact refusesLeftover_tagged_object kinds room fields ⟨_, htagged⟩
  | array items fault =>
    obtain ⟨values, hvalue, -⟩ := tagged_array_eq_ok_iff.mp htagged
    obtain ⟨-, rfl, -⟩ := value_array_eq_ok_iff.mp hvalue
    exact refusesLeftover_tagged_array kinds room items ⟨_, htagged⟩
  | word | number | text | missing => cases htagged

end Document

end MipsAssembly
