import MipsAssembly.Proofs.Json.Nesting
import MipsAssembly.Proofs.Program.TakenRecord
import Mathlib.Logic.Relation

/-!
# The order of fields

An edit of the text of a program keeps what is read in its place: records whose fields are taken
one by one can take them in any order, and those that are kept until they are closed have the same
values in the fields that they use.  So does an edit of a place inside another one, and the program
that an edited text stands for is the same.

A record that is a list has the same fields as if they were named, and its tag, if it has one, is
not edited.  Where a list of operands may stand as well as a single operand, the first item tells
the two apart.

## Main definitions

- `KeepsValue.record`, `KeepsValue.part` — edited records that are kept until they are closed.
- `Place.Keeps.record`, `Place.Keeps.part` — an edit of a record keeps what is read in its place.
- `Edit.keeps` — so does an edit inside it.
- `importProgram_of_edits` — an edited text is read as the same program.
-/

namespace MipsAssembly

open Document JsonRecord

/-! ## Places -/

section

variable {α β : Type} {read : Document → Except JsonFault α} {d d' : Document} {room : Nat}
  {parse : JsonValue → Option α}

theorem KeepsReading.bind (h : KeepsReading read d d') (next : α → Except JsonFault β) :
    KeepsReading (fun d => read d >>= next) d d' := by
  intro b hb
  obtain ⟨a, ha, hb⟩ := exists_of_bind_eq_ok hb
  show (read d' >>= next) = .ok b
  rw [h a ha]
  exact hb

/-- What is read of a value stays as it was if what the value stands for does. -/
theorem KeepsValue.keepsReading (h : KeepsValue room (SameReading parse) d d')
    (hread : ∀ {d a}, read d = .ok a ↔ ∃ v, d.value room = .ok v ∧ parse v = some a) :
    KeepsReading read d d' := by
  intro a ha
  obtain ⟨v, hv, ha⟩ := hread.mp ha
  obtain ⟨v', hv', hsame⟩ := h v hv
  exact hread.mpr ⟨v', hv', hsame.read a ha⟩

theorem KeepsReading.item (h : KeepsReading read d d') (front behind : List Document) :
    KeepsReading (asList read) (array (front ++ d :: behind) none)
      (array (front ++ d' :: behind) none) := by
  intro as hread
  obtain ⟨_, hitems, has⟩ := exists_of_bind_eq_ok hread
  obtain ⟨a, bs, cs, ha, rfl, -, hreplaced⟩ := exists_of_mapM_append_cons hitems
  show ((front ++ d' :: behind).mapM read >>= _) = _
  rw [hreplaced (h a ha)]
  exact has

theorem KeepsReading.member (h : KeepsReading read d d') (front behind : List Field)
    (key : Except JsonFault String) :
    KeepsReading (asFields read) (object (front ++ (key, d) :: behind) none)
      (object (front ++ (key, d') :: behind) none) := by
  have hfield : ∀ b, readField read (key, d) = .ok b → readField read (key, d') = .ok b := by
    rintro ⟨name, a⟩ hb
    obtain ⟨hkey, ha⟩ := readField_eq_ok_iff.mp hb
    exact readField_eq_ok_iff.mpr ⟨hkey, h a ha⟩
  intro as hread
  rw [asFields_object] at hread
  obtain ⟨_, hfields, has⟩ := exists_of_bind_eq_ok hread
  obtain ⟨b, bs, cs, hb, rfl, -, hreplaced⟩ := exists_of_mapM_append_cons hfields
  rw [asFields_object, hreplaced (hfield b hb)]
  exact has

variable {tag? : JsonValue → Option String} {tag name : String} {used : Usage Place}
  {inner : Place}

/-- An edited record that is kept until it is closed. -/
theorem KeepsValue.record (hkind : KeptKind parse tag? tag used) {fields fields' : List Field}
    (h : FieldsEdit room used Place.Keeps fields fields') (htag : HasTag tag? tag fields)
    (hinner : ∀ {name inner}, (name, some inner) ∈ used →
      inner = .operand (room - 1) ∨ inner = .operands (room - 1)) :
    KeepsValue room (SameReading parse) (object fields none) (object fields' none) := by
  intro v hv
  obtain ⟨hroom, -, values, hvalues, rfl⟩ := value_object_eq_ok_iff.mp hv
  obtain ⟨room, rfl⟩ := Nat.exists_eq_succ_of_ne_zero hroom
  have hkeeps {name : String} {inner : Place} (hname : used.lookup name = some (some inner))
      {d d' : Document} (hedit : inner.Keeps d d') : KeepsValue room inner.Same d d' := by
    rcases hinner (OrderedMap.mem_of_lookup hname) with rfl | rfl <;> exact hedit
  obtain ⟨values', hvalues', hagree⟩ := h.exists_agree Place.Same.refl hkeeps hvalues
  obtain ⟨t, ht, htag⟩ := htag
  obtain ⟨⟨name, v⟩, hmem, hfield⟩ := exists_mem_of_mapM_eq_ok hvalues htag
  obtain ⟨hkey, hv⟩ := readField_eq_ok_iff.mp hfield
  obtain rfl := Except.ok.inj hkey
  obtain rfl := eq_of_value_ofJson hv
  exact ⟨_, value_object_eq_ok_iff.mpr ⟨hroom, rfl, values', hvalues', rfl⟩, .object _ _,
    hkind.object ht hmem hagree⟩

/-- The tag of a record that is a list is its first item. -/
theorem HasTag.exists_first {items : List Document} (hkind : KeptKind parse tag? tag used)
    (h : HasTag tag? tag (named (used.map Prod.fst) items)) :
    ∃ t rest, tag? t = some tag ∧ items = ofJson t :: rest := by
  obtain ⟨others, rfl⟩ := hkind.first
  obtain ⟨t, ht, hmem⟩ := h
  cases items with
  | nil => cases hmem
  | cons first rest =>
    rcases List.mem_cons.mp hmem with hfirst | hrest
    · exact ⟨t, rest, ht, congrArg (· :: rest) (Prod.mk.inj hfirst).2.symm⟩
    · have hname := (List.of_mem_zip hrest).1
      simp only [List.mem_map, Except.ok.injEq, exists_eq_right] at hname
      exact absurd (List.mem_map.mpr hname) (List.nodup_cons.mp hkind.nodup).1

/-- An edited value of a record that is a list and is kept until it is closed. -/
theorem KeepsValue.part (hkind : KeptKind parse tag? tag used) {front behind : List Document}
    (htag : HasTag tag? tag (named (used.map Prod.fst) (front ++ d :: behind)))
    (hname : used[front.length]? = some (name, some inner))
    (h : KeepsValue (room - 1) inner.Same d d') :
    KeepsValue room (SameReading parse) (array (front ++ d :: behind) none)
      (array (front ++ d' :: behind) none) := by
  obtain ⟨t, rest, ht, hfirst⟩ := htag.exists_first hkind
  cases front with
  | nil =>
    -- The tag is not edited.
    obtain ⟨others, rfl⟩ := hkind.first
    cases hname
  | cons first front =>
    obtain ⟨rfl, -⟩ := List.cons.inj hfirst
    intro v hv
    obtain ⟨hroom, -, _, hitems, rfl⟩ := value_array_eq_ok_iff.mp hv
    obtain ⟨t', _, hvalue, hrest, rfl⟩ := mapM_cons_eq_ok_iff.mp hitems
    obtain rfl := eq_of_value_ofJson hvalue
    obtain ⟨w, as, bs, hw, rfl, hlength, hreplaced⟩ := exists_of_mapM_append_cons hrest
    obtain ⟨w', hw', hsame⟩ := h w hw
    have hname' : used[(t' :: as).length]? = some (name, some inner) := by
      rw [List.length_cons, hlength]
      exact hname
    exact ⟨_, value_array_eq_ok_iff.mpr ⟨hroom, rfl, _, mapM_cons_eq_ok_iff.mpr
      ⟨t', _, hvalue, hreplaced hw', rfl⟩, rfl⟩, .array _ _,
      hkind.stillRead_list ht hname' hsame bs⟩

end

/-! ### Lists of operands and single operands -/

section

variable {room : Nat} {d d' : Document}

/-- A list of operands does not start with a tag. -/
theorem Place.Lists.kindOf?_eq_none {first : Document} {items : List Document}
    (h : (operands room).Lists (first :: items)) {v : JsonValue} {room' : Nat}
    (hv : first.value room' = .ok v) : Operand.kindOf? v = none := by
  cases first with
  | text | number => exact h.elim
  | word w =>
    obtain ⟨b, -, rfl⟩ := exists_of_map_eq_ok hv
    cases b <;> rfl
  | array items fault =>
    obtain ⟨-, -, vs, -, rfl⟩ := value_array_eq_ok_iff.mp hv
    rfl
  | object fields fault =>
    obtain ⟨-, -, vs, -, rfl⟩ := value_object_eq_ok_iff.mp hv
    rfl
  | missing f => cases hv

/-- An edited list of operands, read as the value of a data directive. -/
theorem KeepsValue.operands_item {front behind : List Document}
    (hlist : (Place.operands room).Lists (front ++ d :: behind))
    (h : KeepsValue (room - 1) (SameReading Operand.ofJson?) d d') :
    KeepsValue room (SameReading DataValue.ofJson?) (array (front ++ d :: behind) none)
      (array (front ++ d' :: behind) none) := by
  intro v hv
  obtain ⟨hroom, -, _, hitems, rfl⟩ := value_array_eq_ok_iff.mp hv
  obtain ⟨w, vs, ws, hw, rfl, -, hreplaced⟩ := exists_of_mapM_append_cons hitems
  obtain ⟨w', hw', hsame⟩ := h w hw
  refine ⟨_, value_array_eq_ok_iff.mpr ⟨hroom, rfl, _, hreplaced hw', rfl⟩, .array _ _, ?_⟩
  intro value hvalue
  rcases Option.or_eq_some_iff.mp hvalue with hvalue | ⟨-, hvalue⟩
  · refine Option.or_eq_some_iff.mpr (.inl ?_)
    exact (hsame.read.mapM_item vs ws).map DataValue.list value hvalue
  · obtain ⟨operand, hoperand, -⟩ := Option.map_eq_some_iff.mp hvalue
    obtain ⟨first, rest, tag, hfirst, htag⟩ := Operand.exists_first_of_ofJson? hoperand
    rw [hfirst] at hitems
    cases hdocuments : front ++ d :: behind with
    | nil => simp at hdocuments
    | cons document documents =>
      rw [hdocuments] at hitems hlist
      obtain ⟨_, _, hdocument, -, hcons⟩ := mapM_cons_eq_ok_iff.mp hitems
      obtain ⟨rfl, -⟩ := List.cons.inj hcons
      rw [hlist.kindOf?_eq_none hdocument] at htag
      cases htag

/-- An operand on its own, read as the value of a data directive. -/
theorem KeepsValue.operands_single
    (hsingle : ∀ {v}, d.value room = .ok v → Operand.listOfJson? v = none)
    (h : KeepsValue room (SameReading Operand.ofJson?) d d') :
    KeepsValue room (SameReading DataValue.ofJson?) d d' := by
  intro v hv
  obtain ⟨v', hv', hshape, hread⟩ := h v hv
  refine ⟨v', hv', hshape, fun value hvalue => ?_⟩
  rw [DataValue.ofJson?, hsingle hv] at hvalue
  obtain ⟨operand, hoperand, rfl⟩ := Option.map_eq_some_iff.mp hvalue
  have hoperand' := hread operand hoperand
  rw [DataValue.ofJson?, Operand.listOfJson?_of_ofJson? hoperand', hoperand']
  rfl

end

/-! ### Edits -/

theorem Entry.inner_of_usage? {tag name : String} {used : Usage Place} {inner : Place}
    (h : usage? tag = some used) (hinner : (name, some inner) ∈ used) :
    inner = .operands (maxNesting - 5) := by
  unfold usage? at h
  split at h <;> cases h <;> simp_all

theorem Operand.inner_of_usage? {room : Nat} {tag name : String} {used : Usage Place}
    {inner : Place} (h : usage? room tag = some used) (hinner : (name, some inner) ∈ used) :
    inner = .operand room := by
  unfold usage? at h
  split at h <;> cases h <;> aesop

theorem Place.Uses.nodup {place : Place} {used : Usage Place} {fields : List Field}
    (h : place.Uses fields used) : (used.map Prod.fst).Nodup := by
  cases h with
  | program | segment | label | switch => decide
  | entry _ hused => exact (Entry.keptKind hused).nodup
  | operand _ hused => exact (Operand.keptKind hused).nodup

/-- An edit of a record keeps what is read in its place. -/
theorem Place.Keeps.record {place : Place} {used : Usage Place} {fields fields' : List Field}
    (huses : place.Uses fields used) (h : FieldsEdit place.room used Place.Keeps fields fields') :
    place.Keeps (object fields none) (object fields' none) := by
  have hfields {names : List String} (given : List Field)
      (hgiven : (object fields none).fields? names = some given) :
      ∃ given', (object fields' none).fields? names = some given' ∧
        FieldsEdit place.room used Place.Keeps given given' := by
    obtain rfl := Option.some.inj hgiven
    exact ⟨fields', rfl, h⟩
  cases huses with
  | program =>
    exact KeepsReading.bind (fun _ => foldRecord_of_edit Program.takesAnyOrder hfields) _
  | segment =>
    exact KeepsReading.bind (fun _ => foldRecord_of_edit Segment.takesAnyOrder hfields) _
  | label =>
    exact KeepsReading.bind (fun _ => foldRecord_of_edit Label.takesAnyOrder hfields) _
  | switch htag =>
    exact KeepsValue.record switch_keptKind h htag fun hinner => by simp at hinner
  | entry htag hused =>
    exact KeepsValue.record (Entry.keptKind hused) h htag fun hinner =>
      .inr (Entry.inner_of_usage? hused hinner)
  | operand htag hused =>
    exact KeepsValue.record (Operand.keptKind hused) h htag fun hinner =>
      .inl (Operand.inner_of_usage? hused hinner)

/-- An edit inside a record that is a list keeps what is read in its place. -/
theorem Place.Keeps.part {place inner : Place} {used : Usage Place} {name : String}
    {front behind : List Document} {d d' : Document}
    (huses : place.Uses (named (used.map Prod.fst) (front ++ d :: behind)) used)
    (hname : used[front.length]? = some (name, some inner)) (h : inner.Keeps d d') :
    place.Keeps (array (front ++ d :: behind) none) (array (front ++ d' :: behind) none) := by
  have hfields := exists_fields?_of_edit place.room huses.nodup hname h behind
  have hmem := List.mem_of_getElem? hname
  cases huses with
  | program =>
    exact KeepsReading.bind (fun _ => foldRecord_of_edit Program.takesAnyOrder hfields) _
  | segment =>
    exact KeepsReading.bind (fun _ => foldRecord_of_edit Segment.takesAnyOrder hfields) _
  | label => simp at hmem
  | switch => simp at hmem
  | entry htag hused =>
    obtain rfl := Entry.inner_of_usage? hused hmem
    exact KeepsValue.part (Entry.keptKind hused) htag hname h
  | operand htag hused =>
    obtain rfl := Operand.inner_of_usage? hused hmem
    exact KeepsValue.part (Operand.keptKind hused) htag hname h

/-- A single operand that is a list is no list of operands. -/
theorem Place.Uses.listOfJson?_eq_none {room : Nat} {used : Usage Place} {items : List Document}
    (h : (Place.operand room).Uses (named (used.map Prod.fst) items) used) {v : JsonValue}
    (hv : (array items none).value room = .ok v) : Operand.listOfJson? v = none := by
  cases h with
  | operand htag hused =>
    obtain ⟨t, rest, ht, rfl⟩ := htag.exists_first (Operand.keptKind hused)
    obtain ⟨-, -, _, hvalues, rfl⟩ := value_array_eq_ok_iff.mp hv
    obtain ⟨t', vs, hfirst, -, rfl⟩ := mapM_cons_eq_ok_iff.mp hvalues
    obtain rfl := eq_of_value_ofJson hfirst
    exact Operand.listOfJson?_eq_none ht vs

/-- An edit keeps what is read in its place. -/
theorem Edit.keeps {place : Place} {d d' : Document} (h : Edit place d d') : place.Keeps d d' := by
  induction h with
  | permute huses hperm => exact .record huses (.permute hperm)
  | insert front behind huses hname hroom => exact .record huses (.insert front behind hname hroom)
  | field front behind huses hname _ ih => exact .record huses (.change front behind hname ih)
  | part front behind huses hname _ ih => exact .part huses hname ih
  | @item place inner front behind d d' hlist hitem _ ih =>
    cases place with
    | entries =>
      obtain rfl := Option.some.inj hitem
      exact (KeepsValue.keepsReading ih Entry.ofDocument_eq_ok_iff).item front behind
    | switches =>
      obtain rfl := Option.some.inj hitem
      exact (KeepsValue.keepsReading ih switchOfDocument_eq_ok_iff).item front behind
    | operands room =>
      obtain rfl := Option.some.inj hitem
      exact KeepsValue.operands_item hlist ih
    | _ => cases hitem
  | @member place inner front behind key d d' hmember _ ih =>
    cases place with
    | segments =>
      obtain rfl := Option.some.inj hmember
      exact KeepsReading.member ih front behind key
    | labels =>
      obtain rfl := Option.some.inj hmember
      exact KeepsReading.member ih front behind key
    | _ => cases hmember
  | single h ih =>
    refine KeepsValue.operands_single (fun hv => ?_) ih
    cases h with
    | permute | insert | field | member =>
      obtain ⟨-, -, values, -, rfl⟩ := value_object_eq_ok_iff.mp hv
      rfl
    | part _ _ huses => exact huses.listOfJson?_eq_none hv
    | item _ _ _ hitem => cases hitem

/-- Any number of edits keep the program of a document. -/
theorem Program.ofDocument_of_edits {d d' : Document} {p : Program}
    (hedits : Relation.ReflTransGen (Edit .program) d d') (h : ofDocument d = .ok p) :
    ofDocument d' = .ok p := by
  induction hedits with
  | refl => exact h
  | tail _ hedit ih => exact hedit.keeps p ih

/-- An edited text of a program is read as the same program.  Records may have their fields put in
another order, the tag among them, and fields inserted that they do not use. -/
theorem importProgram_of_edits {source source' : String} {p : Program} {d : Document}
    (h : importProgram source = .ok p)
    (hedits : Relation.ReflTransGen (Edit .program) (ofText source).1 d)
    (h' : ofText source' = (d, false)) : importProgram source' = .ok p := by
  obtain ⟨q, hread, hend⟩ := exists_of_bind_eq_ok h
  -- Nothing follows the text, so the program is the one of its document.
  split at hend
  · cases hend
  · obtain rfl := Except.ok.inj hend
    rw [importProgram, h']
    show (Program.ofDocument d >>= fun program => .ok program) = _
    rw [Program.ofDocument_of_edits hedits hread]
    rfl

/-- The tag of a register comes behind its name, inside an operand and a segment that are lists of
their values, the instruction has a field that only data uses, and the program has a tag that is an
object. -/
theorem importProgram_of_edits_of_late_tag :
    let register : JsonValue := .object
      [("type", .text "Register"), ("value", .text "$sp"), ("kind", .text "Name")]
    let register' : JsonValue := .object
      [("value", .text "$sp"), ("type", .text "Register"), ("kind", .text "Name")]
    let entry (base : JsonValue) (more : List (String × JsonValue)) : JsonValue := .object
      ([("type", .text "Instruction"), ("opcode", .text "jr"), ("operands", .array
        [.array [.text "Indexed", .null, base]])] ++ more)
    let program (entry : JsonValue) (more : List (String × JsonValue)) : JsonValue := .object
      (more ++ [("segments", .object [(".text", .array [.array [entry]])]),
        ("labels", .object [("main", .object [("address", .number (.integer 0))])]),
        ("directives", .array [])])
    let before := program (entry register []) []
    let after := program (entry register' [("mode", .array [.null, .object []])])
      [("type", .object [("", .bool true)])]
    let p : Program := ⟨.ofList [(".text", ⟨[.instruction ⟨"jr",
      some [.indirect (.register "$sp" .named)]⟩]⟩)], .ofList [("main", ⟨0, ""⟩)], []⟩
    importProgram before.write = .ok p ∧
      Relation.ReflTransGen (Edit .program) (ofText before.write).1 (ofJson after) ∧
      ofText after.write = (ofJson after, false) ∧ importProgram after.write = .ok p := by
  intro register register' entry program before after p
  have hzero : (Number.integer 0).InJson := ⟨by decide, by decide⟩
  have hbefore : before.NumbersFit := by
    simp [before, program, entry, register, JsonValue.numbersFit_object_iff,
      JsonValue.numbersFit_array_iff, JsonValue.NumbersFit.text, JsonValue.NumbersFit.null,
      JsonValue.NumbersFit.number hzero]
  have hafter : after.NumbersFit := by
    simp [after, program, entry, register', JsonValue.numbersFit_object_iff,
      JsonValue.numbersFit_array_iff, JsonValue.NumbersFit.text, JsonValue.NumbersFit.null,
      JsonValue.NumbersFit.bool, JsonValue.NumbersFit.number hzero]
  have hread : importProgram before.write = .ok p := by
    rw [importProgram, ofText_write hbefore]
    rfl
  have hbase : Edit (.operand (maxNesting - 7)) (ofJson register) (ofJson register') :=
    .permute (.operand ⟨.text "Register", rfl, List.mem_cons_self⟩ rfl) (.swap _ _ _)
  have hentry : Edit .entry (ofJson (entry register [])) (ofJson (entry register' [])) :=
    .field [_, _] [] (.entry ⟨.text "Instruction", rfl, List.mem_cons_self⟩ rfl) rfl
      (.item [] [] trivial rfl
        (.part [_, _] [] (.operand ⟨.text "Indexed", rfl, List.mem_cons_self⟩ rfl) rfl hbase))
  have hmore : Edit .entry (ofJson (entry register' []))
      (ofJson (entry register' [("mode", .array [.null, .object []])])) :=
    .insert [_, _, _] [] (.entry ⟨.text "Instruction", rfl, List.mem_cons_self⟩ rfl) rfl (by decide)
  have hlift {e e' : JsonValue} (h : Edit .entry (ofJson e) (ofJson e')) :
      Edit .program (ofJson (program e [])) (ofJson (program e' [])) :=
    .field [] [_, _] (.program _) rfl (.member [] [] rfl
      (.part [] [] (.segment _) rfl (.item [] [] trivial rfl h)))
  have htype {e : JsonValue} : Edit .program (ofJson (program e []))
      (ofJson (program e [("type", .object [("", .bool true)])])) :=
    .insert [] [_, _, _] (.program _) rfl (by decide)
  have hedits : Relation.ReflTransGen (Edit .program) (ofText before.write).1 (ofJson after) := by
    rw [ofText_write hbefore]
    exact ((Relation.ReflTransGen.single (hlift hentry)).tail (hlift hmore)).tail htype
  have hdocument := ofText_write hafter
  exact ⟨hread, hedits, hdocument, importProgram_of_edits hread hedits hdocument⟩

end MipsAssembly
