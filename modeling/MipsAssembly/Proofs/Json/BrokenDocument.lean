import MipsAssembly.Proofs.Json.BrokenToken
import MipsAssembly.Proofs.Json.Document

/-!
# Documents of texts that break off

Where the text of a value breaks off, a document is left that has the items and fields in front of
that place, part of the one around it, and the fault of the text in the place of every closing
bracket that is missing.

## Main definitions

- `Document.Leftover` — what is left of a document.
- `Document.breaksOff` — it comes out of reading.
- `Document.ofText_of_prefix` — it is what the text of an object is read as that breaks off.
-/

namespace MipsAssembly

open JsonToken (BreakOff Broken)
open JsonValue (itemTokens fieldTokens)

namespace Document

/-- What is left of a document, and the fault of its text where it breaks off. -/
inductive Leftover : JsonFault → Document → Document → Prop where
  | missing (d : Document) : Leftover .truncated d (missing .truncated)
  | word (value : Option Bool) : Leftover .truncated (word (.ok value)) (word (.error .truncated))
  | text (content : String) : Leftover .truncated (text (.ok content)) (text (.error .truncated))
  /-- Digits are left that are a number. -/
  | digits {m n : Number} :
    m.Begins n → Leftover .truncated (number (.ok n)) (number (.ok m))
  /-- A digit is missing. -/
  | number (n : Number) : Leftover .malformed (number (.ok n)) (number (.error .truncated))
  | array (front behind : List Document) :
    Leftover .truncated (array (front ++ behind) none) (array front (some .truncated))
  | item {f : JsonFault} {d left : Document} (front behind : List Document) :
    Leftover f d left →
    Leftover f (array (front ++ d :: behind) none) (array (front ++ [left]) (some f))
  | object (front behind : List Field) :
    Leftover .truncated (object (front ++ behind) none) (object front (some .truncated))
  /-- The name of a field breaks off. -/
  | key (front : List Field) (field : Field) (behind : List Field) :
    Leftover .truncated (object (front ++ field :: behind) none)
      (object (front ++ [(.error .truncated, missing .truncated)]) (some .truncated))
  | field {f : JsonFault} {d left : Document} (front : List Field)
      (key : Except JsonFault String) (behind : List Field) :
    Leftover f d left →
    Leftover f (object (front ++ (key, d) :: behind) none)
      (object (front ++ [(key, left)]) (some f))

/-! ## Reading -/

variable {stack stack' : List Container} {slot slot' : Slot} {token : JsonToken}
  {tokens left : List JsonToken}

/-- Reading ends behind a document that is complete. -/
theorem read_last {d : Document} (hawaits : Awaits stack slot)
    (h : next stack' slot' token = complete d stack) :
    (read stack' slot' [token]).1 = wrap .truncated d stack := by
  rw [read_of_complete hawaits h]
  cases hawaits <;> rfl

/-- Reading stops behind a document that is complete. -/
theorem read_stop {d : Document} {f : JsonFault} (hawaits : Awaits stack slot)
    (h : next stack' slot' token = complete d stack) :
    (read stack' slot' [token, .stop f]).1 = wrap f d stack := by
  rw [read_of_complete hawaits h]
  cases hawaits <;> rfl

/-- What is left of a document in front of others comes out of reading. -/
def LeavesPart (d : Document) (stack : List Container) (result : Document × Bool) : Prop :=
  ∃ f left, Leftover f d left ∧ result.1 = wrap f left stack

/-- Wherever the tokens of a value break off behind the first one, what is left of its document
comes out of reading. -/
def BreaksOff (value : JsonValue) : Prop :=
  ∀ {stack slot left}, Awaits stack slot → left ≠ [] → BreakOff value.tokens left →
    LeavesPart (ofJson value) stack (read stack slot left)

/-! ### Lists -/

variable {items : List JsonValue}

theorem BreaksOff.item {item : JsonValue} (h : BreaksOff item)
    (hslot : slot = .first ∨ slot = .value) (before behind : List Document)
    (hleft : BreakOff item.tokens left) :
    LeavesPart (array (before ++ ofJson item :: behind) none) stack
      (read (.array before :: stack) slot left) := by
  by_cases hnone : left = []
  · subst hnone
    rcases hslot with rfl | rfl
    · exact ⟨_, _, .array before _, rfl⟩
    · exact ⟨_, _, .item before behind (.missing _), rfl⟩
  · obtain ⟨f, rest, hrest, hread⟩ := h (.item before stack hslot) hnone hleft
    exact ⟨f, _, .item before behind hrest, hread⟩

theorem leavesPart_of_items (h : ∀ item ∈ items, BreaksOff item)
    (hslot : slot = .first ∨ slot = .value) (before : List Document)
    (hleft : BreakOff (itemTokens items) left) :
    LeavesPart (array (before ++ ofItems items) none) stack
      (read (.array before :: stack) slot left) := by
  induction items generalizing before slot left with
  | nil => cases hleft
  | cons item items ih =>
    obtain ⟨hitem, hitems⟩ := List.forall_mem_cons.mp h
    cases items with
    | nil => exact BreaksOff.item hitem hslot before [] hleft
    | cons next items =>
      have hread (behind : List JsonToken) :
          read (.array before :: stack) slot (item.tokens ++ behind) =
            read (.array (before ++ [ofJson item]) :: stack) .separator behind :=
        read_tokens item _ _ behind (.item before stack hslot)
      have hsplit : before ++ ofItems (item :: next :: items) =
          before ++ [ofJson item] ++ ofItems (next :: items) := by
        rw [List.append_assoc]
        rfl
      rw [JsonValue.itemTokens_cons] at hleft
      rcases hleft.append_cases with hinside | ⟨behind, rfl, hbehind⟩
      · exact BreaksOff.item hitem hslot before _ hinside
      rw [hsplit, hread]
      cases hbehind with
      | between => exact ⟨_, _, .array (before ++ [ofJson item]) _, rfl⟩
      | inside _ hbroken => cases hbroken
      | cons _ hbehind => exact ih hitems (.inr rfl) (before ++ [ofJson item]) hbehind

/-- Reading ends behind all the items of a list. -/
theorem read_all_items (items : List JsonValue) :
    (read (.array [] :: stack) .first (itemTokens items)).1 =
      wrap .truncated (array (ofItems items) (some .truncated)) stack := by
  cases items with
  | nil => rfl
  | cons item items =>
    have hread : read (.array [] :: stack) .first (itemTokens (item :: items) ++ []) =
        read (.array ([] ++ ofItems (item :: items)) :: stack) .separator [] :=
      read_itemTokens (fun item _ => read_tokens item) (List.cons_ne_nil item items) (.inl rfl) []
    rw [List.append_nil] at hread
    rw [hread]
    rfl

/-! ### Objects -/

variable {fields : List (String × JsonValue)}

theorem BreaksOff.field {value : JsonValue} (h : BreaksOff value)
    (hslot : slot = .first ∨ slot = .key) (before : List Field) (key : String)
    (behind : List Field) (hleft : BreakOff (.text (.ok key) :: .colon :: value.tokens) left) :
    LeavesPart (object (before ++ (.ok key, ofJson value) :: behind) none) stack
      (read (.object before none :: stack) slot left) := by
  have hkey (name : Except JsonFault String) :
      next (.object before none :: stack) slot (.text name) =
        .go (.object before (some name) :: stack) .colon := by
    rcases hslot with rfl | rfl <;> rfl
  cases hleft with
  | between => rcases hslot with rfl | rfl <;> exact ⟨_, _, .object before _, rfl⟩
  | inside _ hbroken =>
    cases hbroken
    rw [read_of_go (hkey _)]
    exact ⟨_, _, .key before _ behind, rfl⟩
  | cons _ hleft =>
    rw [read_of_go (hkey _)]
    cases hleft with
    | between => exact ⟨_, _, .field before _ behind (.missing _), rfl⟩
    | inside _ hbroken => cases hbroken
    | @cons _ _ left hleft =>
      rw [read_of_go rfl]
      by_cases hnone : left = []
      · subst hnone
        exact ⟨_, _, .field before _ behind (.missing _), rfl⟩
      · obtain ⟨f, rest, hrest, hread⟩ := h (.field before (.ok key) stack) hnone hleft
        exact ⟨f, _, .field before _ behind hrest, hread⟩

theorem leavesPart_of_fields (h : ∀ field ∈ fields, BreaksOff field.2)
    (hslot : slot = .first ∨ slot = .key) (before : List Field)
    (hleft : BreakOff (fieldTokens fields) left) :
    LeavesPart (object (before ++ ofFields fields) none) stack
      (read (.object before none :: stack) slot left) := by
  induction fields generalizing before slot left with
  | nil => cases hleft
  | cons field fields ih =>
    obtain ⟨key, value⟩ := field
    obtain ⟨hvalue, hfields⟩ := List.forall_mem_cons.mp h
    cases fields with
    | nil => exact BreaksOff.field hvalue hslot before key [] hleft
    | cons next fields =>
      have hread (behind : List JsonToken) : read (.object before none :: stack) slot
          (fieldTokens [(key, value)] ++ behind) =
          read (.object (before ++ [(.ok key, ofJson value)]) none :: stack) .separator behind :=
        read_fieldTokens (List.forall_mem_singleton.mpr (read_tokens value))
          (List.cons_ne_nil _ _) hslot before
      have hsplit : before ++ ofFields ((key, value) :: next :: fields) =
          before ++ [(.ok key, ofJson value)] ++ ofFields (next :: fields) := by
        rw [List.append_assoc]
        rfl
      have htokens : fieldTokens ((key, value) :: next :: fields) =
          fieldTokens [(key, value)] ++ .comma :: fieldTokens (next :: fields) := rfl
      rw [htokens] at hleft
      rcases hleft.append_cases with hinside | ⟨behind, rfl, hbehind⟩
      · exact BreaksOff.field hvalue hslot before key _ hinside
      rw [hsplit, hread]
      cases hbehind with
      | between => exact ⟨_, _, .object (before ++ [(.ok key, ofJson value)]) _, rfl⟩
      | inside _ hbroken => cases hbroken
      | cons _ hbehind =>
        exact ih hfields (.inr rfl) (before ++ [(.ok key, ofJson value)]) hbehind

/-- Reading ends behind all the fields of an object. -/
theorem read_all_fields (fields : List (String × JsonValue)) :
    (read (.object [] none :: stack) .first (fieldTokens fields)).1 =
      wrap .truncated (object (ofFields fields) (some .truncated)) stack := by
  cases fields with
  | nil => rfl
  | cons field fields =>
    have hread : read (.object [] none :: stack) .first (fieldTokens (field :: fields) ++ []) =
        read (.object ([] ++ ofFields (field :: fields)) none :: stack) .separator [] :=
      read_fieldTokens (fun field _ => read_tokens field.2) (List.cons_ne_nil field fields)
        (.inl rfl) []
    rw [List.append_nil] at hread
    rw [hread]
    rfl

/-! ### Values -/

theorem breaksOff (value : JsonValue) : BreaksOff value := by
  induction value using JsonValue.induction with
  | null =>
    intro stack slot left hawaits hne hleft
    cases hleft.broken hne
    exact ⟨_, _, .word none, read_stop hawaits (if_pos hawaits.wantsValue)⟩
  | bool value =>
    intro stack slot left hawaits hne hleft
    cases hleft.broken hne
    exact ⟨_, _, .word (some value), read_stop hawaits (if_pos hawaits.wantsValue)⟩
  | number value =>
    intro stack slot left hawaits hne hleft
    cases hleft.broken hne with
    | digits hbegins => exact ⟨_, _, .digits hbegins, read_last hawaits (if_pos hawaits.wantsValue)⟩
    | number => exact ⟨_, _, .number value, read_stop hawaits (if_pos hawaits.wantsValue)⟩
  | text content =>
    intro stack slot left hawaits hne hleft
    cases hleft.broken hne
    exact ⟨_, _, .text content, read_stop hawaits (if_pos hawaits.wantsValue)⟩
  | array items ih =>
    intro stack slot left hawaits hne hleft
    have hopen : next stack slot .openBracket = .go (.array [] :: stack) .first :=
      if_pos hawaits.wantsValue
    cases hleft with
    | between => exact absurd rfl hne
    | inside _ hbroken => cases hbroken
    | cons _ hleft =>
      rw [read_of_go hopen]
      rcases hleft.append_cases with hinside | ⟨behind, rfl, hbehind⟩
      · exact leavesPart_of_items ih (.inl rfl) [] hinside
      cases hbehind with
      | between =>
        have hall : Leftover .truncated (array (ofItems items ++ []) none)
            (array (ofItems items) (some .truncated)) := .array (ofItems items) []
        rw [List.append_nil] at hall ⊢
        exact ⟨_, _, hall, read_all_items items⟩
      | inside _ hbroken => cases hbroken
      | cons _ hnone => cases hnone
  | object fields ih =>
    intro stack slot left hawaits hne hleft
    have hopen : next stack slot .openBrace = .go (.object [] none :: stack) .first :=
      if_pos hawaits.wantsValue
    cases hleft with
    | between => exact absurd rfl hne
    | inside _ hbroken => cases hbroken
    | cons _ hleft =>
      rw [read_of_go hopen]
      rcases hleft.append_cases with hinside | ⟨behind, rfl, hbehind⟩
      · exact leavesPart_of_fields ih (.inl rfl) [] hinside
      cases hbehind with
      | between =>
        have hall : Leftover .truncated (object (ofFields fields ++ []) none)
            (object (ofFields fields) (some .truncated)) := .object (ofFields fields) []
        rw [List.append_nil] at hall ⊢
        exact ⟨_, _, hall, read_all_fields fields⟩
      | inside _ hbroken => cases hbroken
      | cons _ hnone => cases hnone

/-- Where the text of an object breaks off, what is left of its document is read. -/
theorem ofText_of_prefix {fields : List (String × JsonValue)} {source : String}
    (h : (JsonValue.object fields).NumbersFit)
    (hstart : source.toList <+: (JsonValue.object fields).write.toList)
    (hne : source ≠ (JsonValue.object fields).write) :
    ∃ f, Leftover f (ofJson (.object fields)) (ofText source).1 := by
  obtain ⟨front, htext, hfront⟩ := (JsonToken.spells_object h).exists_front
  have hwrite : (JsonValue.object fields).write.toList = front ++ ['\x7d'] := by
    rw [JsonValue.write, String.toList_ofList, htext]
  have hinside : source.toList <+: front := by
    rw [hwrite] at hstart
    refine (List.prefix_concat_iff.mp hstart).resolve_left fun hall => hne ?_
    exact String.toList_inj.mp (hall.trans hwrite.symm)
  have htokens : (JsonValue.object fields).tokens =
      .openBrace :: fieldTokens fields ++ [.closeBrace] := rfl
  have hleft : BreakOff (JsonValue.object fields).tokens (jsonTokens source) := by
    rw [htokens]
    rcases hfront source.toList hinside with hall | hbreak
    · rw [jsonTokens, hall]
      exact .of_front _ (List.cons_ne_nil _ _)
    · exact hbreak.append _
  rw [ofText]
  by_cases hnone : jsonTokens source = []
  · rw [hnone]
    exact ⟨_, .missing _⟩
  · obtain ⟨f, left, hleft, hread⟩ := breaksOff (.object fields) .top hnone hleft
    exact ⟨f, hread ▸ hleft⟩

end Document

end MipsAssembly
