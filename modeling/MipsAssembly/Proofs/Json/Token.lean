import MipsAssembly.Proofs.Json.Text
import MipsAssembly.Proofs.Json.Value

/-!
# Written JSON values are cut into their tokens

A value that is written, with line ends and spaces between its parts, spells the tokens of its
parts, and a text is cut into the tokens that it spells.  What follows a number must not continue
it.

## Main definitions

- `JsonValue.tokens` — the tokens of a value.
- `JsonToken.Spells` — a text spells tokens up to a rest.
- `JsonToken.Spells.cut_eq` — the tokens that are spelled are cut off.
- `JsonToken.spells_writeBefore` — a written value spells its tokens.
-/

namespace MipsAssembly

namespace JsonValue

mutual

/-- The tokens of a value. -/
def tokens : JsonValue → List JsonToken
  | null => [.word (.ok none)]
  | bool value => [.word (.ok (some value))]
  | number value => [.number (.ok value)]
  | text content => [.text (.ok content)]
  | array items => .openBracket :: (itemTokens items ++ [.closeBracket])
  | object fields => .openBrace :: (fieldTokens fields ++ [.closeBrace])

/-- The tokens of items, with commas between them. -/
def itemTokens : List JsonValue → List JsonToken
  | [] => []
  | [item] => item.tokens
  | item :: items => item.tokens ++ .comma :: itemTokens items

/-- The tokens of fields, with commas between them. -/
def fieldTokens : List (String × JsonValue) → List JsonToken
  | [] => []
  | [(key, value)] => .text (.ok key) :: .colon :: value.tokens
  | (key, value) :: fields =>
    .text (.ok key) :: .colon :: (value.tokens ++ .comma :: fieldTokens fields)

end

theorem itemTokens_cons (item next : JsonValue) (items : List JsonValue) :
    itemTokens (item :: next :: items) = item.tokens ++ .comma :: itemTokens (next :: items) :=
  rfl

theorem fieldTokens_cons (key : String) (value : JsonValue) (next : String × JsonValue)
    (fields : List (String × JsonValue)) :
    fieldTokens ((key, value) :: next :: fields) =
      .text (.ok key) :: .colon :: (value.tokens ++ .comma :: fieldTokens (next :: fields)) :=
  rfl

end JsonValue

namespace JsonToken

open JsonNumeral JsonValue

variable {rest : List Char}

/-- The characters that belong to a token are passed over. -/
theorem cut_append (front rest : List Char) : cut front.length (front ++ rest) = cut 0 rest := by
  induction front with
  | nil => rfl
  | cons c front ih => exact ih

/-- A token is cut off together with the characters behind the first that belong to it. -/
theorem cut_cons {first : Char} {token : JsonToken} {length : Nat} (hblank : isBlank first = false)
    (hread : read first rest = ([token], .ok length)) :
    cut 0 (first :: rest) = token :: cut length rest := by
  rw [cut, if_neg (by simp [hblank]), hread]
  rfl

theorem cut_punctuation {c : Char} {token : JsonToken} (hblank : isBlank c = false)
    (h : ofPunctuation? c = some token) (rest : List Char) :
    cut 0 (c :: rest) = token :: cut 0 rest := by
  apply cut_cons hblank
  rw [read, h]

theorem lettersFault?_append (letters rest : List Char) :
    lettersFault? letters (letters ++ rest) = none := by
  induction letters with
  | nil => rfl
  | cons letter letters ih => rw [List.cons_append, lettersFault?, if_pos rfl, ih]

/-- The letters of a word. -/
def wordText : Option Bool → List Char
  | none => ['n', 'u', 'l', 'l']
  | some true => ['t', 'r', 'u', 'e']
  | some false => ['f', 'a', 'l', 's', 'e']

/-- A word has a first letter, behind which the others are read. -/
theorem exists_wordText (word : Option Bool) : ∃ first letters, wordText word = first :: letters ∧
    isBlank first = false ∧ ∀ cs, read first cs = readWord letters word cs := by
  rcases word with _ | _ | _ <;> exact ⟨_, _, rfl, rfl, fun _ => rfl⟩

/-- A word is cut off, whatever follows its last letter. -/
theorem cut_word (word : Option Bool) (rest : List Char) :
    cut 0 (wordText word ++ rest) = .word (.ok word) :: cut 0 rest := by
  obtain ⟨first, letters, htext, hblank, hread⟩ := exists_wordText word
  have hread := hread (letters ++ rest)
  rw [readWord, lettersFault?_append] at hread
  rw [htext, List.cons_append, cut_cons hblank hread, cut_append]

theorem cut_writeText (content : String) (rest : List Char) :
    cut 0 (writeText content.toList ++ rest) = .text (.ok content) :: cut 0 rest := by
  let body := content.toList.flatMap writeChar ++ ['"']
  have hbody : body ++ rest = content.toList.flatMap writeChar ++ '"' :: rest := by
    simp [body]
  have hread : read '"' (body ++ rest) = ([.text (.ok content)], .ok body.length) := by
    have hquote : ofPunctuation? '"' = none := rfl
    rw [read, hquote, hbody]
    simp only [if_true, JsonText.read_flatMap_writeChar]
    simp [body]
  have hcut := cut_cons rfl hread
  rwa [cut_append] at hcut

/-- The characters that a number starts with. -/
def StartsNumber (c : Char) : Prop :=
  (c.isDigit || c = '-') = true

namespace StartsNumber

variable {c : Char} (h : StartsNumber c)

include h

theorem isBlank_eq : isBlank c = false := by
  cases hblank : isBlank c with
  | false => rfl
  | true =>
    simp only [isBlank, Bool.or_eq_true, decide_eq_true_eq] at hblank
    rcases hblank with ((rfl | rfl) | rfl) | rfl <;> cases h

/-- Where a number starts its spelling is read. -/
theorem read_eq (cs : List Char) : read c cs =
    match spelling (c :: cs) with
    | .ok numeral => ([.number numeral.number], .ok (numeral.length - 1))
    | .error f => ([.number (.error f)], .error .malformed) := by
  have hpunctuation : ofPunctuation? c = none := by
    unfold ofPunctuation?
    split <;> first | rfl | cases h
  have hquote : c ≠ '"' := by
    rintro rfl
    cases h
  have hstart : (c.isDigit || decide (c = '-')) = true := h
  cases hspelling : spelling (c :: cs) <;>
    simp only [read, hpunctuation, if_neg hquote, if_pos hstart, hspelling]

/-- A number is cut off together with the characters of its numeral. -/
theorem cut_eq {front : List Char} {numeral : JsonNumeral}
    (hread : spelling (c :: (front ++ rest)) = .ok numeral)
    (hlength : numeral.length = (c :: front).length) :
    cut 0 (c :: (front ++ rest)) = .number numeral.number :: cut 0 rest := by
  have htoken : read c (front ++ rest) = ([.number numeral.number], .ok front.length) := by
    rw [h.read_eq, hread]
    simp only [hlength, List.length_cons, Nat.add_sub_cancel]
  rw [cut_cons h.isBlank_eq htoken, cut_append]

/-- Cutting stops behind a number that is not read. -/
theorem cut_of_error {cs : List Char} {f : JsonFault} (hread : spelling (c :: cs) = .error f) :
    cut 0 (c :: cs) = [.number (.error f), .stop .malformed] := by
  rw [cut, if_neg (by simp [h.isBlank_eq]), h.read_eq, hread]
  rfl

end StartsNumber

theorem exists_numeral_eq_cons (negative : Bool) (w : WrittenNumeral) :
    ∃ c cs, signText negative ++ w.numeral.spelling = c :: cs ∧ StartsNumber c := by
  obtain ⟨c, cs, hcs, hdigit⟩ := w.exists_spelling_eq_cons
  cases negative with
  | true => exact ⟨'-', w.numeral.spelling, rfl, rfl⟩
  | false => exact ⟨c, cs, hcs, by simp [StartsNumber, hdigit]⟩

/-- A written numeral is cut off, whatever it stands for. -/
theorem cut_numeral (negative : Bool) {w : WrittenNumeral} (hzero : w.ZeroAlone)
    (hrest : Stops isNumeralChar rest) :
    cut 0 (signText negative ++ w.numeral.spelling ++ rest) =
      .number (ofWritten negative w).number :: cut 0 rest := by
  have hspelling := spelling_append negative hzero hrest
  have hlength : (ofWritten negative w).length = (signText negative ++ w.numeral.spelling).length :=
    length_eq negative w.numeral
  rw [← List.append_assoc] at hspelling
  obtain ⟨c, cs, hcs, hstart⟩ := exists_numeral_eq_cons negative w
  rw [hcs] at hspelling hlength ⊢
  exact hstart.cut_eq hspelling hlength

/-- The text of a number starts with a digit or a minus sign. -/
theorem exists_writeNumber {number : Number} (h : number.InJson) :
    ∃ c cs, writeNumber number = c :: cs ∧ StartsNumber c := by
  obtain ⟨negative, w, -, -, htext, -⟩ := h.exists_written
  rw [htext]
  exact exists_numeral_eq_cons negative w

theorem cut_writeNumber {number : Number} (h : number.InJson) (hrest : Stops isNumeralChar rest) :
    cut 0 (writeNumber number ++ rest) = .number (.ok number) :: cut 0 rest := by
  obtain ⟨negative, w, hzero, -, htext, hnumber⟩ := h.exists_written
  rw [htext, cut_numeral negative hzero hrest, hnumber]

/-! ## Texts that spell tokens -/

/-- A text spells tokens, with blanks between them, up to a rest.  No number may go on behind its
own characters. -/
inductive Spells : List Char → List JsonToken → List Char → Prop where
  | done (rest : List Char) : Spells rest [] rest
  | blank {c : Char} {cs rest : List Char} {tokens : List JsonToken} :
    isBlank c = true → Spells cs tokens rest → Spells (c :: cs) tokens rest
  | punctuation {c : Char} {token : JsonToken} {cs rest : List Char} {tokens : List JsonToken} :
    ofPunctuation? c = some token → Spells cs tokens rest →
    Spells (c :: cs) (token :: tokens) rest
  | word (word : Option Bool) {cs rest : List Char} {tokens : List JsonToken} :
    Spells cs tokens rest → Spells (wordText word ++ cs) (.word (.ok word) :: tokens) rest
  | number {number : Number} {cs rest : List Char} {tokens : List JsonToken} :
    number.InJson → Stops isNumeralChar cs → Spells cs tokens rest →
    Spells (writeNumber number ++ cs) (.number (.ok number) :: tokens) rest
  | text (content : String) {cs rest : List Char} {tokens : List JsonToken} :
    Spells cs tokens rest →
    Spells (writeText content.toList ++ cs) (.text (.ok content) :: tokens) rest

theorem isBlank_of_punctuation {c : Char} {token : JsonToken} (h : ofPunctuation? c = some token) :
    isBlank c = false := by
  unfold ofPunctuation? at h
  split at h <;> first | rfl | cases h

variable {cs : List Char} {tokens : List JsonToken}

/-- The tokens that are spelled are cut off. -/
theorem Spells.cut_eq (h : Spells cs tokens rest) : cut 0 cs = tokens ++ cut 0 rest := by
  induction h with
  | done rest => rfl
  | blank hblank _ ih => rw [cut, if_pos hblank, ih]
  | punctuation hc _ ih => rw [cut_punctuation (isBlank_of_punctuation hc) hc, ih, List.cons_append]
  | word word _ ih => rw [cut_word, ih, List.cons_append]
  | number hnumber hstop _ ih => rw [cut_writeNumber hnumber hstop, ih, List.cons_append]
  | text content _ ih => rw [cut_writeText, ih, List.cons_append]

theorem Spells.newLine (level : Nat) (h : Spells cs tokens rest) :
    Spells (newLine level ++ cs) tokens rest := by
  have hspaces (count : Nat) : Spells (List.replicate count ' ' ++ cs) tokens rest := by
    induction count with
    | zero => exact h
    | succ count ih => exact .blank rfl ih
  exact .blank rfl (hspaces (2 * level))

/-! ## Values -/

theorem stops_newLine (level : Nat) (rest : List Char) :
    Stops isNumeralChar (newLine level ++ rest) := by
  rw [JsonValue.newLine, List.cons_append, Stops.cons_iff]
  rfl

theorem stops_comma (rest : List Char) : Stops isNumeralChar (',' :: rest) := by
  rw [Stops.cons_iff]
  rfl

/-- A written value spells its tokens in front of others, wherever a number does not go on. -/
def SpellsTokens (value : JsonValue) : Prop :=
  ∀ {cs tokens rest} (level : Nat), Stops isNumeralChar cs → Spells cs tokens rest →
    Spells (value.writeBefore cs level) (value.tokens ++ tokens) rest

theorem spells_writeItems {items : List JsonValue} (h : ∀ item ∈ items, SpellsTokens item)
    (level : Nat) (hstop : Stops isNumeralChar cs) (hcs : Spells cs tokens rest) :
    Spells (writeItems cs level items) (itemTokens items ++ tokens) rest := by
  induction items with
  | nil => exact hcs
  | cons item items ih =>
    obtain ⟨hitem, hitems⟩ := List.forall_mem_cons.mp h
    cases items with
    | nil => exact (hitem level hstop hcs).newLine level
    | cons next items =>
      rw [itemTokens_cons, List.append_assoc, List.cons_append]
      exact (hitem level (stops_comma _) (.punctuation rfl (ih hitems))).newLine level

theorem spells_writeFields {fields : List (String × JsonValue)}
    (h : ∀ field ∈ fields, SpellsTokens field.2) (level : Nat) (hstop : Stops isNumeralChar cs)
    (hcs : Spells cs tokens rest) :
    Spells (writeFields cs level fields) (fieldTokens fields ++ tokens) rest := by
  -- The name of a field, with a colon and a space behind it.
  have hname (key : String) {cs : List Char} {tokens : List JsonToken}
      (hcs : Spells cs tokens rest) :
      Spells (newLine level ++ writeText key.toList ++ ':' :: ' ' :: cs)
        (.text (.ok key) :: .colon :: tokens) rest := by
    rw [List.append_assoc]
    exact Spells.newLine level (.text key (.punctuation rfl (.blank rfl hcs)))
  induction fields with
  | nil => exact hcs
  | cons field fields ih =>
    obtain ⟨key, value⟩ := field
    obtain ⟨hvalue, hfields⟩ := List.forall_mem_cons.mp h
    cases fields with
    | nil => exact hname key (hvalue level hstop hcs)
    | cons next fields =>
      rw [fieldTokens_cons, List.cons_append, List.cons_append, List.append_assoc, List.cons_append]
      exact hname key (hvalue level (stops_comma _) (.punctuation rfl (ih hfields)))

/-- An object spells its tokens up to its closing brace. -/
theorem spells_open_object {fields : List (String × JsonValue)}
    (h : ∀ field ∈ fields, SpellsTokens field.2) (level : Nat)
    (hclose : Spells ('\x7d' :: cs) tokens rest) :
    Spells ((JsonValue.object fields).writeBefore cs level)
      (.openBrace :: (fieldTokens fields ++ tokens)) rest := by
  cases fields with
  | nil => exact .punctuation rfl hclose
  | cons field fields =>
    exact .punctuation rfl
      (spells_writeFields h (level + 1) (stops_newLine level _) (hclose.newLine level))

/-- A written value spells its tokens. -/
theorem spells_writeBefore {value : JsonValue} (h : value.NumbersFit) : SpellsTokens value := by
  induction h with
  | null => exact fun _ _ hcs => .word none hcs
  | bool value =>
    intro cs tokens rest level _ hcs
    cases value with
    | true => exact .word (some true) hcs
    | false => exact .word (some false) hcs
  | number hnumber => exact fun _ hstop hcs => .number hnumber hstop hcs
  | text content => exact fun _ _ hcs => .text content hcs
  | @array items _ ih =>
    intro cs tokens rest level _ hcs
    have hclose : Spells (']' :: cs) (.closeBracket :: tokens) rest := .punctuation rfl hcs
    cases items with
    | nil => exact .punctuation rfl hclose
    | cons item items =>
      have hitems := spells_writeItems ih (level + 1) (stops_newLine level _) (hclose.newLine level)
      rw [JsonValue.tokens, List.cons_append, List.append_assoc]
      exact .punctuation rfl hitems
  | @object fields _ ih =>
    intro cs tokens rest level _ hcs
    rw [JsonValue.tokens, List.cons_append, List.append_assoc]
    exact spells_open_object ih level (.punctuation rfl hcs)

/-- The text of an object spells its tokens up to the closing brace. -/
theorem spells_object {fields : List (String × JsonValue)}
    (h : (JsonValue.object fields).NumbersFit) :
    Spells ((JsonValue.object fields).writeBefore [] 0) (.openBrace :: fieldTokens fields)
      ['\x7d'] := by
  cases h with
  | object hfields =>
    have hopen := spells_open_object
      (fun field hfield => spells_writeBefore (hfields field hfield)) 0 (.done ['\x7d'])
    rwa [List.append_nil] at hopen

/-- The tokens of a written text are those of its value. -/
theorem jsonTokens_write {value : JsonValue} (h : value.NumbersFit) :
    jsonTokens value.write = value.tokens := by
  have hspells := spells_writeBefore h 0 (Stops.nil isNumeralChar) (.done [])
  rw [jsonTokens, write, String.toList_ofList, hspells.cut_eq, List.append_nil]
  exact List.append_nil _

end JsonToken

end MipsAssembly
