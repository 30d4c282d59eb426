import MipsAssembly.Proofs.Json.BrokenNumber
import MipsAssembly.Proofs.Json.Token

/-!
# Texts that break off are cut into fewer tokens

A text that spells tokens may break off anywhere.  Between two tokens it then spells fewer of them.
Inside a token it has one token more, which tells that it broke off, unless it is a number of which
some digits are left.

## Main definitions

- `JsonText.read_of_prefix` — a text between quotes that breaks off.
- `JsonToken.Broken` — what a single token that breaks off is cut into.
- `JsonToken.BreakOff` — what tokens that break off are cut into.
- `JsonToken.Spells.exists_front` — a text that breaks off is cut in this way.
-/

namespace MipsAssembly

open JsonValue (writeChar writeText writeNumber)

/-! ## Texts between quotes -/

namespace JsonText

variable {pre : List Char}

/-- A code of four digits that breaks off is no code. -/
theorem parts_take_controlDigits : ∀ code < 0x20, ∀ count < 6,
    parts (('\\' :: 'u' :: controlDigits code).take count) = ([], .error .truncated) := by
  decide

/-- A written character that breaks off is an escape without its end. -/
theorem parts_of_prefix_writeChar {c : Char} (hpre : pre <+: writeChar c)
    (hne : pre ≠ writeChar c) : parts pre = ([], .error .truncated) := by
  rcases writeChar_cases c with ⟨e, htext⟩ | ⟨code, hcode, htext⟩ | htext
  · rw [htext] at hpre hne
    rcases List.prefix_cons_iff.mp hpre with rfl | ⟨behind, rfl, hbehind⟩
    · rfl
    rcases List.prefix_cons_iff.mp hbehind with rfl | ⟨none, rfl, hnone⟩
    · rfl
    · rw [List.prefix_nil.mp hnone] at hne
      exact absurd rfl hne
  · rw [htext] at hpre hne
    have hshort : pre.length < 6 := lt_of_le_of_ne hpre.length_le fun heq =>
      hne (hpre.eq_of_length heq)
    rw [List.prefix_iff_eq_take.mp hpre]
    exact parts_take_controlDigits code hcode pre.length hshort
  · rw [htext] at hpre hne
    rcases List.prefix_cons_iff.mp hpre with rfl | ⟨none, rfl, hnone⟩
    · rfl
    · rw [List.prefix_nil.mp hnone] at hne
      exact absurd rfl hne

/-- Where written characters break off those that are complete have been read. -/
theorem parts_of_prefix {content : List Char} (hpre : pre <+: content.flatMap writeChar) :
    ∃ front : List Char, parts pre = (front.map .char, .error .truncated) := by
  induction content generalizing pre with
  | nil =>
    rw [List.prefix_nil.mp hpre]
    exact ⟨[], rfl⟩
  | cons c content ih =>
    rcases prefix_append_cases hpre with ⟨hchar, hne⟩ | ⟨behind, rfl, hbehind⟩
    · exact ⟨[], parts_of_prefix_writeChar hchar hne⟩
    · obtain ⟨front, hfront⟩ := ih hbehind
      refine ⟨c :: front, ?_⟩
      rw [parts_writeChar, hfront]
      rfl

theorem join_map_char_of_fault (f : JsonFault) (content : List Char) :
    join (some f) (content.map .char) = .error f := by
  induction content with
  | nil => rfl
  | cons c content ih =>
    rw [List.map_cons, join, ih]
    rfl

/-- A text that breaks off in front of its closing quote. -/
theorem read_of_prefix {content : List Char} (hpre : pre <+: content.flatMap writeChar) :
    read pre = (.error .truncated, .error .truncated) := by
  obtain ⟨front, hfront⟩ := parts_of_prefix hpre
  rw [read, hfront]
  dsimp only
  rw [join_map_char_of_fault]
  rfl

end JsonText

/-! ## Tokens -/

namespace JsonToken

open JsonNumeral (isNumeralChar)

/-- What a token that breaks off is cut into. -/
inductive Broken : JsonToken → List JsonToken → Prop where
  | word (word : Option Bool) :
    Broken (.word (.ok word)) [.word (.error .truncated), .stop .truncated]
  | text (content : String) :
    Broken (.text (.ok content)) [.text (.error .truncated), .stop .truncated]
  /-- What is left is a number. -/
  | digits {m n : Number} : m.Begins n → Broken (.number (.ok n)) [.number (.ok m)]
  /-- A digit is missing. -/
  | number (n : Number) :
    Broken (.number (.ok n)) [.number (.error .truncated), .stop .malformed]

/-- What tokens that break off are cut into. -/
inductive BreakOff : List JsonToken → List JsonToken → Prop where
  /-- None of the tokens is there. -/
  | between (token : JsonToken) (tokens : List JsonToken) : BreakOff (token :: tokens) []
  | inside {token : JsonToken} {left : List JsonToken} (tokens : List JsonToken) :
    Broken token left → BreakOff (token :: tokens) left
  | cons (token : JsonToken) {tokens left : List JsonToken} :
    BreakOff tokens left → BreakOff (token :: tokens) (token :: left)

namespace BreakOff

variable {front behind left : List JsonToken}

theorem append (h : BreakOff front left) (behind : List JsonToken) :
    BreakOff (front ++ behind) left := by
  induction h with
  | between token tokens => exact .between token _
  | inside tokens hbroken => exact .inside _ hbroken
  | cons token _ ih => exact .cons token ih

/-- Tokens break off where others follow them. -/
theorem of_front (front : List JsonToken) (hne : behind ≠ []) :
    BreakOff (front ++ behind) front := by
  induction front with
  | nil =>
    obtain ⟨token, tokens, rfl⟩ := List.exists_cons_of_ne_nil hne
    exact .between token tokens
  | cons token front ih => exact .cons token ih

/-- A single token of which something is left breaks off itself. -/
theorem broken {token : JsonToken} (h : BreakOff [token] left) (hne : left ≠ []) :
    Broken token left := by
  cases h with
  | between => exact absurd rfl hne
  | inside _ hbroken => exact hbroken
  | cons _ hnone => cases hnone

theorem append_cases (h : BreakOff (front ++ behind) left) :
    BreakOff front left ∨ ∃ more, left = front ++ more ∧ BreakOff behind more := by
  induction front generalizing left with
  | nil => exact .inr ⟨left, rfl, h⟩
  | cons token front ih =>
    cases h with
    | between => exact .inl (.between token front)
    | inside _ hbroken => exact .inl (.inside front hbroken)
    | cons _ h =>
      rcases ih h with h | ⟨more, rfl, hmore⟩
      · exact .inl (.cons token h)
      · exact .inr ⟨more, rfl, hmore⟩

end BreakOff

variable {pre rest cs : List Char} {tokens : List JsonToken}

theorem lettersFault?_of_prefix {letters : List Char} (hpre : pre <+: letters)
    (hne : pre ≠ letters) : lettersFault? letters pre = some .truncated := by
  induction letters generalizing pre with
  | nil => exact absurd (List.prefix_nil.mp hpre) hne
  | cons letter letters ih =>
    rcases List.prefix_cons_iff.mp hpre with rfl | ⟨behind, rfl, hbehind⟩
    · rfl
    · rw [lettersFault?, if_pos rfl]
      exact ih hbehind fun heq => hne (congrArg _ heq)

theorem cut_of_prefix_wordText {word : Option Bool} (tokens : List JsonToken)
    (hpre : pre <+: wordText word) (hne : pre ≠ wordText word) :
    BreakOff (.word (.ok word) :: tokens) (cut 0 pre) := by
  obtain ⟨first, letters, htext, hblank, hread⟩ := exists_wordText word
  rw [htext] at hpre hne
  rcases List.prefix_cons_iff.mp hpre with rfl | ⟨behind, rfl, hbehind⟩
  · exact .between _ tokens
  · have hfault := lettersFault?_of_prefix hbehind fun heq => hne (congrArg _ heq)
    have hcut : cut 0 (first :: behind) = [.word (.error .truncated), .stop .truncated] := by
      rw [cut, if_neg (by simp [hblank]), hread, readWord, hfault]
      rfl
    rw [hcut]
    exact .inside tokens (.word word)

theorem cut_of_prefix_writeText {content : String} (tokens : List JsonToken)
    (hpre : pre <+: writeText content.toList) (hne : pre ≠ writeText content.toList) :
    BreakOff (.text (.ok content) :: tokens) (cut 0 pre) := by
  rcases List.prefix_cons_iff.mp hpre with rfl | ⟨behind, rfl, hbehind⟩
  · exact .between _ tokens
  rcases List.prefix_concat_iff.mp hbehind with rfl | hinside
  · exact absurd rfl hne
  · have hcut : cut 0 ('"' :: behind) = [.text (.error .truncated), .stop .truncated] := by
      have hquote : ofPunctuation? '"' = none := rfl
      have hblank : isBlank '"' = false := rfl
      rw [cut, if_neg (by simp [hblank]), read, hquote]
      simp only [if_true, JsonText.read_of_prefix hinside]
      rfl
    rw [hcut]
    exact .inside tokens (.text content)

theorem cut_of_prefix_writeNumber {number : Number} (h : number.InJson) (tokens : List JsonToken)
    (hpre : pre <+: writeNumber number) :
    BreakOff (.number (.ok number) :: tokens) (cut 0 pre) := by
  by_cases hne : pre = []
  · subst hne
    exact .between _ tokens
  obtain ⟨c, cs, hcs, hstart⟩ := exists_writeNumber h
  obtain ⟨behind, rfl⟩ : ∃ behind, pre = c :: behind := by
    rw [hcs] at hpre
    rcases List.prefix_cons_iff.mp hpre with rfl | ⟨behind, rfl, -⟩
    · exact absurd rfl hne
    · exact ⟨behind, rfl⟩
  rcases h.spelling_of_prefix hne hpre with hread | ⟨numeral, m, hread, hlength, hnumber, hbegins⟩
  · rw [hstart.cut_of_error hread]
    exact .inside tokens (.number number)
  · rw [← List.append_nil behind] at hread
    have hcut := hstart.cut_eq hread hlength
    rw [List.append_nil, hnumber] at hcut
    rw [hcut]
    exact .inside tokens (.digits hbegins)

/-- Tokens are all there or break off. -/
def IsStart (left tokens : List JsonToken) : Prop :=
  left = tokens ∨ BreakOff tokens left

theorem isStart_nil (tokens : List JsonToken) : IsStart [] tokens := by
  cases tokens with
  | nil => exact .inl rfl
  | cons token tokens => exact .inr (.between token tokens)

theorem IsStart.cons {left : List JsonToken} (token : JsonToken) (h : IsStart left tokens) :
    IsStart (token :: left) (token :: tokens) :=
  h.imp (congrArg _) (.cons token)

/-- Where a text breaks off in front of the rest, the tokens that it spells break off. -/
theorem Spells.exists_front (h : Spells cs tokens rest) :
    ∃ front, cs = front ++ rest ∧ ∀ pre, pre <+: front → IsStart (cut 0 pre) tokens := by
  induction h with
  | done rest =>
    refine ⟨[], rfl, fun pre hpre => ?_⟩
    rw [List.prefix_nil.mp hpre]
    exact isStart_nil []
  | @blank c cs rest tokens hblank _ ih =>
    obtain ⟨front, rfl, hfront⟩ := ih
    refine ⟨c :: front, rfl, fun pre hpre => ?_⟩
    rcases List.prefix_cons_iff.mp hpre with rfl | ⟨behind, rfl, hbehind⟩
    · exact isStart_nil tokens
    · rw [cut, if_pos hblank]
      exact hfront behind hbehind
  | @punctuation c token cs rest tokens hc _ ih =>
    obtain ⟨front, rfl, hfront⟩ := ih
    refine ⟨c :: front, rfl, fun pre hpre => ?_⟩
    rcases List.prefix_cons_iff.mp hpre with rfl | ⟨behind, rfl, hbehind⟩
    · exact isStart_nil _
    · rw [cut_punctuation (isBlank_of_punctuation hc) hc]
      exact (hfront behind hbehind).cons token
  | @word word cs rest tokens _ ih =>
    obtain ⟨front, rfl, hfront⟩ := ih
    refine ⟨wordText word ++ front, by rw [List.append_assoc], fun pre hpre => ?_⟩
    rcases prefix_append_cases hpre with ⟨hinside, hne⟩ | ⟨behind, rfl, hbehind⟩
    · exact .inr (cut_of_prefix_wordText tokens hinside hne)
    · rw [cut_word]
      exact (hfront behind hbehind).cons _
  | @number number cs rest tokens hnumber hstop _ ih =>
    obtain ⟨front, rfl, hfront⟩ := ih
    refine ⟨writeNumber number ++ front, by rw [List.append_assoc], fun pre hpre => ?_⟩
    rcases prefix_append_cases hpre with ⟨hinside, -⟩ | ⟨behind, rfl, hbehind⟩
    · exact .inr (cut_of_prefix_writeNumber hnumber tokens hinside)
    · have hstop : Stops isNumeralChar behind := by
        obtain ⟨more, rfl⟩ := hbehind
        exact hstop.left.left
      rw [cut_writeNumber hnumber hstop]
      exact (hfront behind hbehind).cons _
  | @text content cs rest tokens _ ih =>
    obtain ⟨front, rfl, hfront⟩ := ih
    refine ⟨writeText content.toList ++ front, by rw [List.append_assoc], fun pre hpre => ?_⟩
    rcases prefix_append_cases hpre with ⟨hinside, hne⟩ | ⟨behind, rfl, hbehind⟩
    · exact .inr (cut_of_prefix_writeText tokens hinside hne)
    · rw [cut_writeText]
      exact (hfront behind hbehind).cons _

end JsonToken

end MipsAssembly
