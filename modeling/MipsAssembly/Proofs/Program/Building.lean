import MipsAssembly.Program.Building
import MipsAssembly.Proofs.Resolution.Labels

/-!
# What a program owes to the calls that built it

Every part of a program in the making can be told from the calls so far.  A segment has the entries
that were put into it, in order, so that each has the number of those before it for its address,
and keeps it.  Segments and labels have the order in which their names came first.  A label stands
for what it was bound to last.

## Main definitions

- `Program.Call.answerAfter` — the answer to a call, told from the calls before it.
- `Program.Built` — a program is what calls make of it.
- `Program.Built.call`, `Program.Built.callAll` — it still is behind one more call, and behind more.
- `building_keeps_addresses` — what holds behind any calls.
-/

namespace MipsAssembly

namespace Program

/-! ## What calls ask for -/

namespace Call

/-- The segment that is there behind a call. -/
def opens? : Call → Option String
  | openSegment name | append name _ => some name
  | _ => none

/-- The entry that a call puts into a segment. -/
def entryIn? (name : String) : Call → Option Entry
  | append segment entry => if segment = name then some entry else none
  | _ => none

def binds? : Call → Option String
  | bind label _ _ => some label
  | _ => none

/-- What a call binds a label to. -/
def labelOf? (name : String) : Call → Option Label
  | bind label segment address => if label = name then some ⟨address, segment⟩ else none
  | _ => none

def switch? : Call → Option String
  | recordSwitch name => some name
  | _ => none

/-- The answer to a call, told from the calls before it. -/
def answerAfter (before : List Call) : Call → Answer
  | openSegment name => .opened ⟨before.filterMap (entryIn? name)⟩
  | length name => .measured (before.filterMap (entryIn? name)).length
  | append segment _ => .placed (before.filterMap (entryIn? segment)).length
  | bind label _ _ => .replaced (before.filterMap (labelOf? label)).getLast?
  | recordSwitch _ => .recorded

theorem entryIn?_eq_some {name : String} {call : Call} {entry : Entry} :
    call.entryIn? name = some entry ↔ call = append name entry := by
  cases call with
  | append segment other =>
    by_cases h : segment = name <;> simp [entryIn?, h]
  | openSegment | length | bind | recordSwitch => simp [entryIn?]

end Call

/-- The address that a call is given in a segment. -/
def addressIn? (name : String) : Call × Answer → Option Nat
  | (.append segment _, .placed address) => if segment = name then some address else none
  | _ => none

variable {before calls : List Call} {p : Program} {name : String}

theorem addressIn?_answerAfter (name : String) (call : Call) :
    addressIn? name (call, call.answerAfter before) =
      (call.entryIn? name).map fun _ => (before.filterMap (Call.entryIn? name)).length := by
  cases call with
  | append segment entry =>
    by_cases h : segment = name
    · subst h
      simp [addressIn?, Call.answerAfter, Call.entryIn?]
    · simp [addressIn?, Call.answerAfter, Call.entryIn?, h]
  | openSegment | length | bind | recordSwitch => rfl

/-! ## Lists of calls -/

theorem filterMap_concat {α β : Type} (f : α → Option β) (xs : List α) (x : α) :
    (xs ++ [x]).filterMap f = xs.filterMap f ++ (f x).toList := by
  rw [List.filterMap_append, List.filterMap_cons]
  cases f x <;> rfl

/-- Only a name that is new is put behind the others. -/
theorem eraseDups_concat (names : List String) (name : String) :
    (names ++ [name]).eraseDups =
      if name ∈ names.eraseDups then names.eraseDups else names.eraseDups ++ [name] := by
  rw [List.eraseDups_append]
  by_cases h : name ∈ names
  · simp [List.removeAll, h]
  · simp [List.removeAll, h, List.eraseDups_cons]

/-- What is kept at a place comes from the element with as many kept ones in front of it. -/
theorem getElem?_filterMap_eq_some {α β : Type} (f : α → Option β) {xs : List α} {k : Nat} {y : β} :
    (xs.filterMap f)[k]? = some y ↔
      ∃ i x, xs[i]? = some x ∧ f x = some y ∧ ((xs.take i).filterMap f).length = k := by
  constructor
  · intro hy
    induction xs generalizing k with
    | nil => cases hy
    | cons first xs ih =>
      cases hfirst : f first with
      | none =>
        rw [List.filterMap_cons_none hfirst] at hy
        obtain ⟨i, x, hx, hfx, hlength⟩ := ih hy
        refine ⟨i + 1, x, hx, hfx, ?_⟩
        rw [List.take_succ_cons, List.filterMap_cons_none hfirst, hlength]
      | some z =>
        rw [List.filterMap_cons_some hfirst] at hy
        cases k with
        | zero => exact ⟨0, first, rfl, hfirst.trans hy, rfl⟩
        | succ k =>
          obtain ⟨i, x, hx, hfx, hlength⟩ := ih hy
          refine ⟨i + 1, x, hx, hfx, ?_⟩
          rw [List.take_succ_cons, List.filterMap_cons_some hfirst, List.length_cons, hlength]
  · rintro ⟨i, x, hx, hfx, rfl⟩
    obtain ⟨hi, rfl⟩ := List.getElem?_eq_some_iff.mp hx
    have hsplit : xs.take i ++ xs[i] :: xs.drop (i + 1) = xs := by
      rw [← List.drop_eq_getElem_cons hi, List.take_append_drop]
    have hkept : xs.filterMap f =
        (xs.take i).filterMap f ++ y :: (xs.drop (i + 1)).filterMap f := by
      rw [← List.filterMap_cons_some hfx, ← List.filterMap_append, hsplit]
    rw [hkept, List.getElem?_append_right (Nat.le_refl _), Nat.sub_self]
    rfl

/-! ## One call -/

section Step

variable (p : Program) (call : Call)

theorem keys_segments_call : (p.call call).2.segments.keys =
    call.opens?.elim p.segments.keys fun name =>
      if name ∈ p.segments.keys then p.segments.keys else p.segments.keys ++ [name] := by
  cases call with
  | openSegment | append => exact OrderedMap.keys_insert _ _ _
  | length | bind | recordSwitch => rfl

theorem entries_call (name : String) : ((p.call call).2.segmentD name).entries =
    (p.segmentD name).entries ++ (call.entryIn? name).toList := by
  cases call with
  | openSegment segment => simp [Program.call, Call.entryIn?]
  | append segment entry =>
    rw [Program.call, segmentD_append, Call.entryIn?]
    split <;> rfl
  | length | bind | recordSwitch => simp [Program.call, Call.entryIn?]

theorem keys_labels_call : (p.call call).2.labels.keys =
    call.binds?.elim p.labels.keys fun name =>
      if name ∈ p.labels.keys then p.labels.keys else p.labels.keys ++ [name] := by
  cases call with
  | bind => exact OrderedMap.keys_insert _ _ _
  | openSegment | length | append | recordSwitch => rfl

theorem label?_call (name : String) :
    (p.call call).2.label? name = (call.labelOf? name).or (p.label? name) := by
  cases call with
  | bind label segment address =>
    by_cases h : name = label
    · subst h
      simp [Program.call, Program.bind, label?, Call.labelOf?]
    · simp [Program.call, Program.bind, label?, Call.labelOf?, h, Ne.symm h]
  | openSegment | length | append | recordSwitch => rfl

theorem switches_call : (p.call call).2.switches = p.switches ++ call.switch?.toList := by
  cases call with
  | recordSwitch => rfl
  | openSegment | length | append | bind => exact (List.append_nil _).symm

end Step

/-! ## All calls -/

/-- A program is what calls make of it. -/
structure Built (calls : List Call) (p : Program) : Prop where
  keys_segments : p.segments.keys = (calls.filterMap Call.opens?).eraseDups
  entries (name : String) : (p.segmentD name).entries = calls.filterMap (Call.entryIn? name)
  keys_labels : p.labels.keys = (calls.filterMap Call.binds?).eraseDups
  label? (name : String) : p.label? name = (calls.filterMap (Call.labelOf? name)).getLast?
  switches : p.switches = calls.filterMap Call.switch?

theorem built_empty : Built [] {} :=
  ⟨rfl, fun _ => rfl, rfl, fun _ => rfl, rfl⟩

namespace Built

variable (h : Built before p)

include h

theorem call (call : Call) : Built (before ++ [call]) (p.call call).2 where
  keys_segments := by
    rw [keys_segments_call, filterMap_concat, h.keys_segments]
    cases call.opens? with
    | none => rw [Option.toList_none, List.append_nil]; rfl
    | some name => exact (eraseDups_concat _ name).symm
  entries name := by rw [entries_call, filterMap_concat, h.entries]
  keys_labels := by
    rw [keys_labels_call, filterMap_concat, h.keys_labels]
    cases call.binds? with
    | none => rw [Option.toList_none, List.append_nil]; rfl
    | some name => exact (eraseDups_concat _ name).symm
  label? name := by
    rw [label?_call, filterMap_concat, h.label?, List.getLast?_append]
    cases call.labelOf? name <;> rfl
  switches := by rw [switches_call, filterMap_concat, h.switches]

/-- The calls so far tell the answer to the next one. -/
theorem answer (call : Call) : (p.call call).1 = call.answerAfter before := by
  cases call with
  | openSegment name =>
    rw [Program.call, segmentD_openSegment, Call.answerAfter, ← h.entries]
  | length name => rw [Program.call, segmentLength, Segment.length, h.entries, Call.answerAfter]
  | append name entry =>
    rw [Program.call, segmentLength, Segment.length, segmentD_append, if_pos rfl,
      List.length_append, h.entries, Call.answerAfter]
    rfl
  | bind name segment address => rw [Program.call, h.label?, Call.answerAfter]
  | recordSwitch name => rfl

theorem callAll (calls : List Call) : Built (before ++ calls) (p.callAll calls).2 := by
  induction calls generalizing before p with
  | nil => rwa [List.append_nil]
  | cons call calls ih =>
    rw [List.append_cons]
    exact ih (h.call call)

/-- The calls before each one tell its answer. -/
theorem answers (calls : List Call) (i : Nat) : (p.callAll calls).1[i]? =
    calls[i]?.map (Call.answerAfter (before ++ calls.take i)) := by
  induction calls generalizing before p i with
  | nil => rfl
  | cons call calls ih =>
    cases i with
    | zero => simp [Program.callAll, h.answer]
    | succ i =>
      have hrest := ih (h.call call) i
      rw [← List.append_cons] at hrest
      exact hrest

/-- The addresses that are given in a segment count on from those given before. -/
theorem addresses (name : String) (calls : List Call) :
    (calls.zip (p.callAll calls).1).filterMap (addressIn? name) =
      List.range' (before.filterMap (Call.entryIn? name)).length
        (calls.filterMap (Call.entryIn? name)).length := by
  induction calls generalizing before p with
  | nil => rfl
  | cons call calls ih =>
    have hrest := ih (h.call call)
    rw [filterMap_concat, List.length_append] at hrest
    rw [Program.callAll, List.zip_cons_cons, List.filterMap_cons, h.answer, addressIn?_answerAfter,
      List.filterMap_cons]
    cases hentry : call.entryIn? name with
    | none =>
      rw [hentry] at hrest
      exact hrest
    | some entry =>
      rw [hentry] at hrest
      exact congrArg _ hrest

end Built

theorem segment?_bind_get? (p : Program) (name : String) (address : Nat) :
    (p.segment? name).bind (·.get? address) = (p.segmentD name).entries[address]? := by
  rw [segmentD, segment?]
  cases p.segments.get? name <;> rfl

end Program

/-- Of a program that any calls have built, everything is known from the calls.

The calls before each call tell its answer; in particular, binding a label answers with what the
last call before bound it to.  The entries that are put into a segment are given the addresses from
zero on, and the entry at an address of a segment is the one that was given it.  The segments are
those that were opened or put into, the labels are those that were bound, each once and in the order
in which they came first, and a label stands for what it was bound to last. -/
theorem building_keeps_addresses (calls : List Program.Call) :
    let answers := (Program.callAll {} calls).1
    let p := (Program.callAll {} calls).2
    (∀ i : Nat, answers[i]? = calls[i]?.map (Program.Call.answerAfter (calls.take i))) ∧
    (∀ name, (calls.zip answers).filterMap (Program.addressIn? name) =
      List.range (calls.filterMap (Program.Call.entryIn? name)).length) ∧
    (∀ name address entry, (p.segment? name).bind (·.get? address) = some entry ↔
      ∃ i : Nat, calls[i]? = some (.append name entry) ∧ answers[i]? = some (.placed address)) ∧
    (∀ name, (p.segmentD name).entries = calls.filterMap (Program.Call.entryIn? name)) ∧
    p.segments.keys = (calls.filterMap Program.Call.opens?).eraseDups ∧
    p.labels.keys = (calls.filterMap Program.Call.binds?).eraseDups ∧
    (∀ name, p.label? name = (calls.filterMap (Program.Call.labelOf? name)).getLast?) ∧
    p.switches = calls.filterMap Program.Call.switch? := by
  intro answers p
  have hbuilt : Program.Built calls p := Program.built_empty.callAll calls
  have hanswers : ∀ i : Nat,
      answers[i]? = calls[i]?.map (Program.Call.answerAfter (calls.take i)) :=
    Program.built_empty.answers calls
  refine ⟨hanswers, fun name => ?_, fun name address entry => ?_, hbuilt.entries,
    hbuilt.keys_segments, hbuilt.keys_labels, hbuilt.label?, hbuilt.switches⟩
  · rw [List.range_eq_range']
    exact Program.built_empty.addresses name calls
  · rw [Program.segment?_bind_get?, hbuilt.entries, Program.getElem?_filterMap_eq_some]
    constructor
    · rintro ⟨i, call, hcall, hentry, haddress⟩
      obtain rfl := Program.Call.entryIn?_eq_some.mp hentry
      refine ⟨i, hcall, ?_⟩
      rw [hanswers, hcall, Option.map_some, Program.Call.answerAfter, haddress]
    · rintro ⟨i, hcall, hanswer⟩
      rw [hanswers, hcall, Option.map_some, Program.Call.answerAfter] at hanswer
      refine ⟨i, _, hcall, Program.Call.entryIn?_eq_some.mpr rfl, ?_⟩
      cases hanswer
      rfl

/-- A label that is bound again keeps its place, and measuring a segment makes none. -/
example :
    let built := Program.callAll {}
      [.bind "first" ".text" 0, .bind "second" ".text" 1, .bind "first" ".data" 2, .length ".data"]
    built.1 = [.replaced none, .replaced none, .replaced (some ⟨0, ".text"⟩), .measured 0] ∧
      built.2.labels.entries = [("first", ⟨2, ".data"⟩), ("second", ⟨1, ".text"⟩)] ∧
      built.2.segments.keys = [] := by
  decide

end MipsAssembly
