import MipsAssembly.Proofs.Json.BrokenRecord
import MipsAssembly.Proofs.Program.RoundTrip

/-!
# Texts of programs that break off

The text of a program may break off at any character.  What is left of it is never read as a
program, and what is found wrong with it is always that it ends too early: up to that place it is
the text of a program.

## Main definitions

- `Entry.refusesLeftover`, `Segment.refusesLeftover`, `Label.refusesLeftover` — the parts of a
  program are refused where the text ends in them.
- `Program.refusesLeftover` — so is a program.
- `importProgram_of_broken_text` — a text that breaks off is refused.
-/

namespace MipsAssembly

open Document

variable {α : Type} {read : Document → Except JsonFault α} {d : Document}

theorem NoOtherFault.readOnce (before : Option α) (h : NoOtherFault read d) :
    NoOtherFault (fun d => readOnce before (read d)) d := by
  cases before with
  | none => exact h.map some
  | some a =>
    rintro ⟨_, hread⟩
    cases hread

/-- Parts under their names, each of which comes to no other fault. -/
theorem noOtherFault_asFields_ofJson {β : Type} {toJson : β → JsonValue}
    (h : ∀ b, NoOtherFault read (ofJson (toJson b))) (entries : List (String × β)) :
    NoOtherFault (asFields read)
      (ofJson (.object (entries.map fun (name, b) => (name, toJson b)))) := by
  refine (refusesLeftover_asFields fun field hfield => ?_).noOtherFault
  rw [ofFields_eq_map, List.map_map] at hfield
  obtain ⟨⟨name, b⟩, -, rfl⟩ := List.mem_map.mp hfield
  exact h b

theorem Entry.refusesLeftover (d : Document) : RefusesLeftover Entry.ofDocument d :=
  (refusesLeftover_tagged _ _ d).bind _

theorem refusesLeftover_switchOfDocument (d : Document) : RefusesLeftover switchOfDocument d :=
  (refusesLeftover_tagged _ _ d).bind _

theorem Segment.refusesLeftover (s : Segment) :
    RefusesLeftover Segment.ofDocument (ofJson s.toJson) := by
  apply RefusesLeftover.bind
  apply refusesLeftover_foldRecord
  intro key d hfield parts
  obtain ⟨hkey, rfl⟩ := Prod.mk.inj (List.mem_singleton.mp hfield)
  obtain rfl := Except.ok.inj hkey
  have hentries : NoOtherFault (asList Entry.ofDocument)
      (ofJson (.array (s.entries.map Entry.toJson))) :=
    (refusesLeftover_asList fun d _ => (Entry.refusesLeftover d).noOtherFault).noOtherFault
  exact NoOtherFault.readOnce parts hentries

theorem Label.refusesLeftover (l : Label) :
    RefusesLeftover Label.ofDocument (ofJson l.toJson) := by
  apply RefusesLeftover.bind
  apply refusesLeftover_foldRecord
  intro key d hfield parts
  obtain ⟨hkey, rfl⟩ := Prod.mk.inj (List.mem_singleton.mp hfield)
  obtain rfl := Except.ok.inj hkey
  have haddress := noOtherFault_asNatural (2 * integerBound) (ofJson (.number (.integer l.address)))
  exact (NoOtherFault.readOnce parts.address haddress).map fun address =>
    { parts with address := address }

theorem Program.refusesLeftover (p : Program) :
    RefusesLeftover Program.ofDocument (ofJson p.toJson) := by
  apply RefusesLeftover.bind
  apply refusesLeftover_foldRecord
  intro key d hfield parts
  simp only [ofFields, List.mem_cons, Prod.mk.injEq, Except.ok.injEq, List.not_mem_nil,
    or_false] at hfield
  rcases hfield with ⟨rfl, rfl⟩ | ⟨rfl, rfl⟩ | ⟨rfl, rfl⟩ | ⟨rfl, rfl⟩
  case inl => exact (noOtherFault_skip_text "Program").map fun _ => parts
  case inr.inl =>
    have hsegments := noOtherFault_asFields_ofJson
      (fun s : Segment => s.refusesLeftover.noOtherFault) p.segments.entries
    exact (NoOtherFault.readOnce parts.segments hsegments).map fun segments =>
      { parts with segments := segments }
  case inr.inr.inl =>
    have hlabels := noOtherFault_asFields_ofJson
      (fun l : Label => l.refusesLeftover.noOtherFault) p.labels.entries
    exact (NoOtherFault.readOnce parts.labels hlabels).map fun labels =>
      { parts with labels := labels }
  case inr.inr.inr =>
    have hswitches : NoOtherFault (asList switchOfDocument)
        (ofJson (.array (p.switches.map switchJson))) :=
      (refusesLeftover_asList fun d _ =>
        (refusesLeftover_switchOfDocument d).noOtherFault).noOtherFault
    exact (NoOtherFault.readOnce parts.switches hswitches).map fun switches =>
      { parts with switches := switches }

/-- A text that starts like that of a program but ends earlier is refused, and always because it
ends too early. -/
theorem importProgram_of_broken_text (p : Program) (h : p.Exportable) {source : String}
    (hstart : source.toList <+: p.exportJson.toList) (hne : source ≠ p.exportJson) :
    importProgram source = .error .truncated := by
  obtain ⟨f, hleft⟩ := ofText_of_prefix h.numbersFit hstart hne
  have hrefused := p.refusesLeftover ⟨_, Program.ofDocument_toJson h⟩ hleft
  show (Program.ofDocument (ofText source).1 >>= _) = _
  rw [hrefused]
  rfl

/-- A text that breaks off behind the first digit of an address. -/
theorem importProgram_of_broken_text_of_short_address :
    let p : Program := ⟨.ofList [], .ofList [("a", ⟨12, ".text"⟩)], [".text"]⟩
    let source := "\x7b\n  \"type\": \"Program\",\n  \"segments\": \x7b\x7d,\n  \"labels\": \x7b\n"
      ++ "    \"a\": \x7b\n      \"address\": 1"
    p.Exportable ∧ source.toList <+: p.exportJson.toList ∧ source ≠ p.exportJson ∧
      importProgram source = .error .truncated := by
  intro p source
  have h : p.Exportable := ⟨by decide +kernel, by decide +kernel, by decide +kernel⟩
  have hstart : source.toList <+: p.exportJson.toList := by
    rw [Program.exportJson, JsonValue.write, String.toList_ofList]
    decide +kernel
  have hne : source ≠ p.exportJson := by decide +kernel
  exact ⟨h, hstart, hne, importProgram_of_broken_text p h hstart hne⟩

end MipsAssembly
