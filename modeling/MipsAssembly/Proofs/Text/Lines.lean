import MipsAssembly.Text.Lines

/-!
# Lines of texts behind each other

A text that ends with a line feed has the lines that it has on its own, whatever follows it.  A
text without line feeds is one line, up to a carriage return at its end.

## Main definitions

- `splitLines_append_lineFeed` — the lines of two texts behind each other.
- `exists_splitLines_append` — the first line of a text.
- `splitOn_joinLines`, `joinLines_inj` — joined lines are told apart.
-/

namespace MipsAssembly

theorem splitLines_ne_nil {cs : List Char} (h : cs ≠ []) : splitLines cs ≠ [] := by
  unfold splitLines
  split
  · exact absurd rfl h
  · exact List.cons_ne_nil _ _
  · exact List.cons_ne_nil _ _
  · split <;> exact List.cons_ne_nil _ _

/-- A character that ends no line belongs to the first one. -/
theorem splitLines_cons {c : Char} {rest : List Char} (hfeed : c ≠ '\n')
    (hreturn : c = '\r' → rest.head? ≠ some '\n') (hrest : rest ≠ []) :
    ∃ line lines, splitLines rest = line :: lines ∧
      splitLines (c :: rest) = (c :: line) :: lines := by
  obtain ⟨line, lines, hlines⟩ := List.exists_cons_of_ne_nil (splitLines_ne_nil hrest)
  refine ⟨line, lines, hlines, ?_⟩
  rw [splitLines, hlines]
  · intro more hc hmore
    exact hreturn hc (by rw [hmore]; rfl)
  · exact hfeed

/-- A line feed at the end of a text keeps its lines apart from those that follow. -/
theorem splitLines_append_lineFeed (front rest : List Char) :
    splitLines (front ++ '\n' :: rest) = splitLines (front ++ ['\n']) ++ splitLines rest := by
  induction front using splitLines.induct with
  | case1 => rfl
  | case2 more ih => exact congrArg ([] :: ·) ih
  | case3 more ih => exact congrArg ([] :: ·) ih
  | case4 c more hreturn hfeed _ ih | case5 c more hreturn hfeed _ _ _ ih =>
    by_cases hlast : more = [] ∧ c = '\r'
    · obtain ⟨rfl, rfl⟩ := hlast
      rfl
    · have hhead (behind : List Char) : c = '\r' → (more ++ '\n' :: behind).head? ≠ some '\n' := by
        intro hc
        cases more with
        | nil => exact absurd ⟨rfl, hc⟩ hlast
        | cons d more =>
          intro hd
          exact hreturn more hc (congrArg (· :: more) (Option.some.inj hd))
      obtain ⟨line, lines, hlines, hfront⟩ := splitLines_cons hfeed (hhead []) (by simp)
      obtain ⟨line', lines', hlines', hall⟩ := splitLines_cons hfeed (hhead rest) (by simp)
      rw [ih, hlines, List.cons_append] at hlines'
      obtain ⟨rfl, rfl⟩ := List.cons.inj hlines'
      rw [List.cons_append, List.cons_append, hfront, hall, List.cons_append]

/-- The lines of two texts behind each other, of which the first ends with a line feed. -/
theorem sourceLines_append {a : String} (h : a.toList.getLast? = some '\n') (b : String) :
    sourceLines (a ++ b) = sourceLines a ++ sourceLines b := by
  obtain ⟨front, hfront⟩ := List.getLast?_eq_some_iff.mp h
  rw [sourceLines, sourceLines, sourceLines, String.toList_append, hfront, List.append_assoc]
  exact splitLines_append_lineFeed front b.toList

/-- A text without line feeds in front of one is the first line, unless it ends with a carriage
return, which then belongs to the line end. -/
theorem exists_splitLines_append {line : List Char} (h : '\n' ∉ line) (rest : List Char) :
    ∃ first, splitLines (line ++ '\n' :: rest) = first :: splitLines rest ∧
      (line = first ∨ line = first ++ ['\r']) := by
  induction line with
  | nil => exact ⟨[], rfl, .inl rfl⟩
  | cons c line ih =>
    rw [List.mem_cons, not_or] at h
    obtain ⟨first, hlines, hfirst⟩ := ih h.2
    by_cases hlast : line = [] ∧ c = '\r'
    · obtain ⟨rfl, rfl⟩ := hlast
      exact ⟨[], rfl, .inr rfl⟩
    · have hreturn : c = '\r' → (line ++ '\n' :: rest).head? ≠ some '\n' := by
        intro hc
        cases line with
        | nil => exact absurd ⟨rfl, hc⟩ hlast
        | cons d line =>
          intro hd
          exact h.2 (Option.some.inj hd ▸ List.mem_cons_self)
      obtain ⟨line', lines, hsplit, hcons⟩ := splitLines_cons (Ne.symm h.1) hreturn (by simp)
      rw [hlines] at hsplit
      obtain ⟨rfl, rfl⟩ := List.cons.inj hsplit
      exact ⟨c :: first, hcons, hfirst.imp (congrArg (c :: ·)) (congrArg (c :: ·))⟩

/-- A text without line ends that is followed by one is a line. -/
theorem splitLines_append {line : List Char} (h : ∀ c ∈ line, c ≠ '\n' ∧ c ≠ '\r')
    (rest : List Char) : splitLines (line ++ '\n' :: rest) = line :: splitLines rest := by
  obtain ⟨first, hlines, rfl | rfl⟩ :=
    exists_splitLines_append (fun hmem => (h '\n' hmem).1 rfl) rest
  · exact hlines
  · exact absurd rfl (h '\r' (by simp)).2

/-- A text without line feeds is one line. -/
theorem splitLines_of_not_mem {line : List Char} (h : '\n' ∉ line) (hne : line ≠ []) :
    splitLines line = [line] := by
  induction line with
  | nil => exact absurd rfl hne
  | cons c line ih =>
    rw [List.mem_cons, not_or] at h
    by_cases hline : line = []
    · subst hline
      rw [splitLines, splitLines]
      · simp
      · exact Ne.symm h.1
    · have hreturn : c = '\r' → line.head? ≠ some '\n' :=
        fun _ hhead => h.2 (List.mem_of_mem_head? hhead)
      obtain ⟨line', lines, hsplit, hcons⟩ := splitLines_cons (Ne.symm h.1) hreturn hline
      rw [ih h.2 hline] at hsplit
      obtain ⟨rfl, rfl⟩ := List.cons.inj hsplit
      exact hcons

/-- A line has no line feed. -/
theorem lineFeed_not_mem_of_mem_splitLines {cs line : List Char} (h : line ∈ splitLines cs) :
    '\n' ∉ line := by
  induction cs using splitLines.induct generalizing line with
  | case1 => cases h
  | case2 rest ih | case3 rest ih =>
    rw [splitLines] at h
    rcases List.mem_cons.mp h with rfl | h
    · exact List.not_mem_nil
    · exact ih h
  | case4 c rest hreturn hfeed hrest ih =>
    rw [splitLines, hrest] at h
    · obtain rfl := List.mem_singleton.mp h
      exact fun hmem => hfeed (List.mem_singleton.mp hmem).symm
    · exact hreturn
    · exact hfeed
  | case5 c rest hreturn hfeed first lines hrest ih =>
    rw [hrest] at ih
    rw [splitLines, hrest] at h
    · rcases List.mem_cons.mp h with rfl | h
      · have hfirst := ih List.mem_cons_self
        exact fun hmem => (List.mem_cons.mp hmem).elim (fun hc => hfeed hc.symm) hfirst
      · exact ih (List.mem_cons_of_mem first h)
    · exact hreturn
    · exact hfeed

/-! ## Joined lines -/

theorem joinLines_cons_cons (line second : List Char) (lines : List (List Char)) :
    joinLines (line :: second :: lines) = line ++ '\n' :: joinLines (second :: lines) :=
  rfl

/-- The line feeds of joined lines are those between them. -/
theorem splitOn_joinLines {lines : List (List Char)} (h : ∀ line ∈ lines, '\n' ∉ line)
    (hne : lines ≠ []) : (joinLines lines).splitOn '\n' = lines := by
  induction lines with
  | nil => exact absurd rfl hne
  | cons line lines ih =>
    obtain ⟨hline, hlines⟩ := List.forall_mem_cons.mp h
    cases lines with
    | nil => exact List.splitOn_eq_singleton hline
    | cons second lines =>
      rw [joinLines_cons_cons, List.splitOn_append_cons_self_of_not_mem hline,
        ih hlines (List.cons_ne_nil _ _)]

theorem joinLines_eq_nil_iff {lines : List (List Char)} (h : ∀ line ∈ lines, line ≠ []) :
    joinLines lines = [] ↔ lines = [] := by
  rcases lines with _ | ⟨line, _ | ⟨second, lines⟩⟩
  · simp [joinLines]
  · simpa [joinLines] using h line List.mem_cons_self
  · simp [joinLines]

/-- Lines that are neither empty nor broken make a text that no other such lines make. -/
theorem joinLines_inj {lines others : List (List Char)}
    (hlines : ∀ line ∈ lines, line ≠ [] ∧ '\n' ∉ line)
    (hothers : ∀ line ∈ others, line ≠ [] ∧ '\n' ∉ line)
    (h : joinLines lines = joinLines others) : lines = others := by
  have hnil : lines = [] ↔ others = [] := by
    rw [← joinLines_eq_nil_iff fun line hline => (hlines line hline).1, h,
      joinLines_eq_nil_iff fun line hline => (hothers line hline).1]
  by_cases hnone : lines = []
  · rw [hnone, hnil.mp hnone]
  · rw [← splitOn_joinLines (fun line hline => (hlines line hline).2) hnone, h,
      splitOn_joinLines (fun line hline => (hothers line hline).2) (mt hnil.mpr hnone)]

end MipsAssembly
