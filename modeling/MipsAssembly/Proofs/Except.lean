/-!
# Results that are passed on

On the way a result may have its value changed but not its error, or its error but not its
value.  What is known of it behind such a change is led back to what it was in front.

## Main definitions

- `mapBoth` — change a value or an error.
- `exists_of_map_eq_ok` — the value that was changed.
- `eq_error_of_map_eq_error` — an error that was passed on.
- `eq_ok_of_mapError_eq_ok` — a value that was passed on.
- `exists_of_mapError_eq_error` — the error that was changed.
- `map_append_append` — values put in front of values, one after the other.
- `exists_of_bind_eq_ok`, `bind_eq_ok` — the value on the way to a value.
- `exists_of_mem_of_mapM_eq_ok` — where one of many values comes from.
- `exists_mapM_eq_ok_iff` — many values are read if each of them is.
- `exists_of_mapM_append_cons` — one of many values is read.
- `exists_mapM_of_perm`, `foldlM_eq_ok_of_perm` — the order does not matter.
- `mapM_append_cons_eq_error` — the first value that is not read decides.
- `mapM_map_eq_ok` — many values are read back.
- `mapM_map_eq_error` — one of many values is refused.
-/

namespace MipsAssembly

variable {ε α β : Type} {f : α → β} {result : Except ε α}

/-- A result with its error changed, or else its value. -/
def mapBoth {ε' : Type} (onError : ε → ε') (onValue : α → β) (result : Except ε α) :
    Except ε' β :=
  (result.mapError onError).map onValue

theorem exists_of_map_eq_ok {b : β} (h : result.map f = .ok b) : ∃ a, result = .ok a ∧ f a = b := by
  cases result with
  | error e => cases h
  | ok a => exact ⟨a, rfl, Except.ok.inj h⟩

theorem eq_error_of_map_eq_error {e : ε} (h : result.map f = .error e) : result = .error e := by
  cases result with
  | error e' => exact congrArg Except.error (Except.error.inj h)
  | ok a => cases h

theorem eq_ok_of_mapError_eq_ok {wrap : ε → β} {a : α} (h : result.mapError wrap = .ok a) :
    result = .ok a := by
  cases result with
  | error e => cases h
  | ok a' => exact congrArg Except.ok (Except.ok.inj h)

theorem exists_of_mapError_eq_error {wrap : ε → β} {b : β}
    (h : result.mapError wrap = .error b) : ∃ e, result = .error e ∧ wrap e = b := by
  cases result with
  | error e => exact ⟨e, rfl, Except.error.inj h⟩
  | ok a => cases h

theorem map_nil_append (result : Except ε (List α)) : result.map ([] ++ ·) = result := by
  cases result <;> rfl

theorem map_append_append (front behind : List α) (result : Except ε (List α)) :
    (result.map (behind ++ ·)).map (front ++ ·) = result.map (front ++ behind ++ ·) := by
  cases result with
  | error e => rfl
  | ok rest => exact congrArg Except.ok (List.append_assoc front behind rest).symm

theorem exists_of_bind_eq_ok {next : α → Except ε β} {b : β} (h : result >>= next = .ok b) :
    ∃ a, result = .ok a ∧ next a = .ok b := by
  cases result with
  | error e => cases h
  | ok a => exact ⟨a, rfl, h⟩

theorem bind_eq_ok {next : α → Except ε β} {a : α} {b : β} (h : result = .ok a)
    (hnext : next a = .ok b) : (result >>= next) = .ok b := by
  rw [h]
  exact hnext

theorem exists_of_mem_of_mapM_eq_ok {read : α → Except ε β} {as : List α} {bs : List β}
    (h : as.mapM read = .ok bs) : ∀ b ∈ bs, ∃ a ∈ as, read a = .ok b := by
  induction as generalizing bs with
  | nil =>
    cases h
    simp
  | cons a as ih =>
    rw [List.mapM_cons] at h
    obtain ⟨b, ha, h⟩ := exists_of_bind_eq_ok h
    obtain ⟨others, has, h⟩ := exists_of_bind_eq_ok h
    cases h
    intro found hfound
    rcases List.mem_cons.mp hfound with rfl | hfound
    · exact ⟨a, List.mem_cons_self, ha⟩
    · obtain ⟨source, hsource, hread⟩ := ih has found hfound
      exact ⟨source, List.mem_cons_of_mem a hsource, hread⟩

/-- Many values are read exactly if each of them is. -/
theorem exists_mapM_eq_ok_iff {read : α → Except ε β} {as : List α} :
    (∃ bs, as.mapM read = .ok bs) ↔ ∀ a ∈ as, ∃ b, read a = .ok b := by
  induction as with
  | nil => exact ⟨fun _ => by simp, fun _ => ⟨[], rfl⟩⟩
  | cons a as ih =>
    rw [List.forall_mem_cons, ← ih, List.mapM_cons]
    constructor
    · rintro ⟨bs, h⟩
      obtain ⟨b, ha, h⟩ := exists_of_bind_eq_ok h
      obtain ⟨others, has, -⟩ := exists_of_bind_eq_ok h
      exact ⟨⟨b, ha⟩, others, has⟩
    · rintro ⟨⟨b, ha⟩, others, has⟩
      rw [ha, has]
      exact ⟨b :: others, rfl⟩

/-- Many values in front of others are read, and then the others. -/
theorem mapM_append_eq_ok_iff {read : α → Except ε β} {front behind : List α} {bs : List β} :
    (front ++ behind).mapM read = .ok bs ↔
      ∃ cs ds, front.mapM read = .ok cs ∧ behind.mapM read = .ok ds ∧ bs = cs ++ ds := by
  rw [List.mapM_append]
  constructor
  · intro h
    obtain ⟨cs, hcs, h⟩ := exists_of_bind_eq_ok h
    obtain ⟨ds, hds, h⟩ := exists_of_bind_eq_ok h
    exact ⟨cs, ds, hcs, hds, (Except.ok.inj h).symm⟩
  · rintro ⟨cs, ds, hcs, hds, rfl⟩
    rw [hcs, hds]
    rfl

theorem mapM_cons_eq_ok_iff {read : α → Except ε β} {a : α} {as : List α} {bs : List β} :
    (a :: as).mapM read = .ok bs ↔
      ∃ b cs, read a = .ok b ∧ as.mapM read = .ok cs ∧ bs = b :: cs := by
  rw [List.mapM_cons]
  constructor
  · intro h
    obtain ⟨b, hb, h⟩ := exists_of_bind_eq_ok h
    obtain ⟨cs, hcs, h⟩ := exists_of_bind_eq_ok h
    exact ⟨b, cs, hb, hcs, (Except.ok.inj h).symm⟩
  · rintro ⟨b, cs, hb, hcs, rfl⟩
    rw [hb, hcs]
    rfl

theorem length_of_mapM_eq_ok {read : α → Except ε β} {as : List α} {bs : List β}
    (h : as.mapM read = .ok bs) : bs.length = as.length := by
  induction as generalizing bs with
  | nil =>
    cases h
    rfl
  | cons a as ih =>
    obtain ⟨b, cs, -, hcs, rfl⟩ := mapM_cons_eq_ok_iff.mp h
    exact congrArg Nat.succ (ih hcs)

/-- One of many values is read, and another one could be read in its place. -/
theorem exists_of_mapM_append_cons {read : α → Except ε β} {front behind : List α} {a : α}
    {bs : List β} (h : (front ++ a :: behind).mapM read = .ok bs) :
    ∃ b cs ds, read a = .ok b ∧ bs = cs ++ b :: ds ∧ cs.length = front.length ∧
      ∀ {a' b'}, read a' = .ok b' → (front ++ a' :: behind).mapM read = .ok (cs ++ b' :: ds) := by
  obtain ⟨cs, es, hcs, hes, rfl⟩ := mapM_append_eq_ok_iff.mp h
  obtain ⟨b, ds, hb, hds, rfl⟩ := mapM_cons_eq_ok_iff.mp hes
  refine ⟨b, cs, ds, hb, rfl, length_of_mapM_eq_ok hcs, fun {a' b'} hb' => ?_⟩
  exact mapM_append_eq_ok_iff.mpr ⟨cs, b' :: ds, hcs,
    mapM_cons_eq_ok_iff.mpr ⟨b', ds, hb', hds, rfl⟩, rfl⟩

/-- What each of many values is read as. -/
theorem exists_mem_of_mapM_eq_ok {read : α → Except ε β} {as : List α} {bs : List β}
    (h : as.mapM read = .ok bs) {a : α} (ha : a ∈ as) : ∃ b ∈ bs, read a = .ok b := by
  obtain ⟨front, behind, rfl⟩ := List.append_of_mem ha
  obtain ⟨b, cs, ds, hb, rfl, -, -⟩ := exists_of_mapM_append_cons h
  exact ⟨b, by simp, hb⟩

/-- Many values are read in any order. -/
theorem exists_mapM_of_perm {read : α → Except ε β} {as as' : List α} (h : as.Perm as')
    {bs : List β} (hread : as.mapM read = .ok bs) :
    ∃ bs', as'.mapM read = .ok bs' ∧ bs.Perm bs' := by
  induction h generalizing bs with
  | nil => exact ⟨bs, hread, .refl bs⟩
  | cons a _ ih =>
    obtain ⟨b, cs, hb, hcs, rfl⟩ := mapM_cons_eq_ok_iff.mp hread
    obtain ⟨cs', hcs', hperm⟩ := ih hcs
    exact ⟨b :: cs', mapM_cons_eq_ok_iff.mpr ⟨b, cs', hb, hcs', rfl⟩, hperm.cons b⟩
  | swap a a' as =>
    obtain ⟨b', bs, hb', hbs, rfl⟩ := mapM_cons_eq_ok_iff.mp hread
    obtain ⟨b, cs, hb, hcs, rfl⟩ := mapM_cons_eq_ok_iff.mp hbs
    have hfront := mapM_cons_eq_ok_iff.mpr ⟨b', cs, hb', hcs, rfl⟩
    exact ⟨b :: b' :: cs, mapM_cons_eq_ok_iff.mpr ⟨b, b' :: cs, hb, hfront, rfl⟩, .swap b b' cs⟩
  | trans _ _ ih ih' =>
    obtain ⟨bs', hbs', hperm⟩ := ih hread
    obtain ⟨bs'', hbs'', hperm'⟩ := ih' hbs'
    exact ⟨bs'', hbs'', hperm.trans hperm'⟩

/-- Steps that can be swapped lead to the same result in any order. -/
theorem foldlM_eq_ok_of_perm {step : β → α → Except ε β}
    (hswap : ∀ {s t u a b}, step s a = .ok t → step t b = .ok u →
      ∃ t', step s b = .ok t' ∧ step t' a = .ok u)
    {as as' : List α} (h : as.Perm as') {s t : β} (hread : as.foldlM step s = .ok t) :
    as'.foldlM step s = .ok t := by
  induction h generalizing s with
  | nil => exact hread
  | cons a _ ih =>
    rw [List.foldlM_cons] at hread ⊢
    obtain ⟨u, hu, hread⟩ := exists_of_bind_eq_ok hread
    rw [hu]
    exact ih hread
  | swap a b as =>
    rw [List.foldlM_cons] at hread ⊢
    obtain ⟨u, hu, hread⟩ := exists_of_bind_eq_ok hread
    rw [List.foldlM_cons] at hread
    obtain ⟨w, hw, hread⟩ := exists_of_bind_eq_ok hread
    obtain ⟨u', hu', hw'⟩ := hswap hu hw
    rw [hu']
    show (b :: as).foldlM step u' = .ok t
    rw [List.foldlM_cons, hw']
    exact hread
  | trans _ _ ih ih' => exact ih' (ih hread)

/-- The first of many values that is not read decides. -/
theorem mapM_append_cons_eq_error {read : α → Except ε β} {front behind : List α} {a : α} {e : ε}
    (hfront : ∀ a ∈ front, ∃ b, read a = .ok b) (h : read a = .error e) :
    (front ++ a :: behind).mapM read = .error e := by
  obtain ⟨bs, hbs⟩ := exists_mapM_eq_ok_iff.mpr hfront
  rw [List.mapM_append, hbs, List.mapM_cons, h]
  rfl

/-- Everything is read back if each of many values is. -/
theorem mapM_map_eq_ok {γ : Type} {write : α → β} {read : β → Except ε γ} {g : α → γ}
    {as : List α} (h : ∀ a ∈ as, read (write a) = .ok (g a)) :
    (as.map write).mapM read = .ok (as.map g) := by
  induction as with
  | nil => rfl
  | cons a as ih =>
    obtain ⟨ha, has⟩ := List.forall_mem_cons.mp h
    rw [List.map_cons, List.mapM_cons, ha, ih has]
    rfl

/-- Where each of many values is read back or refused, and one of them is refused, all are. -/
theorem mapM_map_eq_error {γ : Type} {write : α → β} {read : β → Except ε γ} {g : α → γ} {e : ε}
    {as : List α} (h : ∀ a ∈ as, read (write a) = .ok (g a) ∨ read (write a) = .error e)
    (hrefused : ∃ a ∈ as, read (write a) = .error e) : (as.map write).mapM read = .error e := by
  induction as with
  | nil => simp at hrefused
  | cons a as ih =>
    obtain ⟨ha, has⟩ := List.forall_mem_cons.mp h
    rw [List.map_cons, List.mapM_cons]
    rcases ha with ha | ha
    -- The first value is read back, so another one is refused.
    · have hrest : ∃ a ∈ as, read (write a) = .error e := by
        obtain ⟨refused, hmem, hread⟩ := hrefused
        rcases List.mem_cons.mp hmem with rfl | hmem
        · rw [ha] at hread
          cases hread
        · exact ⟨refused, hmem, hread⟩
      rw [ha, ih has hrest]
      rfl
    · rw [ha]
      rfl

end MipsAssembly
