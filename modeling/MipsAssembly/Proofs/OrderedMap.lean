import MipsAssembly.OrderedMap

/-!
# Names and values of ordered maps

A map is the list of its entries, and no name comes twice in it.  So a name that is new is put
behind the others, and an entry of the list is what its name has for a value.

## Main definitions

- `OrderedMap.mem_keys_insert` — the names after one is given a value.
- `OrderedMap.get?_of_mem`, `OrderedMap.mem_of_get?` — values are those of the entries.
- `OrderedMap.put_append` — a new name is put behind the others.
- `OrderedMap.entries_ofList` — the entries of a map of names that all differ.
- `OrderedMap.map_fst_filter` — the names whose values are wanted.
-/

namespace MipsAssembly

namespace OrderedMap

variable {α : Type} {key : String}

@[ext] theorem ext {m n : OrderedMap α} (h : m.entries = n.entries) : m = n := by
  cases m
  cases n
  cases h
  rfl

theorem put_put (key : String) (value value' : α) (entries : List (String × α)) :
    put key value' (put key value entries) = put key value' entries := by
  induction entries with
  | nil => simp [put]
  | cons e rest ih =>
    obtain ⟨k, v⟩ := e
    by_cases h : k = key
    · simp [put, h]
    · simp [put, h, ih]

/-- Only the last value that a name is given counts. -/
@[simp] theorem insert_insert (m : OrderedMap α) (key : String) (value value' : α) :
    (m.insert key value).insert key value' = m.insert key value' :=
  ext (put_put key value value' m.entries)

/-- A name that is given the value that it has keeps everything as it is. -/
theorem put_of_lookup {value : α} {entries : List (String × α)}
    (h : entries.lookup key = some value) : put key value entries = entries := by
  induction entries with
  | nil => cases h
  | cons e rest ih =>
    obtain ⟨k, v⟩ := e
    rw [put]
    split
    · next hk =>
      subst hk
      rw [List.lookup_cons_self] at h
      rw [Option.some.inj h]
    · next hk =>
      have hne : (key == k) = false := beq_eq_false_iff_ne.mpr (Ne.symm hk)
      rw [List.lookup_cons, hne] at h
      rw [ih h]

theorem insert_of_get? {m : OrderedMap α} {value : α} (h : m.get? key = some value) :
    m.insert key value = m :=
  ext (put_of_lookup h)

theorem mem_keys_insert {m : OrderedMap α} {name : String} {value : α} :
    name ∈ (m.insert key value).keys ↔ name = key ∨ name ∈ m.keys := by
  rw [keys_insert]
  split
  · next hkey =>
    constructor
    · exact .inr
    · rintro (rfl | h)
      · exact hkey
      · exact h
  · rw [List.mem_append, List.mem_singleton, or_comm]

theorem lookup_cons (name key : String) (value : α) (entries : List (String × α)) :
    ((key, value) :: entries).lookup name =
      if name = key then some value else entries.lookup name := by
  by_cases h : name = key
  · simp [h]
  · have hne : (name == key) = false := beq_eq_false_iff_ne.mpr h
    simp [List.lookup_cons, h, hne]

theorem lookup_eq_none_iff {κ : Type} [BEq κ] [LawfulBEq κ] {entries : List (κ × α)} {name : κ} :
    entries.lookup name = none ↔ name ∉ entries.map Prod.fst := by
  rw [List.lookup_eq_none_iff]
  constructor
  · intro h hmem
    obtain ⟨e, he, rfl⟩ := List.mem_map.mp hmem
    simpa using h e he
  · intro h e he
    have hne : name ≠ e.1 := fun hname => h (hname ▸ List.mem_map_of_mem he)
    simpa using hne

theorem put_append {front : List (String × α)} (h : key ∉ front.map Prod.fst) (value : α)
    (rest : List (String × α)) : put key value (front ++ rest) = front ++ put key value rest := by
  induction front with
  | nil => rfl
  | cons e front ih =>
    obtain ⟨k, v⟩ := e
    rw [List.map_cons, List.mem_cons, not_or] at h
    rw [List.cons_append, put, if_neg (Ne.symm h.1), ih h.2]
    rfl

/-- A new name is put behind all others. -/
theorem put_of_not_mem {entries : List (String × α)} (h : key ∉ entries.map Prod.fst)
    (value : α) : put key value entries = entries ++ [(key, value)] := by
  have hput := put_append h value []
  rwa [List.append_nil] at hput

/-- Where all keys differ, the value of each entry is the one of its key. -/
theorem lookup_of_mem {κ : Type} [BEq κ] [LawfulBEq κ] {key : κ} {entries : List (κ × α)}
    {value : α} (hnodup : (entries.map Prod.fst).Nodup) (h : (key, value) ∈ entries) :
    entries.lookup key = some value := by
  obtain ⟨before, after, rfl⟩ := List.append_of_mem h
  rw [List.map_append, List.nodup_append] at hnodup
  have hbefore : before.lookup key = none := by
    rw [lookup_eq_none_iff]
    exact fun hmem => hnodup.2.2 key hmem key List.mem_cons_self rfl
  rw [List.lookup_append, hbefore, List.lookup_cons_self]
  rfl

theorem mem_of_lookup {κ : Type} [BEq κ] [LawfulBEq κ] {key : κ} {entries : List (κ × α)}
    {value : α} (h : entries.lookup key = some value) : (key, value) ∈ entries := by
  obtain ⟨before, after, rfl, -⟩ := List.lookup_eq_some_iff.mp h
  exact List.mem_append_right before List.mem_cons_self

/-- A value of a map is the one of its name. -/
theorem get?_of_mem {m : OrderedMap α} {value : α} (h : (key, value) ∈ m.entries) :
    m.get? key = some value :=
  lookup_of_mem m.nodup h

theorem mem_of_get? {m : OrderedMap α} {value : α} (h : m.get? key = some value) :
    (key, value) ∈ m.entries :=
  mem_of_lookup h

theorem mem_put {entries : List (String × α)} {value : α} {e : String × α}
    (h : e ∈ put key value entries) : e = (key, value) ∨ e ∈ entries := by
  induction entries with
  | nil => exact .inl (List.mem_singleton.mp h)
  | cons first rest ih =>
    obtain ⟨k, v⟩ := first
    rw [put] at h
    split at h
    · next hk =>
      rcases List.mem_cons.mp h with rfl | hrest
      · exact .inl (congrArg (·, value) hk)
      · exact .inr (List.mem_cons_of_mem _ hrest)
    · rcases List.mem_cons.mp h with rfl | hrest
      · exact .inr List.mem_cons_self
      · exact (ih hrest).imp_right (List.mem_cons_of_mem _)

/-- Names that all differ are put one behind the other. -/
theorem entries_foldl_insert {entries : List (String × α)} {m : OrderedMap α}
    (h : ((m.entries ++ entries).map Prod.fst).Nodup) :
    (entries.foldl (fun m (key, value) => m.insert key value) m).entries =
      m.entries ++ entries := by
  induction entries generalizing m with
  | nil => rw [List.append_nil]; rfl
  | cons e rest ih =>
    obtain ⟨key, value⟩ := e
    have hnew : key ∉ m.entries.map Prod.fst := by
      rw [List.map_append, List.nodup_append] at h
      exact fun hmem => h.2.2 key hmem key List.mem_cons_self rfl
    have hinsert : (m.insert key value).entries = m.entries ++ [(key, value)] :=
      put_of_not_mem hnew value
    rw [List.append_cons, ← hinsert] at h ⊢
    exact ih h

/-- A list of names that all differ is the list of the entries of its map. -/
theorem entries_ofList {entries : List (String × α)} (h : (entries.map Prod.fst).Nodup) :
    (ofList entries).entries = entries := by
  have hempty : (empty : OrderedMap α).entries = [] := rfl
  have hfold : (ofList entries).entries = (empty : OrderedMap α).entries ++ entries :=
    entries_foldl_insert h
  rwa [hempty, List.nil_append] at hfold

/-- The names of the entries whose values are wanted. -/
theorem map_fst_filter (m : OrderedMap α) (wanted : α → Bool) :
    (m.entries.filter fun entry => wanted entry.2).map Prod.fst =
      m.keys.filter fun key => (m.get? key).any wanted := by
  rw [keys, List.filter_map]
  refine congrArg _ (List.filter_congr fun entry hentry => ?_)
  rw [Function.comp_apply, get?_of_mem hentry, Option.any_some]

theorem lookup_map {β : Type} (entries : List (String × α)) (f : α → β) (name : String) :
    (entries.map fun (key, value) => (key, f value)).lookup name =
      (entries.lookup name).map f := by
  induction entries with
  | nil => rfl
  | cons entry entries ih =>
    obtain ⟨key, value⟩ := entry
    rw [List.map_cons, lookup_cons, lookup_cons, ih]
    split <;> rfl

end OrderedMap

end MipsAssembly
