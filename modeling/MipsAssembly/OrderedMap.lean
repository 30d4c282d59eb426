/-!
# Maps in insertion order

An `OrderedMap` gives values to names and remembers in which order the names came.  A value
that is replaced keeps its place.

## Main definitions

- `OrderedMap.get?` — the value of a name.
- `OrderedMap.insert` — give a name a value.
- `OrderedMap.equalBy` — equality without regard to order.
-/

namespace MipsAssembly

/-- Values of names, in the order in which the names came. -/
structure OrderedMap (α : Type) where
  entries : List (String × α)
  nodup : (entries.map Prod.fst).Nodup
  deriving DecidableEq

namespace OrderedMap

variable {α : Type}

def empty : OrderedMap α := ⟨[], List.nodup_nil⟩

instance : Inhabited (OrderedMap α) := ⟨empty⟩

def keys (m : OrderedMap α) : List String :=
  m.entries.map Prod.fst

def size (m : OrderedMap α) : Nat :=
  m.entries.length

def get? (m : OrderedMap α) (key : String) : Option α :=
  m.entries.lookup key

/-- Replace the value of a name in a list, or put the name behind all others. -/
def put (key : String) (value : α) : List (String × α) → List (String × α)
  | [] => [(key, value)]
  | (k, v) :: rest => if k = key then (k, value) :: rest else (k, v) :: put key value rest

theorem map_fst_put (key : String) (value : α) (entries : List (String × α)) :
    (put key value entries).map Prod.fst =
      if key ∈ entries.map Prod.fst then entries.map Prod.fst
      else entries.map Prod.fst ++ [key] := by
  induction entries with
  | nil => rfl
  | cons e rest ih =>
    obtain ⟨k, v⟩ := e
    by_cases h : k = key
    · simp [put, h]
    · have h' : key ≠ k := fun e => h e.symm
      simp only [put, h, if_false, List.map_cons, ih, List.mem_cons, h', false_or]
      split <;> rfl

/-- Give a name a value.  A new name comes last, an old one keeps its place. -/
def insert (m : OrderedMap α) (key : String) (value : α) : OrderedMap α where
  entries := put key value m.entries
  nodup := by
    rw [map_fst_put]
    split
    · exact m.nodup
    · next h =>
      rw [List.nodup_append]
      refine ⟨m.nodup, by simp, ?_⟩
      intro a ha b hb
      rw [List.mem_singleton] at hb
      rintro rfl
      exact h (hb ▸ ha)

theorem keys_insert (m : OrderedMap α) (key : String) (value : α) :
    (m.insert key value).keys = if key ∈ m.keys then m.keys else m.keys ++ [key] :=
  map_fst_put key value m.entries

theorem lookup_put (key : String) (value : α) (entries : List (String × α)) (other : String) :
    (put key value entries).lookup other =
      if other = key then some value else entries.lookup other := by
  induction entries with
  | nil =>
    by_cases h : other = key
    · simp [put, h]
    · have : (other == key) = false := by simpa using h
      simp [put, List.lookup_cons, h, this]
  | cons e rest ih =>
    obtain ⟨k, v⟩ := e
    by_cases h : k = key
    · subst h
      by_cases ho : other = k
      · simp [put, ho]
      · have : (other == k) = false := by simpa using ho
        simp [put, List.lookup_cons, ho, this]
    · by_cases ho : other = k
      · simp [put, h, ho]
      · have hk : (other == k) = false := by simpa using ho
        simp [put, h, List.lookup_cons, hk, ih]

@[simp] theorem get?_insert (m : OrderedMap α) (key other : String) (value : α) :
    (m.insert key value).get? other = if other = key then some value else m.get? other :=
  lookup_put key value m.entries other

/-- The map of some names and values.  Of a name that comes twice the last value counts, at
the first place. -/
def ofList (entries : List (String × α)) : OrderedMap α :=
  entries.foldl (fun m (key, value) => m.insert key value) empty

/-- Equality of maps without regard to order: they have equally many names, and each name of
one has an equal value in the other. -/
def equalBy (same : α → α → Bool) (m n : OrderedMap α) : Bool :=
  m.size = n.size && m.entries.all fun (key, value) => (n.get? key).any (same value)

end OrderedMap

end MipsAssembly
