/-
  Tables: finite maps from names to values that remember the order in which their names
  first came. Main statements: `get?_insert` (the last value under a name counts) and
  `keys_insert` (a name keeps its first place).
-/

namespace Ambient

/-- A table with distinct names, oldest first. -/
structure Table (α : Type) where
  entries : List (String × α)
  keys_nodup : (entries.map (·.1)).Nodup

namespace Table

variable {α β : Type}

/-- The table without entries. -/
def empty : Table α := ⟨[], List.nodup_nil⟩

instance : Inhabited (Table α) := ⟨empty⟩

/-- The names, oldest first. -/
def keys (t : Table α) : List String := t.entries.map (·.1)

/-- The values, oldest name first. -/
def values (t : Table α) : List α := t.entries.map (·.2)

/-- The value under a name. -/
def get? (t : Table α) (key : String) : Option α := t.entries.lookup key

/-- Whether the table has an entry of this name. -/
def contains (t : Table α) (key : String) : Bool := (t.get? key).isSome

/-- The number of entries. -/
def size (t : Table α) : Nat := t.entries.length

/-! ## Lists of entries -/

/-- Entries with the value under a name replaced, or with a new entry at the end. -/
def insertEntry (key : String) (value : α) : List (String × α) → List (String × α)
  | [] => [(key, value)]
  | (k, v) :: rest =>
    if k = key then (k, value) :: rest else (k, v) :: insertEntry key value rest

theorem map_fst_insertEntry (key : String) (value : α) (es : List (String × α)) :
    (insertEntry key value es).map (·.1) =
      if key ∈ es.map (·.1) then es.map (·.1) else es.map (·.1) ++ [key] := by
  induction es with
  | nil => simp [insertEntry]
  | cons e es ih =>
    obtain ⟨k, v⟩ := e
    by_cases h : k = key
    · simp [insertEntry, h]
    · have hk : ¬ key = k := fun e => h e.symm
      rw [insertEntry, if_neg h, List.map_cons, ih]
      simp only [List.map_cons, List.mem_cons, hk, false_or]
      split <;> simp

theorem lookup_cons (k k' : String) (v : α) (es : List (String × α)) :
    ((k', v) :: es).lookup k = if k = k' then some v else es.lookup k := by
  rw [List.lookup_cons]
  by_cases h : k = k'
  · rw [if_pos h, beq_iff_eq.mpr h]
  · rw [if_neg h, beq_eq_false_iff_ne.mpr h]

theorem lookup_insertEntry (key k : String) (value : α) (es : List (String × α)) :
    (insertEntry key value es).lookup k = if k = key then some value else es.lookup k := by
  induction es with
  | nil => rw [insertEntry, lookup_cons]
  | cons e es ih =>
    obtain ⟨k', v⟩ := e
    by_cases h : k' = key
    · rw [insertEntry, if_pos h, lookup_cons, lookup_cons, h]
      split <;> rfl
    · rw [insertEntry, if_neg h, lookup_cons, lookup_cons, ih]
      by_cases hk : k = k'
      · subst hk; simp [h]
      · simp [hk]

theorem nodup_insertEntry (key : String) (value : α) {es : List (String × α)}
    (h : (es.map (·.1)).Nodup) : ((insertEntry key value es).map (·.1)).Nodup := by
  rw [map_fst_insertEntry]
  split
  · exact h
  · next hk =>
    refine List.nodup_append.mpr ⟨h, by simp, fun a ha b hb => ?_⟩
    rw [List.mem_singleton] at hb
    rintro rfl
    exact hk (hb ▸ ha)

/-! ## Building tables -/

/-- The table with one more write: a known name keeps its place and takes the new value, a
new one goes to the end. -/
def insert (t : Table α) (key : String) (value : α) : Table α :=
  ⟨insertEntry key value t.entries, nodup_insertEntry key value t.keys_nodup⟩

/-- The table that a list of writes leaves behind. -/
def ofList (es : List (String × α)) : Table α := es.foldl (fun t e => t.insert e.1 e.2) empty

/-- The table with every value changed. -/
def map (f : α → β) (t : Table α) : Table β :=
  ⟨t.entries.map (fun e => (e.1, f e.2)), by
    rw [List.map_map]
    exact t.keys_nodup⟩

@[simp] theorem get?_empty (k : String) : (empty : Table α).get? k = none := rfl

@[simp] theorem keys_empty : (empty : Table α).keys = [] := rfl

/-- The last value written under a name is the one found there. -/
theorem get?_insert (t : Table α) (key k : String) (value : α) :
    (t.insert key value).get? k = if k = key then some value else t.get? k :=
  lookup_insertEntry key k value t.entries

/-- A name keeps the place of its first write. -/
theorem keys_insert (t : Table α) (key : String) (value : α) :
    (t.insert key value).keys = if key ∈ t.keys then t.keys else t.keys ++ [key] :=
  map_fst_insertEntry key value t.entries

theorem isSome_lookup_iff {es : List (String × α)} {k : String} :
    (es.lookup k).isSome = true ↔ k ∈ es.map (·.1) := by
  induction es with
  | nil => simp
  | cons e es ih =>
    obtain ⟨k', v⟩ := e
    rw [lookup_cons, List.map_cons, List.mem_cons, ← ih]
    by_cases h : k = k' <;> simp [h]

/-- A name is in the table just when it is one of its keys. -/
theorem contains_iff {t : Table α} {k : String} : t.contains k = true ↔ k ∈ t.keys :=
  isSome_lookup_iff

theorem mem_keys_of_get?_eq_some {t : Table α} {k : String} {v : α} (h : t.get? k = some v) :
    k ∈ t.keys := contains_iff.mp (by simp [contains, h])

theorem get?_eq_none_iff {t : Table α} {k : String} : t.get? k = none ↔ k ∉ t.keys := by
  rw [← contains_iff, contains]
  cases t.get? k <;> simp

theorem lookup_eq_some_iff {es : List (String × α)} (h : (es.map (·.1)).Nodup) {k : String}
    {v : α} : es.lookup k = some v ↔ (k, v) ∈ es := by
  induction es with
  | nil => simp
  | cons e es ih =>
    obtain ⟨k', v'⟩ := e
    rw [List.map_cons, List.nodup_cons] at h
    rw [lookup_cons, List.mem_cons, Prod.mk.injEq]
    by_cases hk : k = k'
    · subst hk
      have : (k, v) ∉ es := fun hm => h.1 (List.mem_map.mpr ⟨_, hm, rfl⟩)
      simp [this, eq_comm]
    · simp [hk, ih h.2]

/-- A value is found under a name just when the two are an entry. -/
theorem get?_eq_some_iff {t : Table α} {k : String} {v : α} :
    t.get? k = some v ↔ (k, v) ∈ t.entries := lookup_eq_some_iff t.keys_nodup

/-- The values of a table are those found in it. -/
theorem mem_values_iff {t : Table α} {v : α} : v ∈ t.values ↔ ∃ k, t.get? k = some v := by
  simp [values, get?_eq_some_iff]

theorem contains_of_mem_entries {t : Table α} {e : String × α} (h : e ∈ t.entries) :
    t.contains e.1 = true := contains_iff.mpr (List.mem_map_of_mem h)

/-! ## Changing every value -/

theorem lookup_map (f : α → β) (k : String) (es : List (String × α)) :
    (es.map fun e => (e.1, f e.2)).lookup k = (es.lookup k).map f := by
  induction es with
  | nil => rfl
  | cons e es ih =>
    obtain ⟨k', v⟩ := e
    rw [List.map_cons, lookup_cons, lookup_cons, ih]
    split <;> rfl

theorem insertEntry_map (f : α → β) (key : String) (value : α) (es : List (String × α)) :
    insertEntry key (f value) (es.map fun e => (e.1, f e.2)) =
      (insertEntry key value es).map fun e => (e.1, f e.2) := by
  induction es with
  | nil => rfl
  | cons e es ih =>
    obtain ⟨k, v⟩ := e
    rw [List.map_cons, insertEntry, insertEntry, ih]
    split <;> rfl

@[simp] theorem get?_map (f : α → β) (t : Table α) (k : String) :
    (t.map f).get? k = (t.get? k).map f := lookup_map f k t.entries

@[simp] theorem contains_map (f : α → β) (t : Table α) (k : String) :
    (t.map f).contains k = t.contains k := by
  rw [contains, contains, get?_map, Option.isSome_map]

@[simp] theorem values_map (f : α → β) (t : Table α) : (t.map f).values = t.values.map f := by
  rw [values, values, map, List.map_map, List.map_map]
  rfl

@[simp] theorem map_id (t : Table α) : t.map id = t := by
  unfold map
  simp

theorem insert_map (f : α → β) (t : Table α) (key : String) (value : α) :
    (t.map f).insert key (f value) = (t.insert key value).map f := by
  unfold insert map
  simp only [insertEntry_map]

end Table

end Ambient
