/-
  Spellings: ways to write a value that a reader does not tell apart. A respelling changes a
  value as it is written: an object has its fields moved, respelled, left out or written out, and
  keys that name no field come and go. Main statement: `ignores_record` (a record is read alike
  if each of its fields is).
-/
import Ambient.Json.Shape
import Mathlib.Data.List.Nodup

namespace Ambient.Json

/-- A change of a value as it is written, with so many containers left to open. -/
abbrev Respelling := Nat → Raw → Raw → Prop

/-- A change of the value of a field, which may be left out. -/
abbrev FieldRespelling := Nat → Option Raw → Option Raw → Prop

variable {α : Type}

/-- Whether a reader reads a value alike before and after every change of a kind. -/
def Reader.Ignores (r : Reader α) (R : Respelling) : Prop :=
  ∀ depth v w, R depth v w → r depth v = r depth w

/-- What is read for a field that may be left out. -/
def Reader.field (r : Reader α) (absent : α) (depth : Nat) : Option Raw → Option α
  | some v => r depth v
  | none => some absent

/-- Whether a reader reads a field alike before and after every change of a kind. -/
def Reader.IgnoresField (r : Reader α) (absent : α) (R : FieldRespelling) : Prop :=
  ∀ depth o p, R depth o p → r.field absent depth o = r.field absent depth p

/-! ## Kinds of changes -/

/-- No change of a value. -/
def Nothing : Respelling := fun _ _ _ => False

/-- No change of a field. -/
def Fixed : FieldRespelling := fun _ _ _ => False

/-- The value of a field is respelled. -/
inductive Within (R : Respelling) : FieldRespelling
  | value {depth : Nat} {v w : Raw} (change : R depth v w) : Within R depth (some v) (some w)

/-- The value of a field is respelled, or a field that is left out is written as null. -/
inductive OrNull (R : Respelling) : FieldRespelling
  | null {depth : Nat} : OrNull R depth none (some .null)
  | value {depth : Nat} {v w : Raw} (change : R depth v w) : OrNull R depth (some v) (some w)

/-- A single name is written as a list of it, and no names as null or as an empty list. -/
inductive Names : FieldRespelling
  | single {depth : Nat} (s : Literal) :
    Names (depth + 1) (some (.string s)) (some (.list [.string s]))
  | null {depth : Nat} : Names depth none (some .null)
  | nil {depth : Nat} : Names (depth + 1) none (some (.list []))

/-- An item of a list is respelled. -/
inductive ItemRespelling (R : Respelling) : Respelling
  | item {depth : Nat} {v w : Raw} (before after : List Raw) (change : R depth v w) :
    ItemRespelling R (depth + 1) (.list (before ++ v :: after)) (.list (before ++ w :: after))

/-- The value of an entry of a table is respelled. -/
inductive EntryRespelling (R : Respelling) : Respelling
  | entry {depth : Nat} {v w : Raw} (before after : List (Literal × Raw)) (key : Literal)
    (change : R depth v w) :
    EntryRespelling R (depth + 1) (.object (before ++ (key, v) :: after))
      (.object (before ++ (key, w) :: after))

/-- An object with the given fields is respelled: its members are permuted, a member that is no
field is added, a field that was left out is added, or the value of a field is respelled. `loose`
tells which values a member that is no field may have. -/
inductive ObjectRespelling (fields : List (String × FieldRespelling)) (loose : Nat → Raw → Prop) :
    Respelling
  | permuted {depth : Nat} {ms ns : List (Literal × Raw)} (perm : ms.Perm ns) :
    ObjectRespelling fields loose depth (.object ms) (.object ns)
  | unknown {depth : Nat} {key : Literal} {name : String} {v : Raw} (ms : List (Literal × Raw))
    (text : key.text? = some name) (other : name ∉ fields.map (·.1)) (allowed : loose depth v) :
    ObjectRespelling fields loose depth (.object ms) (.object ((key, v) :: ms))
  | added {depth : Nat} {key : Literal} {name : String} {R : FieldRespelling} {v : Raw}
    {ms : List (Literal × Raw)} (field : (name, R) ∈ fields) (text : key.text? = some name)
    (absent : ∀ m ∈ ms, m.1.text? ≠ some name) (change : R depth none (some v)) :
    ObjectRespelling fields loose depth (.object ms) (.object ((key, v) :: ms))
  | rewritten {depth : Nat} {key : Literal} {name : String} {R : FieldRespelling} {v w : Raw}
    (before after : List (Literal × Raw)) (field : (name, R) ∈ fields)
    (text : key.text? = some name) (change : R depth (some v) (some w)) :
    ObjectRespelling fields loose depth (.object (before ++ (key, v) :: after))
      (.object (before ++ (key, w) :: after))

/-- A record with the given fields is respelled: as an object, or in one item of the list of its
fields. -/
inductive RecordRespelling (fields : List (String × FieldRespelling)) : Respelling
  | object {depth : Nat} {v w : Raw}
    (change : ObjectRespelling fields (fun _ _ => True) depth v w) :
    RecordRespelling fields (depth + 1) v w
  | item {depth : Nat} {name : String} {R : FieldRespelling} {v w : Raw}
    {first rest : List (String × FieldRespelling)} {before : List Raw} (after : List Raw)
    (field : fields = first ++ (name, R) :: rest) (place : first.length = before.length)
    (change : R depth (some v) (some w)) :
    RecordRespelling fields (depth + 1) (.list (before ++ v :: after))
      (.list (before ++ w :: after))

theorem ObjectRespelling.ne_null {fields : List (String × FieldRespelling)}
    {loose : Nat → Raw → Prop} {depth : Nat} {v w : Raw}
    (change : ObjectRespelling fields loose depth v w) : v ≠ .null ∧ w ≠ .null := by
  cases change <;> exact ⟨nofun, nofun⟩

theorem RecordRespelling.ne_null {fields : List (String × FieldRespelling)} {depth : Nat}
    {v w : Raw} (change : RecordRespelling fields depth v w) : v ≠ .null ∧ w ≠ .null := by
  cases change with
  | object change => exact change.ne_null
  | item => exact ⟨nofun, nofun⟩

theorem EntryRespelling.ne_null {R : Respelling} {depth : Nat} {v w : Raw}
    (change : EntryRespelling R depth v w) : v ≠ .null ∧ w ≠ .null := by
  cases change
  exact ⟨nofun, nofun⟩

/-! ## Fields of objects -/

/-- The value of a name among the members of an object. -/
def fieldAt (ms : List (Literal × Raw)) : Fields := fun name =>
  (ms.find? fun m => m.1.text? == some name).map (·.2)

theorem fields?_object (names : List String) (ms : List (Literal × Raw)) :
    fields? names (.object ms) =
      if areFieldKeys names (ms.map (·.1)) then some (fieldAt ms) else none := rfl

section Members

variable {names : List String} {key : Literal} {name n : String} {v : Raw}
  {ms ns : List (Literal × Raw)}

theorem areFieldKeys_eq_of_perm {ks ks' : List Literal} (perm : ks.Perm ks') :
    areFieldKeys names ks = areFieldKeys names ks' := by
  have same_length : ∀ name, (ks.filter fun k => k.text? == some name).length =
      (ks'.filter fun k => k.text? == some name).length := fun _ => (perm.filter _).length_eq
  simp only [areFieldKeys, perm.all_eq, same_length]

theorem length_filter_of_areFieldKeys {ks : List Literal} (ok : areFieldKeys names ks = true)
    (listed : name ∈ names) : (ks.filter fun k => k.text? == some name).length ≤ 1 := by
  rw [areFieldKeys, Bool.and_eq_true, List.all_eq_true, List.all_eq_true] at ok
  exact of_decide_eq_true (ok.2 name listed)

/-- A field that comes at most once has its value wherever it stands. -/
theorem fieldAt_eq_of_perm (perm : ms.Perm ns) (ok : areFieldKeys names (ms.map (·.1)) = true)
    (listed : name ∈ names) : fieldAt ms name = fieldAt ns name := by
  have single := length_filter_of_areFieldKeys ok listed
  rw [List.filter_map, List.length_map] at single
  -- there is at most one such member, so there is only one order of them
  have perm' := perm.filter fun m => m.1.text? == some name
  have same : (ms.filter fun m => m.1.text? == some name) =
      ns.filter fun m => m.1.text? == some name := by
    cases found : ms.filter fun m => m.1.text? == some name with
    | nil => exact (List.nil_perm.mp (found ▸ perm')).symm
    | cons m more =>
      have none_more : more = [] := by
        rw [Function.comp_def, found, List.length_cons] at single
        exact List.length_eq_zero_iff.mp (by omega)
      subst none_more
      exact (List.perm_singleton.mp (found ▸ perm').symm).symm
  rw [fieldAt, fieldAt, ← List.head?_filter, ← List.head?_filter, same]

theorem fieldAt_eq_none (absent : ∀ m ∈ ms, m.1.text? ≠ some name) : fieldAt ms name = none := by
  rw [fieldAt, Option.map_eq_none_iff, List.find?_eq_none]
  intro m hm
  simpa using absent m hm

theorem fieldAt_cons_self (text : key.text? = some name) :
    fieldAt ((key, v) :: ms) name = some v := by
  simp [fieldAt, text]

theorem fieldAt_cons_of_ne (text : key.text? = some name) (other : n ≠ name) :
    fieldAt ((key, v) :: ms) n = fieldAt ms n := by
  have skipped : (key.text? == some n) = false := by simpa [text] using Ne.symm other
  rw [fieldAt, List.find?_cons, skipped]
  rfl

theorem fieldAt_append (ms ns : List (Literal × Raw)) (name : String) :
    fieldAt (ms ++ ns) name = (fieldAt ms name).or (fieldAt ns name) := by
  rw [fieldAt, List.find?_append, Option.map_or]
  rfl

/-- A key that is a text may be added, unless it repeats a field. -/
theorem areFieldKeys_cons {keys : List Literal} (text : key.text? = some name)
    (fresh : name ∈ names → ∀ k ∈ keys, k.text? ≠ some name) :
    areFieldKeys names (key :: keys) = areFieldKeys names keys := by
  have counts : ∀ n ∈ names,
      decide (((key :: keys).filter fun k => k.text? == some n).length ≤ 1) =
        decide ((keys.filter fun k => k.text? == some n).length ≤ 1) := by
    intro n listed
    by_cases same : name = n
    · subst same
      have none_else : (keys.filter fun k => k.text? == some name) = [] := by
        rw [List.filter_eq_nil_iff]
        intro k hk
        simpa using fresh listed k hk
      simp [text, none_else]
    · simp [text, same]
  rw [areFieldKeys, areFieldKeys, List.all_cons, text, Option.isSome_some, Bool.true_and]
  congr 1
  rw [Bool.eq_iff_iff, List.all_eq_true, List.all_eq_true]
  exact forall₂_congr fun n listed => by rw [counts n listed]

end Members

/-! ## Records that are read alike -/

variable {fields : List (String × FieldRespelling)} {depth : Nat}

/-- Whether fields differ at most by a change that each of them allows. -/
def Fields.Alike (fields : List (String × FieldRespelling)) (depth : Nat) (f g : Fields) : Prop :=
  ∀ name R, (name, R) ∈ fields → f name = g name ∨ R depth (f name) (g name)

theorem Fields.Alike.fixed {f g : Fields} (h : f.Alike fields depth g) {name : String}
    (field : (name, Fixed) ∈ fields) : f name = g name :=
  (h name Fixed field).resolve_right id

theorem Fields.Alike.get {f g : Fields} (h : f.Alike fields depth g) {name : String}
    {R : FieldRespelling} (field : (name, R) ∈ fields) {r : Reader α} {absent : α}
    (ignored : r.IgnoresField absent R) :
    f.get depth name r absent = g.get depth name r absent := by
  have get_eq : ∀ f : Fields, f.get depth name r absent = r.field absent depth (f name) := by
    intro f
    rw [Fields.get]
    cases f name <;> rfl
  rw [get_eq, get_eq]
  rcases h name R field with same | change
  · rw [same]
  · exact ignored depth _ _ change

theorem rel_fields? {names : List String} {ms ns : List (Literal × Raw)}
    (keys : areFieldKeys names (ms.map (·.1)) = areFieldKeys names (ns.map (·.1)))
    (alike : areFieldKeys names (ms.map (·.1)) = true →
      (fieldAt ms).Alike fields depth (fieldAt ns)) :
    Option.Rel (Fields.Alike fields depth) (fields? names (.object ms))
      (fields? names (.object ns)) := by
  rw [fields?_object, fields?_object, ← keys]
  split
  · next ok => exact .some (alike ok)
  · exact .none

theorem eq_of_mem_fields (distinct : (fields.map (·.1)).Nodup) {name : String}
    {R R' : FieldRespelling} (h : (name, R) ∈ fields) (h' : (name, R') ∈ fields) : R = R' :=
  congrArg Prod.snd (List.inj_on_of_nodup_map distinct h h' rfl)

/-- Fields that differ in one field only are alike if that one allows the change. -/
theorem Fields.Alike.of_single {f g : Fields} (distinct : (fields.map (·.1)).Nodup) {name : String}
    {R : FieldRespelling} (field : (name, R) ∈ fields)
    (here : f name = g name ∨ R depth (f name) (g name))
    (elsewhere : ∀ n, n ≠ name → f n = g n) : f.Alike fields depth g := by
  intro n R' field'
  by_cases same : n = name
  · subst same
    rw [eq_of_mem_fields distinct field' field]
    exact here
  · exact .inl (elsewhere n same)

/-- A respelled object has its fields alike. -/
theorem ObjectRespelling.rel_fields? {loose : Nat → Raw → Prop} {v w : Raw}
    (distinct : (fields.map (·.1)).Nodup) (change : ObjectRespelling fields loose depth v w) :
    Option.Rel (Fields.Alike fields depth) (Json.fields? (fields.map (·.1)) v)
      (Json.fields? (fields.map (·.1)) w) := by
  cases change with
  | permuted perm =>
    -- only fields that come once keep their values, but objects that repeat one are refused
    refine Json.rel_fields? (areFieldKeys_eq_of_perm (perm.map _)) fun ok name R field => ?_
    exact .inl (fieldAt_eq_of_perm perm ok (List.mem_map_of_mem field))
  | unknown ms text other allowed =>
    refine Json.rel_fields? (areFieldKeys_cons text fun listed => absurd listed other).symm
      fun _ name R field => .inl ?_
    refine (fieldAt_cons_of_ne text ?_).symm
    rintro rfl
    exact other (List.mem_map_of_mem field)
  | @added _ key name R v ms field text absent change =>
    have fresh : name ∈ fields.map (·.1) → ∀ k ∈ ms.map (·.1), k.text? ≠ some name := by
      intro _ k hk
      obtain ⟨m, hm, rfl⟩ := List.mem_map.mp hk
      exact absent m hm
    refine Json.rel_fields? (areFieldKeys_cons text fresh).symm fun _ => ?_
    refine .of_single distinct field (.inr ?_) fun n other => (fieldAt_cons_of_ne text other).symm
    rw [fieldAt_eq_none absent, fieldAt_cons_self text]
    exact change
  | @rewritten _ key name R v w before after field text change =>
    refine Json.rel_fields? (by simp) fun _ => .of_single distinct field ?_ fun n other => ?_
    · -- a member of the same name before this one hides it
      rw [fieldAt_append, fieldAt_append, fieldAt_cons_self text, fieldAt_cons_self text]
      cases fieldAt before name with
      | some u => exact .inl rfl
      | none => exact .inr change
    · rw [fieldAt_append, fieldAt_append, fieldAt_cons_of_ne text other,
        fieldAt_cons_of_ne text other]

/-- A respelled record has its fields alike. -/
theorem RecordRespelling.rel_fields? {v w : Raw} (distinct : (fields.map (·.1)).Nodup)
    (change : RecordRespelling fields (depth + 1) v w) :
    Option.Rel (Fields.Alike fields depth) (Json.fields? (fields.map (·.1)) v)
      (Json.fields? (fields.map (·.1)) w) := by
  cases change with
  | object change => exact change.rel_fields? distinct
  | @item _ name R v w first rest before after field place change =>
    have names : fields.map (·.1) = first.map (·.1) ++ name :: rest.map (·.1) := by simp [field]
    have listed : (name, R) ∈ fields := field ▸ List.mem_append_right _ List.mem_cons_self
    have lookup_eq : ∀ u n, ((fields.map (·.1)).zip (before ++ u :: after)).lookup n =
        (((first.map (·.1)).zip before).lookup n).or
          (if n = name then some u else ((rest.map (·.1)).zip after).lookup n) := by
      intro u n
      rw [names, List.zip_append (by simpa using place), List.lookup_append, List.zip_cons_cons,
        Table.lookup_cons]
    simp only [Json.fields?, List.length_append, List.length_cons, lookup_eq]
    split
    · refine .some (.of_single distinct listed ?_ fun n other => ?_)
      · rw [if_pos rfl, if_pos rfl]
        cases ((first.map (·.1)).zip before).lookup name with
        | some u => exact .inl rfl
        | none => exact .inr change
      · rw [if_neg other, if_neg other]
    · exact .none

theorem bind_eq_of_rel {o p : Option Fields} {build : Fields → Option α}
    (rel : Option.Rel (Fields.Alike fields depth) o p)
    (alike : ∀ f g, Fields.Alike fields depth f g → build f = build g) :
    o.bind build = p.bind build := by
  cases rel with
  | some h => exact alike _ _ h
  | none => rfl

/-- A record is read alike if what is built from its fields is the same for fields that are
alike. -/
theorem ignores_record (distinct : (fields.map (·.1)).Nodup) {build : Nat → Fields → Option α}
    (alike : ∀ depth f g, Fields.Alike fields depth f g → build depth f = build depth g) :
    (record (fields.map (·.1)) build).Ignores (RecordRespelling fields) := by
  intro depth v w change
  cases depth with
  | zero => cases change
  | succ depth => exact bind_eq_of_rel (change.rel_fields? distinct) (alike depth)

/-! ## Fields and containers that are read alike -/

variable {R : Respelling} {r : Reader α}

theorem Reader.Ignores.within (ignored : r.Ignores R) (absent : α) :
    r.IgnoresField absent (Within R) := by
  rintro depth _ _ ⟨change⟩
  exact ignored depth _ _ change

/-- A field that may be null, if no change leads to or from null. -/
theorem Reader.Ignores.orNull (ignored : r.Ignores R)
    (present : ∀ depth v w, R depth v w → v ≠ .null ∧ w ≠ .null) :
    (nullable r).IgnoresField none (OrNull R) := by
  intro depth o p change
  have read : ∀ v, v ≠ .null → nullable r depth v = (r depth v).map some := by
    intro v some_value
    cases v with
    | null => exact absurd rfl some_value
    | _ => rfl
  cases change with
  | null => rfl
  | @value _ v w change =>
    obtain ⟨hv, hw⟩ := present depth v w change
    rw [Reader.field, Reader.field, read v hv, read w hw, ignored depth v w change]

theorem orNull_nothing (r : Reader α) : (nullable r).IgnoresField none (OrNull Nothing) :=
  Reader.Ignores.orNull (fun _ _ _ => False.elim) fun _ _ _ => False.elim

/-- Names are read alike from a list and alone. -/
theorem manyOrNull_ignores : manyOrNull.IgnoresField [] Names := by
  intro depth o p change
  cases change with
  | single s => cases s <;> rfl
  | null => rfl
  | nil => rfl

theorem Reader.Ignores.listOf (ignored : r.Ignores R) :
    (listOf r).Ignores (ItemRespelling R) := by
  rintro _ _ _ ⟨before, after, change⟩
  rw [Json.listOf, Json.listOf, List.mapM_append, List.mapM_append, List.mapM_cons, List.mapM_cons,
    ignored _ _ _ change]

theorem Reader.Ignores.tableOf (ignored : r.Ignores R) :
    (tableOf r).Ignores (EntryRespelling R) := by
  rintro _ _ _ (@⟨depth, v, w, before, after, key, change⟩)
  have entry_eq : entry r depth (key, v) = entry r depth (key, w) := by
    rw [entry, entry, ignored depth v w change]
  rw [Json.tableOf, Json.tableOf, List.mapM_append, List.mapM_append, List.mapM_cons,
    List.mapM_cons, entry_eq]

end Ambient.Json
