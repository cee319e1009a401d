/-
  Spellings of class records: which ways of writing a record mean the same. Main statement:
  `Record.ofRaw?_respelled` (respellings anywhere in a record, any number of them, leave what is
  read from it, and tables have their entries in the order in which they are written).
-/
import Ambient.Proofs.FirstOccurrences
import Ambient.Proofs.Spellings
import Ambient.Record.Reading
import Mathlib.Data.List.Forall2
import Mathlib.Logic.Relation

namespace Ambient

open Json

/-! ## Type references -/

/-- The fields of a name with dimensions. -/
def sizedFields : List (String × FieldRespelling) := [("name", Fixed), ("dimensions", Fixed)]

/-- A type reference is respelled: an object at any depth of its lists. All members of such an
object are read to their leaves, so a member that is no field has to be sound. -/
inductive TypeRespelling : Respelling
  | object {depth : Nat} {v w : Raw}
    (change : ObjectRespelling sizedFields (fun depth v => v.isSound depth = true) depth v w) :
    TypeRespelling (depth + 1) v w
  | item {depth : Nat} {v w : Raw} (before after : List Raw) (change : TypeRespelling depth v w) :
    TypeRespelling (depth + 1) (.list (before ++ v :: after)) (.list (before ++ w :: after))

theorem eq_fixed_of_mem_sizedFields {name : String} {R : FieldRespelling}
    (field : (name, R) ∈ sizedFields) : R = Fixed := by
  simp only [sizedFields, List.mem_cons, Prod.mk.injEq, List.not_mem_nil, or_false] at field
  rcases field with ⟨-, rfl⟩ | ⟨-, rfl⟩ <;> rfl

namespace TypeRespelling

theorem areSound_eq_all (depth : Nat) (vs : List Raw) :
    Raw.areSound depth vs = vs.all (Raw.isSound depth) := by
  induction vs with
  | nil => rw [Raw.areSound, List.all_nil]
  | cons v vs ih => rw [Raw.areSound, ih, List.all_cons]

theorem areSoundMembers_eq_all (depth : Nat) (ms : List (Literal × Raw)) :
    Raw.areSoundMembers depth ms =
      ms.all fun m => m.1.text?.isSome && m.2.isSound depth := by
  induction ms with
  | nil => rw [Raw.areSoundMembers, List.all_nil]
  | cons m ms ih =>
    obtain ⟨k, v⟩ := m
    rw [Raw.areSoundMembers, ih, List.all_cons]

/-- A respelled reference is as sound as before. -/
theorem isSound_eq {depth : Nat} {v w : Raw} (change : TypeRespelling depth v w) :
    v.isSound depth = w.isSound depth := by
  induction change with
  | object change =>
    cases change with
    | permuted perm =>
      rw [Raw.isSound, Raw.isSound, areSoundMembers_eq_all, areSoundMembers_eq_all, perm.all_eq]
    | unknown ms text other allowed =>
      rw [Raw.isSound, Raw.isSound, Raw.areSoundMembers, text, allowed]
      rfl
    | added field text absent change =>
      -- a reference has no field with a second spelling
      rw [eq_fixed_of_mem_sizedFields field] at change
      exact change.elim
    | rewritten before after field text change =>
      rw [eq_fixed_of_mem_sizedFields field] at change
      exact change.elim
  | item before after change ih =>
    rw [Raw.isSound, Raw.isSound, areSound_eq_all, areSound_eq_all, List.all_append,
      List.all_append, List.all_cons, List.all_cons, ih]

theorem ofRaws?_eq_mapM (vs : List Raw) : TypeRef.ofRaws? vs = vs.mapM TypeRef.ofRaw? := by
  induction vs with
  | nil => rw [TypeRef.ofRaws?, List.mapM_nil]; rfl
  | cons v vs ih => rw [TypeRef.ofRaws?, List.mapM_cons, ih]

theorem ofFields?_eq {depth : Nat} {f g : Fields} (h : f.Alike sizedFields depth g) :
    TypeRef.ofFields? f = TypeRef.ofFields? g := by
  have name : f "name" = g "name" := h.fixed (by simp [sizedFields])
  have dimensions : f "dimensions" = g "dimensions" := h.fixed (by simp [sizedFields])
  simp only [TypeRef.ofFields?, Fields.get, name, dimensions]

/-- A respelled reference stands for the same. -/
theorem ofRaw?_eq {depth : Nat} {v w : Raw} (change : TypeRespelling depth v w) :
    TypeRef.ofRaw? v = TypeRef.ofRaw? w := by
  induction change with
  | object change =>
    have alike := bind_eq_of_rel (change.rel_fields? (by decide)) fun _ _ => ofFields?_eq
    cases change <;> (rw [TypeRef.ofRaw?, TypeRef.ofRaw?]; exact alike)
  | item before after change ih =>
    rw [TypeRef.ofRaw?, TypeRef.ofRaw?, ofRaws?_eq_mapM, ofRaws?_eq_mapM, List.mapM_append,
      List.mapM_append, List.mapM_cons, List.mapM_cons, ih]

theorem ne_null {depth : Nat} {v w : Raw} (change : TypeRespelling depth v w) :
    v ≠ .null ∧ w ≠ .null := by
  cases change with
  | object change => exact change.ne_null
  | item => exact ⟨nofun, nofun⟩

end TypeRespelling

theorem typeRef_ignores : typeRef.Ignores TypeRespelling := by
  intro depth v w change
  rw [typeRef, sound, sound, change.isSound_eq, change.ofRaw?_eq]

/-! ## Records -/

/-- A check that is no text is left out. It is read to its leaves, so it has to be sound. -/
inductive CheckRespelling : FieldRespelling
  | dropped {depth : Nat} {v : Raw} (no_text : ∀ s, v ≠ .string s)
    (sound : v.isSound depth = true) : CheckRespelling depth none (some v)

theorem textOrNone_ignores : textOrNone.IgnoresField none CheckRespelling := by
  rintro depth _ _ (@⟨_, v, no_text, ok⟩)
  rw [Reader.field, Reader.field, textOrNone, sound, if_pos ok]
  cases v with
  | string s => exact absurd rfl (no_text s)
  | _ => rfl

/-- The fields of a parameter, with the changes that they allow. -/
def paramFields : List (String × FieldRespelling) :=
  [("name", Fixed), ("optional", Fixed), ("type", OrNull TypeRespelling)]

/-- The fields of what a method returns. -/
def returnFields : List (String × FieldRespelling) := [("type", OrNull TypeRespelling)]

/-- The fields of an entry under a tag. -/
def docFields : List (String × FieldRespelling) := [("body", Fixed)]

/-- The fields of a method. -/
def methodFields : List (String × FieldRespelling) :=
  [("type", OrNull Nothing), ("access", OrNull Nothing), ("abstract", Fixed), ("async", Fixed),
    ("static", Fixed), ("mixin", Fixed),
    ("params", Within (ItemRespelling (RecordRespelling paramFields))),
    ("returnType", OrNull (RecordRespelling returnFields)),
    ("jsdoc", OrNull (EntryRespelling (ItemRespelling (RecordRespelling docFields))))]

/-- The fields of a property. -/
def propertyFields : List (String × FieldRespelling) :=
  [("check", CheckRespelling), ("async", Fixed), ("group", Names)]

/-- The fields of a class record. -/
def classFields : List (String × FieldRespelling) :=
  [("className", OrNull Nothing), ("type", Fixed), ("superClass", Names), ("interfaces", Names),
    ("mixins", Names), ("abstract", Fixed), ("isSingleton", Fixed),
    ("construct", OrNull (RecordRespelling methodFields)),
    ("statics", Within (EntryRespelling (RecordRespelling methodFields))),
    ("members", Within (EntryRespelling (RecordRespelling methodFields))),
    ("properties", Within (EntryRespelling (RecordRespelling propertyFields))),
    ("classFilename", OrNull Nothing)]

theorem param_ignores : param.Ignores (RecordRespelling paramFields) := by
  refine ignores_record (by decide) fun depth f g h => ?_
  have name : f "name" = g "name" := h.fixed (by simp [paramFields])
  have optional : f "optional" = g "optional" := h.fixed (by simp [paramFields])
  have type : f.get? depth "type" typeRef = g.get? depth "type" typeRef :=
    h.get (by simp [paramFields]) (typeRef_ignores.orNull fun _ _ _ => TypeRespelling.ne_null)
  simp only [Fields.require, Fields.get, name, optional, type]

theorem returnType_ignores : returnType.Ignores (RecordRespelling returnFields) := by
  refine ignores_record (by decide) fun depth f g h => ?_
  have type : f.get? depth "type" typeRef = g.get? depth "type" typeRef :=
    h.get (by simp [returnFields]) (typeRef_ignores.orNull fun _ _ _ => TypeRespelling.ne_null)
  simp only [type]

theorem docText_ignores : docText.Ignores (RecordRespelling docFields) := by
  refine ignores_record (by decide) fun depth f g h => ?_
  have body : f "body" = g "body" := h.fixed (by simp [docFields])
  simp only [Fields.get, body]

theorem method_ignores : method.Ignores (RecordRespelling methodFields) := by
  refine ignores_record (by decide) fun depth f g h => ?_
  have kind : f.get? depth "type" text = g.get? depth "type" text :=
    h.get (by simp [methodFields]) (orNull_nothing _)
  have access : f.get? depth "access" (fun d v => (word d v).map Access.ofWord) =
      g.get? depth "access" fun d v => (word d v).map Access.ofWord :=
    h.get (by simp [methodFields]) (orNull_nothing _)
  have isAbstract : f "abstract" = g "abstract" := h.fixed (by simp [methodFields])
  have isAsync : f "async" = g "async" := h.fixed (by simp [methodFields])
  have isStatic : f "static" = g "static" := h.fixed (by simp [methodFields])
  have fromMixin : f "mixin" = g "mixin" := h.fixed (by simp [methodFields])
  have params : f.get depth "params" (listOf param) [] = g.get depth "params" (listOf param) [] :=
    h.get (by simp [methodFields]) (param_ignores.listOf.within [])
  have returns : f.get? depth "returnType" returnType = g.get? depth "returnType" returnType :=
    h.get (by simp [methodFields])
      (returnType_ignores.orNull fun _ _ _ => RecordRespelling.ne_null)
  have doc : f.get? depth "jsdoc" (tableOf (listOf docText)) =
      g.get? depth "jsdoc" (tableOf (listOf docText)) :=
    h.get (by simp [methodFields])
      (docText_ignores.listOf.tableOf.orNull fun _ _ _ => EntryRespelling.ne_null)
  rw [kind, access, params, returns, doc]
  simp only [Fields.get, isAbstract, isAsync, isStatic, fromMixin]

theorem property_ignores : property.Ignores (RecordRespelling propertyFields) := by
  refine ignores_record (by decide) fun depth f g h => ?_
  have check : f.get depth "check" textOrNone none = g.get depth "check" textOrNone none :=
    h.get (by simp [propertyFields]) textOrNone_ignores
  have isAsync : f "async" = g "async" := h.fixed (by simp [propertyFields])
  have group : f.get depth "group" manyOrNull [] = g.get depth "group" manyOrNull [] :=
    h.get (by simp [propertyFields]) manyOrNull_ignores
  rw [check, group]
  simp only [Fields.get, isAsync]

theorem classRecord_ignores : classRecord.Ignores (RecordRespelling classFields) := by
  refine ignores_record (by decide) fun depth f g h => ?_
  have name : f.get? depth "className" text = g.get? depth "className" text :=
    h.get (by simp [classFields]) (orNull_nothing _)
  have kind : f "type" = g "type" := h.fixed (by simp [classFields])
  have superClasses : f.get depth "superClass" manyOrNull [] =
      g.get depth "superClass" manyOrNull [] := h.get (by simp [classFields]) manyOrNull_ignores
  have interfaces : f.get depth "interfaces" manyOrNull [] =
      g.get depth "interfaces" manyOrNull [] := h.get (by simp [classFields]) manyOrNull_ignores
  have mixins : f.get depth "mixins" manyOrNull [] = g.get depth "mixins" manyOrNull [] :=
    h.get (by simp [classFields]) manyOrNull_ignores
  have isAbstract : f "abstract" = g "abstract" := h.fixed (by simp [classFields])
  have isSingleton : f "isSingleton" = g "isSingleton" := h.fixed (by simp [classFields])
  have construct : f.get? depth "construct" method = g.get? depth "construct" method :=
    h.get (by simp [classFields]) (method_ignores.orNull fun _ _ _ => RecordRespelling.ne_null)
  have statics : f.get depth "statics" (tableOf method) .empty =
      g.get depth "statics" (tableOf method) .empty :=
    h.get (by simp [classFields]) (method_ignores.tableOf.within _)
  have members : f.get depth "members" (tableOf method) .empty =
      g.get depth "members" (tableOf method) .empty :=
    h.get (by simp [classFields]) (method_ignores.tableOf.within _)
  have properties : f.get depth "properties" (tableOf property) .empty =
      g.get depth "properties" (tableOf property) .empty :=
    h.get (by simp [classFields]) (property_ignores.tableOf.within _)
  have file : f.get? depth "classFilename" text = g.get? depth "classFilename" text :=
    h.get (by simp [classFields]) (orNull_nothing _)
  rw [name, superClasses, interfaces, mixins, construct, statics, members, properties, file]
  simp only [Fields.get, kind, isAbstract, isSingleton]

/-! ## The order of tables -/

section Order

variable {α β : Type}

theorem forall₂_of_mapM {f : α → Option β} {as : List α} {bs : List β}
    (h : as.mapM f = some bs) : List.Forall₂ (fun a b => f a = some b) as bs := by
  induction as generalizing bs with
  | nil =>
    rw [List.mapM_nil] at h
    exact Option.some.inj h ▸ .nil
  | cons a as ih =>
    rw [List.mapM_cons] at h
    obtain ⟨b, first, h⟩ := Option.bind_eq_some_iff.mp h
    obtain ⟨bs', rest, h⟩ := Option.bind_eq_some_iff.mp h
    exact Option.some.inj h ▸ .cons first (ih rest)

theorem entry_eq_some {r : Reader α} {depth : Nat} {m : Literal × Raw} {e : String × α} :
    entry r depth m = some e ↔ m.1.text? = some e.1 ∧ r depth m.2 = some e.2 := by
  obtain ⟨k, a⟩ := e
  simp only [entry, Option.bind_eq_bind, Option.bind_eq_some_iff, Option.pure_def,
    Option.some.injEq, Prod.mk.injEq]
  constructor
  · rintro ⟨k', text, a', read, rfl, rfl⟩
    exact ⟨text, read⟩
  · rintro ⟨text, read⟩
    exact ⟨k, text, a, read, rfl, rfl⟩

/-- Whether a table has the entries of an object's members as they are written: its names in the
order in which each of them comes first, and under a name what the last member of the name is
read as. -/
structure KeepsOrder (r : Raw → Option α) (ms : List (Literal × Raw)) (t : Table α) : Prop where
  keys : t.keys = (ms.filterMap fun m => m.1.text?).eraseDups
  get? : ∀ name, t.get? name =
    (ms.reverse.find? fun m => m.1.text? == some name).bind fun m => r m.2

theorem keepsOrder_empty (r : Raw → Option α) : KeepsOrder r [] .empty where
  keys := rfl
  get? _ := rfl

theorem lookup_of_forall₂ {r : Reader α} {depth : Nat} {ms : List (Literal × Raw)}
    {es : List (String × α)} (h : List.Forall₂ (fun m e => entry r depth m = some e) ms es)
    (name : String) :
    es.lookup name = (ms.find? fun m => m.1.text? == some name).bind fun m => r depth m.2 := by
  induction h with
  | nil => rfl
  | @cons m e ms es first _ ih =>
    obtain ⟨text, read⟩ := entry_eq_some.mp first
    rw [Table.lookup_cons, List.find?_cons, text]
    by_cases same : name = e.1
    · rw [if_pos same, same, beq_self_eq_true, Option.bind_some, read]
    · have other : (some e.1 == some name) = false := by simpa using Ne.symm same
      rw [if_neg same, other, ih]

/-- A table that is read has its entries as they are written. -/
theorem keepsOrder_of_tableOf {r : Reader α} {depth : Nat} {ms : List (Literal × Raw)}
    {t : Table α} (h : tableOf r (depth + 1) (.object ms) = some t) :
    KeepsOrder (r depth) ms t := by
  obtain ⟨es, read, rfl⟩ := Option.map_eq_some_iff.mp h
  have entries := forall₂_of_mapM read
  refine ⟨?_, fun name => ?_⟩
  · rw [Table.keys_ofList]
    congr 1
    clear read h
    induction entries with
    | nil => rfl
    | cons first _ ih => rw [List.map_cons, ih, List.filterMap_cons, (entry_eq_some.mp first).1]
  · rw [Table.get?_ofList, lookup_of_forall₂ (List.forall₂_reverse_iff.mpr entries)]

/-- The members of an object in a field; none, if there is no object. -/
def membersIn : Option Raw → List (Literal × Raw)
  | some (.object ms) => ms
  | _ => []

theorem exists_keepsOrder {r : Reader α} {depth : Nat} {v : Raw} {t : Table α}
    (h : tableOf r depth v = some t) : ∃ d, KeepsOrder (r d) (membersIn (some v)) t := by
  cases depth with
  | zero => cases v <;> cases h
  | succ depth =>
    cases v with
    | object ms => exact ⟨depth, keepsOrder_of_tableOf h⟩
    | _ => cases h

theorem keepsOrder_of_get {r : Reader α} {f : Fields} {depth : Nat} {name : String}
    {t : Table α} (h : f.get depth name (tableOf r) .empty = some t) :
    ∃ d, KeepsOrder (r d) (membersIn (f name)) t := by
  rw [Fields.get] at h
  cases value : f name with
  | none =>
    rw [value] at h
    exact ⟨depth, Option.some.inj h ▸ keepsOrder_empty _⟩
  | some v =>
    rw [value] at h
    exact exists_keepsOrder h

theorem keepsOrder_of_get? {r : Reader α} {f : Fields} {depth : Nat} {name : String}
    {t : Option (Table α)} (h : f.get? depth name (tableOf r) = some t) :
    ∃ d, KeepsOrder (r d) (membersIn (f name)) (t.getD .empty) := by
  rw [Fields.get?, Fields.get] at h
  cases value : f name with
  | none =>
    rw [value] at h
    exact ⟨depth, Option.some.inj h ▸ keepsOrder_empty _⟩
  | some v =>
    rw [value] at h
    cases v with
    | null => exact ⟨depth, Option.some.inj h ▸ keepsOrder_empty _⟩
    | _ =>
      obtain ⟨t, read, rfl⟩ := Option.map_eq_some_iff.mp h
      exact exists_keepsOrder read

/-- The value of a field of a record as it is written. -/
def fieldOf (fields : List (String × FieldRespelling)) (v : Raw) (name : String) : Option Raw :=
  (fields? (fields.map (·.1)) v).bind (· name)

theorem fieldOf_eq {fields : List (String × FieldRespelling)} {v : Raw} {f : Fields}
    (h : fields? (fields.map (·.1)) v = some f) : fieldOf fields v = f := by
  funext name
  rw [fieldOf, h, Option.bind_some]

end Order

/-- Whether the tables of a class record have their entries as they are written. -/
structure Record.TablesKeepOrder (v : Raw) (r : Record) : Prop where
  statics : ∃ d, KeepsOrder (method d) (membersIn (fieldOf classFields v "statics"))
    r.statics
  members : ∃ d, KeepsOrder (method d) (membersIn (fieldOf classFields v "members"))
    r.members
  properties : ∃ d, KeepsOrder (property d)
    (membersIn (fieldOf classFields v "properties")) r.properties

theorem keepsOrder_classRecord {depth : Nat} {v : Raw} {r : Record}
    (h : classRecord depth v = some r) : r.TablesKeepOrder v := by
  cases depth with
  | zero => cases h
  | succ depth =>
    obtain ⟨f, fields, built⟩ := Option.bind_eq_some_iff.mp h
    simp only [Option.bind_eq_bind, Option.bind_eq_some_iff, Option.pure_def,
      Option.some.injEq] at built
    obtain ⟨name, -, kind, -, superClasses, -, interfaces, -, mixins, -, isAbstract, -,
      isSingleton, -, construct, -, statics, hs, members, hm, properties, hp, file, -, rfl⟩ := built
    have written : fieldOf classFields v = f := fieldOf_eq fields
    exact ⟨written ▸ keepsOrder_of_get hs, written ▸ keepsOrder_of_get hm,
      written ▸ keepsOrder_of_get hp⟩

/-- The tags of a method come as they are written. -/
theorem keepsOrder_method {depth : Nat} {v : Raw} {m : Method} (h : method depth v = some m) :
    ∃ d, KeepsOrder (listOf docText d) (membersIn (fieldOf methodFields v "jsdoc"))
      (m.doc.getD .empty) := by
  cases depth with
  | zero => cases h
  | succ depth =>
    obtain ⟨f, fields, built⟩ := Option.bind_eq_some_iff.mp h
    simp only [Option.bind_eq_bind, Option.bind_eq_some_iff, Option.pure_def,
      Option.some.injEq] at built
    obtain ⟨kind, -, access, -, isAbstract, -, isAsync, -, isStatic, -, fromMixin, -, params, -,
      returns, -, doc, hd, rfl⟩ := built
    have written : fieldOf methodFields v = f := fieldOf_eq fields
    exact written ▸ keepsOrder_of_get? hd

theorem forall₂_of_listOf {α : Type} {r : Reader α} {depth : Nat} {v : Raw} {as : List α}
    (h : listOf r depth v = some as) :
    ∃ d items, v = .list items ∧ List.Forall₂ (fun item a => r d item = some a) items as := by
  cases depth with
  | zero => cases v <;> cases h
  | succ depth =>
    cases v with
    | list items => exact ⟨depth, items, rfl, forall₂_of_mapM h⟩
    | _ => cases h

/-! ## Records -/

/-- Whether a class record is respelled, anywhere in it and any number of times. -/
def Respelled : Raw → Raw → Prop := Relation.EqvGen (RecordRespelling classFields maxDepth)

/-- One change after the other leaves what is read. -/
theorem Respelled.ofRaw?_eq {v w : Raw} (h : Respelled v w) :
    Record.ofRaw? v = Record.ofRaw? w := by
  induction h with
  | rel v w change => exact classRecord_ignores maxDepth v w change
  | refl v => rfl
  | symm v w _ ih => exact ih.symm
  | trans u v w _ _ first second => exact first.trans second

/-- A respelled record is read as the same record, or not read at all, as before. The entries of
its tables, and those under a tag, stay in the order in which they are written. -/
theorem Record.ofRaw?_respelled {v w : Raw} (h : Respelled v w) :
    Record.ofRaw? v = Record.ofRaw? w ∧
      (∀ r, Record.ofRaw? v = some r → r.TablesKeepOrder v) ∧
      (∀ depth u m, method depth u = some m →
        ∃ d, KeepsOrder (listOf docText d) (membersIn (fieldOf methodFields u "jsdoc"))
          (m.doc.getD .empty)) ∧
      ∀ depth u texts, listOf docText depth u = some texts →
        ∃ d items, u = .list items ∧
          List.Forall₂ (fun item text => docText d item = some text) items texts := by
  have in_order : ∀ r, classRecord maxDepth v = some r → r.TablesKeepOrder v :=
    fun _ => keepsOrder_classRecord
  exact ⟨h.ofRaw?_eq, in_order, fun _ _ _ => keepsOrder_method, fun _ _ _ => forall₂_of_listOf⟩

/-- A member of an object. -/
def member (key : String) (v : Raw) : Literal × Raw := (.text key, v)

/-- A text. -/
def textValue (s : String) : Raw := .string (.text s)

/-- A method whose parameter has the given members. -/
def methodValue (param : List (Literal × Raw)) : Raw :=
  .object [member "params" (.list [.object param])]

/-- The parameter `x`, without a type. -/
def shortParam : List (Literal × Raw) := [member "name" (textValue "x")]

/-- The parameter `x`, its missing type written out. -/
def longParam : List (Literal × Raw) := member "type" .null :: shortParam

/-- The members of a record with a superclass and one method. -/
def recordMembers (superClass : Raw) (param : List (Literal × Raw)) : List (Literal × Raw) :=
  [member "className" (textValue "a.B"), member "superClass" superClass,
    member "members" (.object [member "run" (methodValue param)])]

/-- A record written in short. -/
def shortRecord : Raw := .object (recordMembers (textValue "a.A") shortParam)

/-- The same record with its fields the other way round, with fields that hold nothing and with
a key that is no field. -/
def longRecord : Raw :=
  .object (member "note" (.list []) :: member "mixins" .null ::
    (recordMembers (.list [textValue "a.A"]) longParam).reverse)

theorem methodRespelling_longParam :
    RecordRespelling methodFields 125 (methodValue shortParam) (methodValue longParam) := by
  have type : ("type", OrNull TypeRespelling) ∈ paramFields := by simp [paramFields]
  have params : ("params", Within (ItemRespelling (RecordRespelling paramFields))) ∈
      methodFields := by simp [methodFields]
  have param : RecordRespelling paramFields 123 (.object shortParam) (.object longParam) :=
    .object (.added type rfl (by simp [shortParam, member, Literal.text?]) .null)
  exact .object (.rewritten [] [] params rfl (.value (.item [] [] param)))

theorem respelled_longRecord : Respelled shortRecord longRecord := by
  have superClass : ("superClass", Names) ∈ classFields := by simp [classFields]
  have mixins : ("mixins", Names) ∈ classFields := by simp [classFields]
  have members : ("members", Within (EntryRespelling (RecordRespelling methodFields))) ∈
      classFields := by simp [classFields]
  have listed : RecordRespelling classFields maxDepth shortRecord
      (.object (recordMembers (.list [textValue "a.A"]) shortParam)) :=
    .object (.rewritten [member "className" (textValue "a.B")] _ superClass rfl (.single _))
  have typed : RecordRespelling classFields maxDepth
      (.object (recordMembers (.list [textValue "a.A"]) shortParam))
      (.object (recordMembers (.list [textValue "a.A"]) longParam)) :=
    .object (.rewritten [_, _] [] members rfl
      (.value (.entry [] [] (.text "run") methodRespelling_longParam)))
  have reversed : RecordRespelling classFields maxDepth
      (.object (recordMembers (.list [textValue "a.A"]) longParam))
      (.object (recordMembers (.list [textValue "a.A"]) longParam).reverse) :=
    .object (.permuted (List.reverse_perm _).symm)
  have mixed : RecordRespelling classFields maxDepth
      (.object (recordMembers (.list [textValue "a.A"]) longParam).reverse)
      (.object (member "mixins" .null ::
        (recordMembers (.list [textValue "a.A"]) longParam).reverse)) :=
    .object (.added mixins rfl (by simp [recordMembers, member, Literal.text?]) .null)
  have noted : RecordRespelling classFields maxDepth
      (.object (member "mixins" .null ::
        (recordMembers (.list [textValue "a.A"]) longParam).reverse)) longRecord :=
    .object (.unknown _ rfl (by simp [classFields]) trivial)
  exact (((Relation.EqvGen.rel _ _ listed).trans _ _ _ (.rel _ _ typed)).trans _ _ _
    (.rel _ _ reversed)).trans _ _ _ ((Relation.EqvGen.rel _ _ mixed).trans _ _ _ (.rel _ _ noted))

/-- Both are read as the same record, and as one. -/
theorem ofRaw?_longRecord :
    Respelled shortRecord longRecord ∧ Record.ofRaw? shortRecord = Record.ofRaw? longRecord ∧
      (Record.ofRaw? longRecord).isSome = true :=
  ⟨respelled_longRecord, (Record.ofRaw?_respelled respelled_longRecord).1, by decide +kernel⟩

/-- A record whose property has the given members. -/
def propertyText (members : String) : String :=
  "\x7b\"properties\": \x7b\"p\": \x7b" ++ members ++ "\x7d\x7d\x7d"

/-- A record with a constructor whose parameter has an object with the given members as its
type. -/
def typeText (members : String) : String :=
  "\x7b\"construct\": \x7b\"params\": [\x7b\"name\": \"x\", \"type\": \x7b" ++ members ++
    "\x7d\x7d]\x7d\x7d"

/-- A check with a number that is too large, a member of a type reference with such a number and
a key that is no text are not passed over: the records are read without them, but not with
them. -/
theorem parse?_unsound :
    ((Record.parse? (propertyText "\"check\": 1e999")).isSome = false ∧
      (Record.parse? (propertyText "")).isSome = true) ∧
    ((Record.parse? (typeText "\"note\": 1e999")).isSome = false ∧
      (Record.parse? (typeText "")).isSome = true) ∧
    (Record.parse? (propertyText "\"\\ud83d\": 1")).isSome = false := by
  decide +kernel

end Ambient
