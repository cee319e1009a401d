/-
  Reading files one after the other: what the file at a path is read as, the failure if it
  cannot be read, and what becomes of a database that the records of files are put into. Main
  statements: `Database.read_of_reads` and `Database.read_of_refuses` (one file),
  `Database.foldlM_insertRead` (a row of files: all records are put in, or the first file without
  one ends it), `Database.names_insertAll` and `Database.find?_insertAll_iff` (where the records
  are then).
-/
import Ambient.Proofs.FileTrees
import Ambient.Proofs.FirstOccurrences
import Mathlib.Data.List.Forall2

namespace Ambient

/-- The outermost message of a failure ends with the text of a path. -/
def Failure.Names (f : Failure) (p : Path) : Prop :=
  ∃ words, f.messages.head? = some (words ++ p.text)

namespace FileTree

variable {α : Type}

/-- There is a file at a path, its bytes encode a text, and the text is read as a value. -/
def Reads (t : FileTree) (p : Path) (read : String → Option α) (a : α) : Prop :=
  ∃ s, t.readText p = .ok s ∧ read s = some a

/-- The failure that comes of a path at which no text is found, or one that is not read. -/
inductive Refuses (t : FileTree) (p : Path) (read : String → Option α) : Failure → Prop
  | unreadable {f : FileFault} (h : t.readText p = .error f) :
    Refuses t p read ⟨[.read p], .fault f⟩
  | malformed {s : String} (text : t.readText p = .ok s) (h : read s = none) :
    Refuses t p read ⟨[.parse p], .malformed⟩

variable {t : FileTree} {p : Path} {read : String → Option α}

/-- Written text is read as the value that it is. -/
theorem reads_of_find {s : String} {a : α} (found : t.find p = .ok (.file s.toUTF8))
    (value : read s = some a) : t.Reads p read a :=
  ⟨s, by rw [readText_of_find found, decode_toUTF8], value⟩

theorem Reads.unique {a b : α} (h : t.Reads p read a) (h' : t.Reads p read b) : a = b := by
  obtain ⟨s, text, value⟩ := h
  obtain ⟨s', text', value'⟩ := h'
  obtain rfl := Except.ok.inj (text.symm.trans text')
  exact Option.some.inj (value.symm.trans value')

theorem Refuses.names {f : Failure} (h : t.Refuses p read f) : f.Names p := by
  cases h with
  | unreadable _ => exact ⟨"failed to read ", rfl⟩
  | malformed _ _ => exact ⟨"failed to parse ", rfl⟩

theorem Refuses.not_reads {f : Failure} (h : t.Refuses p read f) (a : α) : ¬ t.Reads p read a := by
  rintro ⟨s, text, value⟩
  cases h with
  | unreadable fault => cases text.symm.trans fault
  | malformed text' nothing =>
    obtain rfl := Except.ok.inj (text.symm.trans text')
    cases value.symm.trans nothing

/-- A file is read or refused. -/
theorem reads_or_refuses (t : FileTree) (p : Path) (read : String → Option α) :
    (∃ a, t.Reads p read a) ∨ ∃ f, t.Refuses p read f := by
  cases text : t.readText p with
  | error fault => exact .inr ⟨_, .unreadable text⟩
  | ok s =>
    cases value : read s with
    | none => exact .inr ⟨_, .malformed text value⟩
    | some a => exact .inl ⟨a, s, text, value⟩

end FileTree

namespace Database

section File

variable {α : Type} {t : FileTree} {p : Path} {read : String → Option α}

theorem read_of_reads {a : α} (h : t.Reads p read a) :
    (fault (.read p) (t.readText p) >>= parse (.parse p) read) = .ok a := by
  obtain ⟨s, text, value⟩ := h
  exact bind_eq_ok.mpr ⟨s, by rw [text]; rfl, by rw [parse, value]⟩

theorem read_of_refuses {f : Failure} (h : t.Refuses p read f) :
    (fault (.read p) (t.readText p) >>= parse (.parse p) read) = .error f := by
  cases h with
  | unreadable none => rw [none]; rfl
  | @malformed s text none =>
    rw [text]
    show parse (.parse p) read s = _
    rw [parse, none]

end File

/-! ## Rows of files -/

section Row

variable {α : Type} {t : FileTree} {path : α → Path} {key : α → Record → String}

/-- The database with the record of one more file, under a key that may depend on the record. -/
def insertRead (t : FileTree) (path : α → Path) (key : α → Record → String) (db : Database)
    (a : α) : Except Failure Database := do
  let r ← readRecord t (path a)
  pure (db.insert (key a r) r)

/-- The entry that a file brings: its record, under the key. -/
def Brings (t : FileTree) (path : α → Path) (key : α → Record → String) (a : α)
    (e : String × Record) : Prop :=
  t.Reads (path a) Record.parse? e.2 ∧ e.1 = key a e.2

/-- A file brings one entry only. -/
theorem rightUnique_brings : Relator.RightUnique (Brings t path key) := by
  rintro a e e' ⟨reads, filed⟩ ⟨reads', filed'⟩
  have same := reads.unique reads'
  exact Prod.ext (by rw [filed, filed', same]) same

theorem insertRead_of_reads {a : α} {r : Record} (h : t.Reads (path a) Record.parse? r)
    (db : Database) : insertRead t path key db a = .ok (db.insert (key a r) r) := by
  have read : readRecord t (path a) = .ok r := read_of_reads h
  rw [insertRead, read]
  rfl

theorem insertRead_of_refuses {a : α} {f : Failure} (h : t.Refuses (path a) Record.parse? f)
    (db : Database) : insertRead t path key db a = .error f := by
  have unread : readRecord t (path a) = .error f := read_of_refuses h
  rw [insertRead, unread]
  rfl

theorem root_insertRead {db db' : Database} {a : α} (h : insertRead t path key db a = .ok db') :
    db'.root = db.root := by
  obtain ⟨r, -, inserted⟩ := bind_eq_ok.mp h
  exact Except.ok.inj inserted ▸ rfl

/-- All files of a row bring their entries, or the first one without a record ends it. -/
theorem foldlM_insertRead (t : FileTree) (path : α → Path) (key : α → Record → String)
    (as : List α) (db : Database) :
    (∃ es, List.Forall₂ (Brings t path key) as es ∧
      as.foldlM (insertRead t path key) db = .ok (db.insertAll es)) ∨
    ∃ before a after f, as = before ++ a :: after ∧
      (∀ b ∈ before, ∃ r, t.Reads (path b) Record.parse? r) ∧
      t.Refuses (path a) Record.parse? f ∧ as.foldlM (insertRead t path key) db = .error f := by
  induction as generalizing db with
  | nil => exact .inl ⟨[], .nil, rfl⟩
  | cons a as ih =>
    rw [List.foldlM_cons]
    rcases t.reads_or_refuses (path a) Record.parse? with ⟨r, reads⟩ | ⟨f, refused⟩
    · rw [insertRead_of_reads reads]
      rcases ih (db.insert (key a r) r) with ⟨es, bring, done⟩ | stopped
      · exact .inl ⟨(key a r, r) :: es, .cons ⟨reads, rfl⟩ bring, done⟩
      · obtain ⟨before, a', after, f, rfl, read, refused, failed⟩ := stopped
        refine .inr ⟨a :: before, a', after, f, rfl, ?_, refused, failed⟩
        exact List.forall_mem_cons.mpr ⟨⟨r, reads⟩, read⟩
    · rw [insertRead_of_refuses refused]
      exact .inr ⟨[], a, as, f, rfl, nofun, refused, rfl⟩

theorem exists_reads_of_brings {as : List α} {es : List (String × Record)}
    (h : List.Forall₂ (Brings t path key) as es) :
    ∀ a ∈ as, ∃ r, t.Reads (path a) Record.parse? r := by
  induction h with
  | nil => exact nofun
  | cons brings _ ih => exact List.forall_mem_cons.mpr ⟨⟨_, brings.1⟩, ih⟩

theorem exists_brings_of_mem {as : List α} {es : List (String × Record)}
    (h : List.Forall₂ (Brings t path key) as es) : ∀ e ∈ es, ∃ a ∈ as, Brings t path key a e := by
  induction h with
  | nil => exact fun _ he => absurd he List.not_mem_nil
  | @cons a e as es brings _ ih =>
    intro e' he
    rcases List.mem_cons.mp he with rfl | later
    · exact ⟨a, List.mem_cons_self, brings⟩
    · obtain ⟨a', ha, brings⟩ := ih e' later
      exact ⟨a', List.mem_cons_of_mem a ha, brings⟩

variable {as : List α} {db : Database}

theorem foldlM_insertRead_ok_iff :
    (∃ db', as.foldlM (insertRead t path key) db = .ok db') ↔
      ∀ a ∈ as, ∃ r, t.Reads (path a) Record.parse? r := by
  constructor
  · rintro ⟨db', done⟩
    rcases foldlM_insertRead t path key as db with ⟨es, bring, -⟩ | ⟨_, _, _, _, -, -, -, failed⟩
    · exact exists_reads_of_brings bring
    · cases failed.symm.trans done
  · intro readable
    rcases foldlM_insertRead t path key as db with ⟨es, -, done⟩ | stopped
    · exact ⟨_, done⟩
    · obtain ⟨before, a, after, f, parts, -, refused, -⟩ := stopped
      obtain ⟨r, reads⟩ := readable a (by simp [parts])
      exact absurd reads (refused.not_reads r)

theorem exists_brings_of_ok {db' : Database}
    (h : as.foldlM (insertRead t path key) db = .ok db') :
    ∃ es, List.Forall₂ (Brings t path key) as es ∧ db' = db.insertAll es := by
  rcases foldlM_insertRead t path key as db with ⟨es, bring, done⟩ | ⟨_, _, _, _, -, -, -, failed⟩
  · exact ⟨es, bring, Except.ok.inj (h.symm.trans done)⟩
  · cases failed.symm.trans h

theorem exists_refuses_of_error {f : Failure}
    (h : as.foldlM (insertRead t path key) db = .error f) :
    ∃ before a after, as = before ++ a :: after ∧
      (∀ b ∈ before, ∃ r, t.Reads (path b) Record.parse? r) ∧
      t.Refuses (path a) Record.parse? f := by
  rcases foldlM_insertRead t path key as db with ⟨es, -, done⟩ | stopped
  · cases done.symm.trans h
  · obtain ⟨before, a, after, f', parts, read, refused, failed⟩ := stopped
    obtain rfl := Except.error.inj (h.symm.trans failed)
    exact ⟨before, a, after, parts, read, refused⟩

/-- Steps that pass over some of a list are steps for the others. The steps may rely on what they
keep. -/
theorem foldlM_filter_of_keeps {ε β : Type} {P : β → Prop} {step step' : β → α → Except ε β}
    {p : α → Bool}
    (agree : ∀ a ∈ as, ∀ b, P b → step b a = if p a then step' b a else .ok b)
    (keeps : ∀ b a b', P b → step' b a = .ok b' → P b') {b : β} (start : P b) :
    as.foldlM step b = (as.filter p).foldlM step' b := by
  induction as generalizing b with
  | nil => rfl
  | cons a as ih =>
    have later := fun a' ha' => agree a' (List.mem_cons_of_mem a ha')
    rw [List.foldlM_cons, agree a List.mem_cons_self b start]
    by_cases taken : p a = true
    · rw [if_pos taken, List.filter_cons_of_pos taken, List.foldlM_cons]
      cases next : step' b a with
      | error e => rfl
      | ok b' => exact ih later (keeps b a b' start next)
    · rw [if_neg taken, List.filter_cons_of_neg taken]
      exact ih later start

end Row

/-! ## The records put in -/

theorem records_insertAll (root : Path) (es : List (String × Record)) :
    ((empty root).insertAll es).records = Table.ofList es := by
  induction es using List.reverseRecOn with
  | nil => rfl
  | append_singleton es e ih =>
    rw [insertAll, List.foldl_append, Table.ofList, List.foldl_append, ← Table.ofList, ← ih]
    rfl

/-- The names of the records that are put in have the places of their first records. -/
theorem names_insertAll (root : Path) (es : List (String × Record)) :
    ((empty root).insertAll es).names = (es.map (·.1)).eraseDups := by
  rw [names, records_insertAll, Table.keys_ofList]

/-- Under every name the last record that is put in is found. -/
theorem find?_insertAll_iff {root : Path} {es : List (String × Record)} {name : String}
    {r : Record} : ((empty root).insertAll es).find? name = some r ↔
      ∃ before after, es = before ++ (name, r) :: after ∧ ∀ e ∈ after, e.1 ≠ name := by
  rw [find?, records_insertAll, Table.get?_ofList, List.lookup_eq_some_iff]
  constructor
  · rintro ⟨after, before, parts, later⟩
    refine ⟨before.reverse, after.reverse, ?_, fun e he => ?_⟩
    · simpa using congrArg List.reverse parts
    · have other := later e (List.mem_reverse.mp he)
      exact fun same => by simp [same] at other
  · rintro ⟨before, after, rfl, later⟩
    refine ⟨after.reverse, before.reverse, by simp, fun e he => ?_⟩
    simpa using (later e (List.mem_reverse.mp he)).symm

end Database

end Ambient
