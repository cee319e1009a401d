/-
  Loading step by step: what every step of loading a database keeps, it keeps as a whole, and
  what every step puts in is there in the end. Main statements: `root_load` (a loaded database is
  of the directory that it was loaded from), `load_listed_eq` and `load_scanned_eq` (the records
  that are put in) and `find?_insertAll` (what is found then).
-/
import Ambient.Database.Loading
import Mathlib.Data.List.Induction

namespace Ambient

/-! ## Steps that may fail -/

section Steps

variable {ε α β : Type}

theorem bind_eq_ok {x : Except ε α} {f : α → Except ε β} {b : β} :
    (x >>= f) = .ok b ↔ ∃ a, x = .ok a ∧ f a = .ok b := by
  cases x with
  | error e => simp [bind, Except.bind]
  | ok a => simp [bind, Except.bind]

/-- A result that passes a test is there. -/
theorem exists_ok_of_any {x : Except ε α} {p : α → Bool} (h : x.toOption.any p = true) :
    ∃ a, x = .ok a ∧ p a = true := by
  cases x with
  | error e => cases h
  | ok a => exact ⟨a, rfl, h⟩

theorem exists_error_of_isNone {x : Except ε α} (h : x.toOption.isNone = true) :
    ∃ e, x = .error e := by
  cases x with
  | error e => exact ⟨e, rfl⟩
  | ok a => cases h

theorem foldlM_keeps {P : β → Prop} {step : β → α → Except ε β}
    (keeps : ∀ b a b', P b → step b a = .ok b' → P b') {as : List α} {b b' : β} (start : P b)
    (h : as.foldlM step b = .ok b') : P b' := by
  induction as generalizing b with
  | nil => exact Except.ok.inj h ▸ start
  | cons a as ih =>
    rw [List.foldlM_cons] at h
    obtain ⟨next, first, rest⟩ := bind_eq_ok.mp h
    exact ih (keeps b a next start first) rest

end Steps

namespace Database

/-! ## The root -/

theorem root_addListed {t : FileTree} {db db' : Database} {name : String}
    (h : addListed t db name = .ok db') : db'.root = db.root := by
  rw [addListed] at h
  split at h
  · obtain ⟨r, -, inserted⟩ := bind_eq_ok.mp h
    exact Except.ok.inj inserted ▸ rfl
  · exact Except.ok.inj h ▸ rfl

theorem root_addScanned {db db' : Database} {s : Node.Sighting}
    (h : addScanned db s = .ok db') : db'.root = db.root := by
  cases s with
  | barred p f => cases h
  | file p bytes =>
    rw [addScanned] at h
    split at h
    · obtain ⟨s, -, read⟩ := bind_eq_ok.mp h
      obtain ⟨r, -, inserted⟩ := bind_eq_ok.mp read
      exact Except.ok.inj inserted ▸ rfl
    · exact Except.ok.inj h ▸ rfl

theorem root_load {t : FileTree} {root : Path} {db : Database} (h : load t root = .ok db) :
    db.root = root := by
  rw [load] at h
  split at h
  · dsimp only at h
    split at h
    · obtain ⟨names, -, loaded⟩ := bind_eq_ok.mp h
      exact foldlM_keeps (P := fun d => d.root = root)
        (fun _ _ _ same added => (root_addListed added).trans same) rfl loaded
    · exact foldlM_keeps (P := fun d => d.root = root)
        (fun _ _ _ same added => (root_addScanned added).trans same) rfl h
  · cases h

/-! ## Records put in -/

/-- The database with records put in one after the other. -/
def insertAll (db : Database) (es : List (String × Record)) : Database :=
  es.foldl (fun db e => db.insert e.1 e.2) db

theorem root_insertAll (db : Database) (es : List (String × Record)) :
    (db.insertAll es).root = db.root := by
  induction es generalizing db with
  | nil => rfl
  | cons e es ih => exact ih (db.insert e.1 e.2)

/-- If no name comes with two records, every name finds the one that it comes with. -/
theorem find?_insertAll {root : Path} {es : List (String × Record)}
    (single : ∀ name r r', (name, r) ∈ es → (name, r') ∈ es → r = r') {name : String}
    {r : Record} : ((empty root).insertAll es).find? name = some r ↔ (name, r) ∈ es := by
  induction es using List.reverseRecOn with
  | nil => simp [insertAll, find?, empty]
  | append_singleton es e ih =>
    obtain ⟨last, r'⟩ := e
    have before := ih fun n s s' hs hs' =>
      single n s s' (List.mem_append_left _ hs) (List.mem_append_left _ hs')
    rw [insertAll, List.foldl_append]
    show (((empty root).insertAll es).insert last r').find? name = some r ↔ _
    rw [find?_insert, List.mem_append, List.mem_singleton, Prod.mk.injEq]
    by_cases same : name = last
    · rw [if_pos same, Option.some.injEq]
      constructor
      · intro h
        exact .inr ⟨same, h.symm⟩
      · rintro (earlier | ⟨-, h⟩)
        · exact single last r' r (by simp) (List.mem_append_left _ (same ▸ earlier))
        · exact h.symm
    · rw [if_neg same, before]
      simp [same]

/-- Steps that put in at most one record each. -/
theorem foldlM_eq_insertAll {α : Type} {step : Database → α → Except Failure Database}
    {entryOf? : α → Option (String × Record)} {root : Path} {as : List α}
    (puts : ∀ a ∈ as, ∀ db : Database, db.root = root →
      step db a = .ok (db.insertAll (entryOf? a).toList)) {db : Database}
    (rooted : db.root = root) :
    as.foldlM step db = .ok (db.insertAll (as.filterMap entryOf?)) := by
  induction as generalizing db with
  | nil => rfl
  | cons a as ih =>
    rw [List.foldlM_cons, puts a List.mem_cons_self db rooted]
    have rest := ih (fun a' ha' => puts a' (List.mem_cons_of_mem _ ha'))
      ((db.root_insertAll (entryOf? a).toList).trans rooted)
    refine rest.trans ?_
    rw [List.filterMap_cons]
    cases entryOf? a <;> rfl

/-- What a listed name brings, if it has a file. -/
def listed? (t : FileTree) (root : Path) (name : String) : Option (String × Record) :=
  if t.isFile (recordPath root name) then
    (readRecord t (recordPath root name)).toOption.map fun r => (name, r)
  else none

/-- What a sighting brings, if it is a record file. -/
def scanned? (root : Path) : Node.Sighting → Option (String × Record)
  | .barred _ _ => none
  | .file p bytes =>
    if isRecordPath p then
      ((FileTree.readKnown p bytes).toOption.bind Record.parse?).map fun r =>
        (r.name.getD (nameAt root p), r)
    else none

theorem addListed_eq {t : FileTree} {db : Database} {name : String}
    (readable : t.isFile (recordPath db.root name) = true →
      ∃ r, readRecord t (recordPath db.root name) = .ok r) :
    addListed t db name = .ok (db.insertAll (listed? t db.root name).toList) := by
  rw [addListed, listed?]
  split
  · next there =>
    obtain ⟨r, read⟩ := readable there
    rw [read]
    rfl
  · rfl

theorem addScanned_eq {db : Database} {p : Path} {bytes : ByteArray}
    (readable : isRecordPath p = true →
      ∃ s r, FileTree.readKnown p bytes = .ok s ∧ Record.parse? s = some r) :
    addScanned db (.file p bytes) =
      .ok (db.insertAll (scanned? db.root (.file p bytes)).toList) := by
  rw [addScanned, scanned?]
  split
  · next record =>
    obtain ⟨s, r, read, parsed⟩ := readable record
    have parsed' : parseRecord p s = .ok r := by rw [parseRecord, parse, parsed]
    rw [read, Except.toOption, Option.bind_some, parsed]
    refine bind_eq_ok.mpr ⟨s, rfl, bind_eq_ok.mpr ⟨r, parsed', rfl⟩⟩
  · rfl

variable {t : FileTree} {root : Path} {entries : List (String × Node)}

/-- A listing brings the records of its names, if all that are there can be read. -/
theorem load_listed_eq {names : List String} (there : t.find root = .ok (.directory entries))
    (listed : t.isFile (root.join listingName) = true)
    (read : readListing t (root.join listingName) = .ok names)
    (readable : ∀ name ∈ names, t.isFile (recordPath root name) = true →
      ∃ r, readRecord t (recordPath root name) = .ok r) :
    load t root = .ok ((empty root).insertAll (names.filterMap (listed? t root))) := by
  rw [load, there]
  dsimp only
  rw [if_pos listed, read]
  refine foldlM_eq_insertAll (fun name hn db rooted => ?_) rfl
  subst rooted
  exact addListed_eq (readable name hn)

/-- A walk brings the records in the record files that it meets, if all of them can be read. -/
theorem load_scanned_eq (there : t.find root = .ok (.directory entries))
    (unlisted : t.isFile (root.join listingName) = false)
    (entered : ∀ p f, .barred p f ∉ (Node.directory entries).walk root)
    (readable : ∀ p bytes, .file p bytes ∈ (Node.directory entries).walk root →
      isRecordPath p = true →
        ∃ s r, FileTree.readKnown p bytes = .ok s ∧ Record.parse? s = some r) :
    load t root = .ok ((empty root).insertAll
      (((Node.directory entries).walk root).filterMap (scanned? root))) := by
  rw [load, there]
  dsimp only
  rw [if_neg (by simp [unlisted])]
  refine foldlM_eq_insertAll (fun s hs db rooted => ?_) rfl
  subst rooted
  cases s with
  | barred p f => exact absurd hs (entered p f)
  | file p bytes => exact addScanned_eq (readable p bytes hs)

end Database

end Ambient
