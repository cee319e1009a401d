/-
  Databases with and without a listing: a directory in which every record lies in the place of
  its name is loaded alike by a walk and by a listing. Main statement:
  `Shelf.loads_alike_with_listing`.
-/
import Ambient.Proofs.FileTrees

namespace Ambient.Database

open Ambient.Path

/-! ## Records in their places -/

/-- A file below the root of a database holds the record of a class and lies where the name of
the class leads. -/
structure Holds (t : FileTree) (root : Path) (location file : Location) (bytes : ByteArray)
    (name : String) (r : Record) : Prop where
  plain : IsPlain name
  placed : t.locate (recordPath root name) = .ok (location ++ file)
  read : ∃ s, FileTree.decode bytes = .ok s ∧ Record.parse? s = some r
  named : r.name = some name

/-- A directory with a database that has no listing. A walk can enter all directories below it,
and every record file that is found there holds a record in its place. -/
structure Shelf (t : FileTree) (root : Path) where
  location : Location
  entries : List (String × Node)
  located : t.locate root = .ok location
  there : t.root.get? location = some (.directory entries)
  tidy : (Node.directory entries).Tidy
  entered : ∀ p f, .barred p f ∉ (Node.directory entries).walk root
  unlisted : t.find (root.join listingName) = .error .notFound
  filled : ∀ file bytes, (Node.directory entries).get? file = some (.file bytes) →
    isRecordPath (Node.pathBelow root file) = true →
      ∃ name r, Holds t root location file bytes name r

variable {t : FileTree} {root : Path}

/-- The record of a plain name that is found lies at the location that the name spells out. -/
theorem Holds.pathBelow_eq {location file : Location} {bytes : ByteArray} {name : String}
    {r : Record} (h : Holds t root location file bytes name r)
    (located : t.locate root = .ok location) :
    Node.pathBelow root file = recordPath root name := by
  have names : ∀ segment ∈ recordNames name, IsName segment :=
    fun _ hs => isName_of_mem_recordNames h.plain hs
  have placed := h.placed
  have usable := (FileTree.locate_eq_ok.mp placed).1
  rw [recordPath_eq_join h.plain] at placed usable
  rw [FileTree.locate_join located (isAbsolute_row names) usable, segments,
    Text.split_join (by simp [recordNames]) fun part hp => (names part hp).2] at placed
  have spelled := List.append_cancel_left (FileTree.eq_append_of_followAll names placed)
  rw [Node.pathBelow, spelled, List.map_map, recordPath_eq_joinAll h.plain]
  congr 1
  simp

/-- The bytes of a file hold one record only. -/
theorem Holds.record_eq {location file : Location} {bytes : ByteArray} {name name' : String}
    {r r' : Record} (h : Holds t root location file bytes name r)
    (h' : Holds t root location file bytes name' r') : r = r' := by
  obtain ⟨s, text, parsed⟩ := h.read
  obtain ⟨s', text', parsed'⟩ := h'.read
  obtain rfl := Except.ok.inj (text.symm.trans text')
  exact Option.some.inj (parsed.symm.trans parsed')

namespace Shelf

/-- The tree with a listing put into the directory. -/
def withListing (d : Shelf t root) (bytes : ByteArray) : FileTree :=
  t.put (d.location ++ [listingName.text]) (.file bytes)

/-- A record file holds the record of a name. -/
def Filed (d : Shelf t root) (name : String) (r : Record) : Prop :=
  ∃ file bytes, (Node.directory d.entries).get? file = some (.file bytes) ∧
    isRecordPath (Node.pathBelow root file) = true ∧
      Holds t root d.location file bytes name r

variable (d : Shelf t root) {name : String} {r : Record} {bytes : ByteArray}

/-- A name has one record at most: its place is one file. -/
theorem Filed.unique {d : Shelf t root} {r' : Record} (h : d.Filed name r) (h' : d.Filed name r') :
    r = r' := by
  obtain ⟨file, bytes, found, -, holds⟩ := h
  obtain ⟨file', bytes', found', -, holds'⟩ := h'
  obtain rfl := List.append_cancel_left
    (Except.ok.inj (holds.placed.symm.trans holds'.placed))
  obtain rfl := Node.file.inj (Option.some.inj (found.symm.trans found'))
  exact holds.record_eq holds'

theorem find_root : t.find root = .ok (.directory d.entries) :=
  FileTree.find_of_locate d.located d.there

/-- Records put in for just the filed names are found under them. -/
theorem find?_iff_filed {d : Shelf t root} {es : List (String × Record)}
    (h : ∀ name r, (name, r) ∈ es ↔ d.Filed name r) {name : String} {r : Record} :
    ((empty root).insertAll es).find? name = some r ↔ d.Filed name r := by
  rw [find?_insertAll fun n s s' hs hs' => ((h n s).mp hs).unique ((h n s').mp hs'), h]

/-! ## The walk -/

/-- A walk can read the record files that it meets. -/
theorem exists_read {file : Location} (h : Holds t root d.location file bytes name r) :
    ∃ s, FileTree.readKnown (Node.pathBelow root file) bytes = .ok s ∧
      Record.parse? s = some r := by
  obtain ⟨s, text, parsed⟩ := h.read
  have usable := (FileTree.locate_eq_ok.mp h.placed).1
  rw [h.pathBelow_eq d.located]
  exact ⟨s, bind_eq_ok.mpr ⟨_, usable, text⟩, parsed⟩

/-- What a walk takes from a record file is the record that the file holds. -/
theorem scanned?_eq {file : Location}
    (record : isRecordPath (Node.pathBelow root file) = true)
    (h : Holds t root d.location file bytes name r) :
    scanned? root (.file (Node.pathBelow root file) bytes) = some (name, r) := by
  obtain ⟨s, text, parsed⟩ := d.exists_read h
  rw [scanned?, if_pos record, text, Except.toOption, Option.bind_some, parsed,
    Option.map_some, h.named, Option.getD_some]

theorem mem_scanned_iff :
    (name, r) ∈ ((Node.directory d.entries).walk root).filterMap (scanned? root) ↔
      d.Filed name r := by
  rw [List.mem_filterMap]
  constructor
  · rintro ⟨sighting, met, entry⟩
    cases sighting with
    | barred p f => cases entry
    | file p bytes =>
      obtain ⟨file, found, rfl⟩ := (Node.file_mem_walk_iff _ d.tidy d.entered).mp met
      by_cases record : isRecordPath (Node.pathBelow root file) = true
      · obtain ⟨n, r', holds⟩ := d.filled file bytes found record
        rw [d.scanned?_eq record holds] at entry
        obtain ⟨rfl, rfl⟩ := Prod.mk.inj (Option.some.inj entry)
        exact ⟨file, bytes, found, record, holds⟩
      · rw [scanned?, if_neg record] at entry
        cases entry
  · rintro ⟨file, bytes, found, record, holds⟩
    exact ⟨_, (Node.file_mem_walk_iff _ d.tidy d.entered).mpr ⟨file, found, rfl⟩,
      d.scanned?_eq record holds⟩

/-- Without a listing, the record files bring their records. -/
theorem load_scanned : load t root = .ok ((empty root).insertAll
    (((Node.directory d.entries).walk root).filterMap (scanned? root))) := by
  refine load_scanned_eq d.find_root ?_ d.entered fun p bytes met record => ?_
  · rw [FileTree.isFile, d.unlisted]
  · obtain ⟨file, found, rfl⟩ := (Node.file_mem_walk_iff _ d.tidy d.entered).mp met
    obtain ⟨name, r, holds⟩ := d.filled file bytes found record
    obtain ⟨s, text, parsed⟩ := d.exists_read holds
    exact ⟨s, r, text, parsed⟩

/-! ## The listing -/

theorem isName_listing : IsName listingName.chars :=
  .of_mem (c := 'd') (by decide) (by decide) (by decide)

theorem usable_listing (d : Shelf t root) :
    (root.join listingName).checked = .ok (root.join listingName) := by
  refine FileTree.checked_of_find_notFound d.unlisted ?_
  rw [join_eq_append root isName_listing.isAbsolute_eq_false]
  exact List.append_ne_nil_of_right_ne_nil _ isName_listing.ne_nil

theorem fresh : d.entries.lookup listingName.text = none := by
  cases entry : d.entries.lookup listingName.text with
  | none => rfl
  | some c =>
    have there := (Node.get?_concat d.there listingName.text).trans entry
    have located := FileTree.locate_join_name d.located d.there isName_listing there
      d.usable_listing
    cases d.unlisted.symm.trans (FileTree.find_of_locate located there)

theorem keeps_withListing (bytes : ByteArray) : t.root.Keeps (d.withListing bytes).root :=
  Node.keeps_put d.there d.fresh

theorem locate_withListing {p : Path} {loc : Location} (h : t.locate p = .ok loc) :
    (d.withListing bytes).locate p = .ok loc :=
  FileTree.locate_of_keepsKinds (d.keeps_withListing bytes).keepsKinds rfl h

/-- Files stay where they are. -/
theorem find_withListing (bytes : ByteArray) {p : Path} {loc : Location} {own : ByteArray}
    (h : t.locate p = .ok loc) (there : t.root.get? loc = some (.file own)) :
    (d.withListing bytes).find p = .ok (.file own) := by
  obtain ⟨m, found, rfl | ⟨directory, -⟩⟩ := d.keeps_withListing bytes loc _ there
  · exact FileTree.find_of_locate (d.locate_withListing h) found
  · cases directory

theorem exists_directory_withListing (bytes : ByteArray) : ∃ entries,
    (d.withListing bytes).root.get? d.location = some (.directory entries) :=
  (d.keeps_withListing bytes).keepsKinds.exists_directory d.there

theorem find_listing (bytes : ByteArray) :
    (d.withListing bytes).find (root.join listingName) = .ok (.file bytes) := by
  obtain ⟨entries, there⟩ := d.exists_directory_withListing bytes
  have listing : (d.withListing bytes).root.get? (d.location ++ [listingName.text]) =
      some (.file bytes) := Node.get?_put ⟨d.entries, d.there⟩
  exact FileTree.find_of_locate (FileTree.locate_join_name (d.locate_withListing d.located) there
    isName_listing listing d.usable_listing) listing

/-- The record of a filed name is read from its place, with a listing as without. -/
theorem readRecord_withListing {d : Shelf t root} (bytes : ByteArray) (h : d.Filed name r) :
    (d.withListing bytes).isFile (recordPath root name) = true ∧
      readRecord (d.withListing bytes) (recordPath root name) = .ok r := by
  obtain ⟨file, own, found, -, holds⟩ := h
  obtain ⟨s, text, parsed⟩ := holds.read
  have there : t.root.get? (d.location ++ file) = some (.file own) := by
    rw [Node.get?_append, d.there]
    exact found
  have known := d.find_withListing bytes holds.placed there
  refine ⟨FileTree.isFile_of_find known, ?_⟩
  rw [readRecord, FileTree.readText_of_find known, text]
  refine bind_eq_ok.mpr ⟨s, rfl, ?_⟩
  rw [parseRecord, parse, parsed]

theorem listed?_eq {d : Shelf t root} (h : d.Filed name r) :
    listed? (d.withListing bytes) root name = some (name, r) := by
  obtain ⟨there, read⟩ := readRecord_withListing bytes h
  rw [listed?, if_pos there, read]
  rfl

/-- A listing of the directory's classes: it names every filed name, and no other name that
leads to a file, the listing itself included. -/
structure Lists (d : Shelf t root) (bytes : ByteArray) (names : List String) : Prop where
  text : ∃ s, FileTree.decode bytes = .ok s ∧ (Json.parse? s).bind listing.read = some names
  complete : ∀ name r, d.Filed name r → name ∈ names
  further : ∀ name ∈ names, (∃ r, d.Filed name r) ∨
    (d.withListing bytes).isFile (recordPath root name) = false

variable {d : Shelf t root} {names : List String}

theorem mem_listed_iff (listed : d.Lists bytes names) :
    (name, r) ∈ names.filterMap (listed? (d.withListing bytes) root) ↔ d.Filed name r := by
  rw [List.mem_filterMap]
  constructor
  · rintro ⟨n, hn, entry⟩
    rcases listed.further n hn with ⟨r', filed⟩ | no_file
    · rw [listed?_eq filed] at entry
      obtain ⟨rfl, rfl⟩ := Prod.mk.inj (Option.some.inj entry)
      exact filed
    · rw [listed?, no_file] at entry
      cases entry
  · intro filed
    exact ⟨name, listed.complete name r filed, listed?_eq filed⟩

/-- With a listing, the listed names that are filed bring their records. -/
theorem load_listed (listed : d.Lists bytes names) :
    load (d.withListing bytes) root = .ok ((empty root).insertAll
      (names.filterMap (listed? (d.withListing bytes) root))) := by
  obtain ⟨entries, there⟩ := d.exists_directory_withListing bytes
  have at_listing := d.find_listing bytes
  obtain ⟨s, text, parsed⟩ := listed.text
  refine load_listed_eq (FileTree.find_of_locate (d.locate_withListing d.located) there)
    (FileTree.isFile_of_find at_listing) ?_ fun name hn is_file => ?_
  · rw [readListing, FileTree.readText_of_find at_listing, text]
    refine bind_eq_ok.mpr ⟨s, rfl, ?_⟩
    rw [parse, parsed]
  · rcases listed.further name hn with ⟨r, filed⟩ | no_file
    · exact ⟨r, (readRecord_withListing bytes filed).2⟩
    · exact absurd is_file (by simp [no_file])

/-- A directory in which every record lies in its place is loaded with a listing of its classes
as it is without one: both ways succeed and find for every name just the record that is filed
under it, in whatever order and however often the listing has the names. -/
theorem loads_alike_with_listing (listed : d.Lists bytes names) :
    ∃ db db', load t root = .ok db ∧ load (d.withListing bytes) root = .ok db' ∧
      db.find? = db'.find? ∧ ∀ name r, db.find? name = some r ↔ d.Filed name r := by
  have scanned (name : String) (r : Record) :
      ((empty root).insertAll
        (((Node.directory d.entries).walk root).filterMap (scanned? root))).find? name = some r ↔
        d.Filed name r :=
    find?_iff_filed fun _ _ => d.mem_scanned_iff
  refine ⟨_, _, d.load_scanned, load_listed listed, funext fun name => Option.ext fun r => ?_,
    scanned⟩
  rw [scanned, find?_iff_filed fun _ _ => mem_listed_iff listed]

/-- The text of a record of `a.B`. -/
def noteRecord : String := "\x7b\"className\": \"a.B\"\x7d"

/-- A listing with a name that has no file and a name that is listed twice. -/
def noteListing : String := "\x7b\"classnames\": [\"b.Gone\", \"a.B\", \"a.B\"]\x7d"

/-- The entries of a directory with the record of `a.B` and a file that is no record. -/
def noteEntries : List (String × Node) :=
  [("a", .directory [("B.json", .file noteRecord.toUTF8)]), ("note", .file "".toUTF8)]

/-- A tree with this directory at `m`. -/
def noteTree : FileTree := ⟨.directory [("m", .directory noteEntries)], []⟩

theorem eq_of_get?_noteEntries {loc : Location} {n : Node}
    (h : (Node.directory noteEntries).get? loc = some n) :
    loc = [] ∧ n = .directory noteEntries ∨
      loc = ["a"] ∧ n = .directory [("B.json", .file noteRecord.toUTF8)] ∨
      loc = ["a", "B.json"] ∧ n = .file noteRecord.toUTF8 ∨
      loc = ["note"] ∧ n = .file "".toUTF8 := by
  have no_child : ∀ (bytes : ByteArray) (rest : Location) (m : Node),
      (Node.file bytes).get? rest = some m → rest = [] ∧ m = .file bytes := by
    intro bytes rest m found
    cases rest with
    | nil => exact ⟨rfl, (Option.some.inj found).symm⟩
    | cons _ _ => cases found
  cases loc with
  | nil => exact .inl ⟨rfl, (Option.some.inj h).symm⟩
  | cons first rest =>
    rw [Node.get?_cons, noteEntries, Table.lookup_cons, Table.lookup_cons, List.lookup_nil] at h
    by_cases in_a : first = "a"
    · rw [if_pos in_a, Option.bind_some] at h
      cases rest with
      | nil => exact .inr (.inl ⟨by rw [in_a], (Option.some.inj h).symm⟩)
      | cons second rest =>
        rw [Node.get?_cons, Table.lookup_cons, List.lookup_nil] at h
        by_cases in_b : second = "B.json"
        · rw [if_pos in_b, Option.bind_some] at h
          obtain ⟨rfl, rfl⟩ := no_child _ _ _ h
          exact .inr (.inr (.inl ⟨by rw [in_a, in_b], rfl⟩))
        · rw [if_neg in_b] at h
          cases h
    · by_cases is_note : first = "note"
      · rw [if_neg in_a, if_pos is_note, Option.bind_some] at h
        obtain ⟨rfl, rfl⟩ := no_child _ _ _ h
        exact .inr (.inr (.inr ⟨by rw [is_note], rfl⟩))
      · rw [if_neg in_a, if_neg is_note] at h
        cases h

theorem tidy_noteEntries : (Node.directory noteEntries).Tidy := by
  intro loc entries there
  rcases eq_of_get?_noteEntries there with ⟨-, h⟩ | ⟨-, h⟩ | ⟨-, h⟩ | ⟨-, h⟩
  · obtain rfl := Node.directory.inj h
    decide
  · obtain rfl := Node.directory.inj h
    decide
  · cases h
  · cases h

theorem not_isRecordPath_note : isRecordPath (Node.pathBelow (.ofString "m") ["note"]) = false := by
  decide +kernel

/-- The record lies in its place. -/
theorem exists_holds_noteRecord : ∃ r,
    Holds noteTree (.ofString "m") ["m"] ["a", "B.json"] noteRecord.toUTF8 "a.B" r := by
  have parsed : (Record.parse? noteRecord).any (·.name = some "a.B") = true := by decide +kernel
  cases h : Record.parse? noteRecord with
  | none => simp [h] at parsed
  | some r =>
    exact ⟨r, by decide +kernel, by decide +kernel, ⟨noteRecord, FileTree.decode_toUTF8 _, h⟩,
      by simpa [h] using parsed⟩

/-- The directory as one in which every record lies in its place. -/
def noteShelf : Shelf noteTree (.ofString "m") where
  location := ["m"]
  entries := noteEntries
  located := by decide +kernel
  there := by rfl
  tidy := tidy_noteEntries
  entered := by
    refine Node.barred_not_mem_walk _ tidy_noteEntries fun loc entries there => ?_
    rcases eq_of_get?_noteEntries there with ⟨rfl, -⟩ | ⟨rfl, -⟩ | ⟨-, h⟩ | ⟨-, h⟩
    · decide +kernel
    · decide +kernel
    · cases h
    · cases h
  unlisted := FileTree.find_of_not_locate (by decide +kernel)
  filled := by
    intro file bytes found record
    rcases eq_of_get?_noteEntries found with ⟨-, h⟩ | ⟨-, h⟩ | ⟨rfl, h⟩ | ⟨rfl, -⟩
    · cases h
    · cases h
    · obtain ⟨r, holds⟩ := exists_holds_noteRecord
      exact ⟨"a.B", r, Node.file.inj h ▸ holds⟩
    · exact absurd record (by simp [not_isRecordPath_note])

theorem noteListing_lists :
    noteShelf.Lists noteListing.toUTF8 ["b.Gone", "a.B", "a.B"] where
  text := ⟨noteListing, FileTree.decode_toUTF8 _, by decide +kernel⟩
  complete := by
    rintro name r ⟨file, bytes, found, record, holds⟩
    rcases eq_of_get?_noteEntries found with ⟨-, h⟩ | ⟨-, h⟩ | ⟨rfl, h⟩ | ⟨rfl, -⟩
    · cases h
    · cases h
    · obtain rfl := Node.file.inj h
      obtain ⟨r', holds'⟩ := exists_holds_noteRecord
      obtain rfl := holds.record_eq holds'
      rw [Option.some.inj (holds.named.symm.trans holds'.named)]
      decide
    · exact absurd record (by simp [not_isRecordPath_note])
  further := by
    have no_file : (noteShelf.withListing noteListing.toUTF8).isFile
        (recordPath (.ofString "m") "b.Gone") = false := by decide +kernel
    obtain ⟨r, holds⟩ := exists_holds_noteRecord
    have filed : noteShelf.Filed "a.B" r :=
      ⟨["a", "B.json"], noteRecord.toUTF8, by rfl, by decide +kernel, holds⟩
    simp only [List.forall_mem_cons]
    exact ⟨.inr no_file, .inl ⟨r, filed⟩, .inl ⟨r, filed⟩, nofun⟩

theorem noteTree_loads_alike_with_listing :
    ∃ db db', load noteTree (.ofString "m") = .ok db ∧
      load (noteShelf.withListing noteListing.toUTF8) (.ofString "m") = .ok db' ∧
        db.find? = db'.find? ∧ ∀ name r, db.find? name = some r ↔ noteShelf.Filed name r :=
  loads_alike_with_listing noteListing_lists

end Shelf

end Ambient.Database
