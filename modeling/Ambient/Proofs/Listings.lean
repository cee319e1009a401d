/-
  Loading from a listing: what a directory with a listing is loaded as, and where loading stops
  if it does not come to its end. Main statements: `Database.foldlM_addListed` (loading reads the
  files of the listed names) and `Database.load_with_listing`.
-/
import Ambient.Proofs.ReadingFiles

namespace Ambient

namespace FileTree

/-- The bytes of the file at a path, if there is one. -/
def bytes? (t : FileTree) (p : Path) : Option ByteArray :=
  match t.find p with
  | .ok (.file bytes) => some bytes
  | _ => none

variable {t t' : FileTree} {p : Path}

theorem isDirectory_iff :
    t.isDirectory p = true ↔ ∃ entries, t.find p = .ok (.directory entries) := by
  rw [isDirectory]
  split <;> simp_all

theorem isFile_eq_isSome_bytes? (t : FileTree) (p : Path) : t.isFile p = (t.bytes? p).isSome := by
  rw [isFile, bytes?]
  split <;> simp_all

theorem bytes?_eq_some_iff {bytes : ByteArray} :
    t.bytes? p = some bytes ↔ t.find p = .ok (.file bytes) := by
  rw [bytes?]
  split <;> simp_all

theorem bytes?_eq_none (h : t.isFile p = false) : t.bytes? p = none := by
  rwa [isFile_eq_isSome_bytes?, Option.isSome_eq_false_iff, Option.isNone_iff_eq_none] at h

theorem bytes?_eq_of_find {bytes : ByteArray} (h : t.find p = .ok (.file bytes))
    (h' : t'.find p = .ok (.file bytes)) : t.bytes? p = t'.bytes? p :=
  (bytes?_eq_some_iff.mpr h).trans (bytes?_eq_some_iff.mpr h').symm

/-- The text of a file depends on its bytes only. -/
theorem readText_eq_of_bytes? (there : t.isFile p = true) (same : t'.bytes? p = t.bytes? p) :
    t'.readText p = t.readText p := by
  rw [isFile_eq_isSome_bytes?] at there
  obtain ⟨bytes, found⟩ := Option.isSome_iff_exists.mp there
  rw [readText_of_find (bytes?_eq_some_iff.mp found),
    readText_of_find (bytes?_eq_some_iff.mp (same.trans found))]

end FileTree

namespace Database

variable {t t' : FileTree} {root : Path} {names : List String}

/-- The names in the text of a listing. -/
def parseListing? (s : String) : Option (List String) := (Json.parse? s).bind listing.read

/-- The listed names that have a file. -/
def filed (t : FileTree) (root : Path) (names : List String) : List String :=
  names.filter fun name => t.isFile (recordPath root name)

/-- Loading reads the files of the listed names. In another tree with the same files at their
paths it reads the same. -/
theorem foldlM_addListed (same : ∀ name ∈ names,
      t'.bytes? (recordPath root name) = t.bytes? (recordPath root name)) :
    names.foldlM (addListed t') (empty root) =
      (filed t root names).foldlM (insertRead t (recordPath root) fun name _ => name)
        (empty root) := by
  refine foldlM_filter_of_keeps (P := fun db => db.root = root) (fun name hn db rooted => ?_)
    (fun _ _ _ rooted read => (root_insertRead read).trans rooted) rfl
  subst rooted
  have agree := same name hn
  have alike : t'.isFile (recordPath db.root name) = t.isFile (recordPath db.root name) := by
    rw [FileTree.isFile_eq_isSome_bytes?, agree, ← FileTree.isFile_eq_isSome_bytes?]
  rw [addListed, alike]
  split
  · next there =>
    rw [insertRead, readRecord, readRecord, FileTree.readText_eq_of_bytes? there agree]
  · rfl

theorem map_fst_of_brings {path : String → Path} {es : List (String × Record)}
    (h : List.Forall₂ (Brings t path fun name _ => name) names es) : es.map (·.1) = names := by
  induction h with
  | nil => rfl
  | cons brings _ ih => rw [List.map_cons, ih, brings.2]

section Load

variable (there : t.isDirectory root = true) (listed : t.isFile (root.join listingName) = true)
include there listed

theorem load_eq_bind : load t root =
    (readListing t (root.join listingName) >>= fun names =>
      names.foldlM (addListed t) (empty root)) := by
  obtain ⟨entries, found⟩ := FileTree.isDirectory_iff.mp there
  rw [load, found]
  dsimp only
  rw [if_pos listed]

/-- A listing that cannot be read ends the loading. -/
theorem load_of_refuses {f : Failure}
    (refused : t.Refuses (root.join listingName) parseListing? f) : load t root = .error f := by
  have unread : readListing t (root.join listingName) = .error f := read_of_refuses refused
  rw [load_eq_bind there listed, unread]
  rfl

/-- After the listing the files of its names are read. -/
theorem load_of_reads (reads : t.Reads (root.join listingName) parseListing? names) :
    load t root = (filed t root names).foldlM (insertRead t (recordPath root) fun name _ => name)
      (empty root) := by
  have read : readListing t (root.join listingName) = .ok names := read_of_reads reads
  rw [load_eq_bind there listed, read]
  exact foldlM_addListed fun _ _ => rfl

/-- What is loaded has the listed names with a file, with the records there. -/
theorem names_and_find?_of_load (reads : t.Reads (root.join listingName) parseListing? names)
    {db : Database} (loaded : load t root = .ok db) :
    db.names = (filed t root names).eraseDups ∧
      ∀ name ∈ db.names, ∃ r, t.Reads (recordPath root name) Record.parse? r ∧
        db.find? name = some r := by
  rw [load_of_reads there listed reads] at loaded
  obtain ⟨es, bring, rfl⟩ := exists_brings_of_ok loaded
  refine ⟨by rw [names_insertAll, map_fst_of_brings bring], fun name hn => ?_⟩
  obtain ⟨r, found⟩ := Option.isSome_iff_exists.mp (Table.contains_iff.mpr hn)
  obtain ⟨before, after, rfl, -⟩ := find?_insertAll_iff.mp found
  obtain ⟨_, -, reads, rfl⟩ := exists_brings_of_mem bring (name, r) (by simp)
  exact ⟨r, reads, found⟩

/-- Loading reads the listing and the records of listed names, and no other file. -/
theorem load_congr (there' : t'.isDirectory root = true)
    (same : t'.bytes? (root.join listingName) = t.bytes? (root.join listingName))
    (alike : ∀ names, t.Reads (root.join listingName) parseListing? names → ∀ name ∈ names,
      t'.bytes? (recordPath root name) = t.bytes? (recordPath root name)) :
    load t' root = load t root := by
  have listed' : t'.isFile (root.join listingName) = true := by
    rw [FileTree.isFile_eq_isSome_bytes?, same, ← FileTree.isFile_eq_isSome_bytes?, listed]
  have listing : readListing t' (root.join listingName) =
      readListing t (root.join listingName) := by
    rw [readListing, readListing, FileTree.readText_eq_of_bytes? listed same]
  rw [load_eq_bind there' listed', listing]
  rcases t.reads_or_refuses (root.join listingName) parseListing? with ⟨names, reads⟩ | ⟨f, refused⟩
  · have read : readListing t (root.join listingName) = .ok names := read_of_reads reads
    rw [load_of_reads there listed reads, read]
    exact foldlM_addListed (alike names reads)
  · have unread : readListing t (root.join listingName) = .error f := read_of_refuses refused
    rw [load_of_refuses there listed refused, unread]
    rfl

end Load

/-- A directory with a listing is loaded just if the listing can be read and every listed name
that has a file has a record there. The database then has the listed names with a file, each at
the place where it is listed first, and for each of them the record in its file. Otherwise
loading fails for the listing or for the first listed name that has a file without a record, with
a failure that names the file. Files of other names make no difference. -/
theorem load_with_listing (there : t.isDirectory root = true)
    (listed : t.isFile (root.join listingName) = true) :
    ((∃ db, load t root = .ok db) ↔
      ∃ names, t.Reads (root.join listingName) parseListing? names ∧
        ∀ name ∈ filed t root names, ∃ r, t.Reads (recordPath root name) Record.parse? r) ∧
    (∀ names, t.Reads (root.join listingName) parseListing? names → ∀ db, load t root = .ok db →
      db.names = (filed t root names).eraseDups ∧
      ∀ name ∈ db.names, ∃ r, t.Reads (recordPath root name) Record.parse? r ∧
        db.find? name = some r) ∧
    (∀ f, load t root = .error f →
      t.Refuses (root.join listingName) parseListing? f ∧ f.Names (root.join listingName) ∨
      ∃ names before name after, t.Reads (root.join listingName) parseListing? names ∧
        filed t root names = before ++ name :: after ∧
        (∀ n ∈ before, ∃ r, t.Reads (recordPath root n) Record.parse? r) ∧
        t.Refuses (recordPath root name) Record.parse? f ∧ f.Names (recordPath root name)) ∧
    ∀ t' : FileTree, t'.isDirectory root = true →
      t'.bytes? (root.join listingName) = t.bytes? (root.join listingName) →
      (∀ names, t.Reads (root.join listingName) parseListing? names → ∀ name ∈ names,
        t'.bytes? (recordPath root name) = t.bytes? (recordPath root name)) →
      load t' root = load t root := by
  refine ⟨?_, fun names reads db loaded => names_and_find?_of_load there listed reads loaded,
    fun f failed => ?_, fun t' there' same alike => load_congr there listed there' same alike⟩
  · rcases t.reads_or_refuses (root.join listingName) parseListing? with
      ⟨names, reads⟩ | ⟨f, refused⟩
    · rw [load_of_reads there listed reads, foldlM_insertRead_ok_iff]
      constructor
      · exact fun readable => ⟨names, reads, readable⟩
      · rintro ⟨names', reads', readable⟩
        rwa [reads.unique reads']
    · rw [load_of_refuses there listed refused]
      exact ⟨nofun, fun ⟨names, reads, _⟩ => absurd reads (refused.not_reads names)⟩
  · rcases t.reads_or_refuses (root.join listingName) parseListing? with
      ⟨names, reads⟩ | ⟨f', refused⟩
    · rw [load_of_reads there listed reads] at failed
      obtain ⟨before, name, after, parts, read, refused⟩ := exists_refuses_of_error failed
      exact .inr ⟨names, before, name, after, reads, parts, read, refused, refused.names⟩
    · rw [load_of_refuses there listed refused] at failed
      obtain rfl := Except.error.inj failed
      exact .inl ⟨refused, refused.names⟩

/-- A listing with a name that has no file and a name that is listed twice. Another name leads to
the same file. -/
def aliasListing : String :=
  "\x7b\"classnames\": [\"b.Gone\", \"a.B\", \"a/B\", \"a.B\"]\x7d"

/-- A record that has another name than its file. -/
def strayRecord : String := "\x7b\"className\": \"x.Y\"\x7d"

/-- A tree with this listing and this record, and with further entries beside them. -/
def aliasTree (further : List (String × Node)) : FileTree :=
  ⟨.directory [("m", .directory (("db.json", .file aliasListing.toUTF8) ::
    ("a", .directory [("B.json", .file strayRecord.toUTF8)]) :: further))], []⟩

theorem find_aliasListing (further : List (String × Node)) :
    (aliasTree further).find ((Path.ofString "m").join listingName) =
      .ok (.file aliasListing.toUTF8) := by rfl

theorem reads_aliasListing (further : List (String × Node)) :
    (aliasTree further).Reads ((Path.ofString "m").join listingName) parseListing?
      ["b.Gone", "a.B", "a/B", "a.B"] :=
  FileTree.reads_of_find (find_aliasListing further) (by decide +kernel)

theorem find_aliasTree (further : List (String × Node)) : ∀ name ∈ ["a.B", "a/B"],
    (aliasTree further).find (recordPath (.ofString "m") name) =
      .ok (.file strayRecord.toUTF8) := by
  simp only [List.forall_mem_cons]
  exact ⟨by rfl, by rfl, nofun⟩

theorem exists_reads_strayRecord : ∃ r, r.name = some "x.Y" ∧ ∀ further, ∀ name ∈ ["a.B", "a/B"],
    (aliasTree further).Reads (recordPath (.ofString "m") name) Record.parse? r := by
  have parsed : (Record.parse? strayRecord).any (·.name = some "x.Y") = true := by decide +kernel
  obtain ⟨r, value, named⟩ := (Option.any_eq_true _ _).mp parsed
  exact ⟨r, of_decide_eq_true named, fun further name hn =>
    FileTree.reads_of_find (find_aliasTree further name hn) value⟩

theorem load_with_listing_alias :
    let root := Path.ofString "m"
    let t := aliasTree [("c.json", .file "\x7b".toUTF8)]
    (t.isDirectory root = true ∧ t.isFile (root.join listingName) = true) ∧
      (∃ db, load t root = .ok db ∧ db.names = ["a.B", "a/B"] ∧
        ∃ r, db.find? "a/B" = some r ∧ r.name = some "x.Y") ∧
      load (aliasTree []) root = load t root := by
  intro root t
  have there : t.isDirectory root = true := by decide +kernel
  have listed : t.isFile (root.join listingName) = true := by decide +kernel
  obtain ⟨succeeds, database, -, alone⟩ := load_with_listing there listed
  obtain ⟨r, named, record⟩ := exists_reads_strayRecord
  have reads := reads_aliasListing [("c.json", .file "\x7b".toUTF8)]
  have filed_eq : filed t root ["b.Gone", "a.B", "a/B", "a.B"] = ["a.B", "a/B", "a.B"] := by
    decide +kernel
  have readable : ∀ name ∈ filed t root ["b.Gone", "a.B", "a/B", "a.B"],
      ∃ r, t.Reads (recordPath root name) Record.parse? r := by
    rw [filed_eq]
    have alike := fun name hn => record [("c.json", .file "\x7b".toUTF8)] name hn
    simp only [List.forall_mem_cons] at alike ⊢
    exact ⟨⟨r, alike.1⟩, ⟨r, alike.2.1⟩, ⟨r, alike.1⟩, nofun⟩
  obtain ⟨db, loaded⟩ := succeeds.mpr ⟨_, reads, readable⟩
  obtain ⟨names, found⟩ := database _ reads db loaded
  have names_eq : db.names = ["a.B", "a/B"] := by
    rw [names, filed_eq]
    decide
  obtain ⟨r', reads', found'⟩ := found "a/B" (by simp [names_eq])
  obtain rfl := reads'.unique (record _ "a/B" (by simp))
  refine ⟨⟨there, listed⟩, ⟨db, loaded, names_eq, r', found', named⟩, ?_⟩
  have agree : ∀ name ∈ ["b.Gone", "a.B", "a/B", "a.B"],
      (aliasTree []).bytes? (recordPath root name) = t.bytes? (recordPath root name) := by
    have no_file : t.isFile (recordPath root "b.Gone") = false := by decide +kernel
    have no_file' : (aliasTree []).isFile (recordPath root "b.Gone") = false := by decide +kernel
    have alike : ∀ name ∈ ["a.B", "a/B"],
        (aliasTree []).bytes? (recordPath root name) = t.bytes? (recordPath root name) :=
      fun name hn =>
        FileTree.bytes?_eq_of_find (find_aliasTree _ name hn) (find_aliasTree _ name hn)
    simp only [List.forall_mem_cons] at alike ⊢
    refine ⟨?_, alike.1, alike.2.1, alike.1, nofun⟩
    rw [FileTree.bytes?_eq_none no_file, FileTree.bytes?_eq_none no_file']
  exact alone (aliasTree []) (by decide +kernel)
    (FileTree.bytes?_eq_of_find (find_aliasListing _) (find_aliasListing _))
    fun names' reads' name hn => agree name (reads'.unique reads ▸ hn)

end Database

end Ambient
