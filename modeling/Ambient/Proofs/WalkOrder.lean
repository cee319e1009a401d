/-
  Loading without a listing: the order in which a walk meets the files of a tree, what their
  records are filed under, and what becomes of the database. Main statements:
  `Node.exists_walk_eq` (a walk meets every file once, in an order that only depends on the names
  on the way) and `Database.load_without_listing`.
-/
import Ambient.Proofs.ByteOrder
import Ambient.Proofs.ReadingFiles
import Ambient.Proofs.RecordNames
import Mathlib.Data.List.Lex
import Mathlib.Data.List.Sort

namespace Ambient

instance : DecidablePred Path.IsName := fun segment =>
  inferInstanceAs (Decidable (_ ∧ '/' ∉ segment))

namespace Node

/-! ## The order of a walk -/

/-- The order of depth-first walks: at the first directory where two ways part, the bytes of the
names decide. -/
def Precedes : Location → Location → Prop := List.Lex fun a b => bytesOf a < bytesOf b

instance : Std.Asymm Precedes :=
  have : Std.Asymm fun a b => bytesOf a < bytesOf b := ⟨fun _ _ before => List.lt_asymm before⟩
  List.Lex.asymm _

instance : DecidableRel Precedes := fun a b =>
  inferInstanceAs (Decidable (List.Lex (fun a b => bytesOf a < bytesOf b) a b))

/-- A tree that a walk gets through from the path of its root: every directory can be entered
and tells its entries apart, by names that a path can have. -/
inductive Walkable : Path → Node → Prop
  | file {root : Path} (bytes : ByteArray) : Walkable root (.file bytes)
  | directory {root : Path} {entries : List (String × Node)}
    (entered : FileFault.ofPath? root = none) (distinct : (entries.map (·.1)).Nodup)
    (named : ∀ e ∈ entries, Path.IsName e.1.toList)
    (below : ∀ e ∈ entries, Walkable (root.join (.ofString e.1)) e.2) :
    Walkable root (.directory entries)

variable {root : Path} {n : Node}

theorem get?_file_iff {own : ByteArray} {loc : Location} {m : Node} :
    (Node.file own).get? loc = some m ↔ loc = [] ∧ m = .file own := by
  cases loc with
  | nil => simp [get?, eq_comm]
  | cons first rest => simp [get?, child?]

theorem ne_nil_of_get?_file {entries : List (String × Node)} {loc : Location}
    {bytes : ByteArray} (found : (directory entries).get? loc = some (.file bytes)) :
    loc ≠ [] := by
  rintro rfl
  cases found

/-- The files of a directory are the files of its entries. -/
theorem get?_directory_eq_file_iff {entries : List (String × Node)}
    (distinct : (entries.map (·.1)).Nodup) {loc : Location} {bytes : ByteArray} :
    (directory entries).get? loc = some (.file bytes) ↔
      ∃ e ∈ entries, ∃ rest, loc = e.1 :: rest ∧ e.2.get? rest = some (.file bytes) := by
  constructor
  · intro found
    cases loc with
    | nil => cases found
    | cons name rest =>
      obtain ⟨c, entry, below⟩ := Option.bind_eq_some_iff.mp found
      exact ⟨_, (Table.lookup_eq_some_iff distinct).mp entry, rest, rfl, below⟩
  · rintro ⟨e, within, rest, rfl, below⟩
    rw [get?_cons, (Table.lookup_eq_some_iff distinct).mpr within]
    exact below

theorem Walkable.isName {loc : Location} {m : Node} (walkable : Walkable root n)
    (found : n.get? loc = some m) : ∀ name ∈ loc, Path.IsName name.toList := by
  induction walkable generalizing loc with
  | file bytes =>
    cases loc with
    | nil => exact nofun
    | cons first rest => cases found
  | @directory root entries entered distinct named below ih =>
    cases loc with
    | nil => exact nofun
    | cons first rest =>
      obtain ⟨c, entry, found⟩ := Option.bind_eq_some_iff.mp found
      have within := (Table.lookup_eq_some_iff distinct).mp entry
      exact List.forall_mem_cons.mpr ⟨named _ within, ih _ within found⟩

/-- In a directory that can be entered, a walk goes through the entries in the order of their
names. -/
theorem walk_directory {entries : List (String × Node)}
    (entered : FileFault.ofPath? root = none) : (directory entries).walk root =
      (entries.mergeSort fun a b => decide (a.1 ≤ b.1)).flatMap
        fun e => e.2.walk (root.join (.ofString e.1)) := by
  rw [walk, entered]
  dsimp only
  rw [walkEntries_eq_map, ← List.map_mergeSort (r := fun a b => decide (a.1 ≤ b.1)) (by simp),
    List.flatMap_map]

theorem pairwise_mergeSort_entries {entries : List (String × Node)}
    (distinct : (entries.map (·.1)).Nodup) :
    (entries.mergeSort fun a b => decide (a.1 ≤ b.1)).Pairwise
      fun a b => bytesOf a.1 < bytesOf b.1 := by
  have apart : (entries.mergeSort fun a b => decide (a.1 ≤ b.1)).Pairwise
      fun a b => a.1 ≠ b.1 := by
    refine List.pairwise_map.mp ?_
    exact ((List.mergeSort_perm entries _).map _).nodup_iff.mpr distinct
  exact (apart.and (pairwise_mergeSort_bytesOf _ entries)).imp
    fun ⟨differ, before⟩ => before.resolve_left differ

/-- A walk meets the files at all locations, each once and in order. -/
theorem exists_walk_eq (walkable : Walkable root n) : ∃ files : List (Location × ByteArray),
    n.walk root = files.map (fun f => .file (pathBelow root f.1) f.2) ∧
      (files.map (·.1)).Pairwise Precedes ∧
      ∀ loc bytes, (loc, bytes) ∈ files ↔ n.get? loc = some (.file bytes) := by
  induction walkable with
  | file own =>
    refine ⟨[([], own)], by rw [walk]; rfl, List.pairwise_singleton _ _, fun loc bytes => ?_⟩
    rw [get?_file_iff, List.mem_singleton, Prod.mk.injEq, file.injEq]
  | @directory root entries entered distinct named below ih =>
    choose! files walks ordered complete using ih
    have sorted := List.mergeSort_perm entries fun a b => decide (a.1 ≤ b.1)
    -- the files below an entry, seen from the directory
    let behind (e : String × Node) := (files e).map fun f => (e.1 :: f.1, f.2)
    refine ⟨(entries.mergeSort fun a b => decide (a.1 ≤ b.1)).flatMap behind, ?_, ?_, ?_⟩
    · rw [walk_directory entered, List.map_flatMap]
      refine List.flatMap_congr fun e he => ?_
      rw [walks e (sorted.mem_iff.mp he), List.map_map]
      rfl
    · rw [List.map_flatMap, List.pairwise_flatMap]
      constructor
      · intro e he
        rw [List.map_map]
        have later := List.pairwise_map.mp (ordered e (sorted.mem_iff.mp he))
        exact List.pairwise_map.mpr (later.imp fun before => .cons before)
      · refine (pairwise_mergeSort_entries distinct).imp fun before loc hloc loc' hloc' => ?_
        simp only [behind, List.map_map, List.mem_map] at hloc hloc'
        obtain ⟨f, -, rfl⟩ := hloc
        obtain ⟨f', -, rfl⟩ := hloc'
        exact .rel before
    · intro loc bytes
      rw [List.mem_flatMap, get?_directory_eq_file_iff distinct]
      constructor
      · rintro ⟨e, he, hf⟩
        obtain ⟨f, met, same⟩ := List.mem_map.mp hf
        obtain ⟨rfl, rfl⟩ := Prod.mk.inj same
        have within := sorted.mem_iff.mp he
        exact ⟨e, within, f.1, rfl, (complete e within f.1 f.2).mp met⟩
      · rintro ⟨e, within, rest, rfl, found⟩
        have met := (complete e within rest bytes).mpr found
        exact ⟨e, sorted.mem_iff.mpr within, List.mem_map.mpr ⟨_, met, rfl⟩⟩

end Node

namespace FileTree

open Ambient.Path

variable {t : FileTree} {root : Path} {n m : Node} {base loc : Location}

/-- Names are followed to what is found behind them. -/
theorem followAll_of_get? (there : t.root.get? base = some n) (found : n.get? loc = some m)
    (named : ∀ name ∈ loc, IsName name.toList) :
    t.followAll base (loc.map String.toList) = .ok (base ++ loc) := by
  induction loc generalizing base n with
  | nil => rw [List.append_nil]; rfl
  | cons name loc ih =>
    obtain ⟨c, entry, below⟩ := Option.bind_eq_some_iff.mp found
    cases n with
    | file bytes => cases entry
    | directory entries =>
      have next : t.root.get? (base ++ [name]) = some c := by
        rw [Node.get?_concat there]
        exact entry
      have first : t.follow base name.toList = .ok (base ++ [name]) := by
        have followed := follow_of_get? (named name List.mem_cons_self) there (c := c)
        rw [String.ofList_toList] at followed
        exact followed next
      have later := ih next below fun n hn => named n (List.mem_cons_of_mem _ hn)
      rw [List.append_assoc] at later
      rw [followAll, List.map_cons, List.foldlM_cons, first]
      exact later

/-- A file below a directory is read at the path that leads to it from there. -/
theorem readText_pathBelow {bytes : ByteArray} (there : t.find root = .ok n)
    (found : n.get? loc = some (.file bytes)) (below : loc ≠ [])
    (named : ∀ name ∈ loc, IsName name.toList) :
    t.readText (Node.pathBelow root loc) = readKnown (Node.pathBelow root loc) bytes := by
  obtain ⟨base, located, there⟩ := exists_locate_of_find there
  have named' : ∀ name ∈ loc.map String.toList, IsName name := by simpa using named
  have some_name : loc.map String.toList ≠ [] := by simpa using below
  have path_eq : Node.pathBelow root loc = root.join ⟨Text.join '/' (loc.map String.toList)⟩ :=
    joinAll_eq_join some_name named' root
  cases usable : FileFault.ofPath? (Node.pathBelow root loc) with
  | none =>
    have checked : (Node.pathBelow root loc).checked = .ok (Node.pathBelow root loc) := by
      rw [checked, usable]
    have located' : t.locate (Node.pathBelow root loc) = .ok (base ++ loc) := by
      rw [path_eq] at checked ⊢
      rw [locate_join located (isAbsolute_row named') checked, segments,
        Text.split_join some_name fun part hp => (named' part hp).2]
      exact followAll_of_get? there found named
    have file : t.root.get? (base ++ loc) = some (.file bytes) := by
      rw [Node.get?_append, there]
      exact found
    rw [readText_of_find (find_of_locate located' file), readKnown, checked]
    rfl
  | some fault =>
    have unchecked : (Node.pathBelow root loc).checked = .error fault := by
      rw [checked, usable]
    rw [readText, find, locate, readKnown, unchecked]
    rfl

end FileTree

namespace Database

open Ambient.Path

/-! ## Record files -/

theorem splitExtension_eq_some_iff {name extension : List Char} (no_dot : '.' ∉ extension) :
    (splitExtension name).2 = some extension ↔
      ∃ stem, stem ≠ [] ∧ name = stem ++ '.' :: extension := by
  constructor
  · intro h
    obtain ⟨init, last, parts⟩ :=
      List.eq_nil_or_concat _ |>.resolve_left (Text.split_ne_nil '.' name)
    rw [List.concat_eq_append] at parts
    rw [splitExtension, parts, List.dropLast_concat, List.getLast?_concat] at h
    split at h
    · cases h
    · next some_char =>
      obtain rfl := Option.some.inj h
      have some_part : init ≠ [] := by
        rintro rfl
        exact some_char rfl
      have single : Text.join '.' [last] = last := List.intercalate_singleton
      refine ⟨Text.join '.' init, by simpa using some_char, ?_⟩
      rw [← Text.join_split '.' name, parts, Text.join_append_cons '.' some_part, single]
  · rintro ⟨stem, some_char, rfl⟩
    rw [splitExtension_append some_char no_dot]

/-- A file is taken for a record if it has a name before the extension of records. -/
theorem isRecordPath_pathBelow_iff {root : Path} {loc : Location} (below : loc ≠ [])
    (named : ∀ name ∈ loc, IsName name.toList) :
    isRecordPath (Node.pathBelow root loc) = true ↔
      ∃ directories stem, loc = directories ++ [stem ++ ".json"] ∧ stem ≠ "" := by
  obtain ⟨directories, last, rfl⟩ := List.eq_nil_or_concat loc |>.resolve_left below
  rw [List.concat_eq_append] at named ⊢
  have own : IsName last.toList := named last (by simp)
  have path_eq : Node.pathBelow root (directories ++ [last]) =
      (Node.pathBelow root directories).join ⟨last.toList⟩ := by
    rw [Node.pathBelow, List.map_append, joinAll, List.foldl_append]
    rfl
  have ends : (Node.pathBelow root (directories ++ [last])).segments.getLast? =
      some last.toList := by
    rw [path_eq, getLast?_segments_join, segments, Text.split_of_not_mem own.2]
    rfl
  rw [isRecordPath, extension?, fileName?_of_getLast? ends own.1, Option.bind_some, beq_iff_eq,
    splitExtension_eq_some_iff (by decide)]
  constructor
  · rintro ⟨stem, some_char, parts⟩
    refine ⟨directories, String.ofList stem, ?_, by simpa using some_char⟩
    rw [List.append_cancel_left_eq, List.singleton_inj, ← String.toList_inj, parts]
    simp [recordExtension]
  · rintro ⟨directories', stem, parts, some_char⟩
    obtain ⟨-, parts⟩ := List.append_inj' parts rfl
    refine ⟨stem.toList, by simpa using some_char, ?_⟩
    rw [List.singleton_inj.mp parts]
    simp [recordExtension]

/-- The record files of a tree, in the order of a walk. -/
structure RecordFiles (n : Node) (files : List Location) : Prop where
  ordered : files.Pairwise Node.Precedes
  complete : ∀ loc, loc ∈ files ↔ ∃ directories stem bytes,
    loc = directories ++ [stem ++ ".json"] ∧ stem ≠ "" ∧ n.get? loc = some (.file bytes)

/-- A tree has its record files in one order only. -/
theorem RecordFiles.unique {n : Node} {files files' : List Location} (h : RecordFiles n files)
    (h' : RecordFiles n files') : files = files' :=
  h.ordered.eq_of_mem_iff h'.ordered fun loc => (h.complete loc).trans (h'.complete loc).symm

/-- The name that the record of a file is filed under: its own one or, if it has none, the one
that the place of the file gives it. -/
def filedName (root : Path) (loc : Location) (r : Record) : String :=
  r.name.getD (nameAt root (Node.pathBelow root loc))

theorem filedName_of_name {root : Path} {loc : Location} {r : Record} {name : String}
    (h : r.name = some name) : filedName root loc r = name := by
  rw [filedName, h, Option.getD_some]

/-- The components of a location stand behind those of the root. -/
theorem components_pathBelow {loc : Location} (named : ∀ name ∈ loc, IsName name.toList)
    (root : Path) : (Node.pathBelow root loc).components =
      root.components ++ (loc.map String.toList).map .name := by
  refine components_joinAll_names ?_ root
  rwa [List.forall_mem_map]

/-- The place of a file gives a dotted name: the directories and the file, without the
extension. The file name `..json` is left out, since a path that ends in it ends in `..` without
the extension. -/
theorem filedName_eq {root : Path} {directories : Location} {stem : String} {r : Record}
    (nameless : r.name = none)
    (named : ∀ name ∈ directories ++ [stem ++ ".json"], IsName name.toList)
    (some_char : stem ≠ "") (loud : stem ≠ ".") :
    filedName root (directories ++ [stem ++ ".json"]) r =
      ".".intercalate (directories ++ [stem]) := by
  have texts : (directories ++ [stem ++ ".json"]).map String.toList =
      directories.map String.toList ++ [stem.toList ++ '.' :: recordExtension] := by
    simp [recordExtension]
  have row := components_pathBelow named root
  rw [texts] at row
  have own : ∀ name ∈ directories.map String.toList ++ [stem.toList ++ '.' :: recordExtension],
      IsName name := by
    rw [← texts, List.forall_mem_map]
    exact named
  have loud' : stem.toList ≠ ['.'] := fun same => loud (String.toList_inj.mp same)
  rw [filedName, nameless, Option.getD_none,
    nameAt_of_components_eq row own (by simpa using some_char) loud', ← String.toList_inj,
    String.toList_ofList, String.toList_intercalate, List.map_append]
  rfl

/-! ## Loading -/

section Load

variable {t : FileTree} {root : Path} {entries : List (String × Node)}
  (there : t.find root = .ok (.directory entries))
include there

/-- What a walk meets in a record file is what is read there. -/
theorem addScanned_eq_insertRead {loc : Location} {bytes : ByteArray}
    (found : (Node.directory entries).get? loc = some (.file bytes))
    (named : ∀ name ∈ loc, IsName name.toList) {db : Database} (rooted : db.root = root) :
    addScanned db (.file (Node.pathBelow root loc) bytes) =
      if isRecordPath (Node.pathBelow root loc) = true then
        insertRead t (Node.pathBelow root) (filedName root) db loc
      else .ok db := by
  subst rooted
  rw [addScanned, ← FileTree.readText_pathBelow there found (Node.ne_nil_of_get?_file found) named]
  split
  · rw [insertRead, readRecord, bind_assoc]
    rfl
  · rfl

/-- Without a listing the record files are read in the order of a walk. -/
theorem exists_load_eq (unlisted : t.isFile (root.join listingName) = false)
    (walkable : Node.Walkable root (.directory entries)) :
    ∃ files, RecordFiles (.directory entries) files ∧ load t root =
      files.foldlM (insertRead t (Node.pathBelow root) (filedName root)) (empty root) := by
  obtain ⟨met, walk_eq, ordered, complete⟩ := Node.exists_walk_eq walkable
  let taken (f : Location × ByteArray) := isRecordPath (Node.pathBelow root f.1)
  refine ⟨(met.filter taken).map (·.1), ⟨?_, fun loc => ?_⟩, ?_⟩
  · exact ordered.sublist (List.filter_sublist.map _)
  · have record_iff : ∀ {bytes}, (Node.directory entries).get? loc = some (.file bytes) →
        (isRecordPath (Node.pathBelow root loc) = true ↔
          ∃ directories stem, loc = directories ++ [stem ++ ".json"] ∧ stem ≠ "") :=
      fun found => isRecordPath_pathBelow_iff (Node.ne_nil_of_get?_file found)
        (walkable.isName found)
    simp only [List.mem_map, List.mem_filter, Prod.exists, exists_and_right, exists_eq_right]
    constructor
    · rintro ⟨bytes, within, record⟩
      have found := (complete loc bytes).mp within
      obtain ⟨directories, stem, parts, some_char⟩ := (record_iff found).mp record
      exact ⟨directories, stem, bytes, parts, some_char, found⟩
    · rintro ⟨directories, stem, bytes, parts, some_char, found⟩
      have record := (record_iff found).mpr ⟨directories, stem, parts, some_char⟩
      exact ⟨bytes, (complete loc bytes).mpr found, record⟩
  · rw [load, there]
    dsimp only
    rw [unlisted, if_neg Bool.false_ne_true, walk_eq, List.foldlM_map, List.foldlM_map]
    refine foldlM_filter_of_keeps (P := fun db => db.root = root) (fun f hf db rooted => ?_)
      (fun _ _ _ rooted read => (root_insertRead read).trans rooted) rfl
    have found := (complete f.1 f.2).mp hf
    exact addScanned_eq_insertRead there found (walkable.isName found) rooted

/-- Without a listing, every file below the root with the extension of records has to hold one.
Loading then puts these records in as a walk meets them, depth first and siblings by the bytes of
their names, each under its own name or, if it has none, under the dotted way to its file. So a
name stands where the first file brings it, and has the record of the last. Otherwise loading
fails for the first file without a record, with a failure that names it. -/
theorem load_without_listing (unlisted : t.isFile (root.join listingName) = false)
    (walkable : Node.Walkable root (.directory entries)) :
    ∃ files, RecordFiles (.directory entries) files ∧
      ((∃ db, load t root = .ok db) ↔
        ∀ loc ∈ files, ∃ r, t.Reads (Node.pathBelow root loc) Record.parse? r) ∧
      (∀ db, load t root = .ok db → ∃ es,
        List.Forall₂ (Brings t (Node.pathBelow root) (filedName root)) files es ∧
        db = (empty root).insertAll es ∧ db.names = (es.map (·.1)).eraseDups ∧
        ∀ name r, db.find? name = some r ↔
          ∃ before after, es = before ++ (name, r) :: after ∧ ∀ e ∈ after, e.1 ≠ name) ∧
      (∀ f, load t root = .error f → ∃ before loc after, files = before ++ loc :: after ∧
        (∀ l ∈ before, ∃ r, t.Reads (Node.pathBelow root l) Record.parse? r) ∧
        t.Refuses (Node.pathBelow root loc) Record.parse? f ∧
        f.Names (Node.pathBelow root loc)) ∧
      ∀ directories stem r, directories ++ [stem ++ ".json"] ∈ files → stem ≠ "." →
        r.name = none → filedName root (directories ++ [stem ++ ".json"]) r =
          ".".intercalate (directories ++ [stem]) := by
  obtain ⟨files, recordFiles, load_eq⟩ := exists_load_eq there unlisted walkable
  refine ⟨files, recordFiles, ?_, fun db loaded => ?_, fun f failed => ?_, ?_⟩
  · rw [load_eq, foldlM_insertRead_ok_iff]
  · obtain ⟨es, bring, rfl⟩ := exists_brings_of_ok (load_eq ▸ loaded)
    exact ⟨es, bring, rfl, names_insertAll root es, fun _ _ => find?_insertAll_iff⟩
  · obtain ⟨before, loc, after, parts, read, refused⟩ := exists_refuses_of_error (load_eq ▸ failed)
    exact ⟨before, loc, after, parts, read, refused, refused.names⟩
  · intro directories stem r within loud nameless
    obtain ⟨directories', stem', bytes, parts, some_char, found⟩ :=
      (recordFiles.complete _).mp within
    obtain ⟨-, last⟩ := List.append_inj' parts rfl
    obtain rfl := (String.append_left_inj _).mp (List.singleton_inj.mp last)
    exact filedName_eq nameless (walkable.isName found) some_char loud

end Load

/-- A record of `x.Y`. -/
def firstRecord : String := "\x7b\"className\": \"x.Y\"\x7d"

/-- A record that takes its place. -/
def laterRecord : String := "\x7b\"className\": \"x.Y\", \"superClass\": \"x.Z\"\x7d"

/-- The entries of a directory with both records, a record without a name, a directory with the
extension of records, and a file without it. -/
def scannedEntries : List (String × Node) :=
  [("a.json", .file laterRecord.toUTF8), ("note", .file "".toUTF8),
    ("a", .directory [("d.json", .file "\x7b\x7d".toUTF8), ("c.json", .directory []),
      ("B.json", .file firstRecord.toUTF8)])]

/-- A tree with this directory at `m`. -/
def scannedTree : FileTree := ⟨.directory [("m", .directory scannedEntries)], []⟩

theorem walkable_scannedEntries :
    Node.Walkable (.ofString "m") (.directory scannedEntries) := by
  refine .directory (by decide +kernel) (by decide) (by decide +kernel) ?_
  simp only [scannedEntries, List.forall_mem_cons]
  refine ⟨.file _, .file _, ?_, nofun⟩
  refine .directory (by decide +kernel) (by decide) (by decide +kernel) ?_
  simp only [List.forall_mem_cons]
  exact ⟨.file _, .directory (by decide +kernel) .nil nofun nofun, .file _, nofun⟩

theorem file_scannedEntries_iff {loc : Location} {bytes : ByteArray} :
    (Node.directory scannedEntries).get? loc = some (.file bytes) ↔
      loc = ["a.json"] ∧ bytes = laterRecord.toUTF8 ∨ loc = ["note"] ∧ bytes = "".toUTF8 ∨
      loc = ["a", "d.json"] ∧ bytes = "\x7b\x7d".toUTF8 ∨
      loc = ["a", "B.json"] ∧ bytes = firstRecord.toUTF8 := by
  simp (disch := decide) only [scannedEntries, Node.get?_directory_eq_file_iff,
    Node.get?_file_iff, List.mem_cons, List.not_mem_nil, or_false, exists_eq_or_imp,
    exists_eq_left, Node.file.injEq]
  grind

theorem recordFiles_scannedEntries : RecordFiles (.directory scannedEntries)
    [["a", "B.json"], ["a", "d.json"], ["a.json"]] where
  ordered := by decide +kernel
  complete := by
    simp only [file_scannedEntries_iff]
    intro loc
    constructor
    · simp only [List.mem_cons, List.not_mem_nil, or_false]
      rintro (rfl | rfl | rfl)
      · exact ⟨["a"], "B", firstRecord.toUTF8, rfl, by decide, by simp⟩
      · exact ⟨["a"], "d", "\x7b\x7d".toUTF8, rfl, by decide, by simp⟩
      · exact ⟨[], "a", laterRecord.toUTF8, rfl, by decide, by simp⟩
    · rintro ⟨directories, stem, bytes, parts, -, file⟩
      have ends : (loc.getLast?.bind fun name => name.toList.getLast?) = some 'n' := by
        rw [parts]
        simp
      rcases file with ⟨rfl, -⟩ | ⟨rfl, -⟩ | ⟨rfl, -⟩ | ⟨rfl, -⟩
      · simp
      · simp at ends
      · simp
      · simp

theorem load_without_listing_twice_named :
    (scannedTree.find (.ofString "m") = .ok (.directory scannedEntries) ∧
      scannedTree.isFile ((Path.ofString "m").join listingName) = false ∧
      Node.Walkable (.ofString "m") (.directory scannedEntries)) ∧
      ∃ db r, load scannedTree (.ofString "m") = .ok db ∧ db.names = ["x.Y", "a.d"] ∧
        Record.parse? laterRecord = some r ∧ db.find? "x.Y" = some r := by
  have there : scannedTree.find (.ofString "m") = .ok (.directory scannedEntries) := by rfl
  have unlisted : scannedTree.isFile ((Path.ofString "m").join listingName) = false := by
    decide +kernel
  refine ⟨⟨there, unlisted, walkable_scannedEntries⟩, ?_⟩
  obtain ⟨files, recordFiles, succeeds, database, -, dotted⟩ :=
    load_without_listing there unlisted walkable_scannedEntries
  obtain rfl := recordFiles.unique recordFiles_scannedEntries
  have parsed : (Record.parse? firstRecord).any (·.name = some "x.Y") = true := by decide +kernel
  have parsed' : (Record.parse? laterRecord).any (·.name = some "x.Y") = true := by decide +kernel
  have parsed'' : (Record.parse? "\x7b\x7d").any (·.name = none) = true := by decide +kernel
  obtain ⟨r, value, named⟩ := (Option.any_eq_true _ _).mp parsed
  obtain ⟨r', value', named'⟩ := (Option.any_eq_true _ _).mp parsed'
  obtain ⟨r'', value'', named''⟩ := (Option.any_eq_true _ _).mp parsed''
  have reads : scannedTree.Reads (Node.pathBelow (.ofString "m") ["a", "B.json"])
      Record.parse? r := FileTree.reads_of_find (by rfl) value
  have reads' : scannedTree.Reads (Node.pathBelow (.ofString "m") ["a.json"])
      Record.parse? r' := FileTree.reads_of_find (by rfl) value'
  have reads'' : scannedTree.Reads (Node.pathBelow (.ofString "m") ["a", "d.json"])
      Record.parse? r'' := FileTree.reads_of_find (by rfl) value''
  obtain ⟨db, loaded⟩ := succeeds.mpr (by
    simp only [List.forall_mem_cons]
    exact ⟨⟨r, reads⟩, ⟨r'', reads''⟩, ⟨r', reads'⟩, nofun⟩)
  obtain ⟨es, bring, rfl, names, found⟩ := database db loaded
  have es_eq : es = [("x.Y", r), ("a.d", r''), ("x.Y", r')] := by
    refine rightUnique_brings.forall₂ bring ?_
    refine .cons ⟨reads, ?_⟩ (.cons ⟨reads'', ?_⟩ (.cons ⟨reads', ?_⟩ .nil))
    · exact (filedName_of_name (of_decide_eq_true named)).symm
    · exact (dotted ["a"] "d" r'' (by decide) (by decide) (of_decide_eq_true named'')).symm
    · exact (filedName_of_name (of_decide_eq_true named')).symm
  subst es_eq
  refine ⟨_, r', loaded, names, value', (found "x.Y" r').mpr ⟨[_, _], [], rfl, ?_⟩⟩
  exact fun _ he => absurd he List.not_mem_nil

end Database

end Ambient
