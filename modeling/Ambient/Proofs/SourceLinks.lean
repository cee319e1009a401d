/-
  Links to sources: the link in the comment blocks of a class, followed from the directory of
  the output. Main statement: `Writing.sourceLink_resolves_iff` (it leads to the source of the
  class if the way to that directory has no `..` behind the start that it shares with the way to
  the source; else it only does so by going up to the root).
-/
import Ambient.Proofs.Resolution
import Ambient.Proofs.Writing

namespace Ambient

open CommandLine

/-! ## Comment blocks -/

namespace Subject

open Declaration

/-- The line of a link in a comment block. -/
def linkLine (link : String) : String := indent ++ " * [source code](" ++ link ++ ")\n"

/-- The link is in the last but one line of every comment block. -/
theorem exists_commentBlock_eq {s : Subject} {link : String} (h : s.sourceLink? = some link)
    (description : Option String) :
    ∃ before, s.commentBlock description = before ++ linkLine link ++ (indent ++ " */\n") := by
  let above := (["/**"] ++ (description.map s.descriptionLines).getD [] ++ [" *"]).map (indent ++ ·)
  refine ⟨"\n".intercalate above ++ "\n", ?_⟩
  have lines : s.commentBlock description = "\n".intercalate
      (above ++ [indent ++ (" * [source code](" ++ link ++ ")"), indent ++ " */\n"]) := by
    rw [commentBlock, h]
    simp [above]
  rw [lines, String.intercalate_append_of_ne_nil (by simp [above]) (by simp),
    String.intercalate_cons_cons, String.intercalate_singleton, linkLine]
  simp only [String.append_assoc]
  rfl

end Subject

/-! ## Where links lead -/

/-- The source of a class: its file, seen from the directory of the database. -/
def sourcePath (args : Arguments) (cwd : Path) (file : String) : Path :=
  (cwd.join args.database).join (.ofString file)

namespace Writing

variable {t : FileTree} {args : Arguments} {cwd : Path}

/-- The link of a class is the way from the directory of the output to its source. -/
theorem sourceLink?_eq (w : Writing t args cwd) (absolute : cwd.isAbsolute = true) {dir : Path}
    (parent : w.output.parent? = some dir) {r : Record} {file : String}
    (filed : r.file = some file) (name : String) :
    (w.database.index.subject w.settings r name).sourceLink? =
      some (Path.relative dir (sourcePath args cwd file)).display := by
  have root : cwd.join w.database.index.root = cwd.join args.database := by
    have := w.root_database
    rw [Database.index, this, Path.join_of_isAbsolute _ (Path.isAbsolute_join absolute _)]
  have base := Settings.workingDir_resolve w.resolved
  have same_steps : (cwd.join (w.settings.output.parent?.getD .empty)).steps = dir.steps := by
    rw [← w.steps_directory, parent, Option.getD_some]
  have same_way : Path.relative (cwd.join (w.settings.output.parent?.getD .empty))
      (sourcePath args cwd file) = Path.relative dir (sourcePath args cwd file) := by
    rw [Path.relative, Path.relative, Path.stepsBetween, Path.stepsBetween, same_steps]
  rw [← same_way]
  simp only [Subject.sourceLink?, Index.subject, filed, base, root, Option.map_some,
    Option.getD_some, sourcePath]

/-- The link in the comment blocks of a class, put behind the directory of the output, leads to
the source of the class if the directory has no `..` behind the start that both share. If it
has one, the link only does so if the rest of the way to the source starts with so many `..`
that it leads there from the root as well. -/
theorem sourceLink_resolves_iff (w : Writing t args cwd) (absolute : cwd.isAbsolute = true)
    {r : Record} {file : String} (filed : r.file = some file) (name : String) :
    ∃ dir link, w.output.parent? = some dir ∧
      (∀ time, (generate t args cwd time).files =
        w.files.put w.location (.file (w.listing time).text.toUTF8)) ∧
      (∀ description, ∃ before,
        (w.database.index.subject w.settings r name).commentBlock description =
          before ++ Subject.linkLine link ++ (Declaration.indent ++ " */\n")) ∧
      ((dir.join (.ofString link)).resolved = (sourcePath args cwd file).resolved ↔
        .up ∉ (Path.dropCommon dir.steps (sourcePath args cwd file).steps).1 ∨
          Path.resolve (.root :: (Path.dropCommon dir.steps (sourcePath args cwd file).steps).2) =
            (sourcePath args cwd file).resolved) := by
  obtain ⟨dir, parent⟩ := w.exists_directory
  have link := w.sourceLink?_eq absolute parent filed name
  refine ⟨dir, _, parent, w.files_generate, Subject.exists_commentBlock_eq link, ?_⟩
  have dir_absolute : dir.isAbsolute = true := by
    have := w.steps_directory
    rw [parent, Option.getD_some] at this
    rw [← Path.root_mem_steps, this, Path.root_mem_steps]
    exact Path.isAbsolute_join absolute _
  have source_absolute : (sourcePath args cwd file).isAbsolute = true :=
    Path.isAbsolute_join (Path.isAbsolute_join absolute _) _
  exact Path.resolved_join_relative_iff dir_absolute source_absolute

/-- A tree with a database of one class, in the directory `meta` of the project `p`. -/
def projectTree : FileTree :=
  ⟨.directory [("p", .directory [("meta", .directory [("a", .directory [("B.json",
    .file "\x7b\"className\": \"a.B\", \"classFilename\": \"a/B.js\"\x7d".toUTF8)])])])], []⟩

/-- Arguments that name the database of the project and an output. -/
def projectArguments (output : String) : Arguments :=
  ⟨.ofString "meta", some (.ofString output), none, none, false, false, false, 0⟩

/-- The source of the class in the project. -/
def projectSource (output : String) : Path :=
  sourcePath (projectArguments output) (.ofString "/p") "a/B.js"

/-- A run in the project that makes the directory of its output. -/
theorem exists_project (output : String)
    (settled : (Settings.resolve projectTree (projectArguments output)
      (.ofString "/p")).toOption.any (·.output = .ofString output) = true)
    (opened : (projectTree.createDirectory (((Path.ofString "/p").join
      (.ofString output)).parent?.getD .empty)).toOption.any (fun files =>
        (files.outputLocation ((Path.ofString "/p").join (.ofString output))).toOption.isSome) =
          true) :
    ∃ (w : Writing projectTree (projectArguments output) (.ofString "/p")) (r : Record),
      w.database.find? "a.B" = some r ∧ r.file = some "a/B.js" ∧
        w.settings.output = .ofString output := by
  obtain ⟨db, loaded, stored⟩ := exists_ok_of_any
    (x := Database.load projectTree ((Path.ofString "/p").join (.ofString "meta")))
    (p := fun db => (db.find? "a.B").any (·.file = some "a/B.js")) (by decide +kernel)
  obtain ⟨r, known, filed⟩ : ∃ r, db.find? "a.B" = some r ∧ r.file = some "a/B.js" := by
    cases found : db.find? "a.B" with
    | none => simp [found] at stored
    | some r => exact ⟨r, rfl, by simpa [found] using stored⟩
  obtain ⟨s, resolved, named⟩ := exists_ok_of_any settled
  obtain ⟨files, made, placed⟩ := exists_ok_of_any opened
  have named : s.output = .ofString output := by simpa using named
  cases place : files.outputLocation ((Path.ofString "/p").join (.ofString output)) with
  | error e => simp [place, Except.toOption] at placed
  | ok loc =>
    rw [← named] at made place
    exact ⟨⟨db, s, files, loc, loadDatabase_eq_ok.mpr loaded, resolved,
      FileTree.createDirectories_of_ok made, place⟩, r, known, filed, named⟩

/-- A link from a directory that lies beside the database. -/
theorem sourceLink_resolves_beside :
    ∃ (w : Writing projectTree (projectArguments "types/q.d.ts") (.ofString "/p")) (r : Record)
      (dir : Path) (link : String),
      w.database.find? "a.B" = some r ∧ r.file = some "a/B.js" ∧ w.output.parent? = some dir ∧
        (dir.join (.ofString link)).resolved = (projectSource "types/q.d.ts").resolved := by
  obtain ⟨w, r, known, filed, named⟩ := exists_project "types/q.d.ts" (by decide +kernel)
    (by decide +kernel)
  obtain ⟨dir, link, parent, -, -, leads⟩ := w.sourceLink_resolves_iff (by decide) filed "a.B"
  refine ⟨w, r, dir, link, known, filed, parent, leads.mpr (.inl ?_)⟩
  have place : w.output.parent? = some (.ofString "/p/types") := by
    rw [output, named]
    decide +kernel
  rw [Option.some.inj (parent.symm.trans place)]
  decide +kernel

/-- A link from a directory that is reached by `..`: it goes up once more for the `..`, and
leads past the project. -/
theorem sourceLink_astray_above :
    ∃ (w : Writing projectTree (projectArguments "../types/q.d.ts") (.ofString "/p"))
      (r : Record) (dir : Path) (link : String),
      w.database.find? "a.B" = some r ∧ r.file = some "a/B.js" ∧ w.output.parent? = some dir ∧
        (w.database.index.subject w.settings r "a.B").sourceLink? = some link ∧
        (dir.join (.ofString link)).resolved ≠ (projectSource "../types/q.d.ts").resolved := by
  obtain ⟨w, r, known, filed, named⟩ := exists_project "../types/q.d.ts" (by decide +kernel)
    (by decide +kernel)
  have place : w.output.parent? = some (.ofString "/p/../types") := by
    rw [output, named]
    decide +kernel
  refine ⟨w, r, _, _, known, filed, place, w.sourceLink?_eq (by decide) place filed "a.B", ?_⟩
  decide +kernel

end Writing

end Ambient
