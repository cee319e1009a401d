/-
  Writing: what a run that opens its output has found out and done before. Main statements:
  `Writing.files_generate` and `Writing.exists_of_generate` (what such a run leaves behind, and
  that every run with a summary is one) and `Writing.steps_directory` (the directory of the
  output, seen from the settings).
-/
import Ambient.Generation
import Ambient.Proofs.FileTrees

namespace Ambient

open CommandLine

/-! ## The working directory of the settings -/

namespace Settings

variable {s s' : Settings} {t : FileTree}

theorem workingDir_withOutput (p : Option Path) : (s.withOutput p).workingDir = s.workingDir := by
  cases p <;> rfl

theorem workingDir_withPreamble {p : Option Path} (h : s.withPreamble t p = .ok s') :
    s'.workingDir = s.workingDir := by
  cases p with
  | none => exact Except.ok.inj h ▸ rfl
  | some p =>
    obtain ⟨text, -, set⟩ := bind_eq_ok.mp h
    exact Except.ok.inj set ▸ rfl

theorem workingDir_withNamedOutput : s.withNamedOutput.workingDir = s.workingDir := by
  rw [withNamedOutput]
  split <;> rfl

theorem workingDir_ignore (s : Settings) (className : String) (members : List String) :
    (s.ignore className members).workingDir = s.workingDir := rfl

theorem workingDir_define (s : Settings) (word type : String) :
    (s.define word type).workingDir = s.workingDir := rfl

theorem workingDir_foldl {α : Type} {step : Settings → α → Settings}
    (keeps : ∀ s a, (step s a).workingDir = s.workingDir) (as : List α) :
    (as.foldl step s).workingDir = s.workingDir := by
  induction as generalizing s with
  | nil => rfl
  | cons a as ih => exact ih.trans (keeps s a)

theorem workingDir_withFile {file : SettingsFile} (h : s.withFile t file = .ok s') :
    s'.workingDir = s.workingDir := by
  obtain ⟨text, named, merged⟩ := bind_eq_ok.mp h
  obtain rfl := Except.ok.inj merged
  calc (file.vocabulary.entries.foldl (fun s e => s.define e.1 e.2)
        (file.ignored.entries.foldl (fun s e => s.ignore e.1 e.2) text)).workingDir
      = (file.ignored.entries.foldl (fun s e => s.ignore e.1 e.2) text).workingDir :=
        workingDir_foldl (fun s (e : String × String) => workingDir_define s e.1 e.2) _
    _ = text.workingDir :=
        workingDir_foldl (fun s (e : String × List String) => workingDir_ignore s e.1 e.2) _
    _ = s.workingDir := (workingDir_withPreamble named).trans (workingDir_withOutput _)

/-- Links are seen from the directory that the run was started in. -/
theorem workingDir_resolve {args : Arguments} {cwd : Path} (h : resolve t args cwd = .ok s) :
    s.workingDir = some cwd := by
  obtain ⟨file, -, h⟩ := bind_eq_ok.mp h
  obtain ⟨s₁, fromFile, h⟩ := bind_eq_ok.mp h
  obtain ⟨s₂, preamble, named⟩ := bind_eq_ok.mp h
  have start : s₁.workingDir = some cwd := by
    cases file with
    | none => exact Except.ok.inj fromFile ▸ rfl
    | some file => exact workingDir_withFile fromFile
  rw [← Except.ok.inj named, workingDir_withNamedOutput, workingDir_withPreamble preamble,
    workingDir_withOutput, start]

end Settings

/-! ## The place of an output -/

namespace FileTree

variable {t : FileTree} {p : Path}

/-- The place that a path names lies in a directory. If no separator follows its name in the
path, the name is the last segment and the segments before it lead to the directory. -/
theorem exists_of_slot {place : Slot} (h : t.slot p = .ok (some place)) :
    p.checked = .ok p ∧
      (∃ entries, t.root.get? place.directory = some (.directory entries)) ∧
      (place.closed = false → ∃ init name, p.segments = init ++ [name] ∧ Path.IsName name ∧
        place.name = String.ofList name ∧ t.followAll (t.start p) init = .ok place.directory) := by
  obtain ⟨q, checked, placed⟩ := bind_eq_ok.mp h
  obtain rfl := eq_of_checked checked
  dsimp only at placed
  split at placed
  · cases placed
  · next last ends =>
    obtain ⟨dir, followed, placed⟩ := bind_eq_ok.mp placed
    split at placed
    · next entries there =>
      split at placed
      · cases placed
      · next loud =>
        obtain rfl := Option.some.inj (Except.ok.inj placed)
        refine ⟨checked, ⟨entries, there⟩, fun not_closed => ?_⟩
        -- no segment was dropped behind the name, so the name is the last one of all
        have whole : ¬ (q.segments.reverse.dropWhile (·.isEmpty)).reverse.length <
            q.segments.length := by
          simpa using not_closed
        have kept : (q.segments.reverse.dropWhile (·.isEmpty)).reverse = q.segments := by
          have suffix := List.dropWhile_suffix (·.isEmpty) (l := q.segments.reverse)
          rw [List.length_reverse] at whole
          rw [suffix.eq_of_length_le (by simpa using whole), List.reverse_reverse]
        rw [kept] at ends followed
        obtain ⟨init, segments⟩ := List.getLast?_eq_some_iff.mp ends
        rw [segments, List.dropLast_concat] at followed
        obtain ⟨loud, no_up⟩ : Path.isSilent last = false ∧ last ≠ ['.', '.'] := by
          simpa using loud
        have within : last ∈ q.segments := by simp [segments]
        exact ⟨init, last, segments, .of_mem_segments within loud no_up, rfl, followed⟩
    · cases placed

/-- A file that can be written has its name at the end of its path, behind segments that lead to
its directory, and takes no directory's place. -/
theorem exists_of_outputLocation {loc : Location} (h : t.outputLocation p = .ok loc) :
    p.checked = .ok p ∧ ∃ init name dir entries,
      p.segments = init ++ [name] ∧ Path.IsName name ∧
      t.followAll (t.start p) init = .ok dir ∧ t.root.get? dir = some (.directory entries) ∧
      loc = dir ++ [String.ofList name] ∧
      ∀ old, entries.lookup (String.ofList name) = some old → old.isDirectory = false := by
  obtain ⟨place?, placed, h⟩ := bind_eq_ok.mp h
  cases place? with
  | none => cases h
  | some place =>
    obtain ⟨checked, ⟨entries, there⟩, named⟩ := exists_of_slot placed
    dsimp only at h
    split at h
    · cases h
    · next not_closed =>
      obtain ⟨init, name, segments, own, same, followed⟩ := named (by simpa using not_closed)
      have found : t.root.get? place.location = entries.lookup (String.ofList name) := by
        rw [Slot.location, same, Node.get?_concat there]
      refine ⟨checked, init, name, place.directory, entries, segments, own, followed, there, ?_, ?_⟩
      · have location : loc = place.location := by
          split at h
          · cases h
          · exact (Except.ok.inj h).symm
          · split at h
            · cases h
            · exact (Except.ok.inj h).symm
        rw [location, Slot.location, same]
      · intro old entry
        rw [found, entry] at h
        cases old with
        | directory es => cases h
        | file own => rfl

/-- A file that can be written has a name at the end of its path. -/
theorem getLast?_of_outputLocation {loc : Location} (h : t.outputLocation p = .ok loc) :
    ∃ name, p.segments.getLast? = some name ∧ Path.component? name = some (.name name) := by
  obtain ⟨-, init, name, -, -, segments, own, -⟩ := exists_of_outputLocation h
  exact ⟨name, by simp [segments], own.1⟩

/-- A directory whose own directory is there already is made at once. -/
theorem createDirectories_of_ok {t' : FileTree} (h : t.createDirectory p = .ok t') :
    t.createDirectories p = (t', .ok ()) := by
  have some_char : ¬ p.chars.isEmpty = true := by
    obtain ⟨place?, placed, -⟩ := bind_eq_ok.mp h
    obtain ⟨q, checked, -⟩ := bind_eq_ok.mp placed
    exact not_isEmpty_of_checked checked
  rw [createDirectories, if_neg some_char, h]

end FileTree

/-! ## Runs that open their output -/

theorem loadDatabase_eq_ok {t : FileTree} {args : Arguments} {cwd : Path} {db : Database} :
    loadDatabase t args cwd = .ok db ↔ Database.load t (cwd.join args.database) = .ok db := by
  rw [loadDatabase, inTask]
  cases Database.load t (cwd.join args.database) <;> simp [Except.mapError]

/-- What a run has found out and done when it opens its output: the database and the settings
are there, the directories on the way to the output are made, and its file has a place. -/
structure Writing (t : FileTree) (args : Arguments) (cwd : Path) where
  database : Database
  settings : Settings
  files : FileTree
  location : Location
  loaded : loadDatabase t args cwd = .ok database
  resolved : Settings.resolve t args cwd = .ok settings
  made : t.createDirectories ((cwd.join settings.output).parent?.getD .empty) = (files, .ok ())
  opened : files.outputLocation (cwd.join settings.output) = .ok location

namespace Writing

variable {t : FileTree} {args : Arguments} {cwd : Path}

/-- The path of the output. -/
def output (w : Writing t args cwd) : Path := cwd.join w.settings.output

/-- What is written. -/
def listing (w : Writing t args cwd) (time : String) : Emission Stats :=
  w.database.index.listing w.settings time

theorem generate_eq (w : Writing t args cwd) (time : String) :
    generate t args cwd time = writeOutput w.files w.database w.settings w.output time := by
  rw [generate, w.loaded, w.resolved]
  dsimp only
  rw [produce, w.made]
  rfl

/-- The file at the output holds what was written, also when the writing ended in an error. -/
theorem files_generate (w : Writing t args cwd) (time : String) :
    (generate t args cwd time).files =
      w.files.put w.location (.file (w.listing time).text.toUTF8) := by
  have opened : w.files.outputLocation w.output = .ok w.location := w.opened
  rw [generate_eq, writeOutput, opened]
  dsimp only
  split <;> rfl

/-- A run with a summary has opened the output that it tells of. -/
theorem exists_of_generate {time : String} {summary : Summary}
    (h : (generate t args cwd time).result = .ok summary) :
    ∃ w : Writing t args cwd, w.output = summary.output := by
  rw [generate] at h
  split at h
  · cases h
  · next db loaded =>
    split at h
    · cases h
    · next s resolved =>
      rw [produce] at h
      split at h
      · cases h
      · next files made =>
        rw [writeOutput] at h
        split at h
        · cases h
        · next loc opened =>
          refine ⟨⟨db, s, files, loc, loaded, resolved, made, opened⟩, ?_⟩
          dsimp only at h
          split at h
          · cases h
          · exact congrArg Summary.output (Except.ok.inj h)

theorem root_database (w : Writing t args cwd) : w.database.root = cwd.join args.database :=
  Database.root_load (loadDatabase_eq_ok.mp w.loaded)

/-- The output lies in a directory. -/
theorem exists_directory (w : Writing t args cwd) : ∃ dir, w.output.parent? = some dir := by
  obtain ⟨name, ends, own⟩ := FileTree.getLast?_of_outputLocation w.opened
  obtain ⟨init, steps⟩ := Path.exists_steps_of_getLast? ends own
  rw [← Option.ne_none_iff_exists']
  intro none
  have single := Path.steps_of_parent?_eq_none none
  rw [output, steps] at single
  split at single
  · have := congrArg List.getLast? single
    simp at this
  · simp at single

/-- The directory of the output has the steps that the settings lead to from the working
directory. -/
theorem steps_directory (w : Writing t args cwd) :
    (w.output.parent?.getD .empty).steps =
      (cwd.join (w.settings.output.parent?.getD .empty)).steps := by
  obtain ⟨name, ends, own⟩ := FileTree.getLast?_of_outputLocation w.opened
  rw [Path.getLast?_segments_join] at ends
  obtain ⟨init, steps⟩ := Path.exists_steps_of_getLast? ends own
  have parent_steps : (w.settings.output.parent?.getD .empty).steps = init := by
    rw [Path.steps_parent, steps, List.dropLast_concat]
  rw [Path.steps_parent, output]
  by_cases absolute : w.settings.output.isAbsolute
  · have root : .root ∈ init := by
      have := Path.root_mem_steps.mpr absolute
      simpa [steps] using this
    rw [Path.join_of_isAbsolute _ absolute, steps, List.dropLast_concat,
      Path.join_of_isAbsolute _ (Path.root_mem_steps.mp (parent_steps ▸ root)), parent_steps]
  · have root : .root ∉ init := by
      intro root
      refine absolute (Path.root_mem_steps.mp ?_)
      rw [steps]
      exact List.mem_append_left _ root
    have relative : (w.settings.output.parent?.getD .empty).isAbsolute = false := by
      rw [Bool.eq_false_iff, Ne, ← Path.root_mem_steps, parent_steps]
      exact root
    rw [Path.steps_join _ (Bool.eq_false_iff.mpr absolute), Path.steps_join _ relative, steps,
      parent_steps, ← List.append_assoc, List.dropLast_concat]

end Writing

end Ambient
