/-
  What a run leaves behind: directories on the way to the output, the output, and nothing else.
  Main statement: `generate_changes_output_only` (a run without a database or settings changes
  nothing, and any other one spares all files but the output, which it leaves with exactly what
  was written).
-/
import Ambient.Proofs.Reachability
import Ambient.Proofs.Reopening

namespace Ambient

open CommandLine

namespace FileTree

variable {t u v : FileTree} {p : Path} {written : Option Location}

/-! ## Trees that spare files -/

/-- Whether a tree has the files of another one and no further files, but for what is written at
one location, if at all. Directories may be new. -/
structure Spares (t u : FileTree) (written : Option Location) : Prop where
  home : t.home = u.home
  kinds : t.root.KeepsKinds u.root
  files : ∀ loc bytes, written ≠ some loc →
    (u.root.get? loc = some (.file bytes) ↔ t.root.get? loc = some (.file bytes))

namespace Spares

theorem refl (t : FileTree) : t.Spares t written := ⟨rfl, .refl _, fun _ _ _ => .rfl⟩

theorem trans (first : t.Spares u written) (next : u.Spares v written) : t.Spares v written where
  home := first.home.trans next.home
  kinds := first.kinds.trans next.kinds
  files loc bytes elsewhere :=
    (next.files loc bytes elsewhere).trans (first.files loc bytes elsewhere)

theorem of_none (all : t.Spares u none) : t.Spares u written :=
  ⟨all.home, all.kinds, fun loc bytes _ => all.files loc bytes nofun⟩

end Spares

/-- A new directory spares all files. -/
theorem spares_createDirectory (h : t.createDirectory p = .ok u) : t.Spares u none := by
  obtain ⟨place?, placed, h⟩ := bind_eq_ok.mp h
  cases place? with
  | none => cases h
  | some place =>
    obtain ⟨-, ⟨entries, there⟩, -⟩ := exists_of_slot placed
    dsimp only at h
    split at h
    · cases h
    · next fresh =>
      split at h
      · cases h
      · obtain rfl := Except.ok.inj h
        have absent : entries.lookup place.name = none := by
          rw [← Node.get?_concat there]
          exact fresh
        refine ⟨rfl, (Node.keeps_put there absent).keepsKinds, fun loc bytes _ => ?_⟩
        -- at the place itself there was nothing, and now there is no file either
        by_cases here : loc = place.location
        · have now : (t.put place.location .emptyDirectory).root.get? place.location =
              some .emptyDirectory := Node.get?_put ⟨entries, there⟩
          rw [here, fresh, now]
          exact ⟨nofun, nofun⟩
        · exact Node.file_put_iff (fun _ _ => rfl) there
            (fun old entry => nomatch absent.symm.trans entry) here bytes

/-- New directories on the way to a path spare all files, also if there is a fault half-way. -/
theorem spares_createDirectories (t : FileTree) (p : Path) :
    t.Spares (t.createDirectories p).1 none := by
  -- the directories made above stay, whatever comes of the one at the path itself
  fun_induction t.createDirectories p with
  | case1 => exact .refl t
  | case2 p some_char u made => exact spares_createDirectory made
  | case3 => exact .refl t
  | case4 p some_char missing parent above u e half ih => rwa [half] at ih
  | case5 p some_char missing parent above u half v made ih =>
    rw [half] at ih
    exact ih.trans (spares_createDirectory made)
  | case6 p some_char missing parent above u half e failed ih => rwa [half] at ih
  | case7 => exact .refl t

/-! ## Written files -/

section Output

variable {loc : Location} (opened : t.outputLocation p = .ok loc) (bytes : ByteArray)
include opened

/-- A file that is written spares all other files. -/
theorem spares_put : t.Spares (t.put loc (.file bytes)) (some loc) := by
  obtain ⟨-, init, name, dir, entries, -, -, -, there, rfl, no_directory⟩ :=
    exists_of_outputLocation opened
  refine ⟨rfl, Node.keepsKinds_put_file there no_directory, fun loc own elsewhere => ?_⟩
  refine Node.file_put_iff (fun _ _ => rfl) there no_directory (fun here => ?_) own
  exact elsewhere (congrArg some here.symm)

/-- The path of a file that is written leads to it. -/
theorem locate_put : (t.put loc (.file bytes)).locate p = .ok loc := by
  have spared := spares_put opened bytes
  obtain ⟨checked, init, name, dir, entries, segments, own, followed, there, rfl, -⟩ :=
    exists_of_outputLocation opened
  obtain ⟨entries', there'⟩ := spared.kinds.exists_directory there
  refine locate_eq_ok.mpr ⟨checked, ?_⟩
  rw [segments, followAll, List.foldlM_append]
  refine bind_eq_ok.mpr ⟨dir, followAll_of_keepsKinds spared.kinds followed, ?_⟩
  exact bind_eq_ok.mpr ⟨_, follow_of_get? own there' (Node.get?_put ⟨entries, there⟩), rfl⟩

theorem find_put : (t.put loc (.file bytes)).find p = .ok (.file bytes) := by
  have located := locate_put opened bytes
  obtain ⟨-, init, name, dir, entries, -, -, -, there, rfl, -⟩ := exists_of_outputLocation opened
  exact find_of_locate located (Node.get?_put ⟨entries, there⟩)

end Output

end FileTree

/-! ## Runs -/

/-- Whether a run ended before anything was written: a directory or the file of the output
could not be made. -/
def Run.Unopened (run : Run) (output : Path) : Prop :=
  ∃ task fault, run.result = .error ⟨[task], .fault fault⟩ ∧
    (task = .createDirectory (output.parent?.getD .empty) ∨ task = .createOutput output)

/-- Whether a run has left a listing in its output, also one that was broken off by an error. -/
def Run.Wrote (run : Run) (output : Path) (listing : Emission Stats) : Prop :=
  run.files.find output = .ok (.file listing.text.toUTF8) ∧
    run.result = match listing.outcome with
      | .ok stats => .ok ⟨output, stats⟩
      | .error e => .error ⟨[.writeOutput output], .inclusion e⟩

namespace Writing

variable {t : FileTree} {args : Arguments} {cwd : Path}

theorem wrote (w : Writing t args cwd) (time : String) :
    (generate t args cwd time).Wrote w.output (w.listing time) := by
  refine ⟨w.files_generate time ▸ FileTree.find_put w.opened _, ?_⟩
  have opened : w.files.outputLocation w.output = .ok w.location := w.opened
  rw [generate_eq, writeOutput, opened]
  dsimp only
  rw [← listing]
  cases (w.listing time).outcome <;> rfl

theorem locate_output (w : Writing t args cwd) (time : String) :
    (generate t args cwd time).files.locate w.output = .ok w.location :=
  w.files_generate time ▸ FileTree.locate_put w.opened _

theorem spares_generate (w : Writing t args cwd) (time : String) :
    t.Spares (generate t args cwd time).files (some w.location) := by
  have made : t.Spares w.files none := by
    have := t.spares_createDirectories (w.output.parent?.getD .empty)
    rwa [output, w.made] at this
  rw [files_generate]
  exact made.of_none.trans (FileTree.spares_put w.opened _)

section Settled

variable {db : Database} {s : Settings} (loaded : loadDatabase t args cwd = .ok db)
  (resolved : Settings.resolve t args cwd = .ok s)
include loaded resolved

/-- A run that has its database and its settings opens its output if that is possible. -/
theorem exists_of_opens (opens : t.Opens (cwd.join s.output)) :
    ∃ w : Writing t args cwd, w.database = db ∧ w.settings = s := by
  obtain ⟨files, loc, made, opened⟩ := opens
  exact ⟨⟨db, s, files, loc, loaded, resolved, made, opened⟩, rfl, rfl⟩

/-- If that is not possible, the run ends with the directories that could be made. -/
theorem unopened_of_not_opens (closed : ¬ t.Opens (cwd.join s.output)) (time : String) :
    (generate t args cwd time).Unopened (cwd.join s.output) ∧
      t.Spares (generate t args cwd time).files none := by
  have produced : generate t args cwd time = produce t db s cwd time := by
    rw [generate, loaded]
    dsimp only
    rw [resolved]
  have spared := t.spares_createDirectories ((cwd.join s.output).parent?.getD .empty)
  rw [produced, produce]
  cases made : t.createDirectories ((cwd.join s.output).parent?.getD .empty) with
  | mk files done =>
    rw [made] at spared
    cases done with
    | error fault => exact ⟨⟨_, fault, rfl, .inl rfl⟩, spared⟩
    | ok =>
      dsimp only
      rw [writeOutput]
      cases opened : files.outputLocation (cwd.join s.output) with
      | error fault => exact ⟨⟨_, fault, rfl, .inr rfl⟩, spared⟩
      | ok loc => exact absurd ⟨files, loc, made, opened⟩ closed

end Settled

end Writing

/-- A run whose database or settings are not there changes nothing. Any other run spares all
files but its output. If the output can be opened, and so it can where a file is already, the run
leaves there what was written, up to the error if there was one; if not, it spares all files. -/
theorem generate_changes_output_only (t : FileTree) (args : Arguments) (cwd : Path)
    (time : String) :
    let run := generate t args cwd time
    (∀ e, loadDatabase t args cwd = .error e → run = ⟨t, .error e⟩) ∧
    ∀ db, loadDatabase t args cwd = .ok db →
      (∀ e, Settings.resolve t args cwd = .error e → run = ⟨t, .error e⟩) ∧
      ∀ s, Settings.resolve t args cwd = .ok s →
        let output := cwd.join s.output
        t.Spares run.files (run.files.locate output).toOption ∧
        (t.Opens output → run.Wrote output (db.index.listing s time)) ∧
        (∀ old, t.find output = .ok (.file old) → t.Opens output) ∧
        (¬ t.Opens output → run.Unopened output ∧ t.Spares run.files none) := by
  refine ⟨fun e failed => ?_, fun db loaded => ⟨fun e failed => ?_, fun s resolved => ?_⟩⟩
  · rw [generate, failed]
  · rw [generate, loaded]
    dsimp only
    rw [failed]
  · refine ⟨?_, fun opens => ?_, fun _ there => FileTree.opens_of_find there,
      fun closed => Writing.unopened_of_not_opens loaded resolved closed time⟩
    · by_cases opens : t.Opens (cwd.join s.output)
      · obtain ⟨w, rfl, rfl⟩ := Writing.exists_of_opens loaded resolved opens
        have located : (generate t args cwd time).files.locate (cwd.join w.settings.output) =
            .ok w.location := w.locate_output time
        rw [located]
        exact w.spares_generate time
      · exact (Writing.unopened_of_not_opens loaded resolved opens time).2.of_none
    · obtain ⟨w, rfl, rfl⟩ := Writing.exists_of_opens loaded resolved opens
      exact w.wrote time

/-- The output of an earlier run. -/
def oldOutput : String := "declare module a \x7b\x7d // and so on"

/-- A project with the output of an earlier run, and a class whose mixin is not there. -/
def rerunTree : FileTree :=
  ⟨.directory [("p", .directory [("q.d.ts", .file oldOutput.toUTF8),
    ("meta", .directory [("a", .directory [("B.json",
      .file "\x7b\"className\": \"a.B\", \"mixins\": \"a.Gone\"\x7d".toUTF8)])])])], []⟩

/-- Arguments that name the output of the earlier run. -/
def rerunArguments (settings : Option Path) : Arguments :=
  ⟨.ofString "meta", some (.ofString "q.d.ts"), settings, none, false, false, false, 0⟩

/-- The listing of one class that includes first what has no record breaks off there. -/
theorem outcome_listing_of_missing {i : Index} {s : Settings} {name m : String}
    {mixins : List String} {r : Record} (time : String) (single : i.sortedNames = [name])
    (known : i.find? name = some r) (named : r.name = some name) (includes : r.mixins = m :: mixins)
    (other : m ≠ name) (gone : i.find? m = none) :
    (i.listing s time).outcome = .error (.missing name m) := by
  have unseen : (i.subject s r name).view.mixins.get? m = none :=
    (Index.get?_mixins_of_mem (includes ▸ List.mem_cons_self)).trans gone
  have block : (i.recordBlock s r (packageOf name != "")).outcome = .error (.missing name m) := by
    rw [Index.outcome_recordBlock _ named, includes,
      Subject.inclusions_of_none _ _ (by simpa using other) unseen]
    rfl
  rw [Index.listing, single, Emission.outcome_write_andThen, Index.blocks_cons_of_some known,
    Emission.outcome_write_andThen, Emission.outcome_andThen_of_error block]

/-- The runs without a database and without the settings that are named change nothing. The run
that breaks off at the mixin leaves what was written before in the place of the old output. -/
theorem rerun_changes_output_only :
    (∃ e, generate ⟨.emptyDirectory, []⟩ (rerunArguments none) (.ofString "/p") "now" =
      ⟨⟨.emptyDirectory, []⟩, .error e⟩) ∧
    (∃ e, generate rerunTree (rerunArguments (some (.ofString "gone.json"))) (.ofString "/p")
      "now" = ⟨rerunTree, .error e⟩) ∧
    ∃ db s, loadDatabase rerunTree (rerunArguments none) (.ofString "/p") = .ok db ∧
      Settings.resolve rerunTree (rerunArguments none) (.ofString "/p") = .ok s ∧
      (db.index.listing s "now").outcome = .error (.missing "a.B" "a.Gone") ∧
      (generate rerunTree (rerunArguments none) (.ofString "/p") "now").files.find
        (.ofString "/p/q.d.ts") = .ok (.file (db.index.listing s "now").text.toUTF8) := by
  obtain ⟨e, missing⟩ := exists_error_of_isNone (x := loadDatabase ⟨.emptyDirectory, []⟩
    (rerunArguments none) (.ofString "/p")) (by decide +kernel)
  obtain ⟨e', unread⟩ := exists_error_of_isNone (x := Settings.resolve rerunTree
    (rerunArguments (some (.ofString "gone.json"))) (.ofString "/p")) (by decide +kernel)
  obtain ⟨db, loaded, stored⟩ := exists_ok_of_any
    (x := loadDatabase rerunTree (rerunArguments none) (.ofString "/p"))
    (p := fun db => db.index.sortedNames = ["a.B"] ∧ db.index.find? "a.Gone" = none ∧
      (db.index.find? "a.B").any fun r => r.name = some "a.B" ∧ r.mixins = ["a.Gone"])
    (by decide +kernel)
  obtain ⟨s, resolved, named⟩ := exists_ok_of_any
    (x := Settings.resolve rerunTree (rerunArguments none) (.ofString "/p"))
    (p := fun s => (Path.ofString "/p").join s.output = .ofString "/p/q.d.ts") (by decide +kernel)
  obtain ⟨single, gone, known⟩ := of_decide_eq_true stored
  obtain ⟨r, found, known⟩ := (Option.any_eq_true _ _).mp known
  obtain ⟨own, includes⟩ := of_decide_eq_true known
  have broken : (db.index.listing s "now").outcome = .error (.missing "a.B" "a.Gone") :=
    outcome_listing_of_missing "now" single found own includes (by decide) gone
  have alike : loadDatabase rerunTree (rerunArguments (some (.ofString "gone.json")))
    (.ofString "/p") = .ok db := loaded
  have located : rerunTree.locate (.ofString "/p/q.d.ts") = .ok ["p", "q.d.ts"] := by
    decide +kernel
  have old : rerunTree.find (.ofString "/p/q.d.ts") = .ok (.file oldOutput.toUTF8) :=
    FileTree.find_of_locate located rfl
  obtain ⟨-, wrote, opens, -⟩ := ((generate_changes_output_only rerunTree (rerunArguments none)
    (.ofString "/p") "now").2 db loaded).2 s resolved
  rw [of_decide_eq_true named] at wrote opens
  exact ⟨⟨e, (generate_changes_output_only _ _ _ _).1 e missing⟩,
    ⟨e', ((generate_changes_output_only _ _ _ _).2 _ alike).1 e' unread⟩,
    db, s, loaded, resolved, broken, (wrote (opens _ old)).1⟩

end Ambient
