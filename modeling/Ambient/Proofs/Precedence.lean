/-
  Precedence: the settings of a run by layers, the command line over the settings file over the
  built-in ones. Main statements: `Settings.resolveWith_layered` (what every setting is, and when
  there are none) and `Settings.resolveWith_overridden_iff` (when an entry of the file that the
  command line overrides makes no difference).
-/
import Ambient.Proofs.FirstOccurrences
import Ambient.Proofs.InsertionOrder
import Ambient.Proofs.Loading
import Ambient.Settings.Resolution

namespace Ambient

open CommandLine

/-- Settings files that differ in the order of the entries of their tables at most. -/
structure SettingsFile.SameEntries (f g : SettingsFile) : Prop where
  output : f.output = g.output
  preamble : f.preamble = g.preamble
  ignored : f.ignored.entries.Perm g.ignored.entries
  vocabulary : f.vocabulary.entries.Perm g.vocabulary.entries
  directory : f.directory = g.directory

theorem SettingsFile.SameEntries.resolve_eq {f g : SettingsFile} (same : f.SameEntries g) :
    f.resolve = g.resolve := by
  funext p
  rw [resolve, resolve, same.directory]

namespace Settings

variable {t : FileTree} {args : Arguments} {cwd : Path}

/-! ## Preambles -/

/-- The failure to read the preamble at a path, if a path is given and it cannot be read. -/
def refusal? (t : FileTree) (p : Option Path) : Option Failure :=
  p.bind fun p =>
    match readPreamble t p with
    | .ok _ => none
    | .error e => some e

/-- The preamble at a path, if a path is given and it can be read. -/
def preambleAt? (t : FileTree) (p : Option Path) : Option String :=
  p.bind fun p => (readPreamble t p).toOption

theorem withPreamble_eq (s : Settings) (t : FileTree) (p : Option Path) :
    s.withPreamble t p = match refusal? t p with
      | some e => .error e
      | none => .ok { s with preamble := (preambleAt? t p).getD s.preamble } := by
  cases p with
  | none => rfl
  | some p =>
    rw [withPreamble, refusal?, preambleAt?, Option.bind_some, Option.bind_some]
    cases readPreamble t p <;> rfl

theorem readPreamble_eq_ok {p : Path} {text : String} :
    readPreamble t p = .ok text ↔ t.readText p = .ok text := by
  rw [readPreamble]
  cases t.readText p <;> simp [Except.mapError]

/-- A preamble is refused just when it is no file with a text. -/
theorem isSome_refusal?_iff {p : Option Path} :
    (refusal? t p).isSome = true ↔ ∃ path ∈ p, ∀ text, t.readText path ≠ .ok text := by
  cases p with
  | none => simp [refusal?]
  | some p =>
    have unread : (∀ text, t.readText p ≠ .ok text) ↔ ∀ text, readPreamble t p ≠ .ok text :=
      forall_congr' fun _ => not_congr readPreamble_eq_ok.symm
    simp only [refusal?, Option.bind_some, Option.mem_some_iff, exists_eq_left', unread]
    cases readPreamble t p <;> simp

/-- A preamble that is not refused is there. -/
theorem exists_preambleAt? {p : Path} (read : refusal? t (some p) = none) :
    ∃ text, preambleAt? t (some p) = some text ∧ t.readText p = .ok text := by
  rw [refusal?, Option.bind_some] at read
  cases h : readPreamble t p with
  | error e => simp [h] at read
  | ok text =>
    refine ⟨text, ?_, readPreamble_eq_ok.mp h⟩
    rw [preambleAt?, Option.bind_some, h]
    rfl

/-! ## Tables -/

/-- A table of ignored members with more members of a class. -/
def ignoreMembers (t : Table (List String)) (e : String × List String) : Table (List String) :=
  t.insert e.1 (addMembers ((t.get? e.1).getD []) e.2)

theorem foldl_ignore (s : Settings) (es : List (String × List String)) :
    es.foldl (fun s e => s.ignore e.1 e.2) s =
      { s with ignored := es.foldl ignoreMembers s.ignored } := by
  induction es generalizing s with
  | nil => rfl
  | cons e es ih => exact ih (s.ignore e.1 e.2)

theorem foldl_define (s : Settings) (es : List (String × String)) :
    es.foldl (fun s e => s.define e.1 e.2) s =
      { s with vocabulary := es.foldl (fun t e => t.insert e.1 e.2) s.vocabulary } := by
  induction es generalizing s with
  | nil => rfl
  | cons e es ih => exact ih (s.define e.1 e.2)

/-- Members of a class are added to those that are there; other classes stay as they are. -/
theorem get?_foldl_ignoreMembers (t : Table (List String)) {es : List (String × List String)}
    (distinct : (es.map (·.1)).Nodup) (c : String) :
    (es.foldl ignoreMembers t).get? c = match es.lookup c with
      | some new => some (addMembers ((t.get? c).getD []) new)
      | none => t.get? c := by
  have updated := Table.get?_foldl_update (fun old new => addMembers (old.getD []) new) t distinct c
  cases written : es.lookup c with
  | none => exact updated.trans (by rw [written])
  | some new => exact updated.trans (by rw [written])

/-! ## Layers -/

/-- The preamble that a settings file names. -/
def filePreamble? (file : Option SettingsFile) : Option Path :=
  file.bind fun f => f.preamble.map f.resolve

/-- The preamble that the command line names. -/
def flagPreamble? (args : Arguments) (cwd : Path) : Option Path := args.preamble.map cwd.join

/-- The words that are built in, unless they are turned off. -/
def baseWords (args : Arguments) : TypeText.Vocabulary :=
  if args.noBuiltinWords then .empty else builtin.vocabulary

/-- The ignored members that are built in, unless they are turned off. -/
def baseIgnored (args : Arguments) : Table (List String) :=
  if args.noBuiltinIgnored then .empty else builtin.ignored

/-- The output of a run: the one that the command line names, else the one that the file names,
else the default one, which also stands for the empty path. -/
def outputOver (args : Arguments) (file : Option SettingsFile) : Path :=
  let p := (args.output.or (file.bind fun f => f.output.map f.resolve)).getD defaultOutput
  if p.chars.isEmpty then defaultOutput else p

/-- The settings of a run whose preambles can be read. -/
def layered (t : FileTree) (args : Arguments) (file : Option SettingsFile) (cwd : Path) :
    Settings where
  output := outputOver args file
  workingDir := some cwd
  preamble := ((preambleAt? t (flagPreamble? args cwd)).or
    (preambleAt? t (filePreamble? file))).getD builtinPreamble
  ignored := ((file.map (·.ignored.entries)).getD []).foldl ignoreMembers (baseIgnored args)
  vocabulary := ((file.map (·.vocabulary.entries)).getD []).foldl
    (fun t e => t.insert e.1 e.2) (baseWords args)

theorem withOutput_eq (s : Settings) (p : Option Path) :
    s.withOutput p = { s with output := p.getD s.output } := by
  cases p <;> rfl

theorem withNamedOutput_eq (s : Settings) :
    s.withNamedOutput =
      { s with output := if s.output.chars.isEmpty then defaultOutput else s.output } := by
  rw [withNamedOutput]
  split <;> rfl

theorem withFile_eq (s : Settings) (t : FileTree) (f : SettingsFile) :
    s.withFile t f = match refusal? t (filePreamble? (some f)) with
      | some e => .error e
      | none => .ok { s with
          output := (f.output.map f.resolve).getD s.output
          preamble := (preambleAt? t (filePreamble? (some f))).getD s.preamble
          ignored := f.ignored.entries.foldl ignoreMembers s.ignored
          vocabulary :=
            f.vocabulary.entries.foldl (fun t e => t.insert e.1 e.2) s.vocabulary } := by
  rw [withFile, withPreamble_eq, withOutput_eq]
  show Except.bind (match refusal? t (filePreamble? (some f)) with
    | some e => _
    | none => _) _ = _
  cases refusal? t (filePreamble? (some f)) with
  | some e => rfl
  | none =>
    refine congrArg Except.ok ?_
    rw [foldl_ignore, foldl_define]
    rfl

/-- The layer of the command line. -/
theorem withFlags_eq (s : Settings) (t : FileTree) (args : Arguments) (cwd : Path) :
    ((s.withOutput args.output).withPreamble t (args.preamble.map cwd.join) >>= fun s =>
        pure s.withNamedOutput) =
      match refusal? t (flagPreamble? args cwd) with
      | some e => .error e
      | none => .ok { s with
          output := if (args.output.getD s.output).chars.isEmpty then defaultOutput
            else args.output.getD s.output
          preamble := (preambleAt? t (flagPreamble? args cwd)).getD s.preamble } := by
  rw [withPreamble_eq, withOutput_eq, flagPreamble?]
  cases refusal? t (args.preamble.map cwd.join) with
  | some e => rfl
  | none => exact congrArg Except.ok (withNamedOutput_eq _)

/-- The settings of a run are its layers, unless a preamble is refused: that of the file first,
and then that of the command line. -/
theorem resolveWith_eq (t : FileTree) (args : Arguments) (file : Option SettingsFile)
    (cwd : Path) :
    resolveWith t args file cwd =
      match (refusal? t (filePreamble? file)).or (refusal? t (flagPreamble? args cwd)) with
      | some e => .error e
      | none => .ok (layered t args file cwd) := by
  cases file with
  | none =>
    refine (withFlags_eq (initial args cwd) t args cwd).trans ?_
    rw [show refusal? t (filePreamble? none) = none from rfl, Option.none_or]
    cases refusal? t (flagPreamble? args cwd) with
    | some e => rfl
    | none =>
      refine congrArg Except.ok ?_
      rw [layered, outputOver, Option.bind_none, Option.or_none,
        show preambleAt? t (filePreamble? none) = none from rfl, Option.or_none]
      rfl
  | some f =>
    show ((initial args cwd).withFile t f >>= fun s =>
      (s.withOutput args.output).withPreamble t (args.preamble.map cwd.join) >>= fun s =>
        pure s.withNamedOutput) = _
    rw [withFile_eq]
    cases refusal? t (filePreamble? (some f)) with
    -- the command line is not looked at behind a refused preamble of the file
    | some e => rfl
    | none =>
      refine (withFlags_eq _ t args cwd).trans ?_
      rw [Option.none_or]
      cases refusal? t (flagPreamble? args cwd) with
      | some e => rfl
      | none =>
        refine congrArg Except.ok ?_
        rw [layered, outputOver, Option.bind_some, Option.getD_or, Option.getD_or]
        rfl

/-- A run has no settings just when one of the preambles that it reads is no file with a text. -/
theorem resolveWith_eq_error_iff {file : Option SettingsFile} :
    (∃ e, resolveWith t args file cwd = .error e) ↔
      ∃ p ∈ (filePreamble? file).toList ++ (flagPreamble? args cwd).toList,
        ∀ text, t.readText p ≠ .ok text := by
  have refused : (∃ e, resolveWith t args file cwd = .error e) ↔
      (refusal? t (filePreamble? file)).isSome = true ∨
        (refusal? t (flagPreamble? args cwd)).isSome = true := by
    rw [resolveWith_eq, ← Bool.or_eq_true, ← Option.isSome_or]
    cases (refusal? t (filePreamble? file)).or (refusal? t (flagPreamble? args cwd)) <;> simp
  rw [refused, isSome_refusal?_iff, isSome_refusal?_iff]
  simp only [List.mem_append, Option.mem_toList, Option.mem_def, or_and_right, exists_or]

theorem resolveWith_eq_ok {file : Option SettingsFile} {s : Settings}
    (h : resolveWith t args file cwd = .ok s) :
    refusal? t (filePreamble? file) = none ∧ refusal? t (flagPreamble? args cwd) = none ∧
      s = layered t args file cwd := by
  rw [resolveWith_eq] at h
  split at h
  · cases h
  · next none_refused =>
    rw [Option.or_eq_none_iff] at none_refused
    exact ⟨none_refused.1, none_refused.2, (Except.ok.inj h).symm⟩

/-- Whether settings are those of a command line over a file over what is built in. -/
structure Layered (t : FileTree) (args : Arguments) (file : Option SettingsFile) (cwd : Path)
    (s : Settings) : Prop where
  output : s.output = outputOver args file
  workingDir : s.workingDir = some cwd
  preamble : match (flagPreamble? args cwd).or (filePreamble? file) with
    | some p => t.readText p = .ok s.preamble
    | none => s.preamble = builtinPreamble
  word : ∀ w, s.vocabulary.get? w =
    (file.bind (·.vocabulary.get? w)).or ((baseWords args).get? w)
  ignored : ∀ c, c ∈ s.ignored.keys ↔
    c ∈ (baseIgnored args).keys ∨ ∃ f ∈ file, c ∈ f.ignored.keys
  members : ∀ c,
    let base := ((baseIgnored args).get? c).getD []
    let more := ((file.bind (·.ignored.get? c)).getD []).filter (· ∉ base)
    (s.ignored.get? c).getD [] = base ++ more.eraseDups

theorem get?_ignored_layered (file : Option SettingsFile) (c : String) :
    (layered t args file cwd).ignored.get? c = match file.bind (·.ignored.get? c) with
      | some new => some (addMembers (((baseIgnored args).get? c).getD []) new)
      | none => (baseIgnored args).get? c := by
  cases file with
  | none => rfl
  | some f => exact get?_foldl_ignoreMembers _ f.ignored.keys_nodup c

theorem get?_vocabulary_layered (file : Option SettingsFile) (w : String) :
    (layered t args file cwd).vocabulary.get? w =
      (file.bind (·.vocabulary.get? w)).or ((baseWords args).get? w) := by
  cases file with
  | none => rfl
  | some f => exact Table.get?_foldl_insert _ f.vocabulary.keys_nodup w

theorem layered_layered {file : Option SettingsFile}
    (read : refusal? t (filePreamble? file) = none)
    (read' : refusal? t (flagPreamble? args cwd) = none) :
    Layered t args file cwd (layered t args file cwd) where
  output := rfl
  workingDir := rfl
  preamble := by
    -- whichever preamble is used, it is one of those that were read
    cases flag : flagPreamble? args cwd with
    | some p =>
      obtain ⟨text, there, own⟩ := exists_preambleAt? (flag ▸ read')
      rw [Option.some_or]
      show t.readText p = .ok (layered t args file cwd).preamble
      rw [layered, flag, there, Option.some_or, Option.getD_some, own]
    | none =>
      rw [Option.none_or]
      cases named : filePreamble? file with
      | some p =>
        obtain ⟨text, there, own⟩ := exists_preambleAt? (named ▸ read)
        show t.readText p = .ok (layered t args file cwd).preamble
        rw [layered, flag, named, there]
        exact own
      | none =>
        show (layered t args file cwd).preamble = builtinPreamble
        rw [layered, flag, named]
        rfl
  word := get?_vocabulary_layered file
  ignored := by
    intro c
    have in_file : (∃ f ∈ file, c ∈ f.ignored.keys) ↔
        (file.bind (·.ignored.get? c)).isSome = true := by
      cases file with
      | none => simp
      | some f => simp [← Table.contains_iff, Table.contains]
    rw [in_file, ← Table.contains_iff, ← Table.contains_iff, Table.contains, Table.contains,
      get?_ignored_layered]
    cases file.bind (·.ignored.get? c) with
    | some new => simp
    | none => simp
  members := by
    intro c
    dsimp only
    rw [get?_ignored_layered]
    cases file.bind (·.ignored.get? c) with
    | some new => exact addMembers_eq _ new
    | none => exact (List.append_nil _).symm

theorem filePreamble?_eq_of_sameEntries {file order : Option SettingsFile}
    (same : Option.Rel SettingsFile.SameEntries file order) :
    filePreamble? file = filePreamble? order := by
  cases same with
  | none => rfl
  | some same =>
    rw [filePreamble?, filePreamble?, Option.bind_some, Option.bind_some, same.preamble,
      same.resolve_eq]

/-- The order of the entries in the tables of a file makes no difference to what its layer is. -/
theorem Layered.of_sameEntries {file order : Option SettingsFile} {s : Settings}
    (same : Option.Rel SettingsFile.SameEntries file order) (h : Layered t args order cwd s) :
    Layered t args file cwd s := by
  cases same with
  | none => exact h
  | @some f g same =>
    have words : f.vocabulary.get? = g.vocabulary.get? := Table.get?_eq_of_perm same.vocabulary
    have members : f.ignored.get? = g.ignored.get? := Table.get?_eq_of_perm same.ignored
    have classes : ∀ c, c ∈ f.ignored.keys ↔ c ∈ g.ignored.keys :=
      fun _ => (same.ignored.map _).mem_iff
    have named : filePreamble? (some f) = filePreamble? (some g) :=
      filePreamble?_eq_of_sameEntries (.some same)
    exact {
      output := by
        rw [h.output, outputOver, outputOver, Option.bind_some, Option.bind_some, same.output,
          same.resolve_eq]
      workingDir := h.workingDir
      preamble := named ▸ h.preamble
      word := by simpa [words] using h.word
      ignored := by simpa [classes] using h.ignored
      members := by simpa [members] using h.members }

/-- The settings of a run are those of the command line over those of the file over what is
built in, in whatever order the tables of the file have their entries; and a run has no settings
just when one of the preambles that it reads is no file with a text. -/
theorem resolveWith_layered {file order : Option SettingsFile}
    (same : Option.Rel SettingsFile.SameEntries file order) :
    (∀ s, resolveWith t args order cwd = .ok s → Layered t args file cwd s) ∧
      ((∃ e, resolveWith t args order cwd = .error e) ↔
        ∃ p ∈ (filePreamble? file).toList ++ (flagPreamble? args cwd).toList,
          ∀ text, t.readText p ≠ .ok text) := by
  refine ⟨fun s h => ?_, ?_⟩
  case refine_2 =>
    rw [filePreamble?_eq_of_sameEntries same]
    exact resolveWith_eq_error_iff
  obtain ⟨read, read', rfl⟩ := resolveWith_eq_ok h
  exact (layered_layered read read').of_sameEntries same

/-- A settings file beside its preamble, with its tables given by their entries. -/
def projectFile (ignored : List (String × List String)) (words : List (String × String)) :
    SettingsFile :=
  ⟨some "out.d.ts", some "base.d.ts", .ofList ignored, .ofList words, .ofString "/p"⟩

/-- A class with built-in ignored members, and one without. -/
def projectIgnored : List (String × List String) :=
  [("qx.html.Flash", ["embed", "setAttribute", "embed"]), ("a.B", ["run"])]

/-- A word that is built in, and one that is not. -/
def projectWords : List (String × String) := [("Boolean", "true | false"), ("Flag", "boolean")]

/-- A project with two preambles. -/
def preambleTree : FileTree :=
  ⟨.directory [("p", .directory [("base.d.ts", .file "// file".toUTF8),
    ("cli.d.ts", .file "// command line".toUTF8)])], []⟩

/-- Arguments that name an output and a preamble, if they are given. -/
def overridingArguments (output preamble : Option String) : Arguments :=
  ⟨.ofString "meta", output.map .ofString, none, preamble.map .ofString, false, false, false, 0⟩

theorem sameEntries_reverse {ignored : List (String × List String)}
    {words : List (String × String)} (distinct : (ignored.map (·.1)).Nodup)
    (distinct' : (words.map (·.1)).Nodup) :
    (projectFile ignored words).SameEntries (projectFile ignored.reverse words.reverse) where
  output := rfl
  preamble := rfl
  ignored := Table.perm_entries_ofList (List.reverse_perm _).symm distinct
  vocabulary := Table.perm_entries_ofList (List.reverse_perm _).symm distinct'
  directory := rfl

/-- The tables of the project's file, taken backwards. -/
theorem layered_backwards :
    ∃ s, resolveWith preambleTree (overridingArguments none none)
        (some (projectFile projectIgnored.reverse projectWords.reverse)) (.ofString "/p") =
          .ok s ∧
      Layered preambleTree (overridingArguments none none)
        (some (projectFile projectIgnored projectWords)) (.ofString "/p") s := by
  obtain ⟨s, resolved, -⟩ := exists_ok_of_any
    (x := resolveWith preambleTree (overridingArguments none none)
      (some (projectFile projectIgnored.reverse projectWords.reverse)) (.ofString "/p"))
    (p := fun s => s.preamble = "// file") (by decide +kernel)
  exact ⟨s, resolved, (resolveWith_layered
    (.some (sameEntries_reverse (by decide) (by decide)))).1 s resolved⟩

/-! ## Overridden entries -/

theorem resolveWith_overridden_output (f : SettingsFile) (entry : Option String)
    (given : args.output.isSome = true) :
    resolveWith t args (some { f with output := entry }) cwd =
      resolveWith t args (some f) cwd := by
  obtain ⟨out, given⟩ := Option.isSome_iff_exists.mp given
  have same : layered t args (some { f with output := entry }) cwd =
      layered t args (some f) cwd := by
    rw [layered, layered, outputOver, outputOver, given]
    rfl
  rw [resolveWith_eq, resolveWith_eq, same]
  rfl

/-- Where the preamble of the command line can be read, that of the file is no part of the
settings. -/
theorem layered_overridden_preamble (f : SettingsFile) (entry : Option String)
    (given : args.preamble.isSome = true) (read : refusal? t (flagPreamble? args cwd) = none) :
    layered t args (some { f with preamble := entry }) cwd = layered t args (some f) cwd := by
  obtain ⟨flag, given⟩ := Option.isSome_iff_exists.mp given
  have flag_path : flagPreamble? args cwd = some (cwd.join flag) := by
    rw [flagPreamble?, given]
    rfl
  obtain ⟨text, there, -⟩ := exists_preambleAt? (flag_path ▸ read)
  rw [layered, layered, flag_path, there]
  rfl

/-- An output on the command line makes the one of the file irrelevant. A preamble on the command
line does not: the one of the file is read all the same, so that two files which name different
preambles give the same result just when the same preamble is the first that is refused, or none
is. -/
theorem resolveWith_overridden_iff (f : SettingsFile) (entry : Option String) :
    (args.output.isSome = true →
      resolveWith t args (some { f with output := entry }) cwd =
        resolveWith t args (some f) cwd) ∧
    (args.preamble.isSome = true →
      (resolveWith t args (some { f with preamble := entry }) cwd =
          resolveWith t args (some f) cwd ↔
        (refusal? t (entry.map f.resolve)).or (refusal? t (flagPreamble? args cwd)) =
          (refusal? t (filePreamble? (some f))).or (refusal? t (flagPreamble? args cwd)))) := by
  refine ⟨resolveWith_overridden_output f entry, fun given => ?_⟩
  have entry_path : filePreamble? (some { f with preamble := entry }) = entry.map f.resolve := rfl
  rw [resolveWith_eq, resolveWith_eq, entry_path]
  cases first : (refusal? t (entry.map f.resolve)).or (refusal? t (flagPreamble? args cwd)) with
  | some e =>
    cases (refusal? t (filePreamble? (some f))).or (refusal? t (flagPreamble? args cwd)) with
    | some e' => simp
    | none => simp
  | none =>
    -- nothing is refused here, so the preamble of the command line covers that of the file
    have read := (Option.or_eq_none_iff.mp first).2
    cases (refusal? t (filePreamble? (some f))).or (refusal? t (flagPreamble? args cwd)) with
    | some e' => simp
    | none => simp [layered_overridden_preamble f entry given read]

/-- With a preamble on the command line, a file that names none and a file that names one which
is there give the same result; and so do two files with any outputs, if the command line has
one. -/
theorem resolveWith_overridden_project :
    resolveWith preambleTree (overridingArguments (some "o.d.ts") (some "cli.d.ts"))
        (some { projectFile [] [] with preamble := none }) (.ofString "/p") =
      resolveWith preambleTree (overridingArguments (some "o.d.ts") (some "cli.d.ts"))
        (some (projectFile [] [])) (.ofString "/p") ∧
    resolveWith preambleTree (overridingArguments (some "o.d.ts") (some "cli.d.ts"))
        (some { projectFile [] [] with output := none }) (.ofString "/p") =
      resolveWith preambleTree (overridingArguments (some "o.d.ts") (some "cli.d.ts"))
        (some (projectFile [] [])) (.ofString "/p") :=
  ⟨((resolveWith_overridden_iff _ none).2 rfl).mpr (by decide +kernel),
    (resolveWith_overridden_iff _ none).1 rfl⟩

/-- A file that names a preamble which is not there makes a run fail that has one on the command
line. -/
theorem resolveWith_overridden_gone :
    resolveWith preambleTree (overridingArguments none (some "cli.d.ts"))
        (some { projectFile [] [] with preamble := some "gone.d.ts" }) (.ofString "/p") =
      .error ⟨[.readPreamble (.ofString "/p/gone.d.ts")], .fault .notFound⟩ ∧
    (resolveWith preambleTree (overridingArguments none (some "cli.d.ts"))
      (some { projectFile [] [] with preamble := none }) (.ofString "/p")).toOption.isSome = true := by
  constructor
  · have refused : refusal? preambleTree (filePreamble? (some
        { projectFile [] [] with preamble := some "gone.d.ts" })) =
        some ⟨[.readPreamble (.ofString "/p/gone.d.ts")], .fault .notFound⟩ := by decide +kernel
    rw [resolveWith_eq, refused, Option.some_or]
  · decide +kernel

end Settings

end Ambient
