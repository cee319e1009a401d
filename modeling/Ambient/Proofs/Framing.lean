/-
  The frame of a listing: how the blocks of the classes follow one another. Names of one
  package stand in one module, and the blocks of a run of names are set apart by empty lines.
  Main result: a listing that ends without an error is the header, the preamble, and the runs
  of its names.
-/
import Ambient.Proofs.ByteOrder
import Mathlib.Data.List.Chain

namespace Ambient

/-! ## Packages -/

/-- The package of a dotted name is the text before its last dot; without a dot it is empty. -/
def IsPackageOf (package name : String) : Prop :=
  (package = "" ∧ '.' ∉ name.toList) ∨
    ∃ last : String, '.' ∉ last.toList ∧ name = package ++ "." ++ last

theorem toList_intercalate_dot (parts : List (List Char)) :
    (".".intercalate (parts.map String.ofList)).toList = Text.join '.' parts := by
  rw [String.toList_intercalate, List.map_map, Text.join]
  congr 1
  exact List.map_id'' (fun p => String.toList_ofList) parts

theorem isPackageOf_packageOf (name : String) : IsPackageOf (packageOf name) name := by
  obtain ⟨parts, last, hsplit⟩ : ∃ parts last, Text.split '.' name.toList = parts ++ [last] :=
    ⟨_, _, (List.dropLast_concat_getLast (Text.split_ne_nil '.' name.toList)).symm⟩
  have hmem : last ∈ Text.split '.' name.toList := by simp [hsplit]
  have hlast : '.' ∉ last := Text.sep_not_mem_of_mem_split hmem
  have hname := Text.join_split '.' name.toList
  have hpackage : (packageOf name).toList = Text.join '.' parts := by
    rw [packageOf, Text.parts, hsplit, List.map_append, List.map_singleton,
      List.dropLast_concat, toList_intercalate_dot]
  rw [hsplit] at hname
  rcases List.eq_nil_or_concat parts with rfl | ⟨init, part, rfl⟩
  · refine .inl ⟨String.toList_inj.mp hpackage, ?_⟩
    rw [← hname]
    simpa [Text.join] using hlast
  · refine .inr ⟨String.ofList last, by simpa using hlast, String.toList_inj.mp ?_⟩
    rw [Text.join_append_cons '.' (by simp)] at hname
    rw [← hname, String.toList_append, String.toList_append, hpackage, String.toList_ofList]
    simp [Text.join, List.intercalate]

/-- A run of listed names of one package, each with its record. -/
structure PackageRun where
  package : String
  classes : List (String × Record)
  classes_ne_nil : classes ≠ []
  packageOf_eq : ∀ c ∈ classes, packageOf c.1 = package

/-- Any names are made up of runs, each as long as it can be. -/
theorem exists_runs (classes : List (String × Record)) :
    ∃ runs : List PackageRun, runs.flatMap (·.classes) = classes ∧
      runs.IsChain fun a b => a.package ≠ b.package := by
  induction classes with
  | nil => exact ⟨[], rfl, .nil⟩
  | cons c classes ih =>
    obtain ⟨runs, rfl, chain⟩ := ih
    cases runs with
    | nil => exact ⟨[⟨packageOf c.1, [c], by simp, by simp⟩], rfl, .singleton _⟩
    | cons run runs =>
      by_cases same : packageOf c.1 = run.package
      · refine ⟨⟨run.package, c :: run.classes, by simp, ?_⟩ :: runs, by simp, ?_⟩
        · exact List.forall_mem_cons.mpr ⟨same, run.packageOf_eq⟩
        · cases chain with
          | singleton => exact .singleton _
          | cons_cons h chain => exact .cons_cons h chain
      · exact ⟨⟨packageOf c.1, [c], by simp, by simp⟩ :: run :: runs, rfl, .cons_cons same chain⟩

namespace Index

/-! ## The blocks of known names -/

/-- The names with a record, each with its record. -/
def known (i : Index) (names : List String) : List (String × Record) :=
  names.filterMap fun name => (i.find? name).map fun r => (name, r)

/-- The block of a class in the listing. Outside a module it is marked as a declaration. -/
def listedBlock (i : Index) (settings : Settings) (c : String × Record) : Emission Bool :=
  i.recordBlock settings c.2 (packageOf c.1 != "")

/-- The pieces of the blocks of known names, after a name of the package `last`. -/
def blockPieces (i : Index) (settings : Settings) (last : Option String) :
    List (String × Record) → List String
  | [] => if isOpen last then ["\x7d\n"] else []
  | c :: classes =>
    transition last (packageOf c.1) ++ (i.listedBlock settings c).pieces ++
      i.blockPieces settings (some (packageOf c.1)) classes

/-- How many modules are opened for known names, after a name of the package `last`. -/
def opened (last : Option String) : List (String × Record) → Nat
  | [] => 0
  | c :: classes =>
    (if last ≠ some (packageOf c.1) ∧ packageOf c.1 ≠ "" then 1 else 0) +
      opened (some (packageOf c.1)) classes

variable {i : Index} {settings : Settings}

theorem known_cons_of_none {name : String} (names : List String) (h : i.find? name = none) :
    i.known (name :: names) = i.known names := by
  simp [known, h]

theorem known_cons_of_some {name : String} {r : Record} (names : List String)
    (h : i.find? name = some r) : i.known (name :: names) = (name, r) :: i.known names := by
  simp [known, h]

/-- A record that is written without an error has a block just if it has a name. -/
theorem eq_isSome_of_outcome_recordBlock {r : Record} {inModule declared : Bool}
    (h : (i.recordBlock settings r inModule).outcome = .ok declared) :
    declared = r.name.isSome := by
  unfold recordBlock at h
  split at h
  · next unnamed =>
    obtain rfl := Except.ok.inj h
    rw [unnamed]
    rfl
  · next name named =>
    obtain ⟨-, -, h⟩ := Emission.outcome_andThen_eq_ok.mp h
    obtain rfl := Except.ok.inj h
    rw [named]
    rfl

/-- What a listing of names has written and counted if it ends without an error. -/
structure Listed (i : Index) (settings : Settings) (last : Option String) (names : List String)
    (before after : Stats) (pieces : List String) : Prop where
  pieces_eq : pieces = i.blockPieces settings last (i.known names)
  written : ∀ c ∈ i.known names, (i.listedBlock settings c).outcome = .ok c.2.name.isSome
  classes_eq : after.classes = before.classes + (i.known names).countP (·.2.name.isSome)
  total_eq : after.classes + after.skipped = before.classes + before.skipped + names.length
  modules_eq : after.modules = before.modules + opened last (i.known names)

theorem listed_of_outcome_blocks {last : Option String} {before after : Stats}
    {names : List String} (h : (i.blocks settings last before names).outcome = .ok after) :
    i.Listed settings last names before after (i.blocks settings last before names).pieces := by
  induction names generalizing last before with
  | nil =>
    rw [blocks, Emission.outcome_write_andThen] at h
    obtain rfl := Except.ok.inj h
    exact ⟨by simp [blocks, blockPieces, known, Emission.done], by simp [known], by simp [known],
      by simp, by simp [known, opened]⟩
  | cons name names ih =>
    cases found : i.find? name with
    | none =>
      rw [blocks_cons_of_none found] at h ⊢
      obtain ⟨pieces_eq, written, classes_eq, total_eq, modules_eq⟩ := ih h
      rw [← known_cons_of_none names found] at pieces_eq written classes_eq modules_eq
      refine ⟨pieces_eq, written, by simpa using classes_eq, ?_, by simpa using modules_eq⟩
      simp at total_eq ⊢
      omega
    | some r =>
      rw [blocks_cons_of_some found] at h ⊢
      rw [Emission.outcome_write_andThen, Emission.outcome_andThen_eq_ok] at h
      obtain ⟨declared, block, later⟩ := h
      obtain rfl := eq_isSome_of_outcome_recordBlock block
      obtain ⟨pieces_eq, written, classes_eq, total_eq, modules_eq⟩ := ih later
      rw [Emission.pieces_write_andThen, Emission.pieces_andThen_of_ok block, pieces_eq]
      have known_eq := known_cons_of_some names found
      refine ⟨?_, ?_, ?_, ?_, ?_⟩
      · rw [known_eq, blockPieces, List.append_assoc]
        rfl
      · rw [known_eq]
        exact List.forall_mem_cons.mpr ⟨block, written⟩
      · rw [known_eq, classes_eq, List.countP_cons]
        simp only [Stats.classes_count, Stats.classes_openModule]
        omega
      · simp only [Stats.classes_count, Stats.classes_openModule, Stats.skipped_count,
          Stats.skipped_openModule] at total_eq
        rw [total_eq, List.length_cons]
        cases r.name.isSome <;> simp <;> omega
      · rw [known_eq, modules_eq, opened]
        simp only [Stats.modules_count, Stats.modules_openModule, Bool.and_eq_true, bne_iff_ne]
        omega

/-- A listing ends without an error if all its blocks do. -/
theorem exists_outcome_blocks {last : Option String} {stats : Stats} {names : List String}
    (h : ∀ c, i.find? c.1 = some c.2 → (i.listedBlock settings c).outcome = .ok c.2.name.isSome) :
    ∃ after, (i.blocks settings last stats names).outcome = .ok after := by
  induction names generalizing last stats with
  | nil => exact ⟨stats, rfl⟩
  | cons name names ih =>
    cases found : i.find? name with
    | none =>
      rw [blocks_cons_of_none found]
      exact ih
    | some r =>
      have block : (i.recordBlock settings r (packageOf name != "")).outcome =
          .ok r.name.isSome := h (name, r) found
      rw [blocks_cons_of_some found, Emission.outcome_write_andThen,
        Emission.outcome_andThen_of_ok block]
      exact ih

/-- The block of a listed class stands in the text as it is. -/
theorem infix_blockPieces {last : Option String} {c : String × Record}
    {classes : List (String × Record)} (h : c ∈ classes) :
    (i.listedBlock settings c).pieces <:+: i.blockPieces settings last classes := by
  induction classes generalizing last with
  | nil => simp at h
  | cons c' classes ih =>
    rw [blockPieces]
    rcases List.mem_cons.mp h with rfl | h
    · exact ⟨transition last (packageOf c.1), _, rfl⟩
    · exact (ih h).trans (List.suffix_append _ _).isInfix

/-- A listing without an error has the whole block of each name that is listed and known. -/
theorem listedBlock_infix_listing {time : String} {stats : Stats}
    (written : (i.listing settings time).outcome = .ok stats) {c : String × Record}
    (listed : c.1 ∈ i.names) (found : i.find? c.1 = some c.2) :
    (i.listedBlock settings c).outcome = .ok c.2.name.isSome ∧
      (i.listedBlock settings c).pieces <:+: (i.listing settings time).pieces := by
  rw [listing, Emission.outcome_write_andThen] at written
  have all := listed_of_outcome_blocks written
  have known : c ∈ i.known i.sortedNames :=
    List.mem_filterMap.mpr ⟨c.1, i.perm_sortedNames.mem_iff.mpr listed, by simp [found]⟩
  refine ⟨all.written c known, ?_⟩
  rw [listing, Emission.pieces_write_andThen, all.pieces_eq]
  exact (infix_blockPieces known).trans (List.suffix_append _ _).isInfix

/-! ## The text of runs -/

/-- The blocks of the classes of a run, set apart by empty lines. -/
def runBlocks (i : Index) (settings : Settings) (run : PackageRun) : String :=
  "\n".intercalate
    (run.classes.map fun c => (i.recordBlock settings c.2 (run.package != "")).text)

/-- The text of runs. A run with a package stands in a module, and an empty line follows the
module unless it is the last run. -/
def framed (i : Index) (settings : Settings) : List PackageRun → String
  | [] => ""
  | run :: runs =>
    (if run.package = "" then "" else "declare module " ++ run.package ++ " \x7b\n") ++
      i.runBlocks settings run ++
      (if run.package = "" then "" else if runs.isEmpty then "\x7d\n" else "\x7d\n\n") ++
      i.framed settings runs

/-- What closes the module after a name of the package `last`, with or without runs behind
it. -/
def closing (last : Option String) (atEnd : Bool) : String :=
  if isOpen last then if atEnd then "\x7d\n" else "\x7d\n\n" else ""

theorem closing_some (package : String) (atEnd : Bool) : closing (some package) atEnd =
    if package = "" then "" else if atEnd then "\x7d\n" else "\x7d\n\n" := by
  by_cases h : package = "" <;> simp [closing, isOpen, h]

theorem intercalate_cons (separator t : String) (ts : List String) :
    separator.intercalate (t :: ts) = t ++ String.join (ts.map (separator ++ ·)) := by
  induction ts generalizing t with
  | nil => simp
  | cons u us ih =>
    rw [String.intercalate_cons_cons, ih, List.map_cons, String.join_cons, String.append_assoc,
      String.append_assoc]

/-- Between two packages the module of the first one is closed and that of the second one is
opened. -/
theorem join_transition {last : Option String} {next : String} (h : last ≠ some next) :
    String.join (transition last next) = closing last false ++
      if next = "" then "" else "declare module " ++ next ++ " \x7b\n" := by
  rw [transition, if_neg h, String.join_append, closing]
  congr 1
  · split <;> simp
  · split <;> simp

/-- Classes of the package that comes before are set apart by empty lines. -/
theorem join_blockPieces_same {package : String} {classes : List (String × Record)}
    (same : ∀ c ∈ classes, packageOf c.1 = package) (rest : List (String × Record)) :
    String.join (i.blockPieces settings (some package) (classes ++ rest)) =
      String.join ((classes.map fun c =>
        (i.recordBlock settings c.2 (package != "")).text).map ("\n" ++ ·)) ++
      String.join (i.blockPieces settings (some package) rest) := by
  induction classes with
  | nil => simp
  | cons c classes ih =>
    obtain ⟨hc, hclasses⟩ := List.forall_mem_cons.mp same
    rw [List.cons_append, blockPieces, hc, transition, if_pos rfl, String.join_append,
      String.join_append, ih hclasses, List.map_cons, List.map_cons, String.join_cons,
      listedBlock, hc, String.join_cons, String.join_nil, String.append_empty]
    simp only [Emission.text, String.append_assoc]

/-- A run begins with the transition to its package. -/
theorem join_blockPieces_run {last : Option String} (run : PackageRun)
    (rest : List (String × Record)) :
    String.join (i.blockPieces settings last (run.classes ++ rest)) =
      String.join (transition last run.package) ++ i.runBlocks settings run ++
        String.join (i.blockPieces settings (some run.package) rest) := by
  obtain ⟨package, classes, classes_ne_nil, same⟩ := run
  obtain ⟨c, classes, rfl⟩ := List.exists_cons_of_ne_nil classes_ne_nil
  obtain ⟨hc, hclasses⟩ := List.forall_mem_cons.mp same
  rw [runBlocks, List.map_cons, intercalate_cons, List.cons_append, blockPieces, hc,
    String.join_append, String.join_append, join_blockPieces_same hclasses, listedBlock, hc]
  simp only [Emission.text, String.append_assoc]

theorem ne_package_head {run : PackageRun} {runs : List PackageRun}
    (chain : (run :: runs).IsChain fun a b => a.package ≠ b.package) :
    ∀ next ∈ runs.head?, some run.package ≠ some next.package :=
  fun next hnext same => (List.isChain_cons.mp chain).1 next hnext (Option.some.inj same)

/-- The blocks of runs behind a package that is not that of the first run. -/
theorem join_blockPieces {last : Option String} {runs : List PackageRun}
    (new : ∀ run ∈ runs.head?, last ≠ some run.package)
    (chain : runs.IsChain fun a b => a.package ≠ b.package) :
    String.join (i.blockPieces settings last (runs.flatMap (·.classes))) =
      closing last runs.isEmpty ++ i.framed settings runs := by
  induction runs generalizing last with
  | nil =>
    rw [List.flatMap_nil, blockPieces, framed, closing]
    cases isOpen last <;> simp
  | cons run runs ih =>
    rw [List.flatMap_cons, join_blockPieces_run run,
      ih (ne_package_head chain) (List.IsChain.of_cons chain),
      join_transition (new run (by simp)), framed, closing_some, List.isEmpty_cons]
    simp only [String.append_assoc]

theorem opened_same {package : String} {classes : List (String × Record)}
    (same : ∀ c ∈ classes, packageOf c.1 = package) (rest : List (String × Record)) :
    opened (some package) (classes ++ rest) = opened (some package) rest := by
  induction classes with
  | nil => rfl
  | cons c classes ih =>
    obtain ⟨hc, hclasses⟩ := List.forall_mem_cons.mp same
    rw [List.cons_append, opened, hc, ih hclasses]
    simp

/-- One module is opened for each run with a package. -/
theorem opened_runs {last : Option String} {runs : List PackageRun}
    (new : ∀ run ∈ runs.head?, last ≠ some run.package)
    (chain : runs.IsChain fun a b => a.package ≠ b.package) :
    opened last (runs.flatMap (·.classes)) = runs.countP (·.package != "") := by
  induction runs generalizing last with
  | nil => rfl
  | cons run runs ih =>
    have differs := new run (by simp)
    have later := ih (ne_package_head chain) (List.IsChain.of_cons chain)
    obtain ⟨package, classes, classes_ne_nil, same⟩ := run
    obtain ⟨c, classes, rfl⟩ := List.exists_cons_of_ne_nil classes_ne_nil
    obtain ⟨hc, hclasses⟩ := List.forall_mem_cons.mp same
    rw [List.flatMap_cons, List.cons_append, opened, hc, opened_same hclasses, later,
      List.countP_cons, Nat.add_comm]
    simp [differs]

end Index

/-! ## Blocks -/

/-- The text of a record in a listing: one block under the name of the class, marked as a
declaration or not, or no text for a record without a name. -/
def IsBlock (isDeclared : Bool) (text : String) : Option String → Prop
  | none => text = ""
  | some name => ∃ keyword ∈ ["interface ", "abstract class ", "class "], ∃ heading body : String,
    text = "  // " ++ name ++ "\n" ++
      ("  " ++ (if isDeclared then "declare " else "") ++ keyword ++ heading ++ " \x7b\n") ++
      body ++ "\n  \x7d\n"

theorem Subject.keyword_mem (s : Subject) :
    s.keyword ∈ ["interface ", "abstract class ", "class "] := by
  unfold Subject.keyword
  split_ifs <;> simp

namespace Index

variable {i : Index} {settings : Settings}

theorem isBlock_recordBlock {r : Record} {inModule : Bool}
    (written : (i.recordBlock settings r inModule).outcome = .ok r.name.isSome) :
    IsBlock (!inModule) (i.recordBlock settings r inModule).text r.name := by
  cases named : r.name with
  | none =>
    rw [IsBlock, recordBlock, named]
    rfl
  | some name =>
    rw [named] at written
    have inlined := outcome_inclusions_of_written named written
    refine ⟨(i.subject settings r name).keyword, Subject.keyword_mem _,
      (i.subject settings r name).shortName ++ (i.subject settings r name).extendsClause ++
        (i.subject settings r name).implementsClause,
      String.join ((i.subject settings r name).constructorText ++
        (i.subject settings r name).ownTexts r ++
        ((i.subject settings r name).inclusions [name] r.mixins).pieces), ?_⟩
    rw [Emission.text, pieces_recordBlock i settings inModule named, Subject.pieces_block inlined,
      Subject.opening, Subject.heading]
    cases inModule <;>
      simp [String.join_append, String.append_assoc, subject]

/-- A listing that a sink accepts is the header, the preamble and the runs of its names. The
names are sorted by their bytes, those without a record are left out, and the runs are as long
as they can be. -/
theorem listing_framed (i : Index) (settings : Settings) (time : String) (sink : Sink)
    (stats : Stats) (written : (sink.deliver (i.listing settings time)).outcome = .ok stats) :
    ∃ names runs, names.Perm i.names ∧ names.Pairwise (fun a b => a = b ∨ bytesOf a < bytesOf b) ∧
      runs.flatMap (·.classes) = i.known names ∧
      runs.IsChain (fun a b => a.package ≠ b.package) ∧
      (∀ run ∈ runs, ∀ c ∈ run.classes, IsPackageOf run.package c.1) ∧
      (sink.deliver (i.listing settings time)).received =
        bytesOf ("// Generated declaration file at " ++ time ++ "\n" ++ settings.preamble ++ "\n" ++
          i.framed settings runs) ∧
      (∀ run ∈ runs, ∀ c ∈ run.classes, IsBlock (run.package == "")
        (i.recordBlock settings c.2 (run.package != "")).text c.2.name) ∧
      stats.modules = runs.countP (·.package != "") ∧
      stats.classes = (i.known names).countP (·.2.name.isSome) ∧
      stats.classes + stats.skipped = i.names.length := by
  obtain ⟨ended, received⟩ := received_of_outcome_deliver written
  rw [listing, Emission.outcome_write_andThen] at ended
  obtain ⟨pieces_eq, blocks_ok, classes_eq, total_eq, modules_eq⟩ := listed_of_outcome_blocks ended
  obtain ⟨runs, runs_eq, chain⟩ := exists_runs (i.known i.sortedNames)
  have first : ∀ run ∈ runs.head?, none ≠ some run.package := by simp
  refine ⟨i.sortedNames, runs, i.perm_sortedNames, i.pairwise_sortedNames, runs_eq, chain,
    ?_, ?_, ?_, ?_, ?_, ?_⟩
  · intro run _ c hc
    rw [← run.packageOf_eq c hc]
    exact isPackageOf_packageOf c.1
  · have text : String.join (i.blocks settings none .zero i.sortedNames).pieces =
        i.framed settings runs := by
      rw [pieces_eq, ← runs_eq, join_blockPieces first chain]
      simp [closing, isOpen]
    rw [received, Emission.text, listing, Emission.pieces_write_andThen, String.join_append, text]
    simp [String.append_assoc]
  · intro run hrun c hc
    have listed : c ∈ i.known i.sortedNames := runs_eq ▸ List.mem_flatMap_of_mem hrun hc
    have block := blocks_ok c listed
    rw [listedBlock, run.packageOf_eq c hc] at block
    have shape := isBlock_recordBlock block
    rwa [bne, Bool.not_not] at shape
  · rw [modules_eq, ← runs_eq, opened_runs first chain, Stats.zero, Nat.zero_add]
  · rw [classes_eq, Stats.zero, Nat.zero_add]
  · rw [total_eq, i.perm_sortedNames.length_eq, Stats.zero, Nat.zero_add, Nat.zero_add]

/-- A class outside all packages, two records of one package, one of them without a name, and a
name without a record. -/
def mixedNames : Index :=
  ⟨.empty, ["a.b.X", "a.Q", "Root", "a.b.Y"], .ofList
    [("Root", { Record.blank with name := some "Root" }),
      ("a.b.X", { Record.blank with name := some "a.b.X" }), ("a.b.Y", Record.blank)]⟩

theorem written_mixedNames (c : String × Record) (h : mixedNames.find? c.1 = some c.2) :
    (mixedNames.listedBlock .blank c).outcome = .ok c.2.name.isSome := by
  have found : c ∈ [("Root", { Record.blank with name := some "Root" }),
      ("a.b.X", { Record.blank with name := some "a.b.X" }), ("a.b.Y", Record.blank)] :=
    Table.get?_eq_some_iff.mp h
  have bare : ∀ name inModule, (mixedNames.recordBlock .blank
      { Record.blank with name := some name } inModule).outcome = .ok true := by
    intro name inModule
    rw [outcome_recordBlock inModule rfl, Record.blank, Subject.inclusions_nil]
    rfl
  simp only [List.mem_cons, List.not_mem_nil, or_false] at found
  rcases found with rfl | rfl | rfl
  · exact bare "Root" _
  · exact bare "a.b.X" _
  · rfl

theorem framed_mixedNames :
    ∃ stats, (Sink.unbounded.deliver (mixedNames.listing .blank "T")).outcome = .ok stats ∧
      ∃ names runs, names.Perm ["a.b.X", "a.Q", "Root", "a.b.Y"] ∧
        runs.flatMap (·.classes) = mixedNames.known names ∧
        (Sink.unbounded.deliver (mixedNames.listing .blank "T")).received =
          bytesOf ("// Generated declaration file at T\n\n" ++ mixedNames.framed .blank runs) ∧
        stats.modules = runs.countP (·.package != "") ∧ stats.classes + stats.skipped = 4 := by
  obtain ⟨stats, ended⟩ : ∃ stats, (mixedNames.listing .blank "T").outcome = .ok stats := by
    rw [listing, Emission.outcome_write_andThen]
    exact exists_outcome_blocks written_mixedNames
  have written : (Sink.unbounded.deliver (mixedNames.listing .blank "T")).outcome = .ok stats := by
    rw [Sink.deliver, Sink.unbounded, ended]
    rfl
  obtain ⟨names, runs, perm, -, runs_eq, -, -, received, -, modules_eq, -, total_eq⟩ :=
    listing_framed mixedNames .blank "T" .unbounded stats written
  exact ⟨stats, written, names, runs, perm, runs_eq, received, modules_eq, total_eq⟩

end Index

end Ambient
