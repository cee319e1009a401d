/-
  Listings: the declarations of all classes of an index, in the order of their names, those of
  one package in one module.
-/
import Ambient.Declaration.Block

namespace Ambient

/-- How many classes were declared, how many names were skipped, and how many modules were
opened. -/
structure Stats where
  classes : Nat
  skipped : Nat
  modules : Nat
deriving DecidableEq, Repr

namespace Stats

/-- Nothing counted. -/
def zero : Stats := ⟨0, 0, 0⟩

/-- One more name, declared or skipped. -/
def count (s : Stats) (declared : Bool) : Stats :=
  if declared then { s with classes := s.classes + 1 } else { s with skipped := s.skipped + 1 }

/-- One more module, if there is one. -/
def openModule (s : Stats) (opened : Bool) : Stats :=
  if opened then { s with modules := s.modules + 1 } else s

@[simp] theorem classes_count (s : Stats) (declared : Bool) :
    (s.count declared).classes = s.classes + if declared then 1 else 0 := by
  cases declared <;> rfl

@[simp] theorem skipped_count (s : Stats) (declared : Bool) :
    (s.count declared).skipped = s.skipped + if declared then 0 else 1 := by
  cases declared <;> rfl

@[simp] theorem modules_count (s : Stats) (declared : Bool) :
    (s.count declared).modules = s.modules := by cases declared <;> rfl

@[simp] theorem classes_openModule (s : Stats) (opened : Bool) :
    (s.openModule opened).classes = s.classes := by cases opened <;> rfl

@[simp] theorem skipped_openModule (s : Stats) (opened : Bool) :
    (s.openModule opened).skipped = s.skipped := by cases opened <;> rfl

@[simp] theorem modules_openModule (s : Stats) (opened : Bool) :
    (s.openModule opened).modules = s.modules + if opened then 1 else 0 := by
  cases opened <;> rfl

end Stats

/-- The package of a dotted name: all but its last part. -/
def packageOf (name : String) : String :=
  ".".intercalate (Text.parts '.' name).dropLast

/-- Whether a module is open after a name of this package. -/
def isOpen (package : Option String) : Bool := package.any (· != "")

/-- The text between a name of the package `last` and the next name, of package `next`. -/
def transition (last : Option String) (next : String) : List String :=
  if last = some next then ["\n"]
  else
    (if isOpen last then ["\x7d\n\n"] else []) ++
      (if next = "" then [] else ["declare module " ++ next ++ " \x7b\n"])

namespace Index

/-- The listed names in their order in the text. -/
def sortedNames (i : Index) : List String := i.names.mergeSort fun a b => decide (a ≤ b)

/-- The declarations of names, after a name of the package `last`. -/
def blocks (i : Index) (settings : Settings) (last : Option String) (stats : Stats) :
    List String → Emission Stats
  | [] => (Emission.write (if isOpen last then ["\x7d\n"] else [])).andThen fun _ => .done stats
  | name :: names =>
    match i.find? name with
    | none => i.blocks settings last (stats.count false) names
    | some r =>
      let package := packageOf name
      (Emission.write (transition last package)).andThen fun _ =>
        (i.recordBlock settings r (package != "")).andThen fun declared =>
          let opened := last != some package && package != ""
          i.blocks settings (some package) ((stats.openModule opened).count declared) names

/-- A name without a record is skipped. -/
theorem blocks_cons_of_none {i : Index} {settings : Settings} {last : Option String}
    {stats : Stats} {name : String} {names : List String} (h : i.find? name = none) :
    i.blocks settings last stats (name :: names) =
      i.blocks settings last (stats.count false) names := by rw [blocks, h]

/-- A name with a record has its block behind the transition to its package. -/
theorem blocks_cons_of_some {i : Index} {settings : Settings} {last : Option String}
    {stats : Stats} {name : String} {r : Record} {names : List String}
    (h : i.find? name = some r) :
    i.blocks settings last stats (name :: names) =
      (Emission.write (transition last (packageOf name))).andThen fun _ =>
        (i.recordBlock settings r (packageOf name != "")).andThen fun declared =>
          i.blocks settings (some (packageOf name))
            ((stats.openModule (last != some (packageOf name) && packageOf name != "")).count
              declared) names := by rw [blocks, h]

/-- The whole listing: a header with a time, the preamble, and the declarations. -/
def listing (i : Index) (settings : Settings) (time : String) : Emission Stats :=
  (Emission.write ["// Generated declaration file at " ++ time ++ "\n", settings.preamble,
      "\n"]).andThen fun _ =>
    i.blocks settings none .zero i.sortedNames

end Index

end Ambient
