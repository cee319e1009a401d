/-
  Blocks: the declaration of one class, with the mixins that it includes written into it. A
  chain of mixins that comes back to one of its names is an error, so every chain ends: each
  step takes a mixin of the view that is not on the chain yet.
-/
import Ambient.Declaration.Member
import Ambient.Emission.Basic

namespace Ambient

namespace Subject

open Declaration

/-- The mixins of the view that are not on a chain. -/
def unused (s : Subject) (chain : List String) : List String :=
  s.view.mixins.keys.filter fun m => !chain.contains m

theorem length_unused_lt {s : Subject} {chain : List String} {m : String} {r : Record}
    (hm : s.view.mixins.get? m = some r) (hc : chain.contains m = false) :
    (s.unused (chain ++ [m])).length < (s.unused chain).length := by
  refine Table.length_filter_lt (Table.mem_keys_of_get?_eq_some hm) (fun a ha => ?_)
    (by simpa using hc) (by simp)
  have : a ∉ chain ∧ a ≠ m := by simpa using ha
  simpa using this.1

/-- The line that stands before what a mixin brings. -/
def mixinLine (m : String) : String := indent ++ "// Mixin: " ++ m ++ "\n"

/-- What is written for mixins, and for the mixins that they include. `chain` leads from the
class to the record that includes them. -/
def inclusions (s : Subject) (chain mixins : List String) : Emission Unit :=
  match mixins with
  | [] => .done ()
  | m :: rest =>
    (Emission.write [mixinLine m]).andThen fun _ =>
      match _new : chain.contains m with
      | true => .fail (.cycle s.name (chain ++ [m]))
      | false =>
        match _found : s.view.mixins.get? m with
        | none => .fail (.missing s.name m)
        | some r =>
          (Emission.write (s.ownTexts r)).andThen fun _ =>
            (s.inclusions (chain ++ [m]) r.mixins).andThen fun _ => s.inclusions chain rest
termination_by ((s.unused chain).length, mixins.length)
decreasing_by
  · exact Prod.Lex.left _ _ (length_unused_lt _found _new)
  · exact Prod.Lex.right _ (by simp)

@[simp] theorem inclusions_nil (s : Subject) (chain : List String) :
    s.inclusions chain [] = .done () := by rw [inclusions]

/-- A mixin that is on the chain already ends the writing. -/
theorem inclusions_of_mem (s : Subject) {chain : List String} {m : String} (mixins : List String)
    (h : m ∈ chain) :
    s.inclusions chain (m :: mixins) =
      ⟨[mixinLine m], .error (.cycle s.name (chain ++ [m]))⟩ := by
  rw [inclusions]
  simp only [Emission.andThen, Emission.write]
  split
  · rfl
  · next hc => simp [h] at hc

/-- A mixin that the view lacks ends the writing. -/
theorem inclusions_of_none (s : Subject) {chain : List String} {m : String}
    (mixins : List String) (h : m ∉ chain) (hm : s.view.mixins.get? m = none) :
    s.inclusions chain (m :: mixins) =
      ⟨[mixinLine m], .error (.missing s.name m)⟩ := by
  rw [inclusions]
  simp only [Emission.andThen, Emission.write]
  split
  · next hc => simp [h] at hc
  · split
    · rfl
    · next hs => simp [hm] at hs

/-- Any other mixin brings its entries and its mixins. -/
theorem inclusions_of_some (s : Subject) {chain : List String} {m : String}
    (mixins : List String) {r : Record} (h : m ∉ chain) (hm : s.view.mixins.get? m = some r) :
    s.inclusions chain (m :: mixins) =
      (Emission.write (mixinLine m :: s.ownTexts r)).andThen fun _ =>
        (s.inclusions (chain ++ [m]) r.mixins).andThen fun _ => s.inclusions chain mixins := by
  rw [inclusions]
  simp only [Emission.andThen, Emission.write]
  split
  · next hc => simp [h] at hc
  · split
    · next hs => simp [hm] at hs
    · next r' hs =>
      obtain rfl : r = r' := Option.some.inj (hm.symm.trans hs)
      simp

/-- A single mixin is inlined as the mixins that it lists are. -/
theorem outcome_inclusions_singleton (s : Subject) {chain : List String} {m : String} {r : Record}
    (h : m ∉ chain) (hm : s.view.mixins.get? m = some r) :
    (s.inclusions chain [m]).outcome = (s.inclusions (chain ++ [m]) r.mixins).outcome := by
  rw [inclusions_of_some s [] h hm, Emission.outcome_write_andThen]
  cases inner : (s.inclusions (chain ++ [m]) r.mixins).outcome with
  | error e => exact Emission.outcome_andThen_of_error inner
  | ok a =>
    rw [Emission.outcome_andThen_of_ok inner, inclusions_nil]
    rfl
/-! ## Headings -/

/-- Ancestors that every class has, which no declaration names. -/
def builtinRoots : List String := ["Object", "Array", "Error"]

/-- The types that a declaration extends: all of them for an interface, the first one else. -/
def extended (s : Subject) : List String :=
  let named := s.record.superClasses.filter fun n => !builtinRoots.contains n
  let used := if s.record.isInterface then named else named.take 1
  (used.map s.scope.translate).filter (· != TypeText.unknownType)

/-- The clause that names what a declaration extends. -/
def extendsClause (s : Subject) : String :=
  if s.extended.isEmpty then "" else " extends " ++ ", ".intercalate s.extended

/-- The clause that names the interfaces of a class. -/
def implementsClause (s : Subject) : String :=
  if s.record.interfaces.isEmpty then ""
  else " implements " ++ ", ".intercalate (s.record.interfaces.map s.scope.translate)

/-- The word that opens a declaration. -/
def keyword (s : Subject) : String :=
  if s.record.isInterface then "interface "
  else if s.record.isAbstract then "abstract class "
  else "class "

/-- The last part of the dotted name. -/
def shortName (s : Subject) : String := ((Text.parts '.' s.name).getLast?).getD s.name

/-- The line that opens a block; outside a module it is marked as a declaration. -/
def heading (s : Subject) (inModule : Bool) : String :=
  "  " ++ (if inModule then "" else "declare ") ++ s.keyword ++ s.shortName ++
    s.extendsClause ++ s.implementsClause ++ " \x7b\n"

/-- The line of the constructor. Only a regular class has one. -/
def constructorText (s : Subject) : List String :=
  if s.record.kind = .regular then
    (s.record.construct.map fun m =>
      indent ++ "constructor (" ++ paramList s.scope m.params ++ ");\n").toList
  else []

/-- What stands before the members of the class. -/
def opening (s : Subject) (inModule : Bool) : List String :=
  ["  // " ++ s.name ++ "\n", s.heading inModule] ++ s.constructorText

/-- The block of the class. -/
def block (s : Subject) (inModule : Bool) : Emission Unit :=
  (Emission.write (s.opening inModule ++ s.ownTexts s.record)).andThen fun _ =>
    (s.inclusions [s.name] s.record.mixins).andThen fun _ => .write ["\n  \x7d\n"]

/-- A block ends as the inlining of its mixins does. -/
theorem outcome_block (s : Subject) (inModule : Bool) :
    (s.block inModule).outcome = (s.inclusions [s.name] s.record.mixins).outcome := by
  rw [block, Emission.outcome_write_andThen]
  cases h : (s.inclusions [s.name] s.record.mixins).outcome with
  | error e => exact Emission.outcome_andThen_of_error h
  | ok a => exact Emission.outcome_andThen_of_ok h

theorem pieces_block {s : Subject} {inModule : Bool}
    (written : (s.inclusions [s.name] s.record.mixins).outcome = .ok ()) :
    (s.block inModule).pieces = s.opening inModule ++ s.ownTexts s.record ++
      (s.inclusions [s.name] s.record.mixins).pieces ++ ["\n  \x7d\n"] := by
  rw [block, Emission.pieces_write_andThen, Emission.pieces_andThen_of_ok written,
    ← List.append_assoc]
  rfl

end Subject

/-- What is written for a record. A record without a name has no block; the answer tells
whether there is one. -/
def Index.recordBlock (i : Index) (settings : Settings) (r : Record) (inModule : Bool) :
    Emission Bool :=
  match r.name with
  | none => .done false
  | some name => ((i.subject settings r name).block inModule).andThen fun _ => .done true

namespace Index

variable {i : Index} {settings : Settings} {r : Record} {name : String}

/-- A block ends as the inlining of its mixins does. -/
theorem outcome_recordBlock (inModule : Bool) (named : r.name = some name) :
    (i.recordBlock settings r inModule).outcome =
      ((i.subject settings r name).inclusions [name] r.mixins).outcome.map fun _ => true := by
  have block_ends := (i.subject settings r name).outcome_block inModule
  rw [recordBlock, named]
  cases h : ((i.subject settings r name).inclusions [name] r.mixins).outcome with
  | error e => exact Emission.outcome_andThen_of_error (block_ends.trans h)
  | ok a => exact Emission.outcome_andThen_of_ok (block_ends.trans h)

/-- A block that is written has all its mixins inlined. -/
theorem outcome_inclusions_of_written {inModule : Bool} (named : r.name = some name)
    (written : (i.recordBlock settings r inModule).outcome = .ok true) :
    ((i.subject settings r name).inclusions [name] r.mixins).outcome = .ok () := by
  rw [outcome_recordBlock inModule named] at written
  cases h : ((i.subject settings r name).inclusions [name] r.mixins).outcome with
  | error e => simp [h, Except.map] at written
  | ok a => rfl

theorem pieces_recordBlock (i : Index) (settings : Settings) (inModule : Bool)
    (named : r.name = some name) :
    (i.recordBlock settings r inModule).pieces =
      ((i.subject settings r name).block inModule).pieces := by
  rw [recordBlock, named]
  exact Emission.pieces_andThen_done _ _

end Index

end Ambient
