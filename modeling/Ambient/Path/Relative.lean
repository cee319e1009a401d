/-
  The way from one path to another, component by component, and the form of a path in links.
-/
import Ambient.Path.Basic

namespace Ambient.Path

/-- What is left of two lists after the longest start that they share. -/
def dropCommon {α : Type} [DecidableEq α] : List α → List α → List α × List α
  | a :: as, b :: bs => if a = b then dropCommon as bs else (a :: as, b :: bs)
  | as, bs => (as, bs)

/-- The components of a path that lead somewhere else. -/
def steps (p : Path) : List Component := p.components.filter (· != .here)

/-- The steps from one path to another: up once for each own step of the first, then down the
own steps of the second. -/
def stepsBetween (source target : Path) : List Component :=
  let (back, forth) := dropCommon source.steps target.steps
  List.replicate back.length .up ++ forth

/-- The path that leads from `source`, a directory, to `target`. -/
def relative (source target : Path) : Path :=
  let p := empty.joinAll ((stepsBetween source target).map Component.text)
  if p.chars.isEmpty then ⟨['.']⟩ else p

/-- The components of a path with `/` between them. The root is a component of its own. -/
def display (p : Path) : String :=
  String.ofList (Text.join '/' (p.components.map Component.text))

end Ambient.Path
