/-
  Neighbourhoods: what the block of a class depends on. Of the records of an index it reads
  those that superclasses and mixins lead to from the class; of all other names no more than
  whether a dotted one has a record, since types are rooted by that. Main statement:
  `recordBlock_eq_of_agreesAround`.
-/
import Ambient.Proofs.Agreement
import Ambient.Proofs.BlockEntries

namespace Ambient.Index

/-- A name around a record: superclasses and mixins lead there through known records. The name
itself need not have a record. -/
inductive Neighbour (i : Index) (r : Record) : String → Prop
  | start {name : String} (listed : name ∈ r.superClasses ++ r.mixins) : Neighbour i r name
  | step {last name : String} {s : Record} (path : Neighbour i r last)
      (found : i.find? last = some s) (listed : name ∈ s.superClasses ++ s.mixins) :
      Neighbour i r name

/-- Indexes that differ at most in records that a given one does not lead to: they have one
root, know the same dotted names, and find the same records, if any, around the given one. -/
structure AgreesAround (i i' : Index) (r : Record) : Prop where
  root : i.root = i'.root
  dotted : ∀ name, '.' ∈ name.toList → i.knows name = i'.knows name
  neighbours : ∀ name, i.Neighbour r name → i.find? name = i'.find? name

variable {i i' : Index} {r : Record} {name : String}

/-- Every ancestor is around the record. -/
theorem Ancestor.neighbour (h : i.Ancestor r name) : i.Neighbour r name := by
  induction h with
  | start listed _ _ => exact .start (List.mem_append_left _ listed)
  | step _ at_last listed _ _ ih => exact ih.step at_last (List.mem_append_left _ listed)

/-- A mixin of an ancestor is around the record. -/
theorem Neighbour.of_mixin_of_ancestor {a : Record} (ha : a ∈ (i.ancestors r).values)
    (h : name ∈ a.mixins) : i.Neighbour r name := by
  obtain ⟨n, hn⟩ := Table.mem_values_iff.mp ha
  obtain ⟨path, found⟩ := get?_ancestors.mp hn
  exact (Ancestor.neighbour path).step found (List.mem_append_right _ h)

namespace AgreesAround

theorem ancestors (h : i.AgreesAround i' r) : i.ancestors r = i'.ancestors r :=
  reach_congr h.neighbours
    (fun _ _ near found _ hn => near.step found (List.mem_append_left _ hn)) _
    (fun _ hn => .start (List.mem_append_left _ hn)) .empty

/-- A record sees the same ancestors and the same mixins in both indexes. -/
theorem view (h : i.AgreesAround i' r) : i.view r = i'.view r := by
  have included : ∀ n ∈ r.mixins ++ (i.ancestors r).values.flatMap Record.mixins,
      i.Neighbour r n := by
    intro n hn
    rcases List.mem_append.mp hn with own | inherited
    · exact .start (List.mem_append_right _ own)
    · obtain ⟨a, ha, listed⟩ := List.mem_flatMap.mp inherited
      exact .of_mixin_of_ancestor ha listed
  have mixins : ∀ queue, (∀ n ∈ queue, i.Neighbour r n) →
      reach i.records Record.mixins (fun _ => false) queue .empty =
        reach i'.records Record.mixins (fun _ => false) queue .empty :=
    fun _ included => reach_congr h.neighbours
      (fun _ _ near found _ hn => near.step found (List.mem_append_right _ hn)) _ included .empty
  rw [Index.view, Index.view, mixins _ included, h.ancestors]

theorem subject (h : i.AgreesAround i' r) (settings : Settings) (name : String) :
    (i.subject settings r name).Alike (i'.subject settings r name) where
  root := h.root
  translate := TypeText.Scope.translate_congr h.dotted rfl
  output := rfl
  workingDir := rfl
  ignores := rfl
  record := rfl
  name := rfl
  view := h.view

end AgreesAround

/-- The block of a class is the same in indexes that agree around it, and it ends in the same
way, whatever all other records hold. -/
theorem recordBlock_eq_of_agreesAround (h : i.AgreesAround i' r) (settings : Settings)
    (inModule : Bool) :
    i.recordBlock settings r inModule = i'.recordBlock settings r inModule := by
  rw [recordBlock, recordBlock]
  cases r.name with
  | none => rfl
  | some name => simp only [(h.subject settings name).block]

/-- The records of `nestedMixins`, the last one first, behind two more, of which one has a name
without dots. -/
def nestedMixinsAmong (other : Record) (loose : String) : Index :=
  ⟨.empty, [], .ofList ((loose, other) :: ("b.Other", other) ::
    nestedMixins.records.entries.reverse)⟩

theorem neighbour_nestedLeaf (h : (nestedMixinsAmong .blank "Loose").Neighbour nestedLeaf name) :
    name = "a.Base" ∨ name = "a.Outer" ∨ name = "a.Inner" := by
  induction h with
  | @start name listed =>
    have listed : name = "a.Base" ∨ name = "a.Outer" := by simpa [nestedLeaf] using listed
    rcases listed with rfl | rfl <;> simp
  | step _ found listed ih =>
    rcases ih with rfl | rfl | rfl
    · obtain rfl := Option.some.inj found
      simp [Record.blank] at listed
    · obtain rfl := Option.some.inj found
      simp_all [Record.blank]
    · obtain rfl := Option.some.inj found
      simp [Record.blank] at listed

theorem agreesAround_nestedLeaf : (nestedMixinsAmong .blank "Loose").AgreesAround
    (nestedMixinsAmong nestedLeaf "Other") nestedLeaf where
  root := rfl
  dotted := by
    intro name dotted
    have keys : (nestedMixinsAmong .blank "Loose").records.keys =
      ["Loose", "b.Other", "a.Outer", "a.Inner", "a.Base"] := rfl
    have keys' : (nestedMixinsAmong nestedLeaf "Other").records.keys =
      ["Other", "b.Other", "a.Outer", "a.Inner", "a.Base"] := rfl
    have loose : name ≠ "Loose" := by
      rintro rfl
      simp at dotted
    have other : name ≠ "Other" := by
      rintro rfl
      simp at dotted
    rw [Bool.eq_iff_iff, knows, knows, Table.contains_iff, Table.contains_iff, keys, keys']
    simp [loose, other]
  neighbours := by
    intro name near
    rcases neighbour_nestedLeaf near with rfl | rfl | rfl <;> rfl

/-- The block of `nestedLeaf` does not show what the record of `b.Other` holds, nor which names
without dots there are. -/
theorem recordBlock_nestedLeaf_among :
    (nestedMixinsAmong .blank "Loose").AgreesAround (nestedMixinsAmong nestedLeaf "Other")
        nestedLeaf ∧
      (nestedMixinsAmong .blank "Loose").recordBlock .blank nestedLeaf true =
        (nestedMixinsAmong nestedLeaf "Other").recordBlock .blank nestedLeaf true :=
  ⟨agreesAround_nestedLeaf, recordBlock_eq_of_agreesAround agreesAround_nestedLeaf .blank true⟩

end Ambient.Index
