/-
  Last writes: what a database tells about the records that came into it, first those of a list,
  each under its own name, then any others under any names. Main statements:
  `pairwise_idxOf_eraseDups` (first occurrences keep their order), `reflects_insertAll` (a row of
  writes is reflected) and `ofRecords_insertAll_reflects`.
-/
import Ambient.Proofs.InsertionOrder
import Ambient.Proofs.ReadingFiles
import Mathlib.Data.Finset.Card
import Mathlib.Data.Finset.Dedup

namespace Ambient

/-- First occurrences stand in the order in which they occur. -/
theorem pairwise_idxOf_eraseDups (xs : List String) :
    xs.eraseDups.Pairwise fun x y => xs.idxOf x < xs.idxOf y := by
  induction xs using List.reverseRecOn with
  | nil => exact .nil
  | append_singleton xs x ih =>
    -- what has occurred keeps its place when one more comes to the end
    have place : ∀ y ∈ xs.eraseDups, (xs ++ [x]).idxOf y = xs.idxOf y :=
      fun y member => List.idxOf_append_of_mem (List.mem_eraseDups.mp member)
    have kept : xs.eraseDups.Pairwise fun y z => (xs ++ [x]).idxOf y < (xs ++ [x]).idxOf z := by
      refine ih.imp_of_mem fun {y z} hy hz before => ?_
      rw [place y hy, place z hz]
      exact before
    rw [eraseDups_concat]
    split
    · exact kept
    · next new =>
      refine List.pairwise_append.mpr ⟨kept, List.pairwise_singleton _ x, fun y hy z hz => ?_⟩
      rw [List.mem_singleton.mp hz, place y hy, List.idxOf_append_of_notMem new]
      exact Nat.lt_add_right _ (List.idxOf_lt_length_of_mem (List.mem_eraseDups.mp hy))

namespace Database

/-- A database tells what has been written: every name once, at the place of its first write, and
under it the record of its last. -/
structure Reflects (writes : List (String × Record)) (db : Database) : Prop where
  mem_names_iff : ∀ n, n ∈ db.names ↔ n ∈ writes.map (·.1)
  nodup_names : db.names.Nodup
  names_by_first_write :
    db.names.Pairwise fun m n => (writes.map (·.1)).idxOf m < (writes.map (·.1)).idxOf n
  find?_iff_last_write : ∀ n r, db.find? n = some r ↔
    ∃ earlier later, writes = earlier ++ (n, r) :: later ∧ ∀ e ∈ later, e.1 ≠ n
  find?_eq_none_iff : ∀ n, db.find? n = none ↔ n ∉ writes.map (·.1)
  size_eq : db.size = (writes.map (·.1)).toFinset.card
  isEmpty_iff : db.isEmpty = true ↔ (writes.map (·.1)).toFinset.card = 0

theorem reflects_insertAll (root : Path) (writes : List (String × Record)) :
    Reflects writes ((empty root).insertAll writes) := by
  have names := names_insertAll root writes
  have pairwise := pairwise_idxOf_eraseDups (writes.map (·.1))
  have nodup : ((empty root).insertAll writes).names.Nodup := Table.keys_nodup _
  have mem : ∀ n, n ∈ ((empty root).insertAll writes).names ↔ n ∈ writes.map (·.1) := by
    intro n
    rw [names, List.mem_eraseDups]
  have size : ((empty root).insertAll writes).size = (writes.map (·.1)).toFinset.card := by
    rw [← List.toFinset.ext mem, List.toFinset_card_of_nodup nodup]
    exact (List.length_map _).symm
  exact {
    mem_names_iff := mem
    nodup_names := nodup
    names_by_first_write := names ▸ pairwise
    find?_iff_last_write := fun n r => find?_insertAll_iff
    find?_eq_none_iff := fun n => Table.get?_eq_none_iff.trans (not_congr (mem n))
    size_eq := size
    isEmpty_iff := by rw [isEmpty, beq_iff_eq, size] }

/-- The records of a list come in like any others, those without a name left out. -/
theorem ofRecords_eq_insertAll (root : Path) (rs : List Record) :
    ofRecords root rs = (empty root).insertAll (rs.filterMap Record.entry?) := by
  have rooted := root_insertAll (empty root) (rs.filterMap Record.entry?)
  rw [ofRecords_eq, ← records_insertAll root]
  exact congrArg (Database.mk · _) rooted.symm

theorem ofRecords_insertAll (root : Path) (rs : List Record) (es : List (String × Record)) :
    (ofRecords root rs).insertAll es =
      (empty root).insertAll (rs.filterMap Record.entry? ++ es) := by
  rw [ofRecords_eq_insertAll]
  exact List.foldl_append.symm

theorem name_of_find?_ofRecords {root : Path} {rs : List Record} {n : String} {r : Record}
    (h : (ofRecords root rs).find? n = some r) : r.name = some n := by
  rw [ofRecords_eq_insertAll, find?_insertAll_iff] at h
  obtain ⟨earlier, later, parts, -⟩ := h
  have member : (n, r) ∈ rs.filterMap Record.entry? := by simp [parts]
  obtain ⟨r', -, entry⟩ := List.mem_filterMap.mp member
  obtain ⟨name, named, same⟩ := Option.map_eq_some_iff.mp entry
  obtain ⟨rfl, rfl⟩ := Prod.mk.inj same
  exact named

/-- After the records of a list, those without a name left out, and any row of further writes, a
database tells just these writes; the records of the list alone stand under their own names. -/
theorem ofRecords_insertAll_reflects (root : Path) (rs : List Record)
    (es : List (String × Record)) :
    Reflects (rs.filterMap Record.entry? ++ es) ((ofRecords root rs).insertAll es) ∧
      ∀ n r, (ofRecords root rs).find? n = some r → r.name = some n := by
  rw [ofRecords_insertAll]
  exact ⟨reflects_insertAll root _, fun n r => name_of_find?_ofRecords⟩

end Database

end Ambient
