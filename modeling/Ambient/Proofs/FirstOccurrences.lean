/-
  First occurrences: names that are taken up one after the other, each at its first place only.
  Main statements: `Table.keys_ofList` (the keys of a table) and `Settings.addMembers_eq` (the
  members added to a list).
-/
import Ambient.Settings.Basic
import Mathlib.Data.List.Induction

namespace Ambient

/-- One more name is a first occurrence unless it has come before. -/
theorem eraseDups_concat (xs : List String) (x : String) :
    (xs ++ [x]).eraseDups = if x ∈ xs then xs.eraseDups else xs.eraseDups ++ [x] := by
  rw [List.eraseDups_append, List.removeAll]
  by_cases seen : x ∈ xs
  · simp [seen]
  · simp [seen, List.eraseDups_cons]

namespace Table

variable {α : Type}

/-- The keys of a table are the names that were written, in the order of their first writes. -/
theorem keys_ofList (es : List (String × α)) :
    (ofList es).keys = (es.map (·.1)).eraseDups := by
  induction es using List.reverseRecOn with
  | nil => rfl
  | append_singleton es e ih =>
    rw [ofList, List.foldl_append]
    show ((ofList es).insert e.1 e.2).keys = _
    rw [keys_insert, ih, List.map_append, List.map_singleton, eraseDups_concat]
    simp only [List.mem_eraseDups]

/-- The last write under a name is the one that is found. -/
theorem get?_ofList (es : List (String × α)) (k : String) :
    (ofList es).get? k = es.reverse.lookup k := by
  induction es using List.reverseRecOn with
  | nil => rfl
  | append_singleton es e ih =>
    rw [ofList, List.foldl_append, List.reverse_concat, lookup_cons, ← ih]
    exact get?_insert (ofList es) e.1 k e.2

/-- What is found in a table after writes under distinct names that depend on what was there: at
most one of them is seen. -/
theorem get?_foldl_update {β : Type} (f : Option α → β → α) (t : Table α)
    {es : List (String × β)} (distinct : (es.map (·.1)).Nodup) (k : String) :
    (es.foldl (fun t e => t.insert e.1 (f (t.get? e.1) e.2)) t).get? k = match es.lookup k with
      | some b => some (f (t.get? k) b)
      | none => t.get? k := by
  induction es generalizing t with
  | nil => rfl
  | cons e es ih =>
    rw [List.map_cons, List.nodup_cons] at distinct
    rw [List.foldl_cons, ih _ distinct.2, get?_insert, lookup_cons]
    by_cases same : k = e.1
    · have unwritten : es.lookup k = none := by
        rw [← Option.not_isSome_iff_eq_none, isSome_lookup_iff, same]
        exact distinct.1
      rw [if_pos same, if_pos same, unwritten, same]
    · rw [if_neg same, if_neg same]

theorem get?_foldl_insert (t : Table α) {es : List (String × α)}
    (distinct : (es.map (·.1)).Nodup) (k : String) :
    (es.foldl (fun t e => t.insert e.1 e.2) t).get? k = (es.lookup k).or (t.get? k) := by
  rw [get?_foldl_update (fun _ a => a) t distinct k]
  cases es.lookup k <;> rfl

end Table

/-- Added members come behind those that are there, new ones only and each once. -/
theorem Settings.addMembers_eq (old new : List String) :
    addMembers old new = old ++ (new.filter (· ∉ old)).eraseDups := by
  induction new using List.reverseRecOn with
  | nil => exact (List.append_nil old).symm
  | append_singleton new m ih =>
    have added : addMembers old (new ++ [m]) =
        if m ∈ addMembers old new then addMembers old new else addMembers old new ++ [m] := by
      rw [addMembers, List.foldl_append]
      rfl
    rw [added, ih, List.filter_append]
    by_cases present : m ∈ old
    · simp [present]
    · have kept : [m].filter (· ∉ old) = [m] := by simp [present]
      rw [kept, eraseDups_concat]
      by_cases seen : m ∈ new
      · simp [present, seen]
      · simp [present, seen]

end Ambient
