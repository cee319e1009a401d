/-
  Cutting a text at every occurrence of one character, and putting the parts back.
  Main statements: `join_split` (nothing is lost) and `sep_not_mem_of_mem_split` (the parts
  hold no separator).
-/

namespace Ambient.Text

/-- The parts of a text between its separators. A text without separators is one part, the
empty text included. -/
def split (sep : Char) : List Char → List (List Char)
  | [] => [[]]
  | c :: cs =>
    if c = sep then [] :: split sep cs
    else match split sep cs with
      | [] => [[c]]
      | part :: parts => (c :: part) :: parts

/-- The parts in a row, one separator between neighbours. -/
def join (sep : Char) (parts : List (List Char)) : List Char := [sep].intercalate parts

theorem split_ne_nil (sep : Char) (cs : List Char) : split sep cs ≠ [] := by
  cases cs with
  | nil => simp [split]
  | cons c cs =>
    unfold split
    split
    · simp
    · split <;> simp

theorem join_nil_cons (sep : Char) {parts : List (List Char)} (h : parts ≠ []) :
    join sep ([] :: parts) = sep :: join sep parts := by
  cases parts with
  | nil => exact absurd rfl h
  | cons p ps => simp [join, List.intercalate, List.intersperse]

theorem join_cons_cons (sep c : Char) (part : List Char) (parts : List (List Char)) :
    join sep ((c :: part) :: parts) = c :: join sep (part :: parts) := by
  cases parts with
  | nil => simp [join, List.intercalate, List.intersperse]
  | cons p ps => simp [join, List.intercalate, List.intersperse]

/-- Further parts come after a separator. -/
theorem join_append_cons (sep : Char) {xs : List (List Char)} (hx : xs ≠ [])
    (y : List Char) (ys : List (List Char)) :
    join sep (xs ++ y :: ys) = join sep xs ++ sep :: join sep (y :: ys) := by
  induction xs with
  | nil => exact absurd rfl hx
  | cons x xs ih =>
    cases xs with
    | nil => simp [join, List.intercalate, List.intersperse]
    | cons x' xs =>
      have := ih (by simp)
      simp only [join, List.intercalate, List.intersperse, List.cons_append,
        List.flatten_cons, List.append_assoc] at this ⊢
      rw [this]

/-- The parts of a text make up the text again. -/
theorem join_split (sep : Char) (cs : List Char) : join sep (split sep cs) = cs := by
  induction cs with
  | nil => simp [split, join, List.intercalate]
  | cons c cs ih =>
    unfold split
    split
    · next h => rw [join_nil_cons sep (split_ne_nil sep cs), ih, h]
    · split
      · next h => exact absurd h (split_ne_nil sep cs)
      · next part parts h => rw [join_cons_cons, ← h, ih]

/-- No part of a split text holds the separator. -/
theorem sep_not_mem_of_mem_split {sep : Char} {cs part : List Char}
    (h : part ∈ split sep cs) : sep ∉ part := by
  induction cs generalizing part with
  | nil => simp [split] at h; simp [h]
  | cons c cs ih =>
    unfold split at h
    split at h
    · rcases List.mem_cons.mp h with rfl | h
      · simp
      · exact ih h
    · next hc =>
      split at h
      · next hs => exact absurd hs (split_ne_nil sep cs)
      · next first rest hs =>
        rcases List.mem_cons.mp h with rfl | h
        · have : sep ∉ first := ih (by simp [hs])
          simp [this, Ne.symm hc]
        · exact ih (by simp [hs, h])

/-- The parts of a string between its separators. -/
def parts (sep : Char) (s : String) : List String := (split sep s.toList).map String.ofList

end Ambient.Text
