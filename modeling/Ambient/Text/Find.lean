/-
  Finding a fixed piece in a text: at its start, at its end, or at its first occurrence, and
  rewriting the first place that a rule matches. Main statements: `strip?_eq_some_iff`,
  `eq_of_cut?` and `not_strip?_of_cut?`.
-/

namespace Ambient.Text

/-- What follows a piece at the start of a text. -/
def strip? : List Char → List Char → Option (List Char)
  | [], cs => some cs
  | _ :: _, [] => none
  | p :: ps, c :: cs => if p = c then strip? ps cs else none

/-- What precedes a piece at the end of a text. -/
def stripEnd? (piece cs : List Char) : Option (List Char) :=
  (strip? piece.reverse cs.reverse).map List.reverse

/-- What precedes and what follows the first occurrence of a piece in a text. -/
def cut? (piece : List Char) : List Char → Option (List Char × List Char)
  | [] => (strip? piece []).map fun rest => ([], rest)
  | c :: cs =>
    match strip? piece (c :: cs) with
    | some rest => some ([], rest)
    | none => (cut? piece cs).map fun (before, after) => (c :: before, after)

/-- The text with the first place that a rule matches rewritten. A rule reads a text from its
start and gives the new text and what follows the old one. -/
def rewriteFirst (rule : List Char → Option (List Char × List Char)) : List Char → List Char
  | [] => []
  | c :: cs =>
    match rule (c :: cs) with
    | some (new, rest) => new ++ rest
    | none => c :: rewriteFirst rule cs

theorem strip?_eq_some_iff {piece cs rest : List Char} :
    strip? piece cs = some rest ↔ cs = piece ++ rest := by
  induction piece generalizing cs with
  | nil => simp [strip?]
  | cons p ps ih =>
    cases cs with
    | nil => simp [strip?]
    | cons c cs =>
      by_cases h : p = c
      · simp [strip?, h, ih]
      · simp [strip?, h, Ne.symm h]

theorem stripEnd?_eq_some_iff {piece cs rest : List Char} :
    stripEnd? piece cs = some rest ↔ cs = rest ++ piece := by
  simp only [stripEnd?, Option.map_eq_some_iff, strip?_eq_some_iff]
  constructor
  · rintro ⟨r, h, rfl⟩
    have := congrArg List.reverse h
    simpa using this
  · rintro rfl
    exact ⟨rest.reverse, by simp, by simp⟩

/-- A cut text is what precedes the piece, the piece, and what follows it. -/
theorem eq_of_cut? {piece cs before after : List Char}
    (h : cut? piece cs = some (before, after)) : cs = before ++ piece ++ after := by
  induction cs generalizing before with
  | nil =>
    simp only [cut?, Option.map_eq_some_iff, strip?_eq_some_iff, Prod.mk.injEq] at h
    obtain ⟨r, hr, rfl, rfl⟩ := h
    simpa using hr
  | cons c cs ih =>
    unfold cut? at h
    split at h
    · next rest hs =>
      simp only [Option.some.injEq, Prod.mk.injEq] at h
      rw [strip?_eq_some_iff] at hs
      simp [← h.1, ← h.2, hs]
    · simp only [Option.map_eq_some_iff, Prod.mk.injEq, Prod.exists] at h
      obtain ⟨b, a, hb, rfl, rfl⟩ := h
      simp [ih hb]

/-- The piece begins nowhere in what precedes its first occurrence. -/
theorem not_strip?_of_cut? {piece cs before after : List Char}
    (h : cut? piece cs = some (before, after)) {i : Nat} (hi : i < before.length) :
    strip? piece (cs.drop i) = none := by
  induction cs generalizing before i with
  | nil =>
    simp only [cut?, Option.map_eq_some_iff, Prod.mk.injEq] at h
    obtain ⟨r, -, rfl, -⟩ := h
    simp at hi
  | cons c cs ih =>
    unfold cut? at h
    split at h
    · simp only [Option.some.injEq, Prod.mk.injEq] at h
      simp [← h.1] at hi
    · next hs =>
      simp only [Option.map_eq_some_iff, Prod.mk.injEq, Prod.exists] at h
      obtain ⟨b, a, hb, rfl, rfl⟩ := h
      cases i with
      | zero => exact hs
      | succ i => exact ih hb (by simpa using hi)

theorem length_lt_of_cut? {piece cs before after : List Char} (hp : piece ≠ [])
    (h : cut? piece cs = some (before, after)) : after.length < cs.length := by
  have := List.length_pos_iff.mpr hp
  rw [eq_of_cut? h]
  simp
  omega

end Ambient.Text
