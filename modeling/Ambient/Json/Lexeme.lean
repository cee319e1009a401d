/-
  Lexemes of JSON: brackets, separators, strings and scalars. Main statement:
  `length_lt_of_lexeme?` (every lexeme takes some text).
-/
import Ambient.Json.Syntax

namespace Ambient.Json

/-- A lexeme. Strings stand apart because they may be keys. -/
inductive Lexeme
  | openList
  | closeList
  | openObject
  | closeObject
  | comma
  | colon
  | string (s : Literal)
  | scalar (v : Raw)

/-! ## Strings -/

/-- A piece of a string: a character, or a code unit written in hexadecimal digits. -/
inductive Piece
  | char (c : Char)
  | unit (n : Nat)

/-- The value of a hexadecimal digit. -/
def hexDigit? (c : Char) : Option Nat :=
  if '0' ≤ c ∧ c ≤ '9' then some (c.toNat - '0'.toNat)
  else if 'a' ≤ c ∧ c ≤ 'f' then some (c.toNat - 'a'.toNat + 10)
  else if 'A' ≤ c ∧ c ≤ 'F' then some (c.toNat - 'A'.toNat + 10)
  else none

/-- The value of four hexadecimal digits. -/
def hexUnit? (a b c d : Char) : Option Nat := do
  let a ← hexDigit? a
  let b ← hexDigit? b
  let c ← hexDigit? c
  let d ← hexDigit? d
  pure (((a * 16 + b) * 16 + c) * 16 + d)

/-- The character that a one-letter escape stands for. -/
def escape? (c : Char) : Option Char :=
  if c = '\x22' || c = '\\' || c = '/' then some c
  else if c = 'b' then some '\x08'
  else if c = 'f' then some '\x0c'
  else if c = 'n' then some '\n'
  else if c = 'r' then some '\r'
  else if c = 't' then some '\t'
  else none

/-- The pieces of a string after its first quote, and what follows its last quote. -/
def pieces? : List Char → Option (List Piece × List Char)
  | [] => none
  | '\x22' :: cs => some ([], cs)
  | '\\' :: 'u' :: a :: b :: c :: d :: cs => do
    let n ← hexUnit? a b c d
    let (ps, rest) ← pieces? cs
    pure (.unit n :: ps, rest)
  | '\\' :: e :: cs => do
    let c ← escape? e
    let (ps, rest) ← pieces? cs
    pure (.char c :: ps, rest)
  | c :: cs => if c < ' ' then none else do
    let (ps, rest) ← pieces? cs
    pure (.char c :: ps, rest)

/-- Whether a code unit is the first half of a surrogate pair. -/
def isLeading (n : Nat) : Bool := 0xD800 ≤ n && n < 0xDC00

/-- Whether a code unit is the second half of a surrogate pair. -/
def isTrailing (n : Nat) : Bool := 0xDC00 ≤ n && n < 0xE000

/-- The characters of pieces. Two halves of a surrogate pair in a row are one character, and a
half alone is none. -/
def chars? : List Piece → Option (List Char)
  | [] => some []
  | .char c :: ps => (chars? ps).map (c :: ·)
  | .unit m :: .unit n :: ps =>
    if isLeading m then
      if isTrailing n then
        (chars? ps).map (Char.ofNat (0x10000 + (m - 0xD800) * 0x400 + (n - 0xDC00)) :: ·)
      else none
    else if isTrailing m then none
    else (chars? (.unit n :: ps)).map (Char.ofNat m :: ·)
  | .unit m :: ps =>
    if isLeading m || isTrailing m then none else (chars? ps).map (Char.ofNat m :: ·)

/-- The string that pieces make. -/
def Literal.ofPieces (ps : List Piece) : Literal :=
  match chars? ps with
  | some cs => .text (String.ofList cs)
  | none => .unpaired

/-! ## Numbers -/

/-- Whether a character is a decimal digit. -/
def isDigit (c : Char) : Bool := '0' ≤ c && c ≤ '9'

/-- The digits at the start of a text and what follows them; there must be one at least. -/
def digits? (cs : List Char) : Option (List Char × List Char) :=
  match cs.takeWhile isDigit with
  | [] => none
  | ds => some (ds, cs.dropWhile isDigit)

/-- The digits before the point: a zero stands alone. -/
def whole? (cs : List Char) : Option (List Char × List Char) :=
  match digits? cs with
  | some ('0' :: _ :: _, _) => none
  | r => r

/-- The digits after a point, if there is a point. -/
def fraction? : List Char → Option (Option (List Char) × List Char)
  | '.' :: cs => (digits? cs).map fun (ds, rest) => (some ds, rest)
  | cs => some (none, cs)

/-- The sign of an exponent and what follows it. -/
def exponentSign : List Char → Bool × List Char
  | '-' :: cs => (true, cs)
  | '+' :: cs => (false, cs)
  | cs => (false, cs)

/-- The exponent, if there is one. -/
def exponent? : List Char → Option (Option (Bool × List Char) × List Char)
  | c :: cs =>
    if c = 'e' || c = 'E' then
      (digits? (exponentSign cs).2).map fun (ds, rest) => (some ((exponentSign cs).1, ds), rest)
    else some (none, c :: cs)
  | [] => some (none, [])

/-- A number after its sign, and what follows it. -/
def unsigned? (negative : Bool) (cs : List Char) : Option (Number × List Char) := do
  let (whole, cs) ← whole? cs
  let (fraction, cs) ← fraction? cs
  let (exponent, cs) ← exponent? cs
  pure (⟨negative, whole, fraction, exponent⟩, cs)

/-! ## Lexemes -/

/-- The lexeme at the start of a text, and what follows it. -/
def lexeme? : List Char → Option (Lexeme × List Char)
  | '[' :: cs => some (.openList, cs)
  | ']' :: cs => some (.closeList, cs)
  | '\x7b' :: cs => some (.openObject, cs)
  | '\x7d' :: cs => some (.closeObject, cs)
  | ',' :: cs => some (.comma, cs)
  | ':' :: cs => some (.colon, cs)
  | '\x22' :: cs => (pieces? cs).map fun (ps, rest) => (.string (Literal.ofPieces ps), rest)
  | 't' :: 'r' :: 'u' :: 'e' :: cs => some (.scalar (.bool true), cs)
  | 'f' :: 'a' :: 'l' :: 's' :: 'e' :: cs => some (.scalar (.bool false), cs)
  | 'n' :: 'u' :: 'l' :: 'l' :: cs => some (.scalar .null, cs)
  | '-' :: cs => (unsigned? true cs).map fun (n, rest) => (.scalar (.number n), rest)
  | cs => (unsigned? false cs).map fun (n, rest) => (.scalar (.number n), rest)

theorem length_lt_of_pieces? {cs rest : List Char} {ps : List Piece}
    (h : pieces? cs = some (ps, rest)) : rest.length < cs.length := by
  fun_induction pieces? cs generalizing ps with
  | case1 => simp at h
  | case2 cs => simp at h; simp [h.2]
  | case3 a b c d cs ih =>
    simp only [bind, Option.bind_eq_some_iff, pure, Option.some.injEq, Prod.mk.injEq,
      Prod.exists] at h
    obtain ⟨n, -, ps', r, hr, -, rfl⟩ := h
    have := ih hr
    simp; omega
  | case4 e cs _ ih =>
    simp only [bind, Option.bind_eq_some_iff, pure, Option.some.injEq, Prod.mk.injEq,
      Prod.exists] at h
    obtain ⟨n, -, ps', r, hr, -, rfl⟩ := h
    have := ih hr
    simp; omega
  | case5 => simp at h
  | case6 c cs _ _ _ _ ih =>
    simp only [bind, Option.bind_eq_some_iff, pure, Option.some.injEq, Prod.mk.injEq,
      Prod.exists] at h
    obtain ⟨ps', r, hr, -, rfl⟩ := h
    have := ih hr
    simp; omega

theorem length_lt_of_digits? {cs ds rest : List Char} (h : digits? cs = some (ds, rest)) :
    rest.length < cs.length := by
  unfold digits? at h
  split at h
  · simp at h
  · next ds' hne =>
    simp only [Option.some.injEq, Prod.mk.injEq] at h
    have hsplit : cs.takeWhile isDigit ++ cs.dropWhile isDigit = cs :=
      List.takeWhile_append_dropWhile
    have hpos := List.length_pos_iff.mpr hne
    have := congrArg List.length hsplit
    rw [List.length_append] at this
    rw [← h.2]
    omega

theorem length_lt_of_whole? {cs ds rest : List Char} (h : whole? cs = some (ds, rest)) :
    rest.length < cs.length := by
  unfold whole? at h
  split at h
  · simp at h
  · exact length_lt_of_digits? h

theorem length_le_of_fraction? {cs rest : List Char} {f : Option (List Char)}
    (h : fraction? cs = some (f, rest)) : rest.length ≤ cs.length := by
  unfold fraction? at h
  split at h
  · simp only [Option.map_eq_some_iff, Prod.mk.injEq, Prod.exists] at h
    obtain ⟨ds, r, hr, -, rfl⟩ := h
    have := length_lt_of_digits? hr
    simp; omega
  · simp only [Option.some.injEq, Prod.mk.injEq] at h
    simp [← h.2]

theorem length_exponentSign_le (cs : List Char) : (exponentSign cs).2.length ≤ cs.length := by
  unfold exponentSign
  split <;> simp

theorem length_le_of_exponent? {cs rest : List Char} {e : Option (Bool × List Char)}
    (h : exponent? cs = some (e, rest)) : rest.length ≤ cs.length := by
  unfold exponent? at h
  split at h
  · next c cs =>
    split at h
    · simp only [Option.map_eq_some_iff, Prod.mk.injEq, Prod.exists] at h
      obtain ⟨ds, r, hr, -, rfl⟩ := h
      have := length_lt_of_digits? hr
      have := length_exponentSign_le cs
      simp; omega
    · simp only [Option.some.injEq, Prod.mk.injEq] at h
      simp [← h.2]
  · simp only [Option.some.injEq, Prod.mk.injEq] at h
    simp [← h.2]

theorem length_lt_of_unsigned? {negative : Bool} {cs rest : List Char} {n : Number}
    (h : unsigned? negative cs = some (n, rest)) : rest.length < cs.length := by
  simp only [unsigned?, bind, Option.bind_eq_some_iff, pure, Option.some.injEq, Prod.mk.injEq,
    Prod.exists] at h
  obtain ⟨w, r₁, h₁, f, r₂, h₂, e, r₃, h₃, -, rfl⟩ := h
  have := length_lt_of_whole? h₁
  have := length_le_of_fraction? h₂
  have := length_le_of_exponent? h₃
  omega

/-- A lexeme takes at least one character. -/
theorem length_lt_of_lexeme? {cs rest : List Char} {l : Lexeme}
    (h : lexeme? cs = some (l, rest)) : rest.length < cs.length := by
  unfold lexeme? at h
  split at h
  case h_7 cs =>
    simp only [Option.map_eq_some_iff, Prod.mk.injEq, Prod.exists] at h
    obtain ⟨ps, r, hr, -, rfl⟩ := h
    have := length_lt_of_pieces? hr
    simp; omega
  case h_11 cs =>
    simp only [Option.map_eq_some_iff, Prod.mk.injEq, Prod.exists] at h
    obtain ⟨n, r, hr, -, rfl⟩ := h
    have := length_lt_of_unsigned? hr
    simp; omega
  case h_12 =>
    simp only [Option.map_eq_some_iff, Prod.mk.injEq, Prod.exists] at h
    obtain ⟨n, r, hr, -, rfl⟩ := h
    exact length_lt_of_unsigned? hr
  all_goals
    simp only [Option.some.injEq, Prod.mk.injEq] at h
    simp [← h.2]; try omega

/-- Whether a character may stand between lexemes. -/
def isSpace (c : Char) : Bool := c == ' ' || c == '\t' || c == '\n' || c == '\r'

/-- The lexemes of a text. -/
def lexemes? (cs : List Char) : Option (List Lexeme) :=
  match cs with
  | [] => some []
  | c :: cs =>
    if isSpace c then lexemes? cs
    else
      match _h : lexeme? (c :: cs) with
      | none => none
      | some (l, rest) => (lexemes? rest).map (l :: ·)
termination_by cs.length
decreasing_by
  · simp
  · exact length_lt_of_lexeme? _h

end Ambient.Json
