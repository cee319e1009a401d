/-
  Built-in rewritings of a type expression, which no vocabulary can turn off: `Promise<` gets
  its global root, `var` and a loose `*` become `unknown`, and `Array<T>` becomes `(T)[]`,
  where `T` ends before the first `>`.
-/
import Ambient.TypeText.Vocabulary

namespace Ambient.TypeText

/-- The tokens before the first `>` and those after it. -/
def splitAtClose : List Token → Option (List Token × List Token)
  | [] => none
  | t :: ts =>
    if t = .mark '>' then some ([], ts)
    else (splitAtClose ts).map fun (inner, after) => (t :: inner, after)

/-- Of tokens that begin with an array type `Array<T>`, those of a non-empty `T` and those
after the `>`. -/
def arrayArgument? : List Token → Option (List Token × List Token)
  | .word w :: .mark '<' :: ts =>
    if w = "Array".toList then
      match splitAtClose ts with
      | some (t :: inner, after) => some (t :: inner, after)
      | _ => none
    else none
  | _ => none

/-- What is written for a token that begins no array type. -/
def builtinText (before : Option Token) (t : Token) (after : Option Token) : List Char :=
  if t = .word "Promise".toList && after == some (.mark '<') then "globalThis.Promise".toList
  else if t = .word "var".toList then "unknown".toList
  else if t = .mark '*' && isLoose before after then "unknown".toList
  else t.text

theorem splitAtClose_eq {ts inner after : List Token}
    (h : splitAtClose ts = some (inner, after)) : ts = inner ++ .mark '>' :: after := by
  induction ts generalizing inner with
  | nil => simp [splitAtClose] at h
  | cons t ts ih =>
    unfold splitAtClose at h
    split at h
    · next ht => simp only [Option.some.injEq, Prod.mk.injEq] at h; simp [← h.1, ← h.2, ht]
    · simp only [Option.map_eq_some_iff, Prod.mk.injEq, Prod.exists] at h
      obtain ⟨i, a, hs, rfl, rfl⟩ := h
      rw [ih hs]; rfl

/-- An array type is written with its head, its argument and the two brackets. -/
theorem arrayArgument?_eq {ts inner after : List Token}
    (h : arrayArgument? ts = some (inner, after)) :
    ts = .word "Array".toList :: .mark '<' :: (inner ++ .mark '>' :: after) := by
  unfold arrayArgument? at h
  split at h
  · split at h
    · next hw =>
      split at h
      · next hs =>
        simp only [Option.some.injEq, Prod.mk.injEq] at h
        rw [hw, splitAtClose_eq hs, ← h.1, ← h.2]
      · simp at h
    · simp at h
  · simp at h

/-- The rewritten text of the tokens after `before`. The argument of an array type is read
again as an expression of its own. -/
def rewriteTokens (before : Option Token) (ts : List Token) : List Char :=
  match ts with
  | [] => []
  | t :: rest =>
    match _h : arrayArgument? (t :: rest) with
    | some (inner, after) =>
      '(' :: rewriteTokens none (tokenize (textOf inner)) ++ ")[]".toList ++
        rewriteTokens (some (.mark '>')) after
    | none => builtinText before t rest.head? ++ rewriteTokens (some t) rest
termination_by ((textOf ts).length, ts.length)
decreasing_by
  · rw [arrayArgument?_eq _h, textOf_tokenize]
    apply Prod.Lex.left
    simp [Token.text]
    omega
  · rw [arrayArgument?_eq _h]
    apply Prod.Lex.left
    simp [Token.text]
    omega
  · rw [Prod.lex_def, textOf_cons, List.length_append, List.length_cons]
    show _ < _ ∨ _ = _ ∧ _ < _
    omega

@[simp] theorem rewriteTokens_nil (before : Option Token) : rewriteTokens before [] = [] := by
  rw [rewriteTokens]

/-- An array type is written in brackets, its argument rewritten by itself. -/
theorem rewriteTokens_array {ts inner after : List Token} (before : Option Token)
    (h : arrayArgument? ts = some (inner, after)) :
    rewriteTokens before ts =
      '(' :: rewriteTokens none (tokenize (textOf inner)) ++ ")[]".toList ++
        rewriteTokens (some (.mark '>')) after := by
  cases ts with
  | nil => simp [arrayArgument?] at h
  | cons t rest =>
    rw [rewriteTokens]
    split
    · next h' =>
      obtain ⟨rfl, rfl⟩ := Prod.mk.inj (Option.some.inj (h'.symm.trans h))
      rfl
    · next h' => simp [h'] at h

/-- A token that begins no array type is written by itself. -/
theorem rewriteTokens_single {t : Token} {rest : List Token} (before : Option Token)
    (h : arrayArgument? (t :: rest) = none) :
    rewriteTokens before (t :: rest) =
      builtinText before t rest.head? ++ rewriteTokens (some t) rest := by
  rw [rewriteTokens]
  split
  · next h' => simp [h'] at h
  · rfl

/-- A type expression after the built-in rewritings. -/
def rewriteBuiltins (cs : List Char) : List Char := rewriteTokens none (tokenize cs)

end Ambient.TypeText
