/-
  Retranslation: when a translation is translated to itself. A translation is a text without a
  question mark in which no key of the built-in vocabulary stands alone (`translated_translate`).
  Such a text is translated to itself unless it is one of the two special texts, the name of a
  declared class, or has a form that the built-in rewritings rewrite
  (`Index.translate_translate_eq_iff`). There are translations of these kinds: the special texts
  are recognised before the cut at a question mark, a name may be declared with the root in front
  as well, and an array type is read up to the first closing bracket.
-/
import Ambient.Proofs.Rewriting
import Ambient.Declaration.Signature
import Mathlib.Data.List.TakeWhile

namespace Ambient

namespace TypeText

/-- What every translation is: a text with something in it, without a question mark, in which no
key of the built-in vocabulary stands alone. -/
structure Translated (cs : List Char) : Prop where
  nonempty : cs ≠ []
  unmarked : '?' ∉ cs
  bare : ∀ key, ¬ Stands builtinVocabulary (tokenize cs) key

theorem Translated.ne_empty {text : String} (h : Translated text.toList) : text ≠ "" := by
  rintro rfl
  exact h.nonempty rfl

theorem translated_unknownType : Translated unknownType.toList := by
  refine ⟨by decide, by decide, fun key stands => ?_⟩
  have unknown : builtinVocabulary.get? (String.ofList "any".toList) = none := by decide +kernel
  exact not_stands_nil (stands.of_word_cons (.inr unknown))

theorem translated_arrays : Translated "any[]".toList := by
  refine ⟨by decide, by decide, fun key stands => ?_⟩
  have unknown : builtinVocabulary.get? (String.ofList "any".toList) = none := by decide +kernel
  have marks := stands.of_word_cons (.inr unknown)
  exact not_stands_nil (stands_mark_cons_iff.mp (stands_mark_cons_iff.mp marks))

/-- A name behind the global root. -/
theorem Translated.rooted {name : List Char} (h : Translated name) :
    Translated ("globalThis.".toList ++ name) := by
  refine ⟨by simp, ?_, not_stands_word_append (by decide) (.inr rfl) h.bare⟩
  rw [List.mem_append, not_or]
  exact ⟨by decide, h.unmarked⟩

/-- A name after the built-in rewritings. -/
theorem Translated.rewritten {name : List Char} (h : Translated name) :
    Translated (rewriteBuiltins name) := by
  refine ⟨?_, ?_, (cleared_rewriteTokens (maximal_tokenize name) h.bare (.inl rfl)).bare⟩
  · have first := (maximal_tokenize name).wellFormed
    have text := textOf_tokenize name
    unfold rewriteBuiltins
    cases read : tokenize name with
    | nil =>
      rw [read] at text
      exact absurd text.symm h.nonempty
    | cons t ts => exact rewriteTokens_ne_nil (first t (by simp [read])).text_ne_nil ts
  · have absent := List.count_eq_zero.mpr h.unmarked
    have fewer := count_rewriteTokens_le (c := '?') (by decide) (by decide) none (tokenize name)
    rw [textOf_tokenize, absent] at fewer
    exact List.count_eq_zero.mp (Nat.le_zero.mp fewer)

/-- No key comes to stand alone by a cut at a question mark. -/
theorem not_stands_takeWhile {v : Vocabulary} {cs : List Char} {key : String}
    (bare : ¬ Stands v (tokenize cs) key) :
    ¬ Stands v (tokenize (cs.takeWhile (· != '?'))) key := by
  intro stands
  have whole := @List.takeWhile_append_dropWhile _ (· != '?') cs
  cases rest : cs.dropWhile (· != '?') with
  | nil =>
    rw [rest, List.append_nil] at whole
    rw [whole] at stands
    exact bare stands
  | cons c ds =>
    have mark : c = '?' := by
      have := List.head?_dropWhile_not (· != '?') cs
      rw [rest] at this
      simpa using this
    rw [rest, mark] at whole
    rw [← whole, tokenize_append_mark (by decide)] at bare
    exact bare (stands.append_left (by simp))

namespace Scope

/-- A translation is one of two fixed texts, or what the type settles to: with the global root if
it is a declared class, and rewritten. -/
theorem toList_translate (s : Scope) (type : String) :
    (s.translate type).toList = unknownType.toList ∨ (s.translate type).toList = "any[]".toList ∨
      s.settled type ≠ [] ∧
        (s.isGlobalClass (s.settled type) = true ∧
            (s.translate type).toList = "globalThis.".toList ++ s.settled type ∨
          (s.translate type).toList = rewriteBuiltins (s.settled type)) := by
  unfold translate
  split
  · exact .inl rfl
  · split
    · exact .inr (.inl rfl)
    · dsimp only
      split
      · exact .inl rfl
      · next named =>
        refine .inr (.inr ⟨named, ?_⟩)
        split
        · next declared =>
          rw [String.toList_append, @String.toList_ofList (s.settled type)]
          exact .inl ⟨declared, rfl⟩
        · rw [String.toList_ofList]
          exact .inr rfl

variable {s : Scope} (builtin : s.vocabulary = builtinVocabulary)

include builtin

theorem translated_settled {type : String} (h : s.settled type ≠ []) :
    Translated (s.settled type) := by
  refine ⟨h, fun marked => ?_, fun key => ?_⟩
  · simpa using List.mem_takeWhile_imp marked
  · have bare := not_stands_settle type.toList key
    rw [← builtin] at bare
    rw [← builtin]
    exact not_stands_takeWhile bare

theorem translated_translate (type : String) : Translated (s.translate type).toList := by
  rcases toList_translate s type with text | text | ⟨named, ⟨-, text⟩ | text⟩
  · rw [text]
    exact translated_unknownType
  · rw [text]
    exact translated_arrays
  · rw [text]
    exact (translated_settled builtin named).rooted
  · rw [text]
    exact (translated_settled builtin named).rewritten

/-- A translation has no more stars than the settled text. -/
theorem count_star_translate_le (type : String) :
    (s.translate type).toList.count '*' ≤
      (settle builtinVocabulary passLimit type.toList).count '*' := by
  have cut : (s.settled type).count '*' ≤
      (settle builtinVocabulary passLimit type.toList).count '*' := by
    rw [settled, builtin]
    exact (List.takeWhile_sublist _).count_le _
  rcases toList_translate s type with text | text | ⟨-, ⟨-, text⟩ | text⟩
  · have starless : unknownType.toList.count '*' = 0 := by decide
    rw [text]
    omega
  · have starless : "any[]".toList.count '*' = 0 := by decide
    rw [text]
    omega
  · have starless : "globalThis.".toList.count '*' = 0 := by decide
    rw [text, List.count_append]
    omega
  · have rewritten := count_rewriteTokens_le (c := '*') (by decide) (by decide) none
      (tokenize (s.settled type))
    rw [textOf_tokenize] at rewritten
    rw [text]
    exact Nat.le_trans rewritten cut

/-- A text without question marks in which nothing is left to replace is translated as it
stands. -/
theorem settled_eq_self {text : String} (h : Translated text.toList)
    (still : hasReplacement builtinVocabulary none (tokenize text.toList) = false) :
    s.settled text = text.toList := by
  have settles : settle builtinVocabulary passLimit text.toList = text.toList := by
    rw [passLimit, settle, still]
    rfl
  rw [settled, builtin, settles, List.takeWhile_eq_self_iff]
  intro c hc
  have unmarked : c ≠ '?' := fun marked => h.unmarked (marked ▸ hc)
  simpa using unmarked

end Scope

/-- What a text settles to is rooted if it names a declared class, and else rewritten. -/
theorem Scope.translate_of_settled {s : Scope} {text : String} {name : List Char}
    (not_array : text ≠ "Array") (not_placeholder : text ≠ "[[ Function ]]")
    (nonempty : text ≠ "") (settled : s.settled text = name) (named : name ≠ []) :
    s.translate text = if s.isGlobalClass name then "globalThis." ++ String.ofList name
      else String.ofList (rewriteBuiltins name) := by
  rw [translate_of_not_special nonempty not_placeholder not_array, settled, if_neg named]

/-- What is left as it is among translations: neither of the two special texts, no name of a
declared class, and no expression with a form that is rewritten. -/
structure Scope.Leaves (s : Scope) (text : String) : Prop where
  not_array : text ≠ "Array"
  not_placeholder : text ≠ "[[ Function ]]"
  not_class : s.isGlobalClass text.toList = false
  no_form : ¬ HasBuiltin none (tokenize text.toList)

namespace Translated

variable {s : Scope} (builtin : s.vocabulary = builtinVocabulary) {text : String}
  (h : Translated text.toList)

include builtin h

/-- A text that is translated to itself has settled: otherwise its translation would have fewer
stars. -/
theorem settled_of_fixed (fixed : s.translate text = text) : s.settled text = text.toList := by
  refine Scope.settled_eq_self builtin h ?_
  by_contra some_replacement
  have fewer := count_star_settle_lt h.bare (by simpa using some_replacement)
  have no_more := Scope.count_star_translate_le builtin text
  rw [fixed] at no_more
  omega

theorem leaves_of_fixed (fixed : s.translate text = text) : s.Leaves text := by
  have not_array : text ≠ "Array" := by
    rintro rfl
    simp [Scope.translate] at fixed
  have not_placeholder : text ≠ "[[ Function ]]" := by
    rintro rfl
    simp [Scope.translate, unknownType] at fixed
  have form := Scope.translate_of_settled not_array not_placeholder h.ne_empty
    (h.settled_of_fixed builtin fixed) h.nonempty
  rw [fixed, String.ofList_toList] at form
  have not_class : s.isGlobalClass text.toList = false := by
    by_contra named
    rw [if_pos (by simpa using named)] at form
    have longer := congrArg String.length form
    rw [String.length_append] at longer
    have root : "globalThis.".length = 11 := rfl
    omega
  rw [if_neg (by simp [not_class])] at form
  have kept : rewriteTokens none (tokenize text.toList) = textOf (tokenize text.toList) := by
    have same := congrArg String.toList form
    rw [String.toList_ofList] at same
    rw [textOf_tokenize]
    exact same.symm
  exact ⟨not_array, not_placeholder, not_class, rewriteTokens_eq_textOf_iff.mp kept⟩

theorem fixed_of_leaves (leaves : s.Leaves text) : s.translate text = text := by
  have still : hasReplacement builtinVocabulary none (tokenize text.toList) = false := by
    by_contra some_replacement
    exact leaves.no_form
      (hasBuiltin_of_hasReplacement (maximal_tokenize _) h.bare (by simpa using some_replacement))
  have kept : rewriteBuiltins text.toList = text.toList := by
    rw [rewriteBuiltins, rewriteTokens_eq_textOf_iff.mpr leaves.no_form, textOf_tokenize]
  rw [Scope.translate_of_settled leaves.not_array leaves.not_placeholder h.ne_empty
    (Scope.settled_eq_self builtin h still) h.nonempty, if_neg (by simp [leaves.not_class]),
    kept, String.ofList_toList]

end Translated

theorem rewriteBuiltins_array : rewriteBuiltins "Array".toList = "Array".toList := by
  have read : tokenize "Array".toList = [.word "Array".toList] := rfl
  rw [rewriteBuiltins, read, rewriteTokens_single none rfl, rewriteTokens_nil]
  rfl

/-- An array of arrays ends at the bracket of the inner one. -/
theorem rewriteBuiltins_nested :
    rewriteBuiltins "Array<Array<string>>".toList = "(Array<string)[]>".toList := by
  have read : arrayArgument? (tokenize "Array<Array<string>>".toList) =
      some ([.word "Array".toList, .mark '<', .word "string".toList], [.mark '>']) := rfl
  have argument : tokenize (textOf [.word "Array".toList, .mark '<', .word "string".toList]) =
      [.word "Array".toList, .mark '<', .word "string".toList] := rfl
  rw [rewriteBuiltins, rewriteTokens_array none read, argument, rewriteTokens_single _ rfl,
    rewriteTokens_single _ rfl, rewriteTokens_single _ rfl, rewriteTokens_single _ rfl,
    rewriteTokens_nil, rewriteTokens_nil]
  rfl

end TypeText

open TypeText

namespace Index

/-- The declaration type for a documentation type, with the built-in vocabulary. -/
def translate (i : Index) (type : String) : String :=
  (i.scope builtinVocabulary).translate type

/-- A translation is translated to itself just when it is neither of the special texts, names no
declared class, and has no form that is rewritten. -/
theorem translate_translate_eq_iff (i : Index) (type : String) :
    i.translate (i.translate type) = i.translate type ↔
      (i.scope builtinVocabulary).Leaves (i.translate type) :=
  have translated := Scope.translated_translate rfl type
  ⟨translated.leaves_of_fixed rfl, translated.fixed_of_leaves rfl⟩

/-- A class, and a class with the name of its translation. -/
def twiceRooted : Index :=
  ⟨.empty, ["qx.A", "globalThis.qx.A"],
    .ofList [("qx.A", .blank), ("globalThis.qx.A", .blank)]⟩

/-- A special text behind the cut, an array type behind a bracket, and a declared class behind
the global root. -/
theorem retranslations_differ :
    (twiceRooted.translate "Array?" = "Array" ∧ twiceRooted.translate "Array" = "any[]") ∧
      (twiceRooted.translate "Array<Array<String>>" = "(Array<string)[]>" ∧
        twiceRooted.translate "(Array<string)[]>" ≠ "(Array<string)[]>") ∧
      (twiceRooted.translate "qx.A" = "globalThis.qx.A" ∧
        twiceRooted.translate "globalThis.qx.A" = "globalThis.globalThis.qx.A") := by
  have cut : (twiceRooted.scope builtinVocabulary).settled "Array?" = "Array".toList := by
    decide +kernel
  have nested : (twiceRooted.scope builtinVocabulary).settled "Array<Array<String>>" =
      "Array<Array<string>>".toList := by decide +kernel
  have array : twiceRooted.translate "Array?" = "Array" := by
    rw [translate, Scope.translate_of_settled (by decide) (by decide) (by decide) cut (by decide),
      if_neg (by decide +kernel), rewriteBuiltins_array, String.ofList_toList]
  have arrays : twiceRooted.translate "Array<Array<String>>" = "(Array<string)[]>" := by
    rw [translate, Scope.translate_of_settled (by decide) (by decide) (by decide) nested (by decide),
      if_neg (by decide +kernel), rewriteBuiltins_nested, String.ofList_toList]
  refine ⟨⟨array, by decide +kernel⟩, ⟨arrays, ?_⟩, by decide +kernel, by decide +kernel⟩
  intro fixed
  have translated := Scope.translated_translate (s := twiceRooted.scope builtinVocabulary) rfl
    "Array<Array<String>>"
  change Translated (twiceRooted.translate "Array<Array<String>>").toList at translated
  rw [arrays] at translated
  have leaves := translated.leaves_of_fixed rfl fixed
  have form : StartsBuiltin (some (.mark '(')) (.word "Array".toList :: .mark '<' ::
      ([.word "string".toList, .mark ')', .mark '[', .mark ']'] ++ .mark '>' :: [])) :=
    .array (by decide) (by decide)
  exact leaves.no_form (.later (.here form))

end Index

end Ambient
