/-
  Nesting: whether the brackets of a translated type expression are well nested. The expressions
  are unions, arrays and generic types, one level deep. The passes of the vocabulary put the
  value of `Map`, itself a generic type, into the argument of an array type before the array type
  is rewritten, which ends its argument at the first closing bracket. Main result: brackets are
  well nested just when no array type has `Map` in its argument.
-/
import Ambient.Proofs.TypeExpressions

namespace Ambient

namespace TypeText

/-! ## Tokens that close their brackets -/

/-- Tokens that are rewritten to a part that leaves the open brackets as they are, wherever they
stand. -/
def Closes (us : List Token) : Prop :=
  ∀ before rest, rest.head? ≠ some (.mark '<') →
    ∃ out last, rewriteTokens before (us ++ rest) = out ++ rewriteTokens last rest ∧ Closed out

/-- Tokens that leave a closing bracket in a wrong place. -/
def Breaks (us : List Token) : Prop :=
  ∀ before rest, rest.head? ≠ some (.mark '<') → Broken (rewriteTokens before (us ++ rest))

theorem head?_append_ne {us rest : List Token} (h : us.head? ≠ some (.mark '<'))
    (h' : rest.head? ≠ some (.mark '<')) : (us ++ rest).head? ≠ some (.mark '<') := by
  cases us with
  | nil => exact h'
  | cons u us => exact h

theorem closes_of_free {us : List Token} (free : ¬ HasGeneric "Array" us)
    (closed : Closed (textOf us)) : Closes us := by
  intro before rest apart
  obtain ⟨out, last, written, same⟩ := exists_rewriteTokens_append free apart before
  exact ⟨out, last, written, fun stack => (same stack).trans (closed stack)⟩

namespace Closes

variable {us vs : List Token}

theorem append (h : Closes us) (h' : Closes vs) (apart : vs.head? ≠ some (.mark '<')) :
    Closes (us ++ vs) := by
  intro before rest apart_rest
  obtain ⟨x, middle, front, closed_x⟩ := h before (vs ++ rest) (head?_append_ne apart apart_rest)
  obtain ⟨y, last, back, closed_y⟩ := h' middle rest apart_rest
  refine ⟨x ++ y, last, ?_, closed_x.append closed_y⟩
  rw [List.append_assoc, front, back, List.append_assoc]

theorem append_breaks (h : Closes us) (h' : Breaks vs) (apart : vs.head? ≠ some (.mark '<')) :
    Breaks (us ++ vs) := by
  intro before rest apart_rest
  obtain ⟨x, middle, front, closed⟩ := h before (vs ++ rest) (head?_append_ne apart apart_rest)
  rw [List.append_assoc, front]
  exact closed.append_broken (h' middle rest apart_rest)

end Closes

theorem Breaks.append {us : List Token} (h : Breaks us) {vs : List Token}
    (apart : vs.head? ≠ some (.mark '<')) : Breaks (us ++ vs) := by
  intro before rest apart_rest
  rw [List.append_assoc]
  exact h before (vs ++ rest) (head?_append_ne apart apart_rest)

/-- A mark that is no bracket, in front of other tokens. -/
theorem rewriteTokens_mark {c : Char} (hc : c ∉ "<([>)]".toList) (before : Option Token)
    (ts : List Token) :
    ∃ out, rewriteTokens before (.mark c :: ts) = out ++ rewriteTokens (some (.mark c)) ts ∧
      Closed out := by
  refine ⟨_, rewriteTokens_single before (arrayArgument?_eq_none (by simp) ts), fun stack => ?_⟩
  have single : Closed [c] := .of_plain (by simpa using hc)
  rw [openAfter_builtinText, Token.text_mark, single stack]

theorem Closes.mark_cons {c : Char} (hc : c ∉ "<([>)]".toList) {us : List Token}
    (h : Closes us) : Closes (.mark c :: us) := by
  intro before rest apart
  obtain ⟨x, mark, closed_x⟩ := rewriteTokens_mark hc before (us ++ rest)
  obtain ⟨y, last, written, closed_y⟩ := h (some (.mark c)) rest apart
  refine ⟨x ++ y, last, ?_, closed_x.append closed_y⟩
  rw [List.cons_append, mark, written, List.append_assoc]

theorem Breaks.mark_cons {c : Char} (hc : c ∉ "<([>)]".toList) {us : List Token}
    (h : Breaks us) : Breaks (.mark c :: us) := by
  intro before rest apart
  obtain ⟨x, mark, closed⟩ := rewriteTokens_mark hc before (us ++ rest)
  rw [List.cons_append, mark]
  exact closed.append_broken (h (some (.mark c)) rest apart)

namespace Flat

variable {ts : List Token} (h : Flat ts)

include h

/-- A generic type is written with its brackets, if it is no array type. -/
theorem closes_generic {head : Word} (other : head.chars ≠ "Array".toList) :
    Closes (pass wordVocabulary (.word head.chars :: .mark '<' :: (ts ++ [.mark '>']))) := by
  refine closes_of_free ?_ (h.toSound.generic head).closed
  rw [h.pass_generic head]
  intro array
  rcases hasGeneric_cons_iff.mp array with ⟨first, -⟩ | array
  · exact other (Token.word.inj first)
  · rcases hasGeneric_cons_iff.mp array with ⟨first, -⟩ | array
    · simp at first
    · rcases array.of_append (by simp) with array | array
      · exact h.free array
      · simp [hasGeneric_cons_iff, not_hasGeneric_nil] at array

/-- An array type without `Map` ends at its own bracket. -/
theorem closes_array (no_map : .word "Map".toList ∉ ts) {head : Word}
    (array : head.chars = "Array".toList) :
    Closes (pass wordVocabulary (.word head.chars :: .mark '<' :: (ts ++ [.mark '>']))) := by
  intro before rest apart
  have read : arrayArgument? (.word "Array".toList :: .mark '<' ::
      (pass wordVocabulary ts ++ [.mark '>'] ++ rest)) = some (pass wordVocabulary ts, rest) :=
    arrayArgument?_eq_some_iff.mpr
      ⟨by simp, h.nonempty, fun closing => no_map (h.closing.mp closing)⟩
  have argument := tokenize_textOf (maximal_pass wordVocabulary_words h.maximal)
  obtain ⟨out, last, written, same⟩ :=
    @exists_rewriteTokens_append _ [] h.free (by simp) none
  rw [rewriteTokens_nil, List.append_nil, List.append_nil] at written
  refine ⟨'(' :: out ++ ")[]".toList, some (.mark '>'), ?_, ?_⟩
  · rw [h.pass_generic head, array, List.cons_append, List.cons_append,
      rewriteTokens_array before read, argument, written]
  · have inside : Closed out := fun stack => (same stack).trans (h.closed stack)
    have brackets : Closed ('(' :: (out ++ [')'])) := inside.enclosed (by decide)
    have empty : Closed "[]".toList := Closed.nil.enclosed (by decide)
    simpa using brackets.append empty

/-- An array type with `Map` ends at the bracket of the value of `Map`. -/
theorem breaks_array (map : .word "Map".toList ∈ ts) {head : Word}
    (array : head.chars = "Array".toList) :
    Breaks (pass wordVocabulary (.word head.chars :: .mark '<' :: (ts ++ [.mark '>']))) := by
  intro before rest apart
  obtain ⟨inner, after, split, first⟩ := List.eq_append_cons_of_mem (h.closing.mpr map)
  have closed : Closed (textOf inner ++ '>' :: textOf after) := by
    have whole := h.closed
    rw [split, textOf_append, textOf_cons] at whole
    exact whole
  have nonempty : inner ≠ [] := by
    rintro rfl
    obtain ⟨opened, front⟩ := openAfter_of_closed closed []
    simp at front
  have free : ¬ HasGeneric "Array" inner := by
    intro generic
    refine h.free (generic.trans ?_)
    rw [split]
    exact (List.prefix_append inner _).isInfix
  have read : arrayArgument? (.word "Array".toList :: .mark '<' ::
      (pass wordVocabulary ts ++ [.mark '>'] ++ rest)) =
        some (inner, after ++ .mark '>' :: rest) :=
    arrayArgument?_eq_some_iff.mpr ⟨by simp [split], nonempty, first⟩
  have maximal := maximal_pass wordVocabulary_words h.maximal
  rw [split] at maximal
  have argument := tokenize_textOf (Maximal.append_iff.mp maximal).1
  obtain ⟨out, last, written, same⟩ := @exists_rewriteTokens_append _ [] free (by simp) none
  rw [rewriteTokens_nil, List.append_nil, List.append_nil] at written
  rw [h.pass_generic head, array, List.cons_append, List.cons_append,
    rewriteTokens_array before read, argument, written]
  have broken := broken_of_unclosed closed same
    ("[]".toList ++ rewriteTokens (some (.mark '>')) (after ++ .mark '>' :: rest))
  simpa using broken

end Flat

namespace Atom

/-- An array type with `Map` in one of its arguments. -/
def HidesMap : Atom → Prop
  | word _ => False
  | generic head first rest =>
    head.chars = "Array".toList ∧ ∃ a ∈ first :: rest, a.Has (·.chars = "Map".toList)

theorem closes {a : Atom} (h : ¬ a.HidesMap) : Closes (pass wordVocabulary a.tokens) := by
  cases a with
  | word w => exact closes_of_free (Flat.word w).free (Flat.word w).closed
  | generic head first rest =>
    have flat := Flat.arguments first rest
    by_cases array : head.chars = "Array".toList
    · refine flat.closes_array (fun map => h ⟨array, ?_⟩) array
      exact mem_argumentTokens_iff.mp map
    · exact flat.closes_generic array

theorem breaks {a : Atom} (h : a.HidesMap) : Breaks (pass wordVocabulary a.tokens) := by
  cases a with
  | word w => exact h.elim
  | generic head first rest =>
    obtain ⟨array, map⟩ := h
    exact (Flat.arguments first rest).breaks_array (mem_argumentTokens_iff.mpr map) array

end Atom

namespace TypeExpr

theorem closes {e : TypeExpr} (h : ¬ e.Has Atom.HidesMap) :
    Closes (pass wordVocabulary (e.tokens Atom.tokens)) := by
  induction e with
  | leaf a => exact Atom.closes h
  | union left right ihl ihr =>
    obtain ⟨not_left, not_right⟩ := not_or.mp h
    rw [pass_union]
    exact (ihl not_left).append ((ihr not_right).mark_cons (by decide)) (by simp)
  | array item ih =>
    have brackets : Closes [.mark '[', .mark ']'] :=
      closes_of_free (by simp [hasGeneric_cons_iff, not_hasGeneric_nil])
        (Closed.nil.enclosed (by decide))
    rw [Shape.tokens, pass_array (sound item).maximal]
    exact (ih h).append brackets (by simp)

theorem breaks {e : TypeExpr} (h : e.Has Atom.HidesMap) :
    Breaks (pass wordVocabulary (e.tokens Atom.tokens)) := by
  induction e with
  | leaf a => exact Atom.breaks h
  | union left right ihl ihr =>
    rw [pass_union]
    by_cases hides : left.Has Atom.HidesMap
    · exact (ihl hides).append (by simp)
    · exact (closes hides).append_breaks ((ihr (h.resolve_left hides)).mark_cons (by decide))
        (by simp)
  | array item ih =>
    rw [Shape.tokens, pass_array (sound item).maximal]
    exact (ih h).append (by simp)

/-- An expression with `Map` in an array type has brackets. -/
theorem mark_mem_of_hidesMap {e : TypeExpr} (h : e.Has Atom.HidesMap) :
    .mark '<' ∈ e.tokens Atom.tokens := by
  induction e with
  | leaf a =>
    cases a with
    | word w => exact h.elim
    | generic head first rest => simp [Shape.tokens, Atom.tokens]
  | union left right ihl ihr =>
    rcases h with h | h
    · exact List.mem_append_left _ (ihl h)
    · exact List.mem_append_right _ (List.mem_cons_of_mem _ (ihr h))
  | array item ih => exact List.mem_append_left _ (ih h)

end TypeExpr

end TypeText

open TypeText

namespace Index

theorem wellNested_translate {i : Index} {e : TypeExpr} (h : ¬ e.Has Atom.HidesMap) :
    WellNested (i.translate e.text).toList := by
  have settled := TypeExpr.settled_text (s := i.scope builtinVocabulary) rfl e
  have rewritten := TypeExpr.rewriteBuiltins_settled (s := i.scope builtinVocabulary) rfl e
  rw [translate]
  rcases Scope.toList_translate (i.scope builtinVocabulary) e.text with
    text | text | ⟨-, ⟨-, text⟩ | text⟩
  · rw [text]
    decide
  · rw [text]
    decide
  · have root : Closed "globalThis.".toList := .of_plain (by simp)
    rw [text, settled]
    exact root.append e.sound.closed []
  · obtain ⟨out, last, written, closed⟩ := TypeExpr.closes h none [] (by simp)
    rw [rewriteTokens_nil, List.append_nil, List.append_nil] at written
    rw [text, rewritten, written]
    exact closed []

theorem not_wellNested_translate {i : Index}
    (words : ∀ name, i.knows name = true → ∀ c ∈ name.toList, isWordChar c = true)
    {e : TypeExpr} (h : e.Has Atom.HidesMap) : ¬ WellNested (i.translate e.text).toList := by
  have settled := TypeExpr.settled_text (s := i.scope builtinVocabulary) rfl e
  have rewritten := TypeExpr.rewriteBuiltins_settled (s := i.scope builtinVocabulary) rfl e
  have mark := TypeExpr.mark_mem_of_hidesMap h
  have bracket : '<' ∈ e.text.toList := by
    rw [TypeExpr.toList_text]
    exact List.mem_flatMap.mpr ⟨_, mark, List.mem_singleton_self _⟩
  have no_text : ∀ text : String, '<' ∉ text.toList → e.text ≠ text := by
    intro text plain same
    exact plain (same ▸ bracket)
  have bracket_settled : '<' ∈ (i.scope builtinVocabulary).settled e.text := by
    rw [settled]
    exact List.mem_flatMap.mpr
      ⟨_, mark_mem_pass e.sound.maximal mark, List.mem_singleton_self _⟩
  have no_class : (i.scope builtinVocabulary).isGlobalClass
      ((i.scope builtinVocabulary).settled e.text) = false := by
    by_contra declared
    exact Scope.not_mem_of_isGlobalClass words (by simpa using declared) (by decide) (by decide)
      (by decide) bracket_settled
  have broken := TypeExpr.breaks h none [] (by simp)
  rw [List.append_nil] at broken
  rw [translate, Scope.translate_of_settled (no_text _ (by decide)) (no_text _ (by decide))
    (no_text _ (by decide)) rfl (List.ne_nil_of_mem bracket_settled), if_neg (by simp [no_class]),
    String.toList_ofList, rewritten, WellNested, broken []]
  simp

/-- Where class names are words, the brackets of a translated type expression are well nested
just when no array type in it has `Map` in its argument. -/
theorem wellNested_translate_iff {i : Index}
    (words : ∀ name, i.knows name = true → ∀ c ∈ name.toList, isWordChar c = true)
    (e : TypeExpr) : WellNested (i.translate e.text).toList ↔ ¬ e.Has Atom.HidesMap :=
  ⟨fun nested hides => not_wellNested_translate words hides nested, wellNested_translate⟩

/-- `Array<Map>`. -/
def arrayOfMaps : TypeExpr :=
  .leaf (.generic ⟨"Array".toList, by decide⟩ (.leaf ⟨"Map".toList, by decide⟩) [])

/-- `Promise<Map[],qx.A>`. -/
def promiseOfMaps : TypeExpr :=
  .leaf (.generic ⟨"Promise".toList, by decide⟩ (.array (.leaf ⟨"Map".toList, by decide⟩))
    [.leaf ⟨"qx.A".toList, by decide⟩])

/-- Maps in promises and in array types. -/
theorem wellNested_translate_maps :
    (∀ name, plainNames.knows name = true → ∀ c ∈ name.toList, isWordChar c = true) ∧
      WellNested (plainNames.translate promiseOfMaps.text).toList ∧
      ¬ WellNested
        (plainNames.translate (TypeExpr.text (.union promiseOfMaps arrayOfMaps))).toList := by
  refine ⟨words_plainNames, ?_, ?_⟩
  · refine (wellNested_translate_iff words_plainNames promiseOfMaps).mpr ?_
    rintro ⟨promise, -⟩
    simp at promise
  · intro nested
    exact (wellNested_translate_iff words_plainNames (.union promiseOfMaps arrayOfMaps)).mp nested
      (.inr ⟨rfl, _, List.mem_cons_self, rfl⟩)

/-- The array type ends at the bracket of the map. -/
theorem translate_arrayOfMaps :
    arrayOfMaps.text = "Array<Map>" ∧
      plainNames.translate arrayOfMaps.text = "(Record<string, any)[]>" ∧
      ¬ WellNested (plainNames.translate arrayOfMaps.text).toList := by
  have text : arrayOfMaps.text = "Array<Map>" := by decide
  have settled : (plainNames.scope builtinVocabulary).settled "Array<Map>" =
      "Array<Record<string, any>>".toList := by decide +kernel
  have read : arrayArgument? (tokenize "Array<Record<string, any>>".toList) =
      some ([.word "Record".toList, .mark '<', .word "string".toList, .mark ',', .mark ' ',
        .word "any".toList], [.mark '>']) := rfl
  have rewritten : rewriteBuiltins "Array<Record<string, any>>".toList =
      "(Record<string, any)[]>".toList := by
    rw [rewriteBuiltins, rewriteTokens_array none read, rewriteTokens_of_plain (by decide),
      rewriteTokens_of_plain (by decide)]
    rfl
  have translated : plainNames.translate "Array<Map>" = "(Record<string, any)[]>" := by
    rw [translate, Scope.translate_of_settled (by decide) (by decide) (by decide) settled
      (by decide), if_neg (by decide +kernel), rewritten, String.ofList_toList]
  rw [text, translated]
  exact ⟨rfl, rfl, by decide⟩

end Index

end Ambient
