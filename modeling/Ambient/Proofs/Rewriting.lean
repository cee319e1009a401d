/-
  Rewriting: which type expressions the built-in rewritings leave alone, and what they leave
  behind. Main statements: `rewriteTokens_eq_textOf_iff` (an expression is left alone just when
  it has none of the four forms that are rewritten), `cleared_rewriteTokens` (no key of the
  built-in vocabulary comes to stand alone), and `count_rewriteTokens_le` (no star and no
  question mark is added).
-/
import Ambient.Proofs.BuiltinWords
import Ambient.TypeText.Builtin

namespace Ambient.TypeText

/-! ## The forms that are rewritten -/

/-- The tokens after `before` begin with a form that is rewritten: an array type with a
non-empty argument, a promise of something, the word `var`, or a star that no word touches. -/
inductive StartsBuiltin (before : Option Token) : List Token → Prop
  | array {inner after : List Token} (nonempty : inner ≠ []) (first : .mark '>' ∉ inner) :
      StartsBuiltin before (.word "Array".toList :: .mark '<' :: (inner ++ .mark '>' :: after))
  | promise (ts : List Token) : StartsBuiltin before (.word "Promise".toList :: .mark '<' :: ts)
  | var (ts : List Token) : StartsBuiltin before (.word "var".toList :: ts)
  | star {ts : List Token} (loose : isLoose before ts.head? = true) :
      StartsBuiltin before (.mark '*' :: ts)

/-- One of the forms begins somewhere in the tokens after `before`. -/
inductive HasBuiltin : Option Token → List Token → Prop
  | here {before : Option Token} {ts : List Token} (h : StartsBuiltin before ts) :
      HasBuiltin before ts
  | later {before : Option Token} {t : Token} {ts : List Token} (h : HasBuiltin (some t) ts) :
      HasBuiltin before (t :: ts)

theorem not_hasBuiltin_nil {before : Option Token} : ¬ HasBuiltin before [] := by
  rintro (⟨⟨⟩⟩)

theorem hasBuiltin_cons_iff {before : Option Token} {t : Token} {ts : List Token} :
    HasBuiltin before (t :: ts) ↔ StartsBuiltin before (t :: ts) ∨ HasBuiltin (some t) ts := by
  constructor
  · intro h
    cases h with
    | here h => exact .inl h
    | later h => exact .inr h
  · rintro (h | h)
    · exact .here h
    · exact .later h

theorem not_mem_of_splitAtClose {ts inner after : List Token}
    (h : splitAtClose ts = some (inner, after)) : .mark '>' ∉ inner := by
  induction ts generalizing inner with
  | nil => simp [splitAtClose] at h
  | cons t ts ih =>
    unfold splitAtClose at h
    split at h
    · obtain ⟨rfl, rfl⟩ := Prod.mk.inj (Option.some.inj h)
      simp
    · next other =>
      simp only [Option.map_eq_some_iff, Prod.mk.injEq, Prod.exists] at h
      obtain ⟨rest, _, split, rfl, rfl⟩ := h
      simp [ih split, Ne.symm other]

theorem splitAtClose_append {inner : List Token} (h : .mark '>' ∉ inner) (after : List Token) :
    splitAtClose (inner ++ .mark '>' :: after) = some (inner, after) := by
  induction inner with
  | nil => simp [splitAtClose]
  | cons t inner ih =>
    rw [List.mem_cons, not_or] at h
    simp [splitAtClose, ih h.2, Ne.symm h.1]

/-- An array type ends at its first bracket, and has a non-empty argument. -/
theorem arrayArgument?_eq_some_iff {ts inner after : List Token} :
    arrayArgument? ts = some (inner, after) ↔
      ts = .word "Array".toList :: .mark '<' :: (inner ++ .mark '>' :: after) ∧
        inner ≠ [] ∧ .mark '>' ∉ inner := by
  constructor
  · intro h
    refine ⟨arrayArgument?_eq h, ?_⟩
    unfold arrayArgument? at h
    split at h
    · split at h
      · split at h
        · next split =>
          obtain ⟨rfl, rfl⟩ := Prod.mk.inj (Option.some.inj h)
          exact ⟨by simp, not_mem_of_splitAtClose split⟩
        · simp at h
      · simp at h
    · simp at h
  · rintro ⟨rfl, nonempty, first⟩
    obtain ⟨t, inner, rfl⟩ := List.exists_cons_of_ne_nil nonempty
    have split := splitAtClose_append first after
    simp only [arrayArgument?, ↓reduceIte, split]

theorem arrayArgument?_eq_none {t : Token} (h : t ≠ .word "Array".toList) (ts : List Token) :
    arrayArgument? (t :: ts) = none := by
  by_contra array
  obtain ⟨parts, array⟩ := Option.ne_none_iff_exists'.mp array
  exact h (List.cons.inj (arrayArgument?_eq array)).1

theorem startsBuiltin_of_arrayArgument? {before : Option Token} {ts inner after : List Token}
    (h : arrayArgument? ts = some (inner, after)) : StartsBuiltin before ts := by
  obtain ⟨rfl, nonempty, first⟩ := arrayArgument?_eq_some_iff.mp h
  exact .array nonempty first

/-- A token that begins none of the forms is written as it is. -/
theorem rewriteTokens_of_not_startsBuiltin {before : Option Token} {t : Token}
    {ts : List Token} (h : ¬ StartsBuiltin before (t :: ts)) :
    rewriteTokens before (t :: ts) = t.text ++ rewriteTokens (some t) ts := by
  have single : arrayArgument? (t :: ts) = none := by
    by_contra array
    obtain ⟨⟨inner, after⟩, array⟩ := Option.ne_none_iff_exists'.mp array
    exact h (startsBuiltin_of_arrayArgument? array)
  have text : builtinText before t ts.head? = t.text := by
    unfold builtinText
    split
    · next promise =>
      simp only [Bool.and_eq_true, decide_eq_true_eq, beq_iff_eq] at promise
      obtain ⟨rfl, next⟩ := promise
      obtain ⟨rest, rfl⟩ := List.head?_eq_some_iff.mp next
      exact absurd (.promise rest) h
    · split
      · next var => exact absurd (var ▸ .var ts) h
      · split
        · next star =>
          simp only [Bool.and_eq_true, decide_eq_true_eq] at star
          obtain ⟨rfl, loose⟩ := star
          exact absurd (.star loose) h
        · rfl
  rw [rewriteTokens_single before single, text]

/-- What is written for one of the forms begins with another character. -/
theorem head?_rewriteTokens_ne {before : Option Token} {ts : List Token}
    (h : StartsBuiltin before ts) : (rewriteTokens before ts).head? ≠ (textOf ts).head? := by
  cases h with
  | array nonempty first =>
    rw [rewriteTokens_array before (arrayArgument?_eq_some_iff.mpr ⟨rfl, nonempty, first⟩)]
    simp
  | promise ts =>
    rw [rewriteTokens_single before (arrayArgument?_eq_none (by decide) _)]
    simp [builtinText]
  | var ts =>
    rw [rewriteTokens_single before (arrayArgument?_eq_none (by decide) _)]
    simp [builtinText]
  | star loose =>
    rw [rewriteTokens_single before (arrayArgument?_eq_none (by decide) _)]
    simp [builtinText, loose]

/-- A type expression is left alone just when none of the forms is in it. -/
theorem rewriteTokens_eq_textOf_iff {before : Option Token} {ts : List Token} :
    rewriteTokens before ts = textOf ts ↔ ¬ HasBuiltin before ts := by
  induction ts generalizing before with
  | nil => simp [not_hasBuiltin_nil]
  | cons t ts ih =>
    by_cases starts : StartsBuiltin before (t :: ts)
    · constructor
      · intro same
        exact absurd (congrArg List.head? same) (head?_rewriteTokens_ne starts)
      · intro none_there
        exact absurd (.here starts) none_there
    · rw [rewriteTokens_of_not_startsBuiltin starts, textOf_cons, List.append_cancel_left_eq, ih,
        hasBuiltin_cons_iff, or_iff_right starts]

/-- Tokens that begin none of the forms, whatever stands around them, are left alone. -/
theorem rewriteTokens_of_plain {before : Option Token} {ts : List Token}
    (plain : ∀ t ∈ ts, t ∉ [.word "Array".toList, .word "Promise".toList, .word "var".toList,
      .mark '*']) : rewriteTokens before ts = textOf ts := by
  refine rewriteTokens_eq_textOf_iff.mpr fun form => ?_
  induction form with
  | here starts => cases starts <;> simp at plain
  | later _ ih => exact ih fun t member => plain t (List.mem_cons_of_mem _ member)

/-- A replacement that is still to be made, if it is not one of a word, is one of the forms. -/
theorem hasBuiltin_of_hasReplacement {before : Option Token} {ts : List Token} (h : Maximal ts)
    (bare : ∀ key, ¬ Stands builtinVocabulary ts key)
    (some_replacement : hasReplacement builtinVocabulary before ts = true) :
    HasBuiltin before ts := by
  induction ts generalizing before with
  | nil => simp [hasReplacement] at some_replacement
  | cons t ts ih =>
    rw [hasReplacement, Bool.or_eq_true] at some_replacement
    rcases some_replacement with now | later
    · obtain ⟨value, replaced⟩ := Option.isSome_iff_exists.mp now
      cases t with
      | mark c =>
        have hc := (Maximal.mark_cons_iff.mp h).1
        obtain ⟨rfl, -, loose⟩ := replacement?_mark_eq_some hc replaced
        exact .here (.star loose)
      | word w =>
        rcases kept_or_key builtinVocabulary w ts with other | ⟨_, alone, found⟩
        · simp [replacement?_kept other] at replaced
        · exact absurd (stands_word_cons alone found) (bare _)
    · exact .later (ih h.tail (fun key stands => bare key (stands_cons_iff.mpr (.inr stands))) later)

/-! ## What is left behind -/

/-- What is written for a token that begins no array type leaves no key that stands alone. -/
theorem cleared_builtinText {before : Option Token} {t : Token} {ts : List Token}
    {cs : List Char} (h : Maximal (t :: ts))
    (bare : ∀ key, ¬ Stands builtinVocabulary (t :: ts) key)
    (apart : before.all Token.isMark = true ∨ t.isMark = true)
    (rest : Cleared (some t) ts (tokenize cs)) :
    Cleared before (t :: ts) (tokenize (builtinText before t ts.head? ++ cs)) := by
  unfold builtinText
  cases t with
  | mark c =>
    have hc := (Maximal.mark_cons_iff.mp h).1
    rw [if_neg (by simp), if_neg (by simp)]
    split
    · next star =>
      rw [Bool.and_eq_true, isLoose_iff] at star
      exact .fresh star.2.1 (by decide) (.inl rfl) rest.bare
    · exact rest.mark hc
  | word w =>
    have loose : before.all Token.isMark = true := apart.resolve_right (by simp)
    split
    · exact .fresh loose (by decide) (.inr rfl) rest.bare
    · split
      · exact .fresh loose (by decide) (.inl rfl) rest.bare
      · rw [if_neg (by simp)]
        rcases kept_or_key builtinVocabulary w ts with other | ⟨value, alone, found⟩
        · exact .kept h loose other rest
        · exact absurd (stands_word_cons alone found) (bare _)

/-- The tokens of an array in brackets, and of what follows it. -/
theorem tokenize_array (x y : List Char) :
    tokenize ('(' :: x ++ ")[]".toList ++ y) =
      .mark '(' :: (tokenize x ++ .mark ')' :: .mark '[' :: .mark ']' :: tokenize y) := by
  have text : '(' :: x ++ ")[]".toList ++ y = '(' :: (x ++ ')' :: '[' :: ']' :: y) := by simp
  rw [text, tokenize_mark_cons (by decide), tokenize_append_mark (by decide),
    tokenize_mark_cons (by decide), tokenize_mark_cons (by decide)]

/-- An array in brackets, behind a place that no word touches. -/
theorem Cleared.array {before : Option Token} {ts : List Token} {x y : List Char}
    (loose : before.all Token.isMark = true)
    (hx : ∀ key, ¬ Stands builtinVocabulary (tokenize x) key)
    (hy : ∀ key, ¬ Stands builtinVocabulary (tokenize y) key) :
    Cleared before ts (tokenize ('(' :: x ++ ")[]".toList ++ y)) := by
  rw [tokenize_array]
  refine ⟨fun key stands => ?_, by simp [loose]⟩
  rcases (stands_mark_cons_iff.mp stands).of_append with stands | stands
  · exact hx key stands
  · simp only [stands_mark_cons_iff] at stands
    exact hy key stands

theorem maximal_of_arrayArgument? {ts inner after : List Token}
    (array : arrayArgument? ts = some (inner, after)) (h : Maximal ts) :
    Maximal inner ∧ Maximal after := by
  rw [arrayArgument?_eq array] at h
  obtain ⟨maximal, closing, -⟩ := Maximal.append_iff.mp h.tail.tail
  exact ⟨maximal, closing.tail⟩

theorem bare_of_arrayArgument? {v : Vocabulary} {ts inner after : List Token}
    (array : arrayArgument? ts = some (inner, after)) (bare : ∀ key, ¬ Stands v ts key) :
    (∀ key, ¬ Stands v inner key) ∧ ∀ key, ¬ Stands v after key := by
  rw [arrayArgument?_eq array] at bare
  have argument_bare : ∀ key, ¬ Stands v (inner ++ .mark '>' :: after) key := by
    intro key stands
    exact bare key (stands_cons_iff.mpr (.inr (stands_mark_cons_iff.mpr stands)))
  constructor
  · -- the argument ends before a bracket that makes no generic type of its last word
    intro key stands
    exact argument_bare key (stands.append_left (by simp))
  · intro key stands
    have closing : Stands v (.mark '>' :: after) key := stands_mark_cons_iff.mpr stands
    exact argument_bare key (closing.append_right inner)

/-- The built-in rewritings leave no key that stands alone where there was none. -/
theorem cleared_rewriteTokens {before : Option Token} {ts : List Token} (h : Maximal ts)
    (bare : ∀ key, ¬ Stands builtinVocabulary ts key)
    (apart : before.all Token.isMark = true ∨ ts.head?.all Token.isMark = true) :
    Cleared before ts (tokenize (rewriteTokens before ts)) := by
  induction before, ts using rewriteTokens.induct with
  | case1 before =>
    rw [rewriteTokens_nil]
    exact ⟨fun _ => not_stands_nil, fun _ => rfl⟩
  | case2 before t rest inner after array ih ih' =>
    have loose : before.all Token.isMark = true := by
      rw [arrayArgument?_eq array] at apart
      exact apart.resolve_right (by simp)
    obtain ⟨inner_maximal, after_maximal⟩ := maximal_of_arrayArgument? array h
    obtain ⟨inner_bare, after_bare⟩ := bare_of_arrayArgument? array bare
    have argument := tokenize_textOf inner_maximal
    rw [argument] at ih
    have inside := (ih inner_maximal inner_bare (.inl rfl)).bare
    have behind := (ih' after_maximal after_bare (.inl rfl)).bare
    rw [rewriteTokens_array before array, argument]
    exact .array loose inside behind
  | case3 before t rest single ih =>
    have rest_bare : ∀ key, ¬ Stands builtinVocabulary rest key :=
      fun key stands => bare key (stands_cons_iff.mpr (.inr stands))
    obtain ⟨-, tail, next⟩ := Maximal.cons_iff.mp h
    rw [rewriteTokens_single before single]
    exact cleared_builtinText h bare apart (ih tail rest_bare next)

theorem count_builtinText_le {c : Char} (h : c ∉ "globalThis.Promise".toList ++ "unknown".toList)
    (before : Option Token) (t : Token) (after : Option Token) :
    (builtinText before t after).count c ≤ t.text.count c := by
  rw [List.mem_append, not_or] at h
  have promise := List.count_eq_zero.mpr h.1
  have unknown := List.count_eq_zero.mpr h.2
  unfold builtinText
  split
  · omega
  · split
    · omega
    · split
      · omega
      · exact Nat.le_refl _

/-- A character that is in no new text is written no more often than it is read. -/
theorem count_rewriteTokens_le {c : Char}
    (h : c ∉ "globalThis.Promise".toList ++ "unknown".toList) (brackets : c ∉ "()[]".toList)
    (before : Option Token) (ts : List Token) :
    (rewriteTokens before ts).count c ≤ (textOf ts).count c := by
  induction before, ts using rewriteTokens.induct with
  | case1 before => simp
  | case2 before t rest inner after array ih ih' =>
    have closing : (")[]".toList).count c = 0 := List.count_eq_zero.mpr (by simp_all)
    have opening : '(' ≠ c := by rintro rfl; simp at brackets
    rw [textOf_tokenize] at ih
    rw [rewriteTokens_array before array, arrayArgument?_eq array]
    simp only [List.count_append, List.count_cons_of_ne opening, closing, textOf_cons,
      textOf_append]
    omega
  | case3 before t rest single ih =>
    have first := count_builtinText_le h before t rest.head?
    rw [rewriteTokens_single before single, textOf_cons, List.count_append, List.count_append]
    omega

/-- Something is written for every token. -/
theorem rewriteTokens_ne_nil {before : Option Token} {t : Token} (h : t.text ≠ [])
    (ts : List Token) : rewriteTokens before (t :: ts) ≠ [] := by
  cases array : arrayArgument? (t :: ts) with
  | some parts =>
    rw [rewriteTokens_array before array]
    simp
  | none =>
    have written : builtinText before t ts.head? ≠ [] := by
      unfold builtinText
      split
      · decide
      · split
        · decide
        · split
          · decide
          · exact h
    rw [rewriteTokens_single before array]
    exact List.append_ne_nil_of_left_ne_nil written _

end Ambient.TypeText
