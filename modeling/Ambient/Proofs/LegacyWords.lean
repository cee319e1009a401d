/-
  Legacy words: what no translation holds of the old documentation. The passes of the built-in
  vocabulary leave no key that stands alone, and the built-in rewritings take `var`, and
  `Promise` in front of its argument, wherever they stand. What is written in their places
  begins like none of these words, so no new one is made of a place where two texts meet.
  Main result: a translation is not empty, has no question mark, and holds no such word.
-/
import Ambient.Proofs.Retranslation

namespace Ambient

namespace TypeText

/-! ## Words in front of an argument -/

/-- One of the tokens is this word, in front of an argument. -/
def HasGeneric (head : String) (ts : List Token) : Prop :=
  [.word head.toList, .mark '<'] <:+: ts

theorem not_hasGeneric_nil {head : String} : ¬ HasGeneric head [] := by simp [HasGeneric]

theorem hasGeneric_cons_iff {head : String} {t : Token} {ts : List Token} :
    HasGeneric head (t :: ts) ↔
      (t = .word head.toList ∧ ts.head? = some (.mark '<')) ∨ HasGeneric head ts := by
  rw [HasGeneric, List.infix_cons_iff, List.cons_prefix_cons, @eq_comm _ t]
  cases ts with
  | nil => simp [HasGeneric]
  | cons u ts => simp [HasGeneric, @eq_comm _ u]

/-- In two texts in a row, of which the second one is no argument of the first. -/
theorem HasGeneric.of_append {head : String} {ts us : List Token}
    (apart : us.head? ≠ some (.mark '<')) (h : HasGeneric head (ts ++ us)) :
    HasGeneric head ts ∨ HasGeneric head us := by
  induction ts with
  | nil => exact .inr h
  | cons t ts ih =>
    rcases hasGeneric_cons_iff.mp h with ⟨first, next⟩ | later
    · refine .inl (hasGeneric_cons_iff.mpr (.inl ⟨first, ?_⟩))
      cases ts with
      | nil => exact absurd next apart
      | cons u ts => exact next
    · exact (ih later).imp_left fun h => hasGeneric_cons_iff.mpr (.inr h)

/-! ## Words that are rewritten wherever they stand -/

/-- One of the tokens is `var`, or `Promise` in front of its argument. -/
def Dated (ts : List Token) : Prop := .word "var".toList ∈ ts ∨ HasGeneric "Promise" ts

theorem not_dated_nil : ¬ Dated [] := by simp [Dated, not_hasGeneric_nil]

theorem dated_cons_iff {t : Token} {ts : List Token} :
    Dated (t :: ts) ↔
      t = .word "var".toList ∨ (t = .word "Promise".toList ∧ ts.head? = some (.mark '<')) ∨
        Dated ts := by
  rw [Dated, Dated, List.mem_cons, hasGeneric_cons_iff, eq_comm]
  tauto

theorem dated_mark_cons_iff {c : Char} {ts : List Token} :
    Dated (.mark c :: ts) ↔ Dated ts := by
  simp [dated_cons_iff]

theorem dated_word_cons_iff {w : List Char} {ts : List Token} :
    Dated (.word w :: ts) ↔
      w = "var".toList ∨ (w = "Promise".toList ∧ ts.head? = some (.mark '<')) ∨ Dated ts := by
  simp only [dated_cons_iff, Token.word.injEq]

theorem Dated.of_append {ts us : List Token} (apart : us.head? ≠ some (.mark '<'))
    (h : Dated (ts ++ us)) : Dated ts ∨ Dated us := by
  rcases h with var | promise
  · exact (List.mem_append.mp var).imp .inl .inl
  · exact (promise.of_append apart).imp .inr .inr

/-- A word that begins like no dated one, in front of a text. -/
theorem not_dated_word_append {w cs : List Char} (hw : (Token.word w).WellFormed)
    (h : w.head? = some 'u' ∨ w.head? = some 'g') (rest : ¬ Dated (tokenize cs)) :
    ¬ Dated (tokenize (w ++ cs)) := by
  obtain ⟨w', us, read, next⟩ := exists_tokenize_word_append hw cs
  have later : ¬ Dated us := by
    intro dated
    rcases next with same | same
    · exact rest (same ▸ dated)
    · exact rest (same ▸ dated_cons_iff.mpr (.inr (.inr dated)))
  have first : (w ++ w').head? = some 'u' ∨ (w ++ w').head? = some 'g' := by
    rwa [List.head?_append_of_ne_nil w hw.1]
  rw [read, dated_word_cons_iff]
  rintro (var | ⟨promise, -⟩ | dated)
  · rw [var] at first
    simp at first
  · rw [promise] at first
    simp at first
  · exact later dated

/-- What is written for a token that begins no array type adds no dated word to what follows,
where a word is followed by what followed it before. -/
theorem not_dated_builtinText {before : Option Token} {t : Token} {ts : List Token}
    {cs : List Char} (h : Maximal (t :: ts)) (rest : ¬ Dated (tokenize cs))
    (behind_word : t.isMark = false → (tokenize cs).head? = ts.head?) :
    ¬ Dated (tokenize (builtinText before t ts.head? ++ cs)) := by
  unfold builtinText
  cases t with
  | mark c =>
    rw [if_neg (by simp), if_neg (by simp)]
    split
    · exact not_dated_word_append (by decide) (.inl rfl) rest
    · rw [Token.text_mark, List.singleton_append,
        tokenize_mark_cons (Maximal.mark_cons_iff.mp h).1, dated_mark_cons_iff]
      exact rest
  | word w =>
    split
    · exact not_dated_word_append (by decide) (.inr rfl) rest
    · next not_promise =>
      split
      · exact not_dated_word_append (by decide) (.inl rfl) rest
      · next not_var =>
        obtain ⟨wellFormed, -, apart⟩ := Maximal.word_cons_iff.mp h
        have same := behind_word rfl
        rw [← same] at apart
        rw [if_neg (by simp), Token.text_word, tokenize_word_append wellFormed apart,
          dated_word_cons_iff, same]
        rintro (rfl | ⟨rfl, next⟩ | dated)
        · exact not_var rfl
        · exact not_promise (by simp [next])
        · exact rest dated

/-- The built-in rewritings leave no dated word. -/
theorem not_dated_rewriteTokens {before : Option Token} {ts : List Token} (h : Maximal ts)
    (bare : ∀ key, ¬ Stands builtinVocabulary ts key) :
    ¬ Dated (tokenize (rewriteTokens before ts)) := by
  induction before, ts using rewriteTokens.induct with
  | case1 before =>
    rw [rewriteTokens_nil]
    exact not_dated_nil
  | case2 before t rest inner after array ih ih' =>
    obtain ⟨inner_maximal, after_maximal⟩ := maximal_of_arrayArgument? array h
    obtain ⟨inner_bare, after_bare⟩ := bare_of_arrayArgument? array bare
    have argument := tokenize_textOf inner_maximal
    rw [argument] at ih
    rw [rewriteTokens_array before array, argument, tokenize_array, dated_mark_cons_iff]
    intro dated
    rcases dated.of_append (by simp) with inside | behind
    · exact ih inner_maximal inner_bare inside
    · simp only [dated_mark_cons_iff] at behind
      exact ih' after_maximal after_bare behind
  | case3 before t rest single ih =>
    obtain ⟨-, tail, next⟩ := Maximal.cons_iff.mp h
    have rest_bare : ∀ key, ¬ Stands builtinVocabulary rest key :=
      fun key stands => bare key (stands_cons_iff.mpr (.inr stands))
    have cleared := @cleared_rewriteTokens (some t) rest tail rest_bare next
    rw [rewriteTokens_single before single]
    exact not_dated_builtinText h (ih tail rest_bare) cleared.behind_word

/-- Where nothing has an argument, a dated word is a key that stands alone. -/
theorem not_dated_of_bare {cs : List Char} (no_argument : '<' ∉ cs)
    (bare : ∀ key, ¬ Stands builtinVocabulary (tokenize cs) key) : ¬ Dated (tokenize cs) := by
  have no_mark : .mark '<' ∉ tokenize cs := by
    intro mark
    refine no_argument ?_
    rw [← textOf_tokenize cs]
    exact List.mem_flatMap.mpr ⟨_, mark, List.mem_singleton_self _⟩
  rintro (var | promise)
  · obtain ⟨front, rest, split⟩ := List.append_of_mem var
    refine bare "var" ⟨front, rest, split, fun next => no_mark ?_, by decide +kernel⟩
    obtain ⟨back, rfl⟩ := List.head?_eq_some_iff.mp next
    simp [split]
  · exact no_mark (promise.mem (by simp))

/-! ## Declared classes -/

/-- Only square brackets are dropped. -/
theorem mem_dropBrackets {c : Char} {cs : List Char} (h : c ∈ cs) (left : c ≠ '[')
    (right : c ≠ ']') : c ∈ dropBrackets cs := by
  induction cs using dropBrackets.induct with
  | case1 cs ih =>
    simp only [List.mem_cons, left, right, false_or] at h
    exact ih h
  | case2 d cs other ih =>
    rw [dropBrackets]
    · rcases List.mem_cons.mp h with rfl | h
      · exact List.mem_cons_self
      · exact List.mem_cons_of_mem _ (ih h)
    · exact other
  | case3 => simp at h

/-- Where class names are words, a declared class, or arrays of one, is written with word
characters and square brackets. -/
theorem Scope.not_mem_of_isGlobalClass {s : Scope}
    (words : ∀ name, s.declared name = true → ∀ c ∈ name.toList, isWordChar c = true)
    {name : List Char} (h : s.isGlobalClass name = true) {c : Char} (hc : isWordChar c = false)
    (left : c ≠ '[') (right : c ≠ ']') : c ∉ name := by
  have declared : ∀ {cs}, s.declaresDotted cs = true → c ∉ cs := by
    intro cs dotted member
    rw [declaresDotted, Bool.and_eq_true] at dotted
    have := words _ dotted.2 c (by rwa [String.toList_ofList])
    simp [hc] at this
  intro member
  rw [isGlobalClass, Bool.or_eq_true] at h
  rcases h with dotted | dotted
  · exact declared dotted member
  · exact declared dotted (mem_dropBrackets member left right)

/-! ## Translations -/

/-- A text of today: something, without a question mark and without a word of the old
documentation. -/
structure Modern (cs : List Char) : Prop where
  nonempty : cs ≠ []
  unmarked : '?' ∉ cs
  no_var : .word "var".toList ∉ tokenize cs
  no_promise : ∀ front rest, tokenize cs ≠ front ++ .word "Promise".toList :: .mark '<' :: rest
  only_heads : ∀ key front rest, builtinVocabulary.contains key = true →
    tokenize cs = front ++ .word key.toList :: rest → rest.head? = some (.mark '<')

theorem Translated.modern {cs : List Char} (h : Translated cs) (current : ¬ Dated (tokenize cs)) :
    Modern cs where
  nonempty := h.nonempty
  unmarked := h.unmarked
  no_var := fun var => current (.inl var)
  no_promise := fun front rest split => current (.inr ⟨front, rest, by simp [split]⟩)
  only_heads := by
    intro key front rest known split
    by_contra alone
    exact h.bare key ⟨front, rest, split, alone, known⟩

end TypeText

open TypeText

namespace Index

/-- Where class names are words, no translation holds a word of the old documentation. -/
theorem modern_translate {i : Index}
    (words : ∀ name, i.knows name = true → ∀ c ∈ name.toList, isWordChar c = true)
    (type : String) : Modern (i.translate type).toList := by
  have translated : Translated (i.translate type).toList :=
    @Scope.translated_translate (i.scope builtinVocabulary) rfl type
  refine translated.modern ?_
  rcases Scope.toList_translate (i.scope builtinVocabulary) type with
    text | text | ⟨named, ⟨declared, text⟩ | text⟩
  · refine not_dated_of_bare ?_ translated.bare
    rw [translate, text]
    decide
  · refine not_dated_of_bare ?_ translated.bare
    rw [translate, text]
    decide
  · refine not_dated_of_bare ?_ translated.bare
    rw [translate, text, List.mem_append, not_or]
    exact ⟨by decide,
      Scope.not_mem_of_isGlobalClass words declared (by decide) (by decide) (by decide)⟩
  · rw [translate, text]
    exact not_dated_rewriteTokens (maximal_tokenize _) (Scope.translated_settled rfl named).bare

/-- An index of two classes, one of them with a name that holds words of the documentation. -/
def plainNames : Index :=
  ⟨.empty, ["qx.Map.var", "qx.A"], .ofList [("qx.Map.var", .blank), ("qx.A", .blank)]⟩

theorem words_plainNames (name : String) (known : plainNames.knows name = true) :
    ∀ c ∈ name.toList, isWordChar c = true := by
  have chars : ∀ name ∈ ["qx.Map.var", "qx.A"], ∀ c ∈ name.toList, isWordChar c = true := by
    simp [isWordChar]
  have keys : plainNames.records.keys = ["qx.Map.var", "qx.A"] := by decide
  have member := Table.contains_iff.mp known
  rw [keys] at member
  exact chars name member

/-- A key that comes to stand alone by a replacement, a star beside an array type, and a cut. -/
theorem modern_translate_plainNames :
    (∀ name, plainNames.knows name = true → ∀ c ∈ name.toList, isWordChar c = true) ∧
      Modern (plainNames.translate "Promise<Map*Array<var>>|*Promise<Array<*|Map>>?var").toList :=
  ⟨words_plainNames, modern_translate words_plainNames _⟩

end Index

end Ambient
