/-
  Class names: when the name of a declared class is translated to itself behind the global root.
  A name may hold characters that belong to no word, such as `_` and `$`, and the vocabulary is
  consulted before the index. Main result: the name is kept just when none of its words is a key
  of the built-in vocabulary; it does not matter that the words are parts of a longer name.
-/
import Ambient.Proofs.Retranslation
import Ambient.Proofs.SinglePass

namespace Ambient

namespace TypeText

/-- What is written for a token begins like the global root only if the token does, or is
`Promise`. -/
theorem head?_rewriteBuiltins {cs : List Char} (h : (rewriteBuiltins cs).head? = some 'g') :
    cs.head? = some 'g' ∨ cs.head? = some 'P' := by
  have text := textOf_tokenize cs
  have wellFormed := (maximal_tokenize cs).wellFormed
  unfold rewriteBuiltins at h
  cases read : tokenize cs with
  | nil => simp [read] at h
  | cons t ts =>
    rw [read] at h text wellFormed
    have nonempty := (wellFormed t List.mem_cons_self).text_ne_nil
    rw [← text, textOf_cons, List.head?_append_of_ne_nil _ nonempty]
    cases array : arrayArgument? (t :: ts) with
    | some parts =>
      rw [rewriteTokens_array none array] at h
      simp at h
    | none =>
      rw [rewriteTokens_single none array] at h
      unfold builtinText at h
      split at h
      · next promise =>
        simp only [Bool.and_eq_true, decide_eq_true_eq] at promise
        rw [promise.1]
        exact .inr rfl
      · split at h
        · simp at h
        · split at h
          · simp at h
          · rw [List.head?_append_of_ne_nil _ nonempty] at h
            exact .inl h

/-- No value begins like the global root, like `Promise`, or with a question mark. -/
theorem head?_value {key value : String} (found : wordVocabulary.get? key = some value) :
    ∃ c cs, value.toList = c :: cs ∧ c ≠ 'g' ∧ c ≠ 'P' ∧ c ≠ '?' := by
  have heads : ∀ e ∈ Settings.builtinWords,
      e.2.toList.head?.any (fun c => c ≠ 'g' && c ≠ 'P' && c ≠ '?') = true := by decide +kernel
  have head := heads _ (mem_builtinWords_of_get? found)
  dsimp only at head
  cases text : value.toList with
  | nil => simp [text] at head
  | cons c cs =>
    refine ⟨c, cs, rfl, ?_⟩
    simpa [text, and_assoc] using head

/-- Of the keys that stand alone in a text only one in front ceases to do so behind the root. -/
theorem exists_key_of_rooted {v : Vocabulary} {cs : List Char} {key : String}
    (stands : Stands v (tokenize cs) key)
    (bare : ¬ Stands v (tokenize ("globalThis.".toList ++ cs)) key) :
    ∃ ts, tokenize cs = .word key.toList :: ts ∧ ts.head? ≠ some (.mark '<') := by
  obtain ⟨w, ts, read, next⟩ := @exists_tokenize_word_append "globalThis.".toList (by decide) cs
  rw [read] at bare
  rcases next with same | same
  · rw [same] at stands
    exact absurd (stands_cons_iff.mpr (.inr stands)) bare
  · rw [same] at stands ⊢
    rcases stands_cons_iff.mp stands with ⟨first, alone, -⟩ | later
    · exact ⟨ts, by rw [first], alone⟩
    · exact absurd (stands_cons_iff.mpr (.inr later)) bare

namespace Scope

variable {s : Scope} (builtin : s.vocabulary = builtinVocabulary) {type : String}
  (starless : '*' ∉ type.toList)

include builtin starless

/-- A text that begins with a key settles to one that does not begin like the global root. -/
theorem head?_settled_of_key {key : String} {ts : List Token}
    (known : builtinVocabulary.contains key = true)
    (read : tokenize type.toList = .word key.toList :: ts)
    (alone : ts.head? ≠ some (.mark '<')) :
    (s.settled type).head? ≠ some 'g' ∧ (s.settled type).head? ≠ some 'P' := by
  have word : '*' ∉ key.toList := by
    intro star
    refine starless ?_
    rw [← textOf_tokenize type.toList, read]
    exact List.mem_append_left _ star
  have no_star : key ≠ "*" := by
    rintro rfl
    simp at word
  obtain ⟨value, found⟩ := Option.isSome_iff_exists.mp known
  rw [← get?_wordVocabulary no_star] at found
  obtain ⟨c, cs, text, not_g, not_p, not_mark⟩ := head?_value found
  rw [settled_starless builtin starless, read,
    pass_key alone (by rwa [String.ofList_toList]), textOf_append, textOf_tokenize, text]
  simp [not_g, not_p, not_mark]

/-- A name in which a key stands alone is not kept behind the root. -/
theorem translate_ne_of_stands {key : String}
    (stands : Stands builtinVocabulary (tokenize type.toList) key) :
    s.translate type ≠ "globalThis." ++ type := by
  intro kept
  have kept_text : (s.translate type).toList = "globalThis.".toList ++ type.toList := by
    rw [kept, String.toList_append]
  rcases toList_translate s type with text | text | ⟨named, ⟨-, text⟩ | text⟩
  · simp [unknownType, text] at kept_text
  · simp [text] at kept_text
  · rw [text, List.append_cancel_left_eq] at kept_text
    have bare := (translated_settled builtin named).bare key
    rw [kept_text] at bare
    exact bare stands
  · have bare := (translated_translate builtin type).bare key
    rw [kept_text] at bare
    obtain ⟨ts, read, alone⟩ := exists_key_of_rooted stands bare
    obtain ⟨not_g, not_p⟩ := head?_settled_of_key builtin starless stands.known read alone
    rw [text] at kept_text
    have head : (rewriteBuiltins (s.settled type)).head? = some 'g' := by rw [kept_text]; rfl
    rcases head?_rewriteBuiltins head with head | head
    · exact not_g head
    · exact not_p head

/-- A text without question marks whose words are no keys settles as it stands. -/
theorem settled_of_unknown (unmarked : '?' ∉ type.toList)
    (unknown : ∀ w, .word w ∈ tokenize type.toList →
      builtinVocabulary.contains (String.ofList w) = false) :
    s.settled type = type.toList := by
  have kept : pass wordVocabulary (tokenize type.toList) = tokenize type.toList := by
    refine pass_eq_self (maximal_tokenize _) fun w member => ?_
    have no_star : '*' ∉ w := by
      intro star
      rw [← textOf_tokenize type.toList] at starless
      exact starless (List.mem_flatMap.mpr ⟨_, member, star⟩)
    rw [get?_wordVocabulary (ofList_ne_star no_star)]
    simpa [Table.contains] using unknown w member
  have settled := settled_unmarked builtin starless (by rwa [kept, textOf_tokenize])
  rwa [kept, textOf_tokenize] at settled

end Scope

end TypeText

open TypeText

namespace Index

/-- The name of a declared class that has a dot, and none of the characters `<`, `?` and `*`, is
kept behind the global root just when none of its words is a key. Names of letters, digits,
`_`, `$` and dots are of this kind. -/
theorem translate_className_eq_iff {i : Index} {name : String} (known : i.knows name = true)
    (dotted : '.' ∈ name.toList) (plain : ∀ c ∈ "<?*".toList, c ∉ name.toList) :
    i.translate name = "globalThis." ++ name ↔
      ∀ w, .word w ∈ tokenize name.toList →
        builtinVocabulary.contains (String.ofList w) = false := by
  have starless : '*' ∉ name.toList := plain '*' (by decide)
  constructor
  · intro kept w member
    by_contra key
    obtain ⟨front, rest, split⟩ := List.append_of_mem member
    have alone : rest.head? ≠ some (.mark '<') := by
      intro next
      obtain ⟨back, rfl⟩ := List.head?_eq_some_iff.mp next
      refine plain '<' (by decide) ?_
      rw [← textOf_tokenize name.toList, split]
      simp
    have stands : Stands builtinVocabulary (tokenize name.toList) (String.ofList w) :=
      ⟨front, rest, by rwa [String.toList_ofList], alone, by simpa using key⟩
    exact Scope.translate_ne_of_stands (s := i.scope builtinVocabulary) rfl starless stands kept
  · intro unknown
    have nonempty : name.toList ≠ [] := List.ne_nil_of_mem dotted
    have no_text : ∀ text : String, '.' ∉ text.toList → name ≠ text := by
      rintro text undotted rfl
      exact undotted dotted
    have settled : (i.scope builtinVocabulary).settled name = name.toList :=
      Scope.settled_of_unknown rfl starless (plain '?' (by decide)) unknown
    have declared : (i.scope builtinVocabulary).isGlobalClass name.toList = true := by
      simp [Scope.isGlobalClass, Scope.declaresDotted, scope, dotted, known]
    rw [translate, Scope.translate_of_settled (no_text _ (by decide)) (no_text _ (by decide))
      (no_text _ (by decide)) settled nonempty, if_pos declared, String.ofList_toList]

/-- An index of classes whose names hold characters that are in no word. -/
def brokenNames : Index :=
  ⟨.empty, ["qx.ui_Map", "qx.Map$_Map.var"],
    .ofList [("qx.ui_Map", .blank), ("qx.Map$_Map.var", .blank)]⟩

/-- A name with two words that hold keys and are none. -/
theorem translate_className_brokenNames :
    (brokenNames.knows "qx.Map$_Map.var" = true ∧ '.' ∈ "qx.Map$_Map.var".toList ∧
        ∀ c ∈ "<?*".toList, c ∉ "qx.Map$_Map.var".toList) ∧
      brokenNames.translate "qx.Map$_Map.var" = "globalThis.qx.Map$_Map.var" := by
  have known : brokenNames.knows "qx.Map$_Map.var" = true := by decide
  have dotted : '.' ∈ "qx.Map$_Map.var".toList := by decide
  have plain : ∀ c ∈ "<?*".toList, c ∉ "qx.Map$_Map.var".toList := by simp
  have unknown : ∀ w, .word w ∈ tokenize "qx.Map$_Map.var".toList →
      builtinVocabulary.contains (String.ofList w) = false := by
    have read : tokenize "qx.Map$_Map.var".toList =
        [.word "qx.Map".toList, .mark '$', .mark '_', .word "Map.var".toList] := rfl
    simp only [read, List.mem_cons, List.not_mem_nil, or_false, Token.word.injEq, reduceCtorEq,
      false_or]
    rintro w (rfl | rfl) <;> decide +kernel
  exact ⟨⟨known, dotted, plain⟩, (translate_className_eq_iff known dotted plain).mpr unknown⟩

/-- The last word of a class name is taken for a key. -/
theorem translate_className_replaced :
    brokenNames.knows "qx.ui_Map" = true ∧ '.' ∈ "qx.ui_Map".toList ∧
      (∀ c ∈ "qx.ui_Map".toList, c.isAlphanum = true ∨ c = '_' ∨ c = '$' ∨ c = '.') ∧
      builtinVocabulary.contains "qx.ui_Map" = false ∧
      brokenNames.translate "qx.ui_Map" = "qx.ui_Record<string, any>" := by
  have settled : (brokenNames.scope builtinVocabulary).settled "qx.ui_Map" =
      "qx.ui_Record<string, any>".toList := by decide +kernel
  have kept : rewriteBuiltins "qx.ui_Record<string, any>".toList =
      "qx.ui_Record<string, any>".toList := by
    rw [rewriteBuiltins, rewriteTokens_of_plain (by decide), textOf_tokenize]
  refine ⟨by decide, by decide, by simp, by decide +kernel, ?_⟩
  rw [translate, Scope.translate_of_settled (by decide) (by decide) (by decide) settled (by decide),
    if_neg (by decide +kernel), kept, String.ofList_toList]

end Index

end Ambient
