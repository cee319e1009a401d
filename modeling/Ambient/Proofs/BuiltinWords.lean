/-
  The built-in words: what passes of the built-in vocabulary leave behind. One pass leaves no
  key that stands alone as a word, since no value holds a key and what touches a value is a mark
  or begins like no key. The one key that is no word is the star. Its value may touch the value
  of a neighbouring star, and a star that a word touched may come to stand alone, so stars are
  counted instead: no pass adds one. Main statements: `not_stands_settle`,
  `count_star_settle_le` and `count_star_settle_lt`.
-/
import Ambient.Proofs.Expansion
import Ambient.Settings.Builtin

namespace Ambient.TypeText

/-- The built-in vocabulary. -/
abbrev builtinVocabulary : Vocabulary := Settings.builtin.vocabulary

/-! ## The table -/

theorem entries_builtinVocabulary : builtinVocabulary.entries = Settings.builtinWords := by
  decide +kernel

theorem star_of_get?_mark {c : Char} {value : String} (hc : isWordChar c = false)
    (found : builtinVocabulary.get? (String.ofList [c]) = some value) :
    c = '*' ∧ value = "unknown" := by
  have marks : ∀ e ∈ Settings.builtinWords,
      e.1.toList.head?.all isWordChar = true ∨ e = ("*", "unknown") := by decide +kernel
  rw [Table.get?_eq_some_iff, entries_builtinVocabulary] at found
  obtain ⟨key, rfl⟩ := Prod.mk.inj ((marks _ found).resolve_left (by simp [hc]))
  have chars := congrArg String.toList key
  rw [String.toList_ofList] at chars
  exact ⟨(List.cons.inj chars).1, rfl⟩

/-- No key begins like `unknown` or `globalThis`. -/
theorem get?_eq_none_of_head {w : List Char} (h : w.head? = some 'u' ∨ w.head? = some 'g') :
    builtinVocabulary.get? (String.ofList w) = none := by
  have heads : ∀ e ∈ Settings.builtinWords,
      ¬ (e.1.toList.head? = some 'u' ∨ e.1.toList.head? = some 'g') := by decide +kernel
  by_contra known
  obtain ⟨value, found⟩ := Option.ne_none_iff_exists'.mp known
  rw [Table.get?_eq_some_iff, entries_builtinVocabulary] at found
  exact heads _ found (by rwa [String.toList_ofList])

/-- No value holds a key that stands alone. -/
theorem not_stands_value {key value : String} (found : builtinVocabulary.get? key = some value)
    (inner : String) : ¬ Stands builtinVocabulary (tokenize value.toList) inner := by
  have apart : ∀ e ∈ Settings.builtinWords, ∀ e' ∈ Settings.builtinWords,
      .word e'.1.toList ∉ tokenize e.2.toList := by decide +kernel
  intro stands
  obtain ⟨value', found'⟩ := Option.isSome_iff_exists.mp stands.known
  rw [Table.get?_eq_some_iff, entries_builtinVocabulary] at found found'
  exact apart _ found _ found' stands.mem

/-- No value holds a star. -/
theorem star_not_mem_value {key value : String} (found : builtinVocabulary.get? key = some value) :
    '*' ∉ value.toList := by
  have starless : ∀ e ∈ Settings.builtinWords, '*' ∉ e.2.toList := by decide +kernel
  rw [Table.get?_eq_some_iff, entries_builtinVocabulary] at found
  exact starless _ found

theorem isLoose_iff {before after : Option Token} :
    isLoose before after = true ↔
      before.all Token.isMark = true ∧ after.all Token.isMark = true := by
  rw [isLoose, Bool.and_eq_true]

/-- A mark that is replaced is a star that no word touches. -/
theorem replacement?_mark_eq_some {before after : Option Token} {c : Char} {value : String}
    (hc : isWordChar c = false)
    (h : replacement? builtinVocabulary before (.mark c) after = some value) :
    c = '*' ∧ value = "unknown" ∧ isLoose before after = true := by
  unfold replacement? at h
  split at h
  · next alone =>
    obtain ⟨rfl, rfl⟩ := star_of_get?_mark hc h
    simp only [standsAlone, Token.isMark_mark, Bool.not_true, Bool.false_or,
      Bool.and_eq_true] at alone
    exact ⟨rfl, rfl, alone.2⟩
  · simp at h

/-! ## Keys that stand alone -/

/-- What is left of the tokens `ts` after `before`: no key that stands alone as a word, and
behind a word the token that stood there. -/
structure Cleared (before : Option Token) (ts us : List Token) : Prop where
  bare : ∀ key, ¬ Stands builtinVocabulary us key
  behind_word : before.all Token.isMark = false → us.head? = ts.head?

/-- A word that begins like no key, in front of a text. -/
theorem not_stands_word_append {w cs : List Char} (hw : (Token.word w).WellFormed)
    (h : w.head? = some 'u' ∨ w.head? = some 'g')
    (rest : ∀ key, ¬ Stands builtinVocabulary (tokenize cs) key) (key : String) :
    ¬ Stands builtinVocabulary (tokenize (w ++ cs)) key := by
  obtain ⟨w', us, read, next⟩ := exists_tokenize_word_append hw cs
  have later : ¬ Stands builtinVocabulary us key := by
    intro stands
    rcases next with same | same
    · exact rest key (same ▸ stands)
    · exact rest key (same ▸ stands_cons_iff.mpr (.inr stands))
  have unknown : builtinVocabulary.get? (String.ofList (w ++ w')) = none :=
    get?_eq_none_of_head (by rwa [List.head?_append_of_ne_nil w hw.1])
  rw [read]
  exact fun stands => later (stands.of_word_cons (.inr unknown))

namespace Cleared

variable {before : Option Token} {ts : List Token} {w cs : List Char}

theorem mark {c : Char} (hc : isWordChar c = false)
    (rest : Cleared (some (.mark c)) ts (tokenize cs)) :
    Cleared before (.mark c :: ts) (tokenize (c :: cs)) := by
  rw [tokenize_mark_cons hc]
  exact ⟨fun key stands => rest.bare key (stands_mark_cons_iff.mp stands), fun _ => rfl⟩

/-- A new word that begins like no key. -/
theorem fresh (loose : before.all Token.isMark = true) (hw : (Token.word w).WellFormed)
    (h : w.head? = some 'u' ∨ w.head? = some 'g')
    (rest : ∀ key, ¬ Stands builtinVocabulary (tokenize cs) key) :
    Cleared before ts (tokenize (w ++ cs)) :=
  ⟨not_stands_word_append hw h rest, by simp [loose]⟩

/-- What follows a word is as far from it as before. -/
theorem apart (h : Maximal (.word w :: ts))
    (rest : Cleared (some (.word w)) ts (tokenize cs)) :
    (tokenize cs).head?.all Token.isMark = true := by
  rw [rest.behind_word rfl]
  exact (Maximal.word_cons_iff.mp h).2.2

/-- A word that is kept. -/
theorem kept (h : Maximal (.word w :: ts)) (loose : before.all Token.isMark = true)
    (other : ts.head? = some (.mark '<') ∨ builtinVocabulary.get? (String.ofList w) = none)
    (rest : Cleared (some (.word w)) ts (tokenize cs)) :
    Cleared before (.word w :: ts) (tokenize (w ++ cs)) := by
  rw [tokenize_word_append (Maximal.word_cons_iff.mp h).1 (rest.apart h)]
  -- what is behind the word makes a generic type of it now if it did so before
  rw [← rest.behind_word rfl] at other
  exact ⟨fun key stands => rest.bare key (stands.of_word_cons other), by simp [loose]⟩

end Cleared

theorem cleared_substitute {before : Option Token} {ts : List Token} (h : Maximal ts)
    (apart : before.all Token.isMark = true ∨ ts.head?.all Token.isMark = true) :
    Cleared before ts (tokenize (substitute builtinVocabulary before ts)) := by
  induction ts generalizing before with
  | nil => exact ⟨fun _ => not_stands_nil, fun _ => rfl⟩
  | cons t ts ih =>
    cases t with
    | mark c =>
      have hc := (Maximal.mark_cons_iff.mp h).1
      have rest := @ih (some (.mark c)) h.tail (.inl rfl)
      cases replaced : replacement? builtinVocabulary before (.mark c) ts.head? with
      | none =>
        rw [substitute_of_none replaced]
        exact rest.mark hc
      | some value =>
        obtain ⟨rfl, rfl, loose⟩ := replacement?_mark_eq_some hc replaced
        rw [substitute_of_some replaced]
        exact .fresh (isLoose_iff.mp loose).1 (by decide) (.inl rfl) rest.bare
    | word w =>
      have next := (Maximal.word_cons_iff.mp h).2.2
      have rest := @ih (some (.word w)) h.tail (.inr next)
      have loose : before.all Token.isMark = true := apart.resolve_right (by simp)
      rcases kept_or_key builtinVocabulary w ts with other | ⟨value, alone, found⟩
      · rw [substitute_of_none (replacement?_kept other)]
        exact .kept h loose other rest
      · rw [substitute_of_some (replacement?_key alone found),
          tokenize_append (.inr (rest.apart h))]
        refine ⟨fun key stands => ?_, by simp [loose]⟩
        rcases stands.of_append with inner | stands
        · exact not_stands_value found key inner
        · exact rest.bare key stands

/-- A text that has settled holds no key that stands alone as a word. -/
theorem not_stands_settle (cs : List Char) (key : String) :
    ¬ Stands builtinVocabulary (tokenize (settle builtinVocabulary passLimit cs)) key := by
  -- one pass is enough, and the passes that follow lose nothing of it
  have settled : ∀ n cs, ¬ Stands builtinVocabulary
      (tokenize (settle builtinVocabulary (n + 1) cs)) key := by
    intro n
    induction n with
    | zero =>
      intro cs
      rw [settle]
      split
      · exact (cleared_substitute (maximal_tokenize cs) (.inl rfl)).bare key
      · next nothing => exact fun stands => nothing (stands.hasReplacement none)
    | succ n ih =>
      intro cs
      rw [settle]
      split
      · exact ih _
      · next nothing => exact fun stands => nothing (stands.hasReplacement none)
  exact settled 31 cs

/-! ## Stars -/

/-- No pass adds a star. -/
theorem count_star_substitute_le (before : Option Token) (ts : List Token) :
    (substitute builtinVocabulary before ts).count '*' ≤ (textOf ts).count '*' := by
  induction ts generalizing before with
  | nil => simp [substitute]
  | cons t ts ih =>
    have rest := ih (some t)
    rw [textOf_cons, List.count_append]
    cases replaced : replacement? builtinVocabulary before t ts.head? with
    | none =>
      rw [substitute_of_none replaced, List.count_append]
      omega
    | some value =>
      have starless := List.count_eq_zero.mpr (star_not_mem_value (get?_of_replacement? replaced))
      rw [substitute_of_some replaced, List.count_append]
      omega

/-- A pass that finds no word to replace replaces a star. -/
theorem count_star_substitute_lt {before : Option Token} {ts : List Token} (h : Maximal ts)
    (bare : ∀ key, ¬ Stands builtinVocabulary ts key)
    (some_replacement : hasReplacement builtinVocabulary before ts = true) :
    (substitute builtinVocabulary before ts).count '*' < (textOf ts).count '*' := by
  induction ts generalizing before with
  | nil => simp [hasReplacement] at some_replacement
  | cons t ts ih =>
    have bare_rest : ∀ key, ¬ Stands builtinVocabulary ts key :=
      fun key stands => bare key (stands_cons_iff.mpr (.inr stands))
    rw [hasReplacement, Bool.or_eq_true] at some_replacement
    rw [textOf_cons, List.count_append]
    cases replaced : replacement? builtinVocabulary before t ts.head? with
    | none =>
      have later := some_replacement.resolve_left (by simp [replaced])
      have rest := ih h.tail bare_rest later
      rw [substitute_of_none replaced, List.count_append]
      omega
    | some value =>
      have rest := count_star_substitute_le (some t) ts
      have found := get?_of_replacement? replaced
      have starless := List.count_eq_zero.mpr (star_not_mem_value found)
      rw [substitute_of_some replaced, List.count_append]
      cases t with
      | mark c =>
        obtain ⟨rfl, -⟩ := replacement?_mark_eq_some (Maximal.mark_cons_iff.mp h).1 replaced
        have one : (Token.mark '*').text.count '*' = 1 := rfl
        omega
      | word w =>
        rcases kept_or_key builtinVocabulary w ts with other | ⟨_, alone, found⟩
        · simp [replacement?_kept other] at replaced
        · exact absurd (stands_word_cons alone found) (bare _)

/-- A text does not settle to one with more stars. -/
theorem count_star_settle_le (n : Nat) (cs : List Char) :
    (settle builtinVocabulary n cs).count '*' ≤ cs.count '*' := by
  induction n generalizing cs with
  | zero => exact Nat.le_refl _
  | succ n ih =>
    rw [settle]
    split
    · have rest := ih (substitute builtinVocabulary none (tokenize cs))
      have first := count_star_substitute_le none (tokenize cs)
      rw [textOf_tokenize] at first
      omega
    · exact Nat.le_refl _

/-- A text without words to replace that has not settled does so with fewer stars. -/
theorem count_star_settle_lt {cs : List Char}
    (bare : ∀ key, ¬ Stands builtinVocabulary (tokenize cs) key)
    (some_replacement : hasReplacement builtinVocabulary none (tokenize cs) = true) :
    (settle builtinVocabulary passLimit cs).count '*' < cs.count '*' := by
  have first := count_star_substitute_lt (maximal_tokenize cs) bare some_replacement
  rw [textOf_tokenize] at first
  rw [passLimit, settle, if_pos some_replacement]
  exact Nat.lt_of_le_of_lt (count_star_settle_le 31 _) first

end Ambient.TypeText
