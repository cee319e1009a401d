/-
  Texts without stars: one pass of the built-in vocabulary is all that happens to them. Among
  the keys only the star is no word, so on these texts the vocabulary is one of words, and a
  pass goes token by token, whatever stands in front. Main statement: `settle_starless`.
-/
import Ambient.Proofs.BuiltinWords
import Ambient.TypeText.Translate
import Mathlib.Data.List.TakeWhile

namespace Ambient.TypeText

/-- The words among the keys of the built-in vocabulary. -/
def wordVocabulary : Vocabulary := .ofList (Settings.builtinWords.filter (·.1 ≠ "*"))

theorem entries_wordVocabulary :
    wordVocabulary.entries = Settings.builtinWords.filter (·.1 ≠ "*") := by decide +kernel

/-- The star is the only other key. -/
theorem get?_wordVocabulary {key : String} (h : key ≠ "*") :
    wordVocabulary.get? key = builtinVocabulary.get? key := by
  ext value
  rw [Table.get?_eq_some_iff, Table.get?_eq_some_iff, entries_wordVocabulary,
    entries_builtinVocabulary]
  simp [h]

theorem mem_builtinWords_of_get? {key value : String}
    (found : wordVocabulary.get? key = some value) : (key, value) ∈ Settings.builtinWords := by
  rw [Table.get?_eq_some_iff, entries_wordVocabulary] at found
  exact List.mem_of_mem_filter found

theorem wordVocabulary_words (key : String) (known : wordVocabulary.contains key = true) :
    ∀ c ∈ key.toList, isWordChar c = true := by
  have words : ∀ e ∈ Settings.builtinWords.filter (·.1 ≠ "*"),
      e.1.toList.all isWordChar = true := by decide +kernel
  obtain ⟨value, found⟩ := Option.isSome_iff_exists.mp known
  rw [Table.get?_eq_some_iff, entries_wordVocabulary] at found
  exact List.all_eq_true.mp (words _ found)

/-! ## The tokens after a pass -/

/-- A pass keeps a text whose words are no keys. -/
theorem pass_eq_self {ts : List Token} (h : Maximal ts)
    (unknown : ∀ w, .word w ∈ ts → wordVocabulary.get? (String.ofList w) = none) :
    pass wordVocabulary ts = ts := by
  induction ts with
  | nil => rfl
  | cons t ts ih =>
    have rest := ih h.tail fun w member => unknown w (List.mem_cons_of_mem _ member)
    cases t with
    | mark c => rw [pass_mark wordVocabulary_words (Maximal.mark_cons_iff.mp h).1, rest]
    | word w => rw [pass_kept (.inr (unknown w List.mem_cons_self)), rest]

/-- A pass goes over parts of a text by themselves, if the second one is no argument of the
first. -/
theorem pass_append {ts us : List Token} (h : Maximal ts) (apart : us.head? ≠ some (.mark '<')) :
    pass wordVocabulary (ts ++ us) = pass wordVocabulary ts ++ pass wordVocabulary us := by
  induction ts with
  | nil => rfl
  | cons t ts ih =>
    have next : (ts ++ us).head? = some (.mark '<') ↔ ts.head? = some (.mark '<') := by
      cases ts with
      | nil => simpa using apart
      | cons u ts => rfl
    rw [List.cons_append]
    cases t with
    | mark c =>
      have hc := (Maximal.mark_cons_iff.mp h).1
      rw [pass_mark wordVocabulary_words hc, pass_mark wordVocabulary_words hc, ih h.tail,
        List.cons_append]
    | word w =>
      rcases kept_or_key wordVocabulary w ts with other | ⟨value, alone, found⟩
      · rw [pass_kept (other.imp_left next.mpr), pass_kept other, ih h.tail, List.cons_append]
      · rw [pass_key (fun generic => alone (next.mp generic)) found, pass_key alone found,
          ih h.tail, List.append_assoc]

theorem pass_append_mark {ts us : List Token} (h : Maximal ts) {c : Char}
    (hc : isWordChar c = false) (other : c ≠ '<') :
    pass wordVocabulary (ts ++ .mark c :: us) =
      pass wordVocabulary ts ++ .mark c :: pass wordVocabulary us := by
  rw [pass_append h (by simp [other]), pass_mark wordVocabulary_words hc]

/-- A character that is in no value comes from the text. -/
theorem mem_textOf_of_pass {c : Char} (absent : ∀ e ∈ Settings.builtinWords, c ∉ e.2.toList)
    {ts : List Token} (h : Maximal ts) (member : c ∈ textOf (pass wordVocabulary ts)) :
    c ∈ textOf ts := by
  induction ts with
  | nil => exact member
  | cons t ts ih =>
    rw [textOf_cons, List.mem_append]
    cases t with
    | mark d =>
      rw [pass_mark wordVocabulary_words (Maximal.mark_cons_iff.mp h).1, textOf_cons,
        List.mem_append] at member
      exact member.imp_right (ih h.tail)
    | word w =>
      rcases kept_or_key wordVocabulary w ts with other | ⟨value, alone, found⟩
      · rw [pass_kept other, textOf_cons, List.mem_append] at member
        exact member.imp_right (ih h.tail)
      · rw [pass_key alone found, textOf_append, textOf_tokenize, List.mem_append] at member
        exact .inr (ih h.tail (member.resolve_left (absent _ (mem_builtinWords_of_get? found))))

/-- A pass keeps the marks. -/
theorem mark_mem_pass {c : Char} {ts : List Token} (h : Maximal ts) (member : .mark c ∈ ts) :
    .mark c ∈ pass wordVocabulary ts := by
  induction ts with
  | nil => exact member
  | cons t ts ih =>
    cases t with
    | mark d =>
      rw [pass_mark wordVocabulary_words (Maximal.mark_cons_iff.mp h).1]
      rcases List.mem_cons.mp member with same | later
      · rw [same]
        exact List.mem_cons_self
      · exact List.mem_cons_of_mem _ (ih h.tail later)
    | word w =>
      have later := ih h.tail (List.mem_of_ne_of_mem (by simp) member)
      rcases kept_or_key wordVocabulary w ts with other | ⟨value, alone, found⟩
      · rw [pass_kept other]
        exact List.mem_cons_of_mem _ later
      · rw [pass_key alone found]
        exact List.mem_append_right _ later

/-! ## One pass -/

theorem ofList_ne_star {cs : List Char} (h : '*' ∉ cs) : String.ofList cs ≠ "*" := by
  intro star
  have text := congrArg String.toList star
  rw [String.toList_ofList] at text
  simp [text] at h

theorem replacement?_starless {before after : Option Token} {t : Token} (h : '*' ∉ t.text) :
    replacement? builtinVocabulary before t after = replacement? wordVocabulary before t after := by
  rw [replacement?, replacement?, get?_wordVocabulary (ofList_ne_star h)]

theorem substitute_starless {before : Option Token} {ts : List Token} (h : '*' ∉ textOf ts) :
    substitute builtinVocabulary before ts = substitute wordVocabulary before ts := by
  induction ts generalizing before with
  | nil => rfl
  | cons t ts ih =>
    rw [textOf_cons, List.mem_append, not_or] at h
    rw [substitute, substitute, replacement?_starless h.1, ih h.2]

/-- A pass over a text without stars writes the tokens that take the places of its own. -/
theorem substitute_tokenize_starless {cs : List Char} (h : '*' ∉ cs) :
    substitute builtinVocabulary none (tokenize cs) = textOf (pass wordVocabulary (tokenize cs)) := by
  rw [substitute_starless (by rwa [textOf_tokenize]),
    substitute_eq_textOf_pass wordVocabulary_words (maximal_tokenize cs)]

/-- A text without stars settles in one pass. -/
theorem settle_starless {cs : List Char} (h : '*' ∉ cs) :
    settle builtinVocabulary passLimit cs = textOf (pass wordVocabulary (tokenize cs)) := by
  have passed := substitute_tokenize_starless h
  -- what is left to replace after a pass is a star, and a pass adds none
  have settled : hasReplacement builtinVocabulary none
      (tokenize (substitute builtinVocabulary none (tokenize cs))) = false := by
    by_contra some_replacement
    have bare := (@cleared_substitute none _ (maximal_tokenize cs) (.inl rfl)).bare
    have fewer := @count_star_substitute_lt none _ (maximal_tokenize _) bare
      (by simpa using some_replacement)
    have no_more := count_star_substitute_le none (tokenize cs)
    rw [textOf_tokenize, List.count_eq_zero.mpr h] at no_more
    rw [textOf_tokenize] at fewer
    omega
  rw [passLimit, settle]
  split
  · rw [settle, settled, ← passed]
    rfl
  · next nothing =>
    have kept := substitute_of_not_hasReplacement builtinVocabulary (by simpa using nothing)
    rw [textOf_tokenize] at kept
    rw [← passed, kept]

/-- The first question mark ends what is settled. -/
theorem Scope.settled_starless {s : Scope} (builtin : s.vocabulary = builtinVocabulary)
    {type : String} (starless : '*' ∉ type.toList) :
    s.settled type =
      (textOf (pass wordVocabulary (tokenize type.toList))).takeWhile (· != '?') := by
  rw [settled, builtin, settle_starless starless]

/-- Without a question mark all of it is. -/
theorem Scope.settled_unmarked {s : Scope} (builtin : s.vocabulary = builtinVocabulary)
    {type : String} (starless : '*' ∉ type.toList)
    (unmarked : '?' ∉ textOf (pass wordVocabulary (tokenize type.toList))) :
    s.settled type = textOf (pass wordVocabulary (tokenize type.toList)) := by
  rw [settled_starless builtin starless, List.takeWhile_eq_self_iff]
  intro c hc
  have other : c ≠ '?' := fun mark => unmarked (mark ▸ hc)
  simpa using other

end Ambient.TypeText
