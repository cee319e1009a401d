/-
  Maximal runs: what the tokens of a text are. Words are runs of word characters, each as long
  as it can be, and every other character is a mark of its own. Main statements:
  `maximal_tokenize` (the tokens of a text are of this kind), `tokenize_textOf` (tokens of this
  kind are read back from their text), and `tokenize_append` (where a text may be cut).
-/
import Ambient.TypeText.Token
import Mathlib.Data.List.Chain

namespace Ambient.TypeText

namespace Token

/-- A word has word characters only and at least one, a mark is any other character. -/
def WellFormed : Token → Prop
  | .word w => w ≠ [] ∧ ∀ c ∈ w, isWordChar c = true
  | .mark c => isWordChar c = false

instance : DecidablePred WellFormed
  | .word w => decidable_of_iff (w ≠ [] ∧ w.all isWordChar = true) (by simp [WellFormed])
  | .mark c => inferInstanceAs (Decidable (isWordChar c = false))

theorem WellFormed.text_ne_nil {t : Token} (h : t.WellFormed) : t.text ≠ [] := by
  cases t with
  | word w => exact h.1
  | mark c => exact List.cons_ne_nil c []

/-- Of two neighbours one is a mark. -/
def Apart (t u : Token) : Prop := t.isMark = true ∨ u.isMark = true

@[simp] theorem text_word (w : List Char) : (word w).text = w := rfl

@[simp] theorem text_mark (c : Char) : (mark c).text = [c] := rfl

@[simp] theorem isMark_word (w : List Char) : (word w).isMark = false := rfl

@[simp] theorem isMark_mark (c : Char) : (mark c).isMark = true := rfl

end Token

/-- Tokens whose words are as long as they can be. -/
structure Maximal (ts : List Token) : Prop where
  wellFormed : ∀ t ∈ ts, t.WellFormed
  apart : ts.IsChain Token.Apart

namespace Maximal

theorem nil : Maximal [] := ⟨by simp, .nil⟩

theorem append_iff {ts us : List Token} :
    Maximal (ts ++ us) ↔ Maximal ts ∧ Maximal us ∧
      (ts.getLast?.all Token.isMark = true ∨ us.head?.all Token.isMark = true) := by
  have boundary : (∀ t ∈ ts.getLast?, ∀ u ∈ us.head?, t.Apart u) ↔
      (ts.getLast?.all Token.isMark = true ∨ us.head?.all Token.isMark = true) := by
    cases ts.getLast? <;> cases us.head? <;> simp [Token.Apart]
  constructor
  · rintro ⟨wellFormed, apart⟩
    obtain ⟨front, back, between⟩ := List.isChain_append.mp apart
    exact ⟨⟨fun t ht => wellFormed t (List.mem_append_left _ ht), front⟩,
      ⟨fun t ht => wellFormed t (List.mem_append_right _ ht), back⟩, boundary.mp between⟩
  · rintro ⟨front, back, between⟩
    refine ⟨fun t ht => ?_, List.isChain_append.mpr ⟨front.apart, back.apart, boundary.mpr between⟩⟩
    exact (List.mem_append.mp ht).elim (front.wellFormed t) (back.wellFormed t)

theorem singleton {t : Token} (h : t.WellFormed) : Maximal [t] := ⟨by simpa using h, .singleton t⟩

theorem cons_iff {t : Token} {ts : List Token} :
    Maximal (t :: ts) ↔ t.WellFormed ∧ Maximal ts ∧
      (t.isMark = true ∨ ts.head?.all Token.isMark = true) := by
  rw [← List.singleton_append, append_iff]
  constructor
  · rintro ⟨first, rest, between⟩
    exact ⟨first.wellFormed t (List.mem_singleton_self t), rest, by simpa using between⟩
  · rintro ⟨first, rest, between⟩
    exact ⟨singleton first, rest, by simpa using between⟩

theorem mark_cons_iff {c : Char} {ts : List Token} :
    Maximal (.mark c :: ts) ↔ isWordChar c = false ∧ Maximal ts := by
  simp [cons_iff, Token.WellFormed]

theorem word_cons_iff {w : List Char} {ts : List Token} :
    Maximal (.word w :: ts) ↔ (Token.word w).WellFormed ∧ Maximal ts ∧
      ts.head?.all Token.isMark = true := by
  simp [cons_iff]

theorem tail {t : Token} {ts : List Token} (h : Maximal (t :: ts)) : Maximal ts :=
  (cons_iff.mp h).2.1

end Maximal

/-! ## Reading a text -/

@[simp] theorem tokenize_nil : tokenize [] = [] := rfl

theorem consChar_mark {c : Char} (h : isWordChar c = false) (ts : List Token) :
    consChar c ts = .mark c :: ts := by
  unfold consChar
  rw [if_neg (by simp [h])]

theorem tokenize_mark_cons {c : Char} (h : isWordChar c = false) (cs : List Char) :
    tokenize (c :: cs) = .mark c :: tokenize cs := consChar_mark h _

theorem consChar_word {c : Char} (h : isWordChar c = true) (w : List Char) (ts : List Token) :
    consChar c (.word w :: ts) = .word (c :: w) :: ts := by
  unfold consChar
  rw [if_pos h]

theorem exists_eq_word_cons {ts : List Token} (h : ts.head?.all Token.isMark = false) :
    ∃ w rest, ts = .word w :: rest := by
  cases ts with
  | nil => simp at h
  | cons t rest =>
    cases t with
    | word w => exact ⟨w, rest, rfl⟩
    | mark c => simp at h

/-- A word character in front of a mark is a word of its own. -/
theorem consChar_of_head {c : Char} (h : isWordChar c = true) {ts : List Token}
    (apart : ts.head?.all Token.isMark = true) : consChar c ts = .word [c] :: ts := by
  unfold consChar
  rw [if_pos h]
  split
  · simp at apart
  · rfl

/-- A run of word characters in front of a mark is one word. -/
theorem foldr_consChar_word {w : List Char} (h : (Token.word w).WellFormed) {ts : List Token}
    (apart : ts.head?.all Token.isMark = true) : w.foldr consChar ts = .word w :: ts := by
  obtain ⟨nonempty, chars⟩ := h
  induction w with
  | nil => exact absurd rfl nonempty
  | cons c w ih =>
    have hc : isWordChar c = true := chars c List.mem_cons_self
    rw [List.foldr_cons]
    cases w with
    | nil => exact consChar_of_head hc apart
    | cons d w =>
      rw [ih (by simp) fun x hx => chars x (List.mem_cons_of_mem _ hx), consChar_word hc]

/-- Reading a character keeps words as long as they can be. -/
theorem maximal_consChar (c : Char) {ts : List Token} (h : Maximal ts) :
    Maximal (consChar c ts) := by
  cases hc : isWordChar c with
  | false =>
    rw [consChar_mark hc]
    exact Maximal.mark_cons_iff.mpr ⟨hc, h⟩
  | true =>
    cases apart : ts.head?.all Token.isMark with
    | true =>
      rw [consChar_of_head hc apart]
      exact Maximal.word_cons_iff.mpr ⟨⟨by simp, by simpa using hc⟩, h, apart⟩
    | false =>
      obtain ⟨w, rest, rfl⟩ := exists_eq_word_cons apart
      obtain ⟨⟨_, chars⟩, tail, apart⟩ := Maximal.word_cons_iff.mp h
      rw [consChar_word hc]
      exact Maximal.word_cons_iff.mpr ⟨⟨by simp, by simpa using ⟨hc, chars⟩⟩, tail, apart⟩

/-- The words of a text are as long as they can be. -/
theorem maximal_tokenize (cs : List Char) : Maximal (tokenize cs) := by
  induction cs with
  | nil => exact .nil
  | cons c cs ih => exact maximal_consChar c ih

/-- Tokens whose words are as long as they can be are read back from their text. -/
theorem tokenize_textOf {ts : List Token} (h : Maximal ts) : tokenize (textOf ts) = ts := by
  induction ts with
  | nil => rfl
  | cons t ts ih =>
    have read : tokenize (textOf (t :: ts)) = t.text.foldr consChar ts := by
      rw [textOf_cons, tokenize, List.foldr_append]
      exact congrArg (fun us => t.text.foldr consChar us) (ih h.tail)
    rw [read]
    cases t with
    | word w =>
      obtain ⟨wellFormed, _, apart⟩ := Maximal.word_cons_iff.mp h
      exact foldr_consChar_word wellFormed apart
    | mark c => exact consChar_mark (Maximal.mark_cons_iff.mp h).1 ts

/-! ## Cutting a text -/

/-- A text may be cut where no word is cut. -/
theorem tokenize_append {cs ds : List Char}
    (apart : (tokenize cs).getLast?.all Token.isMark = true ∨
      (tokenize ds).head?.all Token.isMark = true) :
    tokenize (cs ++ ds) = tokenize cs ++ tokenize ds := by
  have whole : Maximal (tokenize cs ++ tokenize ds) :=
    Maximal.append_iff.mpr ⟨maximal_tokenize cs, maximal_tokenize ds, apart⟩
  have text : textOf (tokenize cs ++ tokenize ds) = cs ++ ds := by
    rw [textOf_append, textOf_tokenize, textOf_tokenize]
  rw [← text, tokenize_textOf whole]

/-- A text may be cut at a mark. -/
theorem tokenize_append_mark {c : Char} (h : isWordChar c = false) (cs ds : List Char) :
    tokenize (cs ++ c :: ds) = tokenize cs ++ .mark c :: tokenize ds := by
  have read := tokenize_mark_cons h ds
  rw [tokenize_append (.inr (by rw [read]; rfl)), read]

/-- A run of word characters in front of a mark is one word of the text. -/
theorem tokenize_word_append {w ds : List Char} (h : (Token.word w).WellFormed)
    (apart : (tokenize ds).head?.all Token.isMark = true) :
    tokenize (w ++ ds) = .word w :: tokenize ds := by
  rw [tokenize, List.foldr_append]
  exact foldr_consChar_word h apart

/-- A run of word characters in front of a word grows that word. -/
theorem foldr_consChar_word_cons {w : List Char} (h : ∀ c ∈ w, isWordChar c = true)
    (w' : List Char) (ts : List Token) :
    w.foldr consChar (.word w' :: ts) = .word (w ++ w') :: ts := by
  induction w with
  | nil => rfl
  | cons c w ih =>
    rw [List.foldr_cons, ih fun x hx => h x (List.mem_cons_of_mem _ hx),
      consChar_word (h c List.mem_cons_self), List.cons_append]

/-- A run of word characters begins the first word of the text, which may go on. -/
theorem exists_tokenize_word_append {w : List Char} (h : (Token.word w).WellFormed)
    (ds : List Char) :
    ∃ w' rest, tokenize (w ++ ds) = .word (w ++ w') :: rest ∧
      (tokenize ds = rest ∨ tokenize ds = .word w' :: rest) := by
  cases apart : (tokenize ds).head?.all Token.isMark with
  | true => exact ⟨[], tokenize ds, by simpa using tokenize_word_append h apart, .inl rfl⟩
  | false =>
    obtain ⟨w', rest, next⟩ := exists_eq_word_cons apart
    refine ⟨w', rest, ?_, .inr next⟩
    rw [tokenize, List.foldr_append]
    exact (congrArg (fun us => w.foldr consChar us) next).trans (foldr_consChar_word_cons h.2 _ _)

end Ambient.TypeText
