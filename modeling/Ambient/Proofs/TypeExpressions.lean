/-
  Type expressions: unions, arrays and generic types one level deep, as trees and as texts. One
  pass of the built-in vocabulary settles them. Main statements: `Flat.arguments` (what arguments
  of generic types are like after a pass), `TypeExpr.sound` (whole expressions have closed
  brackets) and `TypeExpr.settled_text`.
-/
import Ambient.Proofs.Brackets
import Ambient.Proofs.SinglePass

namespace Ambient.TypeText

/-! ## Type expressions -/

/-- A word of a type expression. -/
structure Word where
  chars : List Char
  wellFormed : (Token.word chars).WellFormed

/-- Unions and arrays of leaves. -/
inductive Shape (α : Type)
  | leaf (a : α)
  | union (left right : Shape α)
  | array (item : Shape α)

namespace Shape

variable {α : Type}

/-- The tokens of an expression: `|` between the parts of a union, `[]` behind an item. -/
def tokens (leafTokens : α → List Token) : Shape α → List Token
  | leaf a => leafTokens a
  | union left right => left.tokens leafTokens ++ .mark '|' :: right.tokens leafTokens
  | array item => item.tokens leafTokens ++ [.mark '[', .mark ']']

/-- One of the leaves has a property. -/
def Has (p : α → Prop) : Shape α → Prop
  | leaf a => p a
  | union left right => left.Has p ∨ right.Has p
  | array item => item.Has p

end Shape

/-- The tokens of a word. -/
def Word.tokens (w : Word) : List Token := [.word w.chars]

/-- The tokens of arguments, a comma between neighbours. -/
def argumentTokens (first : Shape Word) (rest : List (Shape Word)) : List Token :=
  first.tokens Word.tokens ++ rest.flatMap fun a => .mark ',' :: a.tokens Word.tokens

/-- A leaf of a type expression: a word, or a generic type with one argument at least, none of
which holds a generic type. -/
inductive Atom
  | word (w : Word)
  | generic (head : Word) (first : Shape Word) (rest : List (Shape Word))

namespace Atom

/-- The tokens of a leaf. -/
def tokens : Atom → List Token
  | word w => w.tokens
  | generic head first rest =>
    .word head.chars :: .mark '<' :: (argumentTokens first rest ++ [.mark '>'])

end Atom

/-- A type expression with generic types one level deep. -/
abbrev TypeExpr := Shape Atom

/-- The text of a type expression. -/
def TypeExpr.text (e : TypeExpr) : String := String.ofList (textOf (e.tokens Atom.tokens))

/-! ## Expressions after a pass -/

theorem tokenize_map : tokenize "Record<string, any>".toList =
    [.word "Record".toList, .mark '<', .word "string".toList, .mark ',', .mark ' ',
      .word "any".toList, .mark '>'] := rfl

/-- A word is kept or gives way to another one, unless it is `Map`. -/
theorem pass_word (w : Word) :
    (w.chars = "Map".toList ∧
        pass wordVocabulary w.tokens = tokenize "Record<string, any>".toList) ∨
      (w.chars ≠ "Map".toList ∧ ∃ x : Word, pass wordVocabulary w.tokens = x.tokens) := by
  have values : ∀ e ∈ Settings.builtinWords, e = ("Map", "Record<string, any>") ∨
      e.1.toList ≠ "Map".toList ∧ tokenize e.2.toList = [.word e.2.toList] := by decide +kernel
  have maximal := maximal_pass wordVocabulary_words (Maximal.singleton w.wellFormed)
  rw [Word.tokens]
  rcases kept_or_key wordVocabulary w.chars [] with other | ⟨value, alone, found⟩
  · refine .inr ⟨?_, w, pass_kept other⟩
    intro map
    have known : wordVocabulary.get? "Map" = some "Record<string, any>" := by decide +kernel
    rcases other with generic | unknown
    · simp at generic
    · rw [map, String.ofList_toList, known] at unknown
      simp at unknown
  · have passed := pass_key alone found
    rw [pass, List.append_nil] at passed
    rw [passed] at maximal ⊢
    rcases values _ (mem_builtinWords_of_get? found) with map | ⟨other, single⟩
    · obtain ⟨key, rfl⟩ := Prod.mk.inj map
      refine .inl ⟨?_, rfl⟩
      rw [← key, String.toList_ofList]
    · rw [single] at maximal ⊢
      refine .inr ⟨by rwa [String.toList_ofList] at other, ⟨value.toList, ?_⟩, rfl⟩
      exact maximal.wellFormed _ (List.mem_singleton_self _)

theorem Word.closed (w : Word) : Closed (textOf w.tokens) := by
  refine Closed.of_plain fun c member bracket => ?_
  have brackets : ∀ c ∈ "<([>)]".toList, isWordChar c = false := by simp [isWordChar]
  have char := w.wellFormed.2 c (by simpa [tokens] using member)
  simp [brackets c bracket] at char

theorem maximal_brackets : Maximal [.mark '[', .mark ']'] := ⟨by decide, by simp [Token.Apart]⟩

theorem pass_array {ts : List Token} (h : Maximal ts) :
    pass wordVocabulary (ts ++ [.mark '[', .mark ']']) =
      pass wordVocabulary ts ++ [.mark '[', .mark ']'] := by
  rw [pass_append h (by simp), pass_eq_self maximal_brackets (by simp)]

/-- What type expressions have in common: the marks, and brackets that are closed after a
pass. -/
structure Sound (ts : List Token) : Prop where
  maximal : Maximal ts
  marks : ∀ c, .mark c ∈ ts → c ∈ "|,[]<>".toList
  closed : Closed (textOf (pass wordVocabulary ts))

namespace Sound

variable {ts us : List Token}

theorem word (w : Word) : Sound w.tokens where
  maximal := Maximal.singleton w.wellFormed
  marks := by simp [Word.tokens]
  closed := by
    rcases pass_word w with ⟨-, map⟩ | ⟨-, x, other⟩
    · have head : Closed "Record".toList := .of_plain (by simp)
      have argument : Closed "string, any".toList := .of_plain (by simp)
      rw [map, textOf_tokenize]
      exact head.append (argument.enclosed (by decide))
    · rw [other]
      exact x.closed

theorem between (h : Sound ts) (h' : Sound us) {c : Char} (hc : c ∈ "|,".toList) :
    Sound (ts ++ .mark c :: us) := by
  have mark : isWordChar c = false ∧ c ∈ "|,[]<>".toList ∧ c ∉ "<([>)]".toList ∧ c ≠ '<' := by
    obtain rfl | rfl : c = '|' ∨ c = ',' := by simpa using hc
    all_goals decide
  obtain ⟨not_word, allowed, plain, other⟩ := mark
  refine ⟨?_, fun d member => ?_, ?_⟩
  · exact Maximal.append_iff.mpr
      ⟨h.maximal, Maximal.mark_cons_iff.mpr ⟨not_word, h'.maximal⟩, .inr rfl⟩
  · rcases List.mem_append.mp member with member | member
    · exact h.marks d member
    · rcases List.mem_cons.mp member with same | member
      · rwa [Token.mark.inj same]
      · exact h'.marks d member
  · rw [pass_append_mark h.maximal not_word other, textOf_append, textOf_cons]
    have single : Closed [c] := .of_plain (by simpa using plain)
    exact h.closed.append (single.append h'.closed)

theorem array (h : Sound ts) : Sound (ts ++ [.mark '[', .mark ']']) := by
  refine ⟨?_, fun d member => ?_, ?_⟩
  · exact Maximal.append_iff.mpr ⟨h.maximal, maximal_brackets, .inr rfl⟩
  · rcases List.mem_append.mp member with member | member
    · exact h.marks d member
    · simp only [List.mem_cons, Token.mark.injEq, List.not_mem_nil, or_false] at member
      rcases member with rfl | rfl <;> decide
  · have empty : Closed "[]".toList := Closed.nil.enclosed (by decide)
    rw [pass_array h.maximal, textOf_append]
    exact h.closed.append empty

/-- A generic type keeps its head, and its argument is taken for itself. -/
theorem pass_generic (h : Sound ts) (head : Word) :
    pass wordVocabulary (.word head.chars :: .mark '<' :: (ts ++ [.mark '>'])) =
      .word head.chars :: .mark '<' :: (pass wordVocabulary ts ++ [.mark '>']) := by
  rw [pass_kept (.inl rfl), pass_mark wordVocabulary_words (by decide),
    pass_append_mark h.maximal (by decide) (by decide)]
  rfl

theorem generic (h : Sound ts) (head : Word) :
    Sound (.word head.chars :: .mark '<' :: (ts ++ [.mark '>'])) := by
  refine ⟨?_, fun d member => ?_, ?_⟩
  · have closing : Maximal (ts ++ [.mark '>']) :=
      Maximal.append_iff.mpr ⟨h.maximal, Maximal.singleton (by decide), .inr rfl⟩
    exact Maximal.word_cons_iff.mpr
      ⟨head.wellFormed, Maximal.mark_cons_iff.mpr ⟨by decide, closing⟩, rfl⟩
  · simp only [List.mem_cons, reduceCtorEq, Token.mark.injEq, List.mem_append, List.not_mem_nil,
      or_false, false_or] at member
    rcases member with rfl | member | rfl
    · decide
    · exact h.marks d member
    · decide
  · rw [h.pass_generic head]
    have argument : Closed ('<' :: (textOf (pass wordVocabulary ts) ++ ['>'])) :=
      h.closed.enclosed (by decide)
    have head_closed : Closed head.chars := by simpa [Word.tokens] using head.closed
    simpa using head_closed.append argument

/-- A mark that is none of those in type expressions is in no text. -/
theorem not_mem_textOf (h : Sound ts) {c : Char} (hc : isWordChar c = false)
    (absent : c ∉ "|,[]<>".toList) : c ∉ textOf ts := by
  intro member
  obtain ⟨t, token, char⟩ := List.mem_flatMap.mp member
  cases t with
  | mark d =>
    rw [Token.text_mark, List.mem_singleton] at char
    exact absent (char ▸ h.marks d token)
  | word w =>
    have chars := (h.maximal.wellFormed _ token).2 c char
    simp [hc] at chars

end Sound

/-- Arguments of generic types: no array type in them after a pass, and a bracket only for
`Map`. -/
structure Flat (ts : List Token) : Prop extends Sound ts where
  free : ¬ HasGeneric "Array" (pass wordVocabulary ts)
  closing : .mark '>' ∈ pass wordVocabulary ts ↔ .word "Map".toList ∈ ts
  nonempty : pass wordVocabulary ts ≠ []

namespace Flat

variable {ts us : List Token}

theorem word (w : Word) : Flat w.tokens := by
  rcases pass_word w with ⟨map, value⟩ | ⟨not_map, x, other⟩
  · refine ⟨.word w, ?_, ?_, ?_⟩
    · rw [value, tokenize_map]
      simp [hasGeneric_cons_iff, not_hasGeneric_nil]
    · rw [value, tokenize_map, Word.tokens, map]
      simp
    · rw [value]
      decide
  · refine ⟨.word w, ?_, ?_, ?_⟩
    · rw [other, Word.tokens]
      simp [hasGeneric_cons_iff, not_hasGeneric_nil]
    · rw [other, Word.tokens, Word.tokens]
      simpa using fun map => not_map map.symm
    · rw [other, Word.tokens]
      simp

theorem between (h : Flat ts) (h' : Flat us) {c : Char} (hc : c ∈ "|,".toList) :
    Flat (ts ++ .mark c :: us) := by
  have mark : isWordChar c = false ∧ c ≠ '<' ∧ c ≠ '>' := by
    obtain rfl | rfl : c = '|' ∨ c = ',' := by simpa using hc
    all_goals decide
  obtain ⟨not_word, not_open, not_close⟩ := mark
  have passed := @pass_append_mark ts us h.maximal c not_word not_open
  refine ⟨h.toSound.between h'.toSound hc, ?_, ?_, ?_⟩
  · rw [passed]
    intro array
    rcases array.of_append (by simpa using not_open) with array | array
    · exact h.free array
    · rcases hasGeneric_cons_iff.mp array with ⟨first, -⟩ | array
      · simp at first
      · exact h'.free array
  · rw [passed]
    simp [h.closing, h'.closing, Ne.symm not_close]
  · rw [passed]
    simp

theorem array (h : Flat ts) : Flat (ts ++ [.mark '[', .mark ']']) := by
  have passed := pass_array h.maximal
  refine ⟨h.toSound.array, ?_, ?_, ?_⟩
  · rw [passed]
    intro array
    rcases array.of_append (by simp) with array | array
    · exact h.free array
    · simp [hasGeneric_cons_iff, not_hasGeneric_nil] at array
  · rw [passed]
    simp [h.closing]
  · rw [passed]
    simp

theorem shape (e : Shape Word) : Flat (e.tokens Word.tokens) := by
  induction e with
  | leaf w => exact .word w
  | union left right ihl ihr => exact ihl.between ihr (by decide)
  | array item ih => exact ih.array

theorem arguments (first : Shape Word) (rest : List (Shape Word)) :
    Flat (argumentTokens first rest) := by
  induction rest using List.reverseRecOn with
  | nil => simpa [argumentTokens] using Flat.shape first
  | append_singleton rest a ih =>
    have more : argumentTokens first (rest ++ [a]) =
        argumentTokens first rest ++ .mark ',' :: a.tokens Word.tokens := by
      simp [argumentTokens]
    rw [more]
    exact ih.between (.shape a) (by decide)

end Flat

theorem mem_tokens_iff {x : List Char} {e : Shape Word} :
    .word x ∈ e.tokens Word.tokens ↔ e.Has (·.chars = x) := by
  induction e with
  | leaf w => simp [Shape.tokens, Shape.Has, Word.tokens, eq_comm]
  | union left right ihl ihr => simp [Shape.tokens, Shape.Has, ihl, ihr]
  | array item ih => simp [Shape.tokens, Shape.Has, ih]

theorem mem_argumentTokens_iff {x : List Char} {first : Shape Word} {rest : List (Shape Word)} :
    .word x ∈ argumentTokens first rest ↔ ∃ a ∈ first :: rest, a.Has (·.chars = x) := by
  simp [argumentTokens, mem_tokens_iff]

theorem Atom.sound (a : Atom) : Sound a.tokens := by
  cases a with
  | word w => exact .word w
  | generic head first rest => exact (Flat.arguments first rest).toSound.generic head

namespace TypeExpr

theorem sound (e : TypeExpr) : Sound (e.tokens Atom.tokens) := by
  induction e with
  | leaf a => exact a.sound
  | union left right ihl ihr => exact ihl.between ihr (by decide)
  | array item ih => exact ih.array

theorem pass_union (left right : TypeExpr) :
    pass wordVocabulary ((Shape.union left right).tokens Atom.tokens) =
      pass wordVocabulary (left.tokens Atom.tokens) ++
        .mark '|' :: pass wordVocabulary (right.tokens Atom.tokens) :=
  pass_append_mark left.sound.maximal (by decide) (by decide)

@[simp] theorem toList_text (e : TypeExpr) : e.text.toList = textOf (e.tokens Atom.tokens) :=
  String.toList_ofList

/-- What an expression settles to is what one pass leaves. -/
theorem settled_text {s : Scope} (builtin : s.vocabulary = builtinVocabulary) (e : TypeExpr) :
    s.settled e.text = textOf (pass wordVocabulary (e.tokens Atom.tokens)) := by
  have starless : '*' ∉ e.text.toList := by
    rw [toList_text]
    exact e.sound.not_mem_textOf (by decide) (by decide)
  have absent : ∀ entry ∈ Settings.builtinWords, '?' ∉ entry.2.toList := by decide +kernel
  have unmarked : '?' ∉ textOf (pass wordVocabulary (e.tokens Atom.tokens)) := fun member =>
    e.sound.not_mem_textOf (by decide) (by decide) (mem_textOf_of_pass absent e.sound.maximal member)
  have read : tokenize e.text.toList = e.tokens Atom.tokens := by
    rw [toList_text, tokenize_textOf e.sound.maximal]
  rw [← read] at unmarked ⊢
  exact Scope.settled_unmarked builtin starless unmarked

/-- What an expression is rewritten to after it has settled. -/
theorem rewriteBuiltins_settled {s : Scope} (builtin : s.vocabulary = builtinVocabulary)
    (e : TypeExpr) :
    rewriteBuiltins (s.settled e.text) =
      rewriteTokens none (pass wordVocabulary (e.tokens Atom.tokens)) := by
  rw [settled_text builtin, rewriteBuiltins,
    tokenize_textOf (maximal_pass wordVocabulary_words e.sound.maximal)]

end TypeExpr

end Ambient.TypeText
