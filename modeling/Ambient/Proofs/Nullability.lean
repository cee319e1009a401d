/-
  Nullability: a question mark ends a type, and nothing behind it shows in the translation. The
  passes of the vocabulary go over what stands behind as well, and they go on while there is
  something to replace in it. But a mark that is no key is never replaced and makes no generic
  type of what stands before it, so a pass goes over both sides of it by themselves, and a pass
  that finds nothing on one side leaves that side as it is. Main statements:
  `exists_settle_append_mark` (what stands before such a mark settles by itself, whatever the
  vocabulary, whether or not it settles at all) and `Index.translate_append_questionMark`.
-/
import Ambient.Proofs.MaximalRuns
import Ambient.Declaration.Signature
import Mathlib.Data.List.TakeWhile

namespace Ambient

namespace TypeText

variable {v : Vocabulary}

/-- A pass with nothing to replace may as well be made. -/
theorem settle_succ (v : Vocabulary) (n : ℕ) (cs : List Char) :
    settle v (n + 1) cs = settle v n (substitute v none (tokenize cs)) := by
  rw [settle]
  split
  · rfl
  · next nothing =>
    have still : hasReplacement v none (tokenize cs) = false := by simpa using nothing
    have kept : substitute v none (tokenize cs) = cs := by
      rw [substitute_of_not_hasReplacement v still, textOf_tokenize]
    rw [kept]
    cases n with
    | zero => rw [settle]
    | succ n => rw [settle, if_neg nothing]

section Mark

variable {c : Char} (mark : isWordChar c = false) (apart : c ≠ '<')
  (unknown : v.get? (String.ofList [c]) = none)

include apart in
/-- A mark behind a token is to it as the end of the text. -/
theorem replacement?_before_mark (before : Option Token) (t : Token) :
    replacement? v before t (some (.mark c)) = replacement? v before t none := by
  have no_head : (some (Token.mark c) != some (.mark '<')) = true := by simpa using apart
  have alone : standsAlone before t (some (.mark c)) = standsAlone before t none := by
    rw [standsAlone, no_head]
    rfl
  rw [replacement?, replacement?, alone]

include apart in
theorem replacement?_head?_append_mark (before : Option Token) (t : Token) (ts us : List Token) :
    replacement? v before t (ts ++ .mark c :: us).head? = replacement? v before t ts.head? := by
  cases ts with
  | nil => exact replacement?_before_mark apart before t
  | cons u ts => rfl

include unknown in
theorem replacement?_of_unknown_mark (before after : Option Token) :
    replacement? v before (.mark c) after = none := by
  rw [replacement?, Token.text_mark, unknown, ite_self]

include apart unknown

/-- A pass goes over what stands before the mark as if nothing stood behind it. -/
theorem substitute_append_mark (before : Option Token) (ts us : List Token) :
    substitute v before (ts ++ .mark c :: us) =
      substitute v before ts ++ c :: substitute v (some (.mark c)) us := by
  induction ts generalizing before with
  | nil => exact substitute_of_none (replacement?_of_unknown_mark unknown before us.head?)
  | cons t ts ih =>
    rw [List.cons_append, substitute, substitute, replacement?_head?_append_mark apart, ih,
      List.append_assoc]

include mark

/-- What stands before the mark settles by itself. -/
theorem exists_settle_append_mark (n : ℕ) (cs ds : List Char) :
    ∃ rest, settle v n (cs ++ c :: ds) = settle v n cs ++ c :: rest := by
  induction n generalizing cs ds with
  | zero => exact ⟨ds, rfl⟩
  | succ n ih =>
    rw [settle_succ, settle_succ, tokenize_append_mark mark, substitute_append_mark apart unknown]
    exact ih _ _

end Mark

/-- The part of a settled text that is translated ends before the first question mark of the
text, if not earlier. -/
theorem Scope.settled_append_questionMark {s : Scope} (unmarked : s.vocabulary.contains "?" = false)
    (type suffix : String) : s.settled (type ++ "?" ++ suffix) = s.settled type := by
  have unknown : s.vocabulary.get? (String.ofList ['?']) = none := by
    simpa [Table.contains] using unmarked
  have text : (type ++ "?" ++ suffix).toList = type.toList ++ '?' :: suffix.toList := by simp
  obtain ⟨rest, settles⟩ := exists_settle_append_mark (c := '?') (by decide) (by decide) unknown
    passLimit type.toList suffix.toList
  rw [settled, settled, text, settles, List.takeWhile_append]
  split
  · next whole =>
    have all := (List.takeWhile_prefix (· != '?')).eq_of_length whole
    simp [all]
  · rfl

end TypeText

open TypeText

namespace Index

/-- A question mark behind a type, and all that follows it, has no effect on the translation,
unless the type is one of the two texts that are recognised as they stand or the question mark is
a key. The vocabulary may be one that never settles. -/
theorem translate_append_questionMark (i : Index) {v : Vocabulary}
    (unmarked : v.contains "?" = false) {type : String} (not_array : type ≠ "Array")
    (not_placeholder : type ≠ "[[ Function ]]") (suffix : String) :
    (i.scope v).translate (type ++ "?" ++ suffix) = (i.scope v).translate type := by
  have settled : (i.scope v).settled (type ++ "?" ++ suffix) = (i.scope v).settled type :=
    Scope.settled_append_questionMark unmarked type suffix
  have other : ∀ {text : String}, '?' ∉ text.toList → type ++ "?" ++ suffix ≠ text := by
    rintro text free rfl
    exact free (by simp)
  rw [Scope.translate_of_not_special (other (by decide)) (other (by decide)) (other (by decide)),
    settled]
  by_cases empty : type = ""
  · -- nothing stands before the mark, and nothing is left of the text
    have none_left : (i.scope v).settled "" = [] := by
      rw [Scope.settled, passLimit, settle]
      rfl
    rw [empty, none_left]
    rfl
  · rw [Scope.translate_of_not_special empty not_placeholder not_array]

/-- Words that lead to one another and grow with every pass, one of them with a question mark. -/
def growingWords : Vocabulary := .ofList [("Node", "Node|Edge"), ("Edge", "Node?Edge")]

/-- What stands behind the question mark would be replaced in each of the passes as well. -/
theorem translate_growingWords_questionMark :
    growingWords.contains "?" = false ∧ "Node" ≠ "Array" ∧ "Node" ≠ "[[ Function ]]" ∧
      (Index.scope ⟨.empty, [], .empty⟩ growingWords).translate ("Node" ++ "?" ++ "|Edge<Node") =
        (Index.scope ⟨.empty, [], .empty⟩ growingWords).translate "Node" := by
  have unmarked : growingWords.contains "?" = false := by decide
  exact ⟨unmarked, by decide, by decide,
    translate_append_questionMark _ unmarked (by decide) (by decide) "|Edge<Node"⟩

end Index

end Ambient
