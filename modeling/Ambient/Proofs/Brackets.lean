/-
  Brackets: which are open after a text, read from the left with a stack. A text is well nested
  if every closing bracket closes the innermost open one and none is left open. Main statements:
  `openAfter_append` (a text is read in parts) and `exists_rewriteTokens_append` (but for array
  types the built-in rewritings keep brackets as they are).
-/
import Ambient.Proofs.LegacyWords

namespace Ambient.TypeText

/-! ## Reading brackets -/

/-- The bracket that a character closes. -/
def opener? (c : Char) : Option Char :=
  if c = '>' then some '<' else if c = ')' then some '(' else if c = ']' then some '[' else none

/-- The open brackets after one more character, innermost first. -/
def bracketStep (stack : List Char) (c : Char) : Option (List Char) :=
  if c ∈ "<([".toList then some (c :: stack)
  else
    match opener? c with
    | none => some stack
    | some opening => if stack.head? = some opening then some stack.tail else none

/-- The open brackets after a text, innermost first, if every closing bracket closes the
innermost one that is open. -/
def openAfter (stack cs : List Char) : Option (List Char) := cs.foldlM bracketStep stack

/-- Every bracket is closed, and by a bracket of its own kind. -/
def WellNested (cs : List Char) : Prop := openAfter [] cs = some []

instance : DecidablePred WellNested :=
  fun cs => inferInstanceAs (Decidable (openAfter [] cs = some []))

@[simp] theorem openAfter_nil (stack : List Char) : openAfter stack [] = some stack := rfl

/-- A text is read in parts. -/
theorem openAfter_append (stack xs ys : List Char) :
    openAfter stack (xs ++ ys) = (openAfter stack xs).bind fun stack => openAfter stack ys :=
  List.foldlM_append

theorem openAfter_cons (stack : List Char) (c : Char) (cs : List Char) :
    openAfter stack (c :: cs) = (bracketStep stack c).bind fun stack => openAfter stack cs := rfl

/-- An opening bracket is innermost. -/
theorem openAfter_opening {c : Char} (h : c ∈ "<([".toList) (stack cs : List Char) :
    openAfter stack (c :: cs) = openAfter (c :: stack) cs := by
  rw [openAfter_cons, bracketStep, if_pos h]
  rfl

/-! ## Parts of a text -/

/-- A part that leaves the open brackets as they are. -/
def Closed (cs : List Char) : Prop := ∀ stack, openAfter stack cs = some stack

/-- A part with a bracket that closes none of its kind, whatever is open before it. -/
def Broken (cs : List Char) : Prop := ∀ stack, openAfter stack cs = none

theorem Closed.nil : Closed [] := openAfter_nil

theorem Closed.openAfter_append {xs : List Char} (h : Closed xs) (stack ys : List Char) :
    openAfter stack (xs ++ ys) = openAfter stack ys := by
  rw [TypeText.openAfter_append, h stack]
  rfl

theorem Closed.append {xs ys : List Char} (hx : Closed xs) (hy : Closed ys) :
    Closed (xs ++ ys) := by
  intro stack
  rw [hx.openAfter_append, hy stack]

/-- A text without brackets. -/
theorem Closed.of_plain {cs : List Char} (h : ∀ c ∈ cs, c ∉ "<([>)]".toList) : Closed cs := by
  induction cs with
  | nil => exact .nil
  | cons c cs ih =>
    intro stack
    have other : c ∉ ['<', '(', '[', '>', ')', ']'] := h c List.mem_cons_self
    have step : bracketStep stack c = some stack := by
      simp only [List.mem_cons, List.not_mem_nil, or_false, not_or] at other
      simp [bracketStep, opener?, other]
    rw [openAfter_cons, step, Option.bind_some]
    exact ih (fun d hd => h d (List.mem_cons_of_mem _ hd)) stack

/-- A text in brackets. -/
theorem Closed.enclosed {cs : List Char} (h : Closed cs) {left right : Char}
    (pair : (left, right) ∈ [('<', '>'), ('(', ')'), ('[', ']')]) :
    Closed (left :: (cs ++ [right])) := by
  intro stack
  have opening : left ∈ "<([".toList := by revert pair; simp; tauto
  have closing : bracketStep (left :: stack) right = some stack := by
    simp only [List.mem_cons, List.not_mem_nil, or_false, Prod.mk.injEq] at pair
    rcases pair with ⟨rfl, rfl⟩ | ⟨rfl, rfl⟩ | ⟨rfl, rfl⟩ <;> rfl
  rw [openAfter_opening opening, h.openAfter_append, openAfter_cons, closing]
  rfl

theorem Closed.append_broken {xs ys : List Char} (hx : Closed xs) (hy : Broken ys) :
    Broken (xs ++ ys) := by
  intro stack
  rw [hx.openAfter_append, hy stack]

/-- In front of a closing bracket that is well placed the innermost open bracket is of its
kind. -/
theorem openAfter_of_closed {xs ys : List Char} (h : Closed (xs ++ '>' :: ys))
    (stack : List Char) : ∃ opened, openAfter stack xs = some ('<' :: opened) := by
  have read := h stack
  rw [openAfter_append] at read
  cases front : openAfter stack xs with
  | none => simp [front] at read
  | some opened =>
    rw [front, Option.bind_some, openAfter_cons] at read
    cases opened with
    | nil => simp [bracketStep, opener?] at read
    | cons top opened =>
      by_cases same : top = '<'
      · exact ⟨opened, by rw [same]⟩
      · simp [bracketStep, opener?, same] at read

/-- Brackets of one kind around a part that ends inside brackets of another kind. -/
theorem broken_of_unclosed {xs ys out : List Char} (h : Closed (xs ++ '>' :: ys))
    (same : ∀ stack, openAfter stack out = openAfter stack xs) (rest : List Char) :
    Broken ('(' :: (out ++ ')' :: rest)) := by
  intro stack
  obtain ⟨opened, front⟩ := openAfter_of_closed h ('(' :: stack)
  rw [openAfter_opening (by decide), openAfter_append, same, front]
  rfl

/-! ## Rewritings -/

/-- A token that begins no array type keeps its brackets. -/
theorem openAfter_builtinText (stack : List Char) (before : Option Token) (t : Token)
    (after : Option Token) :
    openAfter stack (builtinText before t after) = openAfter stack t.text := by
  have plain : ∀ cs : List Char, (∀ c ∈ cs, c ∉ "<([>)]".toList) →
      openAfter stack cs = some stack := fun cs h => Closed.of_plain h stack
  unfold builtinText
  split
  · next promise =>
    rw [Bool.and_eq_true, decide_eq_true_eq] at promise
    rw [promise.1, plain _ (by simp), plain _ (by simp)]
  · split
    · next var => rw [var, plain _ (by simp), plain _ (by simp)]
    · split
      · next star =>
        rw [Bool.and_eq_true, decide_eq_true_eq] at star
        rw [star.1, plain _ (by simp), plain _ (by simp)]
      · rfl

/-- Tokens without array types are rewritten by themselves, and keep their brackets. -/
theorem exists_rewriteTokens_append {ts rest : List Token} (free : ¬ HasGeneric "Array" ts)
    (apart : rest.head? ≠ some (.mark '<')) (before : Option Token) :
    ∃ out last, rewriteTokens before (ts ++ rest) = out ++ rewriteTokens last rest ∧
      ∀ stack, openAfter stack out = openAfter stack (textOf ts) := by
  induction ts generalizing before with
  | nil => exact ⟨[], before, rfl, fun _ => rfl⟩
  | cons t ts ih =>
    rw [hasGeneric_cons_iff, not_or] at free
    obtain ⟨out, last, written, same⟩ := ih free.2 (some t)
    have single : arrayArgument? (t :: (ts ++ rest)) = none := by
      by_contra array
      obtain ⟨⟨inner, after⟩, array⟩ := Option.ne_none_iff_exists'.mp array
      obtain ⟨first, next⟩ := List.cons.inj (arrayArgument?_eq array)
      cases ts with
      | nil => exact apart (by rw [show rest = _ from next]; rfl)
      | cons u ts => exact free.1 ⟨first, by rw [(List.cons.inj next).1]; rfl⟩
    refine ⟨builtinText before t (ts ++ rest).head? ++ out, last, ?_, fun stack => ?_⟩
    · rw [List.cons_append, rewriteTokens_single before single, written, List.append_assoc]
    · rw [openAfter_append, openAfter_builtinText, textOf_cons, openAfter_append]
      simp only [same]

end Ambient.TypeText
