/-
  Consumption: what becomes of every token of a type expression. A token is copied, or written as
  another text, or it belongs to the brackets of an array type, whose argument is taken as an
  expression of its own. `parts` walks over the tokens and looks for the first `>` behind
  `Array<`; nothing is read a second time. Main statements: `flatMap_tokens_parts` (every token is
  used once, in order) and `rewriteTokens_eq_parts` (what is written are the parts).
-/
import Ambient.Proofs.Rewriting

namespace Ambient.TypeText

/-! ## Parts -/

/-- A part of what is written. -/
inductive Part
  /-- A token as it is. -/
  | copied (t : Token)
  /-- A text in the place of a token. -/
  | replaced (t : Token) (text : List Char)
  /-- The bracket in the place of the head of an array type. -/
  | opening
  /-- The brackets in the place of the end of an array type. -/
  | closing
deriving DecidableEq, Repr

namespace Part

/-- The tokens that a part is made of. -/
def tokens : Part → List Token
  | copied t => [t]
  | replaced t _ => [t]
  | opening => [.word "Array".toList, .mark '<']
  | closing => [.mark '>']

/-- What is written for a part. -/
def text : Part → List Char
  | copied t => t.text
  | replaced _ text => text
  | opening => "(".toList
  | closing => ")[]".toList

/-- The part that is made of a token between two others: `Promise` before `<` gets its global
root, and `var` and a star that no word touches are not known. -/
def ofToken (before : Option Token) (t : Token) (after : Option Token) : Part :=
  if t = .word "Promise".toList ∧ after = some (.mark '<') then
    replaced t "globalThis.Promise".toList
  else if t = .word "var".toList then replaced t "unknown".toList
  else if t = .mark '*' ∧ isLoose before after then replaced t "unknown".toList
  else copied t

theorem tokens_ofToken (before : Option Token) (t : Token) (after : Option Token) :
    (ofToken before t after).tokens = [t] := by
  unfold ofToken
  split
  · rfl
  · split
    · rfl
    · split <;> rfl

theorem text_ofToken (before : Option Token) (t : Token) (after : Option Token) :
    (ofToken before t after).text = builtinText before t after := by
  unfold ofToken builtinText
  simp only [Bool.and_eq_true, decide_eq_true_eq, beq_iff_eq]
  split
  · rfl
  · split
    · rfl
    · split <;> rfl

end Part

/-- The tokens in front of the first `>`. -/
def uptoClose (ts : List Token) : List Token := ts.takeWhile (· ≠ .mark '>')

/-- The tokens behind the first `>`. -/
def behindClose (ts : List Token) : List Token := (ts.dropWhile (· ≠ .mark '>')).tail

/-- A token and those behind it begin with an array type: `Array` before `<`, with at least one
token between this and the next `>`. -/
def OpensArray (t : Token) (rest : List Token) : Prop :=
  t = .word "Array".toList ∧ rest.head? = some (.mark '<') ∧ .mark '>' ∈ rest.tail ∧
    uptoClose rest.tail ≠ []

instance (t : Token) : DecidablePred (OpensArray t) :=
  fun _ => inferInstanceAs (Decidable (_ ∧ _ ∧ _ ∧ _))

theorem length_uptoClose_le (ts : List Token) : (uptoClose ts).length ≤ ts.length :=
  (List.takeWhile_sublist _).length_le

theorem length_behindClose_le (ts : List Token) : (behindClose ts).length ≤ ts.length :=
  ((List.tail_sublist _).trans (List.dropWhile_sublist _)).length_le

/-- The parts that are made of the tokens after `before`. -/
def parts (before : Option Token) : List Token → List Part
  | [] => []
  | t :: rest =>
    if OpensArray t rest then
      .opening :: parts none (uptoClose rest.tail) ++
        .closing :: parts (some (.mark '>')) (behindClose rest.tail)
    else .ofToken before t rest.head? :: parts (some t) rest
termination_by ts => ts.length
decreasing_by
  · have shorter := length_uptoClose_le rest.tail
    rw [List.length_tail] at shorter
    rw [List.length_cons]
    omega
  · have shorter := length_behindClose_le rest.tail
    rw [List.length_tail] at shorter
    rw [List.length_cons]
    omega
  · exact Nat.lt_succ_self _

theorem uptoClose_append {inner : List Token} (h : .mark '>' ∉ inner) (after : List Token) :
    uptoClose (inner ++ .mark '>' :: after) = inner := by
  have open_inside : ∀ t ∈ inner, decide (t ≠ .mark '>') = true := by
    intro t member
    exact decide_eq_true fun close => h (close ▸ member)
  rw [uptoClose, List.takeWhile_append_of_pos open_inside, List.takeWhile_cons_of_neg (by simp),
    List.append_nil]

theorem close_not_mem_uptoClose (ts : List Token) : .mark '>' ∉ uptoClose ts := by
  intro member
  have other := List.all_eq_true.mp List.all_takeWhile _ member
  simp at other

theorem uptoClose_append_behindClose {ts : List Token} (h : .mark '>' ∈ ts) :
    uptoClose ts ++ .mark '>' :: behindClose ts = ts := by
  induction ts with
  | nil => simp at h
  | cons t ts ih =>
    unfold uptoClose behindClose at ih ⊢
    by_cases close : t = .mark '>'
    · simp [close]
    · have later : .mark '>' ∈ ts := (List.mem_cons.mp h).resolve_left (Ne.symm close)
      simpa [close] using ih later

/-- The walk finds the array types that the rewriting finds. -/
theorem arrayArgument?_cons (t : Token) (rest : List Token) :
    arrayArgument? (t :: rest) =
      if OpensArray t rest then some (uptoClose rest.tail, behindClose rest.tail) else none := by
  split
  · next array =>
    obtain ⟨rfl, opens, closes, nonempty⟩ := array
    obtain ⟨args, rfl⟩ := List.head?_eq_some_iff.mp opens
    rw [List.tail_cons] at closes nonempty
    refine arrayArgument?_eq_some_iff.mpr ⟨?_, nonempty, close_not_mem_uptoClose args⟩
    rw [List.tail_cons, uptoClose_append_behindClose closes]
  · next other =>
    by_contra array
    obtain ⟨⟨inner, after⟩, array⟩ := Option.ne_none_iff_exists'.mp array
    obtain ⟨same, nonempty, first⟩ := arrayArgument?_eq_some_iff.mp array
    obtain ⟨rfl, rfl⟩ := List.cons.inj same
    refine other ⟨rfl, rfl, by simp, ?_⟩
    rw [List.tail_cons, uptoClose_append first]
    exact nonempty

theorem parts_array (before : Option Token) {ts inner after : List Token}
    (h : arrayArgument? ts = some (inner, after)) :
    parts before ts = .opening :: parts none inner ++ .closing :: parts (some (.mark '>')) after := by
  cases ts with
  | nil => simp [arrayArgument?] at h
  | cons t rest =>
    rw [arrayArgument?_cons] at h
    rw [parts]
    split at h
    · next array =>
      obtain ⟨rfl, rfl⟩ := Prod.mk.inj (Option.some.inj h)
      rw [if_pos array]
    · simp at h

theorem parts_single (before : Option Token) {t : Token} {rest : List Token}
    (h : arrayArgument? (t :: rest) = none) :
    parts before (t :: rest) = .ofToken before t rest.head? :: parts (some t) rest := by
  rw [arrayArgument?_cons] at h
  rw [parts]
  split at h
  · simp at h
  · next other => rw [if_neg other]

/-- Every token is used once, and in order. -/
theorem flatMap_tokens_parts (before : Option Token) (ts : List Token) :
    (parts before ts).flatMap Part.tokens = ts := by
  induction before, ts using parts.induct with
  | case1 before =>
    rw [parts]
    rfl
  | case2 before t rest array ih ih' =>
    have found := arrayArgument?_cons t rest
    rw [if_pos array] at found
    rw [parts_array before found, List.flatMap_append, List.flatMap_cons, List.flatMap_cons, ih, ih',
      arrayArgument?_eq found]
    rfl
  | case3 before t rest other ih =>
    have single := arrayArgument?_cons t rest
    rw [if_neg other] at single
    rw [parts_single before single, List.flatMap_cons, Part.tokens_ofToken, ih]
    rfl

/-- The parts are what the rewriting writes: to read the argument of an array type again from its
text gives its tokens back. -/
theorem rewriteTokens_eq_parts (before : Option Token) {ts : List Token} (h : Maximal ts) :
    rewriteTokens before ts = (parts before ts).flatMap Part.text := by
  induction before, ts using rewriteTokens.induct with
  | case1 before =>
    rw [rewriteTokens_nil, parts]
    rfl
  | case2 before t rest inner after array ih ih' =>
    obtain ⟨inner_maximal, after_maximal⟩ := maximal_of_arrayArgument? array h
    rw [tokenize_textOf inner_maximal] at ih
    rw [rewriteTokens_array before array, parts_array before array, tokenize_textOf inner_maximal,
      ih inner_maximal, ih' after_maximal, List.flatMap_append, List.flatMap_cons,
      List.flatMap_cons, List.append_assoc]
    rfl
  | case3 before t rest single ih =>
    rw [rewriteTokens_single before single, parts_single before single, List.flatMap_cons,
      Part.text_ofToken, ih h.tail]

/-- The star in the argument touches no word there, as it touches none in the whole text. -/
example : parts none (tokenize "Array<*>*".toList) =
    [.opening, .replaced (.mark '*') "unknown".toList, .closing,
      .replaced (.mark '*') "unknown".toList] := by decide +kernel

end Ambient.TypeText
