/-
  The loop over the places of the tokens of a type expression. A turn looks at the token at its
  place and at the neighbours, and either writes a text and goes on to the next place or jumps
  behind an array type, whose argument is read again from its text. Whatever a turn asks for by its
  place may be missing, and the loop then has no result. Main statements: `turn?_eq_some` (what a
  turn can come to, so that the loop ends), `turn?_eq` (on the tokens of a text nothing is missing),
  `rewriteFrom_eq` (the loop writes what the rewriting writes) and `rewriteBuiltins_uses_once`.
-/
import Ambient.Proofs.Consumption
import Mathlib.Data.List.Flatten

namespace Ambient.TypeText

/-! ## Asking by place -/

/-- The tokens from a place on, if the place is not behind their end. -/
def from? (ts : List Token) (i : Nat) : Option (List Token) :=
  if i ≤ ts.length then some (ts.drop i) else none

/-- The tokens in front of a place, if the place is not behind their end. -/
def upto? (ts : List Token) (i : Nat) : Option (List Token) :=
  if i ≤ ts.length then some (ts.take i) else none

/-- The token in front of a place, if the place is not behind the end; there is none in front of
the first place. -/
def previous? (ts : List Token) : Nat → Option (Option Token)
  | 0 => some none
  | i + 1 => ts[i]?.map some

/-- What one turn of the loop comes to: the place where the next one begins, behind a text that is
written or behind an array type with the tokens of its argument. -/
inductive Turn
  | write (text : List Char) (next : Nat)
  | array (inner : List Token) (next : Nat)
deriving DecidableEq, Repr

/-- The turn at `Array` before `<`. -/
def arrayTurn? (ts : List Token) (i : Nat) : Option Turn := do
  let args ← from? ts (i + 2)
  match args.findIdx? (·.text = ['>']) with
  | some close =>
    if 0 < close then do
      let inner ← upto? args close
      some (.array inner (i + (close + 3)))
    else some (.write "Array".toList (i + 1))
  | none => some (.write "Array".toList (i + 1))

/-- The turn at a place of the tokens. -/
def turn? (ts : List Token) (i : Nat) : Option Turn := do
  let t ← ts[i]?
  let before ← previous? ts i
  let after := ts[i + 1]?
  let opens := after.any (·.text = ['<'])
  if t = .word "Promise".toList ∧ opens then some (.write "globalThis.Promise".toList (i + 1))
  else if t = .word "Array".toList ∧ opens then arrayTurn? ts i
  else if t = .word "var".toList then some (.write "unknown".toList (i + 1))
  else if t = .mark '*' ∧ isLoose before after then some (.write "unknown".toList (i + 1))
  else some (.write t.text (i + 1))

/-! ## What a turn can come to -/

theorem eq_drop_of_from? {ts args : List Token} {i : Nat} (h : from? ts i = some args) :
    args = ts.drop i := by
  unfold from? at h
  split at h
  · exact (Option.some.inj h).symm
  · simp at h

theorem eq_take_of_upto? {ts inner : List Token} {i : Nat} (h : upto? ts i = some inner) :
    inner = ts.take i := by
  unfold upto? at h
  split at h
  · exact (Option.some.inj h).symm
  · simp at h

theorem arrayTurn?_eq_some {ts : List Token} {i : Nat} {turn : Turn}
    (h : arrayTurn? ts i = some turn) : turn = .write "Array".toList (i + 1) ∨
      ∃ close, turn = .array ((ts.drop (i + 2)).take close) (i + (close + 3)) := by
  obtain ⟨args, behind, h⟩ := Option.bind_eq_some_iff.mp h
  cases eq_drop_of_from? behind
  split at h
  · next close _ =>
    split at h
    · obtain ⟨inner, front, h⟩ := Option.bind_eq_some_iff.mp h
      cases eq_take_of_upto? front
      exact .inr ⟨close, (Option.some.inj h).symm⟩
    · exact .inl (Option.some.inj h).symm
  · exact .inl (Option.some.inj h).symm

/-- What a turn can come to: a text for the token at its place, or a jump behind an array type
that begins there and has a row of the tokens for its argument. -/
theorem turn?_eq_some {ts : List Token} {i : Nat} {turn : Turn} (h : turn? ts i = some turn) :
    ∃ t, ts[i]? = some t ∧ ((∃ text, turn = .write text (i + 1)) ∨
      t = .word "Array".toList ∧
        ∃ close, turn = .array ((ts.drop (i + 2)).take close) (i + (close + 3))) := by
  obtain ⟨t, token, h⟩ := Option.bind_eq_some_iff.mp h
  obtain ⟨before, -, h⟩ := Option.bind_eq_some_iff.mp h
  refine ⟨t, token, ?_⟩
  dsimp only at h
  split at h
  · exact .inl ⟨_, (Option.some.inj h).symm⟩
  · split at h
    · next array =>
      rcases arrayTurn?_eq_some h with single | jump
      · exact .inl ⟨_, single⟩
      · exact .inr ⟨array.1, jump⟩
    · split at h
      · exact .inl ⟨_, (Option.some.inj h).symm⟩
      · split at h <;> exact .inl ⟨_, (Option.some.inj h).symm⟩

theorem lt_of_turn?_write {ts : List Token} {i next : Nat} {text : List Char}
    (h : turn? ts i = some (.write text next)) : ts.length - next < ts.length - i := by
  obtain ⟨t, token, ⟨_, same⟩ | ⟨-, _, same⟩⟩ := turn?_eq_some h
  · obtain ⟨here, -⟩ := List.getElem?_eq_some_iff.mp token
    cases same
    omega
  · cases same

theorem lt_of_turn?_array {ts inner : List Token} {i next : Nat}
    (h : turn? ts i = some (.array inner next)) :
    (textOf inner).length < (textOf ts).length ∧ ts.length - next < ts.length - i := by
  obtain ⟨t, token, ⟨_, same⟩ | ⟨rfl, close, same⟩⟩ := turn?_eq_some h
  · cases same
  · obtain ⟨here, head⟩ := List.getElem?_eq_some_iff.mp token
    cases same
    refine ⟨?_, by omega⟩
    -- the argument stands behind the word `Array`, whose text is not empty
    have row : ((ts.drop (i + 2)).take close).Sublist (ts.drop (i + 1)) :=
      (List.take_sublist _ _).trans (List.drop_sublist_drop_left _ (by omega))
    have shorter : (textOf ((ts.drop (i + 2)).take close)).length ≤
        (textOf (ts.drop (i + 1))).length := (row.flatMap Token.text).length_le
    have whole : (textOf (ts.drop i)).length ≤ (textOf ts).length :=
      ((List.drop_sublist i ts).flatMap Token.text).length_le
    have word : 0 < (Token.word "Array".toList).text.length := by decide
    rw [List.drop_eq_getElem_cons here, head, textOf_cons, List.length_append] at whole
    omega

/-- What has been written at the end of the loop, which stands at the place `i` and has written
`out`. It ends at the end of the tokens, and a place behind their end is an error as well. -/
def rewriteFrom (ts : List Token) (i : Nat) (out : List Char) : Option (List Char) :=
  if i = ts.length then some out
  else
    match _h : turn? ts i with
    | none => none
    | some (.write text next) => rewriteFrom ts next (out ++ text)
    | some (.array inner next) =>
      match rewriteFrom (tokenize (textOf inner)) 0 [] with
      | none => none
      | some argument => rewriteFrom ts next (out ++ ('(' :: argument ++ ")[]".toList))
termination_by ((textOf ts).length, ts.length - i)
decreasing_by
  · exact Prod.Lex.right _ (lt_of_turn?_write _h)
  · rw [textOf_tokenize]
    exact Prod.Lex.left _ _ (lt_of_turn?_array _h).1
  · exact Prod.Lex.right _ (lt_of_turn?_array _h).2

/-! ## Turns on the tokens of a text -/

theorem Token.WellFormed.text_eq_iff {t : Token} (h : t.WellFormed) {c : Char}
    (hc : isWordChar c = false) : t.text = [c] ↔ t = .mark c := by
  cases t with
  | word w =>
    constructor
    · intro same
      rw [text_word] at same
      have word := h.2 c (same ▸ List.mem_singleton_self c)
      simp [hc] at word
    · intro same
      cases same
  | mark d => simp

theorem findIdx?_close {ts : List Token} (h : ∀ t ∈ ts, t.WellFormed) :
    ts.findIdx? (·.text = ['>']) =
      if .mark '>' ∈ ts then some (uptoClose ts).length else none := by
  induction ts with
  | nil => rfl
  | cons t ts ih =>
    have rest := ih fun u member => h u (List.mem_cons_of_mem _ member)
    have close := (h t List.mem_cons_self).text_eq_iff (c := '>') (by decide)
    rw [List.findIdx?_cons, rest]
    by_cases same : t = .mark '>'
    · simp [same, uptoClose]
    · have other : Token.mark '>' ≠ t := Ne.symm same
      simp only [close, same, decide_false, Bool.false_eq_true, ↓reduceIte, List.mem_cons, other,
        false_or, uptoClose]
      split <;> simp [same]

theorem upto?_close (ts : List Token) : upto? ts (uptoClose ts).length = some (uptoClose ts) := by
  rw [upto?, if_pos (length_uptoClose_le ts)]
  exact congrArg some (List.prefix_iff_eq_take.mp (List.takeWhile_prefix _)).symm

theorem previous?_length (front ts : List Token) :
    previous? (front ++ ts) front.length = some front.getLast? := by
  induction front using List.reverseRecOn with
  | nil => rfl
  | append_singleton front t _ => simp [previous?]

theorem arrayTurn?_eq (front : List Token) {args : List Token} (h : ∀ t ∈ args, t.WellFormed) :
    arrayTurn? (front ++ .word "Array".toList :: .mark '<' :: args) front.length =
      some (if OpensArray (.word "Array".toList) (.mark '<' :: args) then
          .array (uptoClose args) (front.length + ((uptoClose args).length + 3))
        else .write "Array".toList (front.length + 1)) := by
  have behind : from? (front ++ .word "Array".toList :: .mark '<' :: args) (front.length + 2) =
      some args := by
    rw [from?, if_pos (by simp)]
    simp
  simp only [arrayTurn?, behind, findIdx?_close h, Option.bind_eq_bind, Option.bind_some]
  by_cases opens : OpensArray (.word "Array".toList) (.mark '<' :: args)
  · have closed : .mark '>' ∈ args := opens.2.2.1
    have nonempty : uptoClose args ≠ [] := opens.2.2.2
    simp only [opens, closed, ↓reduceIte, List.length_pos_of_ne_nil nonempty, upto?_close,
      Option.bind_some]
  · rw [if_neg opens]
    by_cases closed : .mark '>' ∈ args
    · have empty : uptoClose args = [] := by
        by_contra nonempty
        exact opens ⟨rfl, rfl, closed, nonempty⟩
      rw [if_pos closed, empty]
      rfl
    · rw [if_neg closed]

/-- Every turn finds the tokens that it asks for, and comes to what the rewriting comes to. -/
theorem turn?_eq (front : List Token) {t : Token} {rest : List Token}
    (h : Maximal (front ++ t :: rest)) :
    turn? (front ++ t :: rest) front.length = some (match arrayArgument? (t :: rest) with
      | some (inner, _) => .array inner (front.length + (inner.length + 3))
      | none => .write (builtinText front.getLast? t rest.head?) (front.length + 1)) := by
  have token : (front ++ t :: rest)[front.length]? = some t := by simp
  have after : (front ++ t :: rest)[front.length + 1]? = rest.head? := by
    rw [List.getElem?_append_right (Nat.le_add_right _ _)]
    simp [List.head?_eq_getElem?]
  have opens : (rest.head?.any (·.text = ['<']) = true) ↔ rest.head? = some (.mark '<') := by
    cases rest with
    | nil => simp
    | cons u rest =>
      have wellFormed : u.WellFormed := h.wellFormed u (by simp)
      simp [wellFormed.text_eq_iff (c := '<') (by decide)]
  rw [arrayArgument?_cons]
  simp only [turn?, token, previous?_length, after, opens, Option.bind_eq_bind, Option.bind_some,
    builtinText, Bool.and_eq_true, decide_eq_true_eq, beq_iff_eq]
  by_cases array : t = .word "Array".toList ∧ rest.head? = some (.mark '<')
  · obtain ⟨rfl, head⟩ := array
    obtain ⟨args, rfl⟩ := List.head?_eq_some_iff.mp head
    have wellFormed : ∀ u ∈ args, u.WellFormed := fun u member => h.wellFormed u (by simp [member])
    rw [if_neg (by simp), if_pos ⟨rfl, head⟩, arrayTurn?_eq front wellFormed]
    split <;> simp
  · have single : ¬ OpensArray t rest := fun opens => array ⟨opens.1, opens.2.1⟩
    rw [if_neg array, if_neg single]
    split
    · rfl
    · split
      · rfl
      · split <;> rfl

/-! ## The whole loop -/

theorem rewriteFrom_end (ts : List Token) (out : List Char) :
    rewriteFrom ts ts.length out = some out := by
  rw [rewriteFrom, if_pos rfl]

/-- The loop reads the argument of an array type by itself and goes on behind the type. -/
theorem rewriteFrom_array (front : List Token) {ts inner after : List Token}
    (h : Maximal (front ++ ts)) (array : arrayArgument? ts = some (inner, after))
    (out : List Char) :
    rewriteFrom (front ++ ts) front.length out =
      (rewriteFrom (tokenize (textOf inner)) 0 []).bind fun argument =>
        rewriteFrom (front ++ ts) (front.length + (inner.length + 3))
          (out ++ ('(' :: argument ++ ")[]".toList)) := by
  cases ts with
  | nil => simp [arrayArgument?] at array
  | cons t rest =>
    have turn := turn?_eq front h
    rw [array] at turn
    rw [rewriteFrom, if_neg (by simp)]
    split
    · next missing => simp [missing] at turn
    · next write => simp [write] at turn
    · next row place jump =>
      obtain ⟨rfl, rfl⟩ := Turn.array.inj (Option.some.inj (jump.symm.trans turn))
      cases rewriteFrom (tokenize (textOf row)) 0 [] <;> rfl

/-- The loop goes on behind a token that begins no array type. -/
theorem rewriteFrom_single (front : List Token) {t : Token} {rest : List Token}
    (h : Maximal (front ++ t :: rest)) (single : arrayArgument? (t :: rest) = none)
    (out : List Char) :
    rewriteFrom (front ++ t :: rest) front.length out =
      rewriteFrom (front ++ t :: rest) (front.length + 1)
        (out ++ builtinText front.getLast? t rest.head?) := by
  have turn := turn?_eq front h
  rw [single] at turn
  rw [rewriteFrom, if_neg (by simp)]
  split
  · next missing => simp [missing] at turn
  · next write =>
    obtain ⟨rfl, rfl⟩ := Turn.write.inj (Option.some.inj (write.symm.trans turn))
    rfl
  · next jump => simp [jump] at turn

/-- The loop ends, asks for nothing that is not there, and writes what the rewriting writes. -/
theorem rewriteFrom_eq (front ts : List Token) (h : Maximal (front ++ ts)) (out : List Char) :
    rewriteFrom (front ++ ts) front.length out =
      some (out ++ rewriteTokens front.getLast? ts) := by
  -- the loop has passed the tokens of `front` and has written `out` for them
  induction last : front.getLast?, ts using rewriteTokens.induct generalizing front out with
  | case1 before => rw [List.append_nil, rewriteFrom_end, rewriteTokens_nil, List.append_nil]
  | case2 before t rest inner after array ih ih' =>
    let type : List Token := [.word "Array".toList, .mark '<'] ++ inner ++ [.mark '>']
    have tokens : front ++ t :: rest = front ++ type ++ after := by
      rw [arrayArgument?_eq array]
      simp [type]
    have place : front.length + (inner.length + 3) = (front ++ type).length := by
      simp [type]
    have closes : (front ++ type).getLast? = some (.mark '>') := by
      rw [← List.append_assoc, List.getLast?_concat]
    have argument : rewriteFrom (tokenize (textOf inner)) 0 [] =
        some (rewriteTokens none (tokenize (textOf inner))) := ih [] (maximal_tokenize _) [] rfl
    have next := ih' (front ++ type) (tokens ▸ h)
      (out ++ ('(' :: rewriteTokens none (tokenize (textOf inner)) ++ ")[]".toList)) closes
    rw [rewriteFrom_array front h array, argument, Option.bind_some, tokens, place, next,
      rewriteTokens_array before array, List.append_assoc]
  | case3 before t rest single ih =>
    have tokens : front ++ t :: rest = front ++ [t] ++ rest := by simp
    have place : front.length + 1 = (front ++ [t]).length := by simp
    have next := ih (front ++ [t]) (tokens ▸ h) (out ++ builtinText before t rest.head?) (by simp)
    rw [rewriteFrom_single front h single, last, tokens, place, next,
      rewriteTokens_single before single, List.append_assoc]

/-- Every token of a text is used once and in order: it is copied, or one of the built-in
rewritings takes it, and the argument of an array type is taken as if it stood alone. The loop
over the places of the tokens comes to the same text and asks for no place behind their end. -/
theorem rewriteBuiltins_uses_once (cs : List Char) :
    rewriteBuiltins cs = (parts none (tokenize cs)).flatMap Part.text ∧
      (parts none (tokenize cs)).flatMap Part.tokens = tokenize cs ∧
      rewriteFrom (tokenize cs) 0 [] = some (rewriteBuiltins cs) := by
  refine ⟨?_, flatMap_tokens_parts none (tokenize cs), ?_⟩
  · exact rewriteTokens_eq_parts none (maximal_tokenize cs)
  · exact rewriteFrom_eq [] (tokenize cs) (maximal_tokenize cs) []

end Ambient.TypeText
