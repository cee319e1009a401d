/-
  Scanning: the tokens of a text as they are cut from it in one pass from left to right. The pass
  looks one character ahead and notes at which byte a token starts and at which it stops; the
  characters themselves take one to four bytes each. Main statements: `stretches_cut` (no byte
  that is noted lies inside a character, and what is cut out are the tokens), `tokenize_eq_iff`
  (no other tokens make up the text) and `tokenize_cuts_uniquely`.
-/
import Ambient.Proofs.MaximalRuns

namespace Ambient.TypeText

/-! ## Bytes -/

/-- The number of bytes that characters take. -/
def byteCount : List Char → Nat
  | [] => 0
  | c :: cs => c.utf8Size + byteCount cs

@[simp] theorem byteCount_nil : byteCount [] = 0 := rfl

@[simp] theorem byteCount_cons (c : Char) (cs : List Char) :
    byteCount (c :: cs) = c.utf8Size + byteCount cs := rfl

@[simp] theorem byteCount_append (cs ds : List Char) :
    byteCount (cs ++ ds) = byteCount cs + byteCount ds := by
  induction cs with
  | nil => simp
  | cons c cs ih => rw [List.cons_append, byteCount_cons, byteCount_cons, ih, Nat.add_assoc]

/-- The characters in front of a byte and those from it on; nothing, if the byte lies inside a
character or behind the text. -/
def cutAt? : Nat → List Char → Option (List Char × List Char)
  | 0, cs => some ([], cs)
  | _ + 1, [] => none
  | n + 1, c :: cs =>
    if c.utf8Size ≤ n + 1 then
      (cutAt? (n + 1 - c.utf8Size) cs).map fun (front, back) => (c :: front, back)
    else none

/-- The characters from one byte to another; nothing, if they are not two places of the text
in this order. -/
def slice? (cs : List Char) (start stop : Nat) : Option (List Char) := do
  let (_, back) ← cutAt? start cs
  if start ≤ stop then
    let (text, _) ← cutAt? (stop - start) back
    some text
  else none

theorem cutAt?_byteCount (front back : List Char) :
    cutAt? (byteCount front) (front ++ back) = some (front, back) := by
  induction front with
  | nil => rw [byteCount_nil, List.nil_append, cutAt?]
  | cons c front ih =>
    -- a character takes at least one byte, so the place is not in front of it
    obtain ⟨n, size⟩ : ∃ n, c.utf8Size + byteCount front = n + 1 :=
      Nat.exists_eq_succ_of_ne_zero (by have := c.utf8Size_pos; omega)
    have rest : n + 1 - c.utf8Size = byteCount front := by omega
    rw [byteCount_cons, size, List.cons_append, cutAt?, if_pos (by omega), rest, ih]
    rfl

theorem slice?_byteCount (front text back : List Char) :
    slice? (front ++ text ++ back) (byteCount front) (byteCount front + byteCount text) =
      some text := by
  have first : cutAt? (byteCount front) (front ++ text ++ back) = some (front, text ++ back) := by
    rw [List.append_assoc, cutAt?_byteCount]
  have second : cutAt? (byteCount front + byteCount text - byteCount front) (text ++ back) =
      some (text, back) := by
    rw [Nat.add_sub_cancel_left, cutAt?_byteCount]
  simp only [slice?, first, second, Option.bind_eq_bind, Option.bind_some, Nat.le_add_right,
    ↓reduceIte]

/-! ## The pass -/

/-- Where the word stops that goes on here, and the characters behind it. -/
def wordEnd (stop : Nat) : List Char → Nat × List Char
  | [] => (stop, [])
  | c :: cs => if isWordChar c then wordEnd (stop + c.utf8Size) cs else (stop, c :: cs)

theorem wordEnd_eq (stop : Nat) (cs : List Char) :
    wordEnd stop cs =
      (stop + byteCount (cs.takeWhile isWordChar), cs.dropWhile isWordChar) := by
  induction cs generalizing stop with
  | nil => rfl
  | cons c cs ih =>
    rw [wordEnd]
    split
    · next word =>
      rw [ih, List.takeWhile_cons_of_pos word, List.dropWhile_cons_of_pos word, byteCount_cons,
        Nat.add_assoc]
    · next other =>
      rw [List.takeWhile_cons_of_neg other, List.dropWhile_cons_of_neg other]
      rfl

theorem length_wordEnd_le (stop : Nat) (cs : List Char) :
    (wordEnd stop cs).2.length ≤ cs.length := by
  rw [wordEnd_eq]
  exact (List.dropWhile_suffix isWordChar).length_le

/-- A stretch of a text from one byte to another, taken for a word or for a mark. -/
structure Stretch where
  isWord : Bool
  start : Nat
  stop : Nat
deriving DecidableEq, Repr

/-- The stretches of the characters from the byte `start` on. -/
def stretches (start : Nat) : List Char → List Stretch
  | [] => []
  | c :: cs =>
    let stop := start + c.utf8Size
    if isWordChar c then
      let word := wordEnd stop cs
      ⟨true, start, word.1⟩ :: stretches word.1 word.2
    else ⟨false, start, stop⟩ :: stretches stop cs
termination_by cs => cs.length
decreasing_by
  · exact Nat.lt_succ_of_le (length_wordEnd_le _ cs)
  · exact Nat.lt_succ_self _

/-- A word character opens a stretch that goes on as long as word characters follow. -/
theorem stretches_word {c : Char} (h : isWordChar c = true) (start : Nat) (cs : List Char) :
    stretches start (c :: cs) =
      let stop := start + byteCount (c :: cs.takeWhile isWordChar)
      ⟨true, start, stop⟩ :: stretches stop (cs.dropWhile isWordChar) := by
  rw [stretches, if_pos h, wordEnd_eq, byteCount_cons, Nat.add_assoc]

/-- Any other character is a stretch of its own. -/
theorem stretches_mark {c : Char} (h : isWordChar c = false) (start : Nat) (cs : List Char) :
    stretches start (c :: cs) =
      let stop := start + byteCount [c]
      ⟨false, start, stop⟩ :: stretches stop cs := by
  rw [stretches, if_neg (by simp [h])]
  rfl

/-! ## Cutting out -/

/-- The token that a stretch of a text is. -/
def Stretch.token? (cs : List Char) (s : Stretch) : Option Token := do
  let text ← slice? cs s.start s.stop
  if s.isWord then some (.word text)
  else match text with
    | [c] => some (.mark c)
    | _ => none

theorem token?_word (front w back : List Char) :
    Stretch.token? (front ++ w ++ back)
      ⟨true, byteCount front, byteCount front + byteCount w⟩ = some (.word w) := by
  simp only [Stretch.token?, slice?_byteCount, Option.bind_eq_bind, Option.bind_some, ↓reduceIte]

theorem token?_mark (front : List Char) (c : Char) (back : List Char) :
    Stretch.token? (front ++ [c] ++ back)
      ⟨false, byteCount front, byteCount front + byteCount [c]⟩ = some (.mark c) := by
  simp only [Stretch.token?, slice?_byteCount, Option.bind_eq_bind, Option.bind_some,
    Bool.false_eq_true, ↓reduceIte]

/-- Behind a run of word characters there is a mark or nothing. -/
theorem isMark_head?_tokenize_dropWhile (cs : List Char) :
    (tokenize (cs.dropWhile isWordChar)).head?.all Token.isMark = true := by
  cases behind : cs.dropWhile isWordChar with
  | nil => rfl
  | cons c ds =>
    have other : isWordChar c = false := by
      have stops := List.head?_dropWhile_not isWordChar cs
      simpa [behind] using stops
    rw [tokenize_mark_cons other]
    rfl

theorem tokenize_word_run {c : Char} (h : isWordChar c = true) (cs : List Char) :
    tokenize (c :: cs) =
      .word (c :: cs.takeWhile isWordChar) :: tokenize (cs.dropWhile isWordChar) := by
  have run : (Token.word (c :: cs.takeWhile isWordChar)).WellFormed := by
    refine ⟨by simp, fun d member => ?_⟩
    rcases List.mem_cons.mp member with rfl | member
    · exact h
    · exact List.all_eq_true.mp List.all_takeWhile d member
  have text : c :: cs = (c :: cs.takeWhile isWordChar) ++ cs.dropWhile isWordChar := by
    rw [List.cons_append, List.takeWhile_append_dropWhile]
  rw [text, tokenize_word_append run (isMark_head?_tokenize_dropWhile cs)]

/-- What stands behind `front` is cut into its tokens, and every cut is between two characters of
the whole text. -/
theorem stretches_cut (front cs : List Char) :
    (stretches (byteCount front) cs).mapM (Stretch.token? (front ++ cs)) =
      some (tokenize cs) := by
  induction h : cs.length using Nat.strong_induction_on generalizing front cs with
  | _ n ih =>
    subst h
    cases cs with
    | nil =>
      rw [stretches]
      rfl
    | cons c cs =>
      cases kind : isWordChar c with
      | true =>
        let run := c :: cs.takeWhile isWordChar
        let back := cs.dropWhile isWordChar
        have text : front ++ c :: cs = front ++ run ++ back := by simp [run, back]
        have shorter : back.length < (c :: cs).length :=
          Nat.lt_succ_of_le (List.dropWhile_suffix isWordChar).length_le
        have rest := ih back.length shorter (front ++ run) back rfl
        rw [byteCount_append] at rest
        rw [stretches_word kind, tokenize_word_run kind, List.mapM_cons, text, token?_word, rest]
        rfl
      | false =>
        have text : front ++ c :: cs = front ++ [c] ++ cs := by simp
        have rest := ih cs.length (Nat.lt_succ_self _) (front ++ [c]) cs rfl
        rw [byteCount_append] at rest
        rw [stretches_mark kind, tokenize_mark_cons kind, List.mapM_cons, text, token?_mark, rest]
        rfl

example : stretches 0 "a.B€|é".toList =
    [⟨true, 0, 3⟩, ⟨false, 3, 6⟩, ⟨false, 6, 7⟩, ⟨false, 7, 9⟩] := by cbv

/-! ## No other cut -/

/-- The tokens of a text are the only ones that make it up and have words that are as long as
they can be. -/
theorem tokenize_eq_iff {cs : List Char} {ts : List Token} :
    tokenize cs = ts ↔ textOf ts = cs ∧ Maximal ts := by
  constructor
  · rintro rfl
    exact ⟨textOf_tokenize cs, maximal_tokenize cs⟩
  · rintro ⟨rfl, maximal⟩
    exact tokenize_textOf maximal

theorem Maximal.slice {ts us : List Token} (h : Maximal us) (part : ts <:+: us) :
    Maximal ts where
  wellFormed t member := h.wellFormed t (part.subset member)
  apart := h.apart.infix part

/-- Reading a text is the one way to cut it into words that are as long as they can be and marks
of one character each: tokens are those of a text just when they make it up and are of this kind,
a pass over the bytes of the text cuts the same ones, and tokens in a row are read back from their
text. -/
theorem tokenize_cuts_uniquely (cs : List Char) :
    (∀ ts, tokenize cs = ts ↔ textOf ts = cs ∧ Maximal ts) ∧
      (stretches 0 cs).mapM (Stretch.token? cs) = some (tokenize cs) ∧
      ∀ ts, ts <:+: tokenize cs → tokenize (textOf ts) = ts := by
  refine ⟨fun ts => tokenize_eq_iff, stretches_cut [] cs, fun ts part => ?_⟩
  exact tokenize_textOf ((maximal_tokenize cs).slice part)

end Ambient.TypeText
