/-
  What the four steps over a description match, and that they change nothing else. Paragraph tags
  go and links to a member get the owner's name at all their places, from left to right. Then the
  first code block is fenced: it runs from the first opening tag that has a closing tag behind it,
  with the shortest language, to the first such closing tag. Last, the first code of one line is
  put in backticks. Main statement: `toComment_eq_iff`.
-/
import Ambient.Description
import Ambient.Proofs.LeftmostMatches

namespace Ambient.Description

open Ambient.Text

variable {cs here new rest language tail body inner : List Char}

/-! ## Paragraph tags -/

/-- A paragraph tag, for which nothing is written. -/
def ParagraphTag : Rule := fun here new rest =>
  (here = "<p>".toList ++ rest ∨ here = "</p>".toList ++ rest) ∧ new = []

/-- The paragraph tag at the start of a text. -/
def paragraphTag? (cs : List Char) : Option (List Char × List Char) :=
  ((strip? "<p>".toList cs).or (strip? "</p>".toList cs)).map fun rest => ([], rest)

theorem reads_paragraphTag? : Reads paragraphTag? ParagraphTag where
  eq_some_iff := by
    intro here new rest
    unfold paragraphTag? ParagraphTag
    simp only [Option.map_eq_some_iff, Option.or_eq_some_iff, strip?_eq_some_iff, Prod.mk.injEq]
    constructor
    · intro h
      obtain ⟨r, found, rfl, rfl⟩ := h
      exact ⟨found.imp_right And.right, rfl⟩
    · intro h
      obtain ⟨found, rfl⟩ := h
      refine ⟨rest, ?_, rfl, rfl⟩
      cases found with
      | inl opened => exact .inl opened
      | inr closed => exact .inr ⟨by rw [closed]; rfl, closed⟩
  shorter := by
    intro here new rest h
    obtain ⟨opened | closed, -⟩ := h
    · rw [opened, List.length_append]
      exact Nat.lt_add_of_pos_left (by decide)
    · rw [closed, List.length_append]
      exact Nat.lt_add_of_pos_left (by decide)

theorem dropParagraphTags_eq_iff {text out : List Char} :
    dropParagraphTags text = out ↔ RewritesAll ParagraphTag text out := by
  apply scan_eq_iff reads_paragraphTag?
  · rfl
  · intro c cs none
    apply dropParagraphTags.eq_3
    · intro rest hc hcs
      subst hc hcs
      exact nomatch none
    · intro rest hc hcs
      subst hc hcs
      exact nomatch none
  · intro here new rest found
    obtain ⟨opened | closed, rfl⟩ := reads_paragraphTag?.eq_some_iff.mp found
    · rw [opened]
      rfl
    · rw [closed]
      rfl

/-! ## Links -/

/-- A link to a member of the class `owner`, for which a link with the class's name is written.
The member is not empty and holds no closing brace. -/
def LocalLink (owner : List Char) : Rule := fun here new rest =>
  ∃ member, member ≠ [] ∧ '\x7d' ∉ member ∧
    here = "\x7b@link #".toList ++ (member ++ '\x7d' :: rest) ∧
    new = "\x7b@link ".toList ++ owner ++ '.' :: member ++ ['\x7d']

/-- What is written for the link at the start of a text, and what follows the link. -/
def qualifiedLink? (owner cs : List Char) : Option (List Char × List Char) :=
  (localLink? cs).map fun (member, rest) =>
    ("\x7b@link ".toList ++ owner ++ '.' :: member ++ ['\x7d'], rest)

theorem localLink?_eq_some_iff {member : List Char} :
    localLink? cs = some (member, rest) ↔
      member ≠ [] ∧ '\x7d' ∉ member ∧ cs = "\x7b@link #".toList ++ (member ++ '\x7d' :: rest) := by
  unfold localLink?
  constructor
  · intro h
    split at h
    · exact nomatch h
    · next cs' stripped =>
      split at h
      · next c member' rest' cut =>
        obtain ⟨rfl, rfl⟩ := Prod.mk.inj (Option.some.inj h)
        obtain ⟨rfl, first⟩ := cut?_eq_some_iff.mp cut
        exact ⟨List.cons_ne_nil _ _, leftmost_char_iff.mp first, strip?_eq_some_iff.mp stripped⟩
      · exact nomatch h
  · intro h
    obtain ⟨filled, closed, rfl⟩ := h
    have cut : cut? ['\x7d'] (member ++ '\x7d' :: rest) = some (member, rest) :=
      cut?_eq_some_iff.mpr ⟨rfl, leftmost_char_iff.mpr closed⟩
    rw [strip?_eq_some_iff.mpr rfl]
    dsimp only
    rw [cut]
    obtain ⟨c, member', rfl⟩ := List.exists_cons_of_ne_nil filled
    rfl

theorem reads_qualifiedLink? (owner : List Char) :
    Reads (qualifiedLink? owner) (LocalLink owner) where
  eq_some_iff := by
    intro here new rest
    unfold qualifiedLink? LocalLink
    rw [Option.map_eq_some_iff]
    constructor
    · intro h
      obtain ⟨⟨member, rest'⟩, found, same⟩ := h
      obtain ⟨rfl, rfl⟩ := Prod.mk.inj same
      obtain ⟨filled, closed, split⟩ := localLink?_eq_some_iff.mp found
      exact ⟨member, filled, closed, split, rfl⟩
    · intro h
      obtain ⟨member, filled, closed, split, rfl⟩ := h
      exact ⟨(member, rest), localLink?_eq_some_iff.mpr ⟨filled, closed, split⟩, rfl⟩
  shorter := by
    intro here new rest h
    obtain ⟨member, -, -, rfl, -⟩ := h
    simp only [List.length_append, List.length_cons]
    omega

theorem resolveLinks_eq_iff {owner text out : List Char} :
    resolveLinks owner text = out ↔ RewritesAll (LocalLink owner) text out := by
  apply scan_eq_iff (reads_qualifiedLink? owner)
  · exact resolveLinks.eq_1 owner
  · intro c cs none
    rw [resolveLinks.eq_2]
    split
    · next member rest found =>
      simp [qualifiedLink?, found] at none
    · rfl
  · intro here new rest found
    obtain ⟨⟨member, rest'⟩, link, same⟩ := Option.map_eq_some_iff.mp found
    obtain ⟨rfl, rfl⟩ := Prod.mk.inj same
    have shorter := length_lt_of_localLink? link
    cases here with
    | nil => exact absurd shorter (Nat.not_lt_zero _)
    | cons c cs =>
      rw [resolveLinks.eq_2]
      split
      · next member' rest'' link' =>
        obtain ⟨rfl, rfl⟩ := Prod.mk.inj (Option.some.inj (link.symm.trans link'))
        simp
      · next none => exact absurd (link.symm.trans none) (Option.some_ne_none _)

/-! ## Opening tags -/

/-- A language at the start of a text, and what follows its tag. The tag ends with one character,
for a quote, and a closing bracket. -/
def Language (cs language tail : List Char) : Prop :=
  ∃ quote, quote ≠ '\n' ∧ language ≠ [] ∧ '>' ∉ language ∧ cs = language ++ quote :: '>' :: tail

/-- The opening tag of a code block at the start of a text, its language, and what follows the
tag. Any character but a line feed counts as a quote, a closing bracket as well. -/
def OpeningTag (here language tail : List Char) : Prop :=
  ∃ blank quote cs, isBlank blank = true ∧ quote ≠ '\n' ∧ Language cs language tail ∧
    here = "<pre".toList ++ blank :: ("class=".toList ++ quote :: cs)

/-- A language ends right before the first closing bracket, or with one character in between. -/
theorem language_iff {before after : List Char} (free : '>' ∉ before) :
    Language (before ++ '>' :: after) language tail ↔
      language ≠ [] ∧ ((∃ quote, quote ≠ '\n' ∧ before = language ++ [quote] ∧ tail = after) ∨
        (before = language ∧ after = '>' :: tail)) := by
  constructor
  · intro h
    obtain ⟨quote, line, filled, free', same⟩ := h
    refine ⟨filled, ?_⟩
    by_cases bracket : quote = '>'
    · subst bracket
      exact .inr (append_char_inj free free' same)
    · have free'' : '>' ∉ language ++ [quote] := by simp [free', Ne.symm bracket]
      rw [List.append_cons language quote] at same
      obtain ⟨split, behind⟩ := append_char_inj free free'' same
      exact .inl ⟨quote, line, split, behind.symm⟩
  · intro h
    obtain ⟨filled, ⟨quote, line, rfl, rfl⟩ | ⟨rfl, rfl⟩⟩ := h
    · refine ⟨quote, line, filled, ?_, by simp⟩
      intro h
      exact free (List.mem_append_left _ h)
    · exact ⟨'>', by decide, filled, free, rfl⟩

/-- Two tags with languages of one length at one place are one. -/
theorem Language.unique {language' tail' : List Char} (h : Language cs language tail)
    (h' : Language cs language' tail') (same : language.length = language'.length) :
    language = language' ∧ tail = tail' := by
  obtain ⟨quote, -, -, -, rfl⟩ := h
  obtain ⟨quote', -, -, -, split⟩ := h'
  obtain ⟨rfl, behind⟩ := List.append_inj split same
  exact ⟨rfl, (List.cons.inj (List.cons.inj behind).2).2⟩

/-- The test of the characters before the first closing bracket finds a language and a
character behind it. -/
theorem quoted_iff {before : List Char} :
    (!before.dropLast.isEmpty && before.getLast? != some '\n') = true ↔
      ∃ language quote, language ≠ [] ∧ quote ≠ '\n' ∧ before = language ++ [quote] := by
  obtain rfl | ⟨language, quote, rfl⟩ := List.eq_nil_or_concat before
  · simp
  · simp

theorem language_of_language? (h : language? cs = some (language, tail)) :
    Language cs language tail ∧ ∀ l t, Language cs l t → language.length ≤ l.length := by
  unfold language? at h
  split at h
  · exact nomatch h
  · next before after cut =>
    obtain ⟨rfl, first⟩ := cut?_eq_some_iff.mp cut
    have free := leftmost_char_iff.mp first
    simp only [List.singleton_append, language_iff free]
    split at h
    · next quoted =>
      obtain ⟨short, quote, filled, line, rfl⟩ := quoted_iff.mp quoted
      rw [List.dropLast_concat] at h
      obtain ⟨rfl, rfl⟩ := Prod.mk.inj (Option.some.inj h)
      refine ⟨⟨filled, .inl ⟨quote, line, rfl, rfl⟩⟩, ?_⟩
      intro l t other
      obtain ⟨-, ⟨quote', -, same, -⟩ | ⟨rfl, -⟩⟩ := other
      · exact Nat.le_of_eq (congrArg List.length (List.append_inj_left' same rfl))
      · simp
    · next quoted =>
      split at h
      · next c rest after =>
        obtain ⟨rfl, rfl⟩ := Prod.mk.inj (Option.some.inj h)
        refine ⟨⟨List.cons_ne_nil _ _, .inr ⟨rfl, rfl⟩⟩, ?_⟩
        intro l t other
        obtain ⟨filled, ⟨quote, line, same, -⟩ | ⟨rfl, -⟩⟩ := other
        · exact absurd (quoted_iff.mpr ⟨l, quote, filled, line, same⟩) quoted
        · exact Nat.le_refl _
      · exact nomatch h

theorem Language.isSome_language? (h : Language cs language tail) : (language? cs).isSome := by
  unfold language?
  split
  · next none =>
    obtain ⟨quote, -, -, -, rfl⟩ := h
    have stands : ['>'] <:+: language ++ quote :: '>' :: tail :=
      ⟨language ++ [quote], tail, by simp⟩
    rw [← isSome_cut?_iff, none] at stands
    exact stands
  · next before after cut =>
    obtain ⟨rfl, first⟩ := cut?_eq_some_iff.mp cut
    obtain ⟨filled, ends⟩ := (language_iff (leftmost_char_iff.mp first)).mp h
    split
    · rfl
    · next quoted =>
      obtain ⟨quote, line, same, -⟩ | ⟨rfl, rfl⟩ := ends
      · exact absurd (quoted_iff.mpr ⟨language, quote, filled, line, same⟩) quoted
      · obtain ⟨c, rest, rfl⟩ := List.exists_cons_of_ne_nil filled
        rfl

/-- The language that is read is the shortest. -/
theorem language?_eq_some_iff :
    language? cs = some (language, tail) ↔
      Language cs language tail ∧ ∀ l t, Language cs l t → language.length ≤ l.length := by
  constructor
  · exact language_of_language?
  · intro h
    obtain ⟨tag, shortest⟩ := h
    obtain ⟨⟨l, t⟩, found⟩ := Option.isSome_iff_exists.mp tag.isSome_language?
    obtain ⟨tag', shortest'⟩ := language_of_language? found
    obtain ⟨rfl, rfl⟩ := tag.unique tag' (Nat.le_antisymm (shortest _ _ tag') (shortest' _ _ tag))
    exact found

/-- The language after an opening tag's first quote is read. -/
theorem openingTag?_eq_some : openingTag? here = some (language, tail) ↔
    ∃ blank quote cs, isBlank blank = true ∧ quote ≠ '\n' ∧ language? cs = some (language, tail) ∧
      here = "<pre".toList ++ blank :: ("class=".toList ++ quote :: cs) := by
  unfold openingTag?
  constructor
  · intro h
    split at h
    · next blank cs opened =>
      split at h
      · next space =>
        split at h
        · next quote cs' named =>
          split at h
          · exact nomatch h
          · next line =>
            refine ⟨blank, quote, cs', space, line, h, ?_⟩
            rw [strip?_eq_some_iff.mp opened, strip?_eq_some_iff.mp named]
        · exact nomatch h
      · exact nomatch h
    · exact nomatch h
  · intro h
    obtain ⟨blank, quote, cs, space, line, found, rfl⟩ := h
    rw [strip?_eq_some_iff.mpr rfl]
    dsimp only
    rw [if_pos space, strip?_eq_some_iff.mpr rfl]
    dsimp only
    rw [if_neg line, found]

/-- An opening tag and the tag that is read after the same first quote. -/
theorem openingTag_iff {blank quote : Char} (space : isBlank blank = true) (line : quote ≠ '\n') :
    OpeningTag ("<pre".toList ++ blank :: ("class=".toList ++ quote :: cs)) language tail ↔
      Language cs language tail := by
  constructor
  · intro h
    obtain ⟨blank', quote', cs', -, -, tag, same⟩ := h
    have behind := (List.cons.inj (List.append_cancel_left same)).2
    rw [(List.cons.inj (List.append_cancel_left behind)).2]
    exact tag
  · intro h
    exact ⟨blank, quote, cs, space, line, h, rfl⟩

/-- The opening tag that is read is the one with the shortest language. -/
theorem openingTag?_eq_some_iff :
    openingTag? here = some (language, tail) ↔
      OpeningTag here language tail ∧ ∀ l t, OpeningTag here l t → language.length ≤ l.length := by
  rw [openingTag?_eq_some]
  constructor
  · intro h
    obtain ⟨blank, quote, cs, space, line, found, rfl⟩ := h
    simp only [openingTag_iff space line]
    exact language?_eq_some_iff.mp found
  · intro h
    obtain ⟨tag, shortest⟩ := h
    obtain ⟨blank, quote, cs, space, line, tag, rfl⟩ := tag
    simp only [openingTag_iff space line] at shortest
    exact ⟨blank, quote, cs, space, line, language?_eq_some_iff.mpr ⟨tag, shortest⟩, rfl⟩

example : openingTag? "<pre class='a>>'>".toList = some ("a".toList, "'>".toList) := by decide

/-- Behind a tag with a shorter language stands all that stands behind one with a longer
language. -/
theorem OpeningTag.suffix {language' tail' : List Char} (h : OpeningTag here language tail)
    (h' : OpeningTag here language' tail') (le : language.length ≤ language'.length) :
    tail' <:+ tail := by
  obtain ⟨blank, quote, cs, space, line, tag, rfl⟩ := h
  obtain ⟨q, -, -, -, rfl⟩ := tag
  obtain ⟨q', -, -, -, split⟩ := (openingTag_iff space line).mp h'
  -- both tails end one text, and the first one is at least as long
  have ends : tail <:+ language' ++ q' :: '>' :: tail' := ⟨language ++ [q, '>'], by simp [← split]⟩
  have ends' : tail' <:+ language' ++ q' :: '>' :: tail' := ⟨language' ++ [q', '>'], by simp⟩
  apply List.suffix_of_suffix_length_le ends' ends
  have size := congrArg List.length split
  simp only [List.length_append, List.length_cons] at size
  omega

/-- Where an opening tag stands, one is read. -/
theorem OpeningTag.exists_shortest (h : OpeningTag here language tail) :
    ∃ l t, openingTag? here = some (l, t) ∧ tail <:+ t := by
  obtain ⟨blank, quote, cs, space, line, tag, split⟩ := id h
  obtain ⟨⟨l, t⟩, read⟩ := Option.isSome_iff_exists.mp tag.isSome_language?
  have found := openingTag?_eq_some.mpr ⟨blank, quote, cs, space, line, read, split⟩
  obtain ⟨tag', shortest⟩ := openingTag?_eq_some_iff.mp found
  exact ⟨l, t, found, tag'.suffix h (shortest _ _ h)⟩

/-! ## Code blocks -/

/-- A code block's text without a code tag directly at its start, and then without one directly
at its end. -/
def Uncoded (body inner : List Char) : Prop :=
  ∃ middle,
    (body = "<code>".toList ++ middle ∨ (¬ "<code>".toList <+: body ∧ middle = body)) ∧
    (middle = inner ++ "</code>".toList ∨ (¬ "</code>".toList <:+ middle ∧ inner = middle))

theorem dropCodeTags_eq_iff : dropCodeTags body = inner ↔ Uncoded body inner := by
  unfold dropCodeTags Uncoded
  dsimp only
  rw [getD_stripEnd?_eq_iff]
  constructor
  · intro h
    exact ⟨_, getD_strip?_eq_iff.mp rfl, h⟩
  · intro h
    obtain ⟨middle, start, finish⟩ := h
    rw [getD_strip?_eq_iff.mpr start]
    exact finish

/-- A code block, for which its fenced form is written. The block opens with the shortest
language that its place allows, and ends with the first closing tag. -/
def CodeBlock : Rule := fun here new rest =>
  ∃ language body inner,
    OpeningTag here language (body ++ ("</pre>".toList ++ rest)) ∧
    (∀ l t, OpeningTag here l t → language.length ≤ l.length) ∧
    Leftmost ("</pre>".toList <+: ·) body ("</pre>".toList ++ rest) ∧
    Uncoded body inner ∧
    new = "```".toList ++ language ++ inner ++ "```".toList

theorem reads_fencedBlock? : Reads fencedBlock? CodeBlock where
  eq_some_iff := by
    intro here new rest
    unfold fencedBlock? CodeBlock
    constructor
    · intro h
      split at h
      · exact nomatch h
      · next language tail opened =>
        obtain ⟨⟨body, rest'⟩, cut, same⟩ := Option.map_eq_some_iff.mp h
        obtain ⟨rfl, rfl⟩ := Prod.mk.inj same
        obtain ⟨rfl, first⟩ := cut?_eq_some_iff.mp cut
        obtain ⟨tag, shortest⟩ := openingTag?_eq_some_iff.mp opened
        exact ⟨language, body, _, tag, shortest, first, dropCodeTags_eq_iff.mp rfl, rfl⟩
    · intro h
      obtain ⟨language, body, inner, tag, shortest, first, uncoded, rfl⟩ := h
      rw [openingTag?_eq_some_iff.mpr ⟨tag, shortest⟩]
      dsimp only
      rw [cut?_eq_some_iff.mpr ⟨rfl, first⟩, Option.map_some, dropCodeTags_eq_iff.mpr uncoded]
      rfl
  shorter := by
    intro here new rest h
    obtain ⟨language, body, inner, tag, -, -, -, -⟩ := h
    obtain ⟨blank, quote, cs, -, -, tag, rfl⟩ := tag
    obtain ⟨quote', -, -, -, rfl⟩ := tag
    simp only [List.length_append, List.length_cons]
    omega

/-- A code block stands where an opening tag of any language has a closing tag behind it. -/
theorem starts_codeBlock_iff : CodeBlock.Starts here ↔
    ∃ language tail, OpeningTag here language tail ∧ "</pre>".toList <:+: tail := by
  constructor
  · intro h
    obtain ⟨new, rest, language, body, inner, tag, -⟩ := h
    exact ⟨language, _, tag, body, rest, by rw [List.append_assoc]⟩
  · intro h
    obtain ⟨language, tail, tag, closed⟩ := h
    obtain ⟨l, t, opened, suffix⟩ := tag.exists_shortest
    have closed := closed.trans suffix.isInfix
    obtain ⟨⟨body, rest⟩, cut⟩ := Option.isSome_iff_exists.mp (isSome_cut?_iff.mpr closed)
    have read : fencedBlock? here = some (fence ++ l ++ dropCodeTags body ++ fence, rest) := by
      unfold fencedBlock?
      rw [opened]
      dsimp only
      rw [cut]
      rfl
    exact ⟨_, rest, reads_fencedBlock?.eq_some_iff.mp read⟩

/-! ## Inline code -/

/-- Code of one line up to the first closing tag, for which the code in backticks is written. -/
def InlineCode : Rule := fun here new rest =>
  ∃ code, '\n' ∉ code ∧ here = "<code>".toList ++ (code ++ ("</code>".toList ++ rest)) ∧
    Leftmost ("</code>".toList <+: ·) code ("</code>".toList ++ rest) ∧
    new = "`".toList ++ code ++ "`".toList

theorem reads_inlineCode? : Reads inlineCode? InlineCode where
  eq_some_iff := by
    intro here new rest
    unfold inlineCode? InlineCode
    constructor
    · intro h
      split at h
      · exact nomatch h
      · next cs opened =>
        split at h
        · next code rest' cut =>
          split at h
          · exact nomatch h
          · next line =>
            obtain ⟨rfl, rfl⟩ := Prod.mk.inj (Option.some.inj h)
            obtain ⟨rfl, first⟩ := cut?_eq_some_iff.mp cut
            exact ⟨code, by simpa using line, strip?_eq_some_iff.mp opened, first, rfl⟩
        · exact nomatch h
    · intro h
      obtain ⟨code, line, rfl, first, rfl⟩ := h
      rw [strip?_eq_some_iff.mpr rfl]
      dsimp only
      rw [cut?_eq_some_iff.mpr ⟨rfl, first⟩]
      simp [line]
  shorter := by
    intro here new rest h
    obtain ⟨code, -, rfl, -, -⟩ := h
    simp only [List.length_append]
    have : "<code>".toList.length = 6 := rfl
    omega

/-- Inline code stands where a code tag has a closing tag behind it in the same line. -/
theorem starts_inlineCode_iff : InlineCode.Starts here ↔
    ∃ code rest, '\n' ∉ code ∧ here = "<code>".toList ++ (code ++ ("</code>".toList ++ rest)) := by
  constructor
  · intro h
    obtain ⟨new, rest, code, line, split, -⟩ := h
    exact ⟨code, rest, line, split⟩
  · intro h
    obtain ⟨code, rest, line, rfl⟩ := h
    have closed : "</code>".toList <:+: code ++ ("</code>".toList ++ rest) :=
      ⟨code, rest, by rw [List.append_assoc]⟩
    obtain ⟨⟨code', rest'⟩, cut⟩ := Option.isSome_iff_exists.mp (isSome_cut?_iff.mpr closed)
    obtain ⟨split, first⟩ := cut?_eq_some_iff.mp cut
    refine ⟨_, rest', code', ?_, by rw [split], first, rfl⟩
    -- the first closing tag is not behind the given one, so the line goes on to it
    have le := first.first code _ split.symm ⟨rest, rfl⟩
    have before : code' <+: code :=
      List.prefix_of_prefix_length_le ⟨_, split.symm⟩ ⟨_, rfl⟩ le
    intro h
    exact line (before.subset h)

/-! ## All steps -/

/-- A comment is its description after four rewritings, each of which changes the places that
its rule matches and no others. Code is looked for where a block or a line of code is closed. -/
theorem toComment_eq_iff (owner description comment : String) :
    (toComment owner description = comment ↔
      ∃ dropped linked fenced,
        RewritesAll ParagraphTag description.toList dropped ∧
        RewritesAll (LocalLink owner.toList) dropped linked ∧
        RewritesFirst CodeBlock linked fenced ∧
        RewritesFirst InlineCode fenced comment.toList) ∧
    (∀ here, CodeBlock.Starts here ↔
      ∃ language tail, OpeningTag here language tail ∧ "</pre>".toList <:+: tail) ∧
    (∀ here, InlineCode.Starts here ↔ ∃ code rest, '\n' ∉ code ∧
      here = "<code>".toList ++ (code ++ ("</code>".toList ++ rest))) := by
  refine ⟨?_, fun _ => starts_codeBlock_iff, fun _ => starts_inlineCode_iff⟩
  simp only [← dropParagraphTags_eq_iff, ← resolveLinks_eq_iff,
    ← rewriteFirst_eq_iff reads_fencedBlock?, ← rewriteFirst_eq_iff reads_inlineCode?]
  unfold toComment
  dsimp only
  constructor
  · intro h
    exact ⟨_, _, _, rfl, rfl, rfl, by rw [← h, String.toList_ofList]⟩
  · intro h
    obtain ⟨dropped, linked, fenced, rfl, rfl, rfl, same⟩ := h
    rw [same, String.ofList_toList]

end Ambient.Description
