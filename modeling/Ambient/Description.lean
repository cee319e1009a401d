/-
  Descriptions: documentation text with a little HTML, as it is put into a comment. Paragraph
  tags go, links to a member of the documented class get the class's name, the first code
  block becomes a fenced block and the first inline code of one line is put in backticks.
-/
import Ambient.Text.Blank
import Ambient.Text.Find

namespace Ambient.Description

open Ambient.Text

/-- A text without its paragraph tags. -/
def dropParagraphTags : List Char → List Char
  | '<' :: 'p' :: '>' :: cs => dropParagraphTags cs
  | '<' :: '/' :: 'p' :: '>' :: cs => dropParagraphTags cs
  | c :: cs => c :: dropParagraphTags cs
  | [] => []

/-! ## Links -/

/-- The target of a link to a member at the start of a text, and what follows the link. -/
def localLink? (cs : List Char) : Option (List Char × List Char) :=
  match strip? "\x7b@link #".toList cs with
  | none => none
  | some rest =>
    match cut? ['\x7d'] rest with
    | some (c :: target, after) => some (c :: target, after)
    | _ => none

theorem length_lt_of_localLink? {cs target after : List Char}
    (h : localLink? cs = some (target, after)) : after.length < cs.length := by
  unfold localLink? at h
  split at h
  · simp at h
  · next rest hs =>
    split at h
    · next c t a hc =>
      simp only [Option.some.injEq, Prod.mk.injEq] at h
      have := length_lt_of_cut? (by simp) hc
      rw [strip?_eq_some_iff.mp hs, ← h.2]
      simp
      omega
    · simp at h

/-- A text whose links to a member name the member's owner. -/
def resolveLinks (owner : List Char) (cs : List Char) : List Char :=
  match cs with
  | [] => []
  | c :: cs =>
    match _h : localLink? (c :: cs) with
    | some (target, after) =>
      "\x7b@link ".toList ++ owner ++ '.' :: target ++ '\x7d' :: resolveLinks owner after
    | none => c :: resolveLinks owner cs
termination_by cs.length
decreasing_by
  · exact length_lt_of_localLink? _h
  · simp

/-! ## Code -/

/-- Three backticks. -/
def fence : List Char := "```".toList

/-- The language of an opening tag, read after the tag's first quote, and what follows the
tag. A language is not empty, holds no `>`, and ends as soon as one character that is not a
line feed and a `>` follow it. -/
def language? (cs : List Char) : Option (List Char × List Char) :=
  match cut? ['>'] cs with
  | none => none
  | some (before, after) =>
    if !before.dropLast.isEmpty && before.getLast? != some '\n' then
      some (before.dropLast, after)
    else
      match before, after with
      | _ :: _, '>' :: after => some (before, after)
      | _, _ => none

/-- The language of an opening tag of a code block at the start of a text, and what follows
the tag. Any character but a line feed counts as a quote. -/
def openingTag? (cs : List Char) : Option (List Char × List Char) :=
  match strip? "<pre".toList cs with
  | some (blank :: cs) =>
    if isBlank blank then
      match strip? "class=".toList cs with
      | some (quote :: cs) => if quote = '\n' then none else language? cs
      | _ => none
    else none
  | _ => none

/-- The text of a code block without a code tag at its start and one at its end. -/
def dropCodeTags (body : List Char) : List Char :=
  let body := (strip? "<code>".toList body).getD body
  (stripEnd? "</code>".toList body).getD body

/-- The fenced form of a code block at the start of a text, and what follows the block. -/
def fencedBlock? (cs : List Char) : Option (List Char × List Char) :=
  match openingTag? cs with
  | none => none
  | some (language, rest) =>
    (cut? "</pre>".toList rest).map fun (body, after) =>
      (fence ++ language ++ dropCodeTags body ++ fence, after)

/-- The backtick form of inline code of one line at the start of a text, and what follows. -/
def inlineCode? (cs : List Char) : Option (List Char × List Char) :=
  match strip? "<code>".toList cs with
  | none => none
  | some rest =>
    match cut? "</code>".toList rest with
    | some (body, after) =>
      if body.contains '\n' then none else some ("`".toList ++ body ++ "`".toList, after)
    | none => none

/-- A description in the form it has in the comments of the class `owner`. -/
def toComment (owner description : String) : String :=
  let cs := resolveLinks owner.toList (dropParagraphTags description.toList)
  String.ofList (rewriteFirst inlineCode? (rewriteFirst fencedBlock? cs))

end Ambient.Description
