/-
  Leftmost matches: a text in which the first place that a rule matches is rewritten, or one
  such place after the other. A rule is a relation of the text from a place on, of what is written
  there, and of what follows the match. Main statements, for a function that reads the matches of
  a rule: `rewriteFirst_eq_iff` and `scan_eq_iff` (a scan from the left rewrites what the
  rule says), and `cut?_eq_some_iff` (a cut text is cut at the first piece).
-/
import Ambient.Text.Find
import Mathlib.Data.List.Basic

namespace Ambient.Text

/-! ## First places -/

/-- The first place in a text with a property: what stands before it, and the text from there
on. -/
structure Leftmost (P : List Char → Prop) (before here : List Char) : Prop where
  holds : P here
  first : ∀ b h, before ++ here = b ++ h → P h → before.length ≤ b.length

/-- No place in a text has a property. -/
def Nowhere (P : List Char → Prop) (text : List Char) : Prop :=
  ∀ before here, text = before ++ here → ¬ P here

variable {P : List Char → Prop} {before here before' here' text : List Char} {c : Char}

theorem Leftmost.start (h : P here) : Leftmost P [] here := ⟨h, fun _ _ _ _ => Nat.zero_le _⟩

/-- A text has one first place. -/
theorem Leftmost.unique (h : Leftmost P before here) (h' : Leftmost P before' here')
    (same : before ++ here = before' ++ here') : before = before' ∧ here = here' := by
  have le := h.first before' here' same h'.holds
  have ge := h'.first before here same.symm h.holds
  exact List.append_inj same (Nat.le_antisymm le ge)

theorem Leftmost.cons (h : Leftmost P before here) (other : ¬ P (c :: (before ++ here))) :
    Leftmost P (c :: before) here := by
  refine ⟨h.holds, ?_⟩
  intro b r split hr
  cases b with
  | nil =>
    obtain rfl : c :: (before ++ here) = r := split
    exact absurd hr other
  | cons d b =>
    have later := h.first b r (List.cons.inj split).2 hr
    simp only [List.length_cons]
    omega

theorem nowhere_nil (h : ¬ P []) : Nowhere P [] := by
  intro b r split
  obtain ⟨-, rfl⟩ := List.append_eq_nil_iff.mp split.symm
  exact h

theorem Nowhere.cons (h : Nowhere P text) (other : ¬ P (c :: text)) : Nowhere P (c :: text) := by
  intro b r split
  cases b with
  | nil =>
    obtain rfl : c :: text = r := split
    exact other
  | cons d b => exact h b r (List.cons.inj split).2

/-- Where a property holds nowhere, it has no first place. -/
theorem Nowhere.not_leftmost (h : Nowhere P (before ++ here)) : ¬ Leftmost P before here :=
  fun first => h before here rfl first.holds

/-- A character stands first behind a text that lacks it. -/
theorem leftmost_char_iff {rest : List Char} :
    Leftmost ([c] <+: ·) before (c :: rest) ↔ c ∉ before := by
  constructor
  · intro h hc
    obtain ⟨b, a, rfl⟩ := List.append_of_mem hc
    have earlier := h.first b (c :: (a ++ c :: rest)) (by simp) ⟨_, rfl⟩
    simp only [List.length_append, List.length_cons] at earlier
    omega
  · intro hc
    refine ⟨⟨rest, rfl⟩, ?_⟩
    intro b r split hr
    obtain ⟨tail, rfl⟩ := hr
    by_contra later
    -- the character would stand in what precedes its first place
    have inside : (before ++ c :: rest)[b.length]? = some c := by rw [split]; simp
    rw [List.getElem?_append_left (by omega)] at inside
    exact hc (List.mem_of_getElem? inside)

/-- Two texts that lack a character are equal if they are equal with it behind them. -/
theorem append_char_inj {rest rest' : List Char} (h : c ∉ before) (h' : c ∉ before')
    (same : before ++ c :: rest = before' ++ c :: rest') : before = before' ∧ rest = rest' := by
  obtain ⟨eq, here⟩ := (leftmost_char_iff.mpr h).unique (leftmost_char_iff.mpr h') same
  exact ⟨eq, (List.cons.inj here).2⟩

theorem strip?_eq_none_iff {piece cs : List Char} : strip? piece cs = none ↔ ¬ piece <+: cs := by
  rw [Option.eq_none_iff_forall_ne_some]
  simp only [ne_eq, strip?_eq_some_iff]
  constructor
  · intro h start
    obtain ⟨rest, same⟩ := start
    exact h rest same.symm
  · intro h rest same
    exact h ⟨rest, same.symm⟩

theorem stripEnd?_eq_none_iff {piece cs : List Char} :
    stripEnd? piece cs = none ↔ ¬ piece <:+ cs := by
  unfold stripEnd?
  rw [Option.map_eq_none_iff, strip?_eq_none_iff, List.reverse_prefix]

/-- A text without a piece at its start, if the piece is there. -/
theorem getD_strip?_eq_iff {piece cs rest : List Char} :
    (strip? piece cs).getD cs = rest ↔ cs = piece ++ rest ∨ (¬ piece <+: cs ∧ rest = cs) := by
  cases stripped : strip? piece cs with
  | none =>
    have other := strip?_eq_none_iff.mp stripped
    have apart : cs ≠ piece ++ rest := fun same => other ⟨rest, same.symm⟩
    simp only [Option.getD_none, apart, other, not_false_eq_true, true_and, false_or]
    exact eq_comm
  | some rest' =>
    have split := strip?_eq_some_iff.mp stripped
    simp [split]

/-- A text without a piece at its end, if the piece is there. -/
theorem getD_stripEnd?_eq_iff {piece cs rest : List Char} :
    (stripEnd? piece cs).getD cs = rest ↔ cs = rest ++ piece ∨ (¬ piece <:+ cs ∧ rest = cs) := by
  cases stripped : stripEnd? piece cs with
  | none =>
    have other := stripEnd?_eq_none_iff.mp stripped
    have apart : cs ≠ rest ++ piece := fun same => other ⟨rest, same.symm⟩
    simp only [Option.getD_none, apart, other, not_false_eq_true, true_and, false_or]
    exact eq_comm
  | some rest' =>
    have split := stripEnd?_eq_some_iff.mp stripped
    simp [split]

/-- A text is cut if the piece stands in it. -/
theorem isSome_cut?_iff {piece cs : List Char} : (cut? piece cs).isSome ↔ piece <:+: cs := by
  induction cs with
  | nil =>
    unfold cut?
    cases piece with
    | nil => simp [strip?]
    | cons p ps => simp [strip?]
  | cons d cs ih =>
    unfold cut?
    rw [List.infix_cons_iff, ← ih]
    cases stripped : strip? piece (d :: cs) with
    | some rest => simp [strip?_eq_some_iff.mp stripped]
    | none => simp [strip?_eq_none_iff.mp stripped]

/-- A text is cut at the first place where the piece stands. -/
theorem cut?_eq_some_iff {piece cs after : List Char} :
    cut? piece cs = some (before, after) ↔
      cs = before ++ (piece ++ after) ∧ Leftmost (piece <+: ·) before (piece ++ after) := by
  have sound : ∀ {before after : List Char}, cut? piece cs = some (before, after) →
      cs = before ++ (piece ++ after) ∧ Leftmost (piece <+: ·) before (piece ++ after) := by
    intro before after h
    have split : cs = before ++ (piece ++ after) := by rw [eq_of_cut? h, List.append_assoc]
    refine ⟨split, ⟨after, rfl⟩, ?_⟩
    intro b r same hr
    obtain ⟨tail, rfl⟩ := hr
    by_contra earlier
    have none := not_strip?_of_cut? h (i := b.length) (by omega)
    rw [split, same, List.drop_left, strip?_eq_some_iff.mpr rfl] at none
    exact nomatch none
  refine ⟨sound, ?_⟩
  intro h
  obtain ⟨rfl, first⟩ := h
  have stands : piece <:+: before ++ (piece ++ after) := ⟨before, after, by simp⟩
  obtain ⟨⟨b, a⟩, found⟩ := Option.isSome_iff_exists.mp (isSome_cut?_iff.mpr stands)
  obtain ⟨split, first'⟩ := sound found
  obtain ⟨rfl, same⟩ := first.unique first' split
  rw [found, List.append_cancel_left same]

/-! ## Rewriting -/

/-- A rule: a text from a place on, what is written for the match that it starts with, and what
follows the match. -/
abbrev Rule := List Char → List Char → List Char → Prop

/-- A rule matches at the start of a text. -/
def Rule.Starts (rule : Rule) (here : List Char) : Prop := ∃ new rest, rule here new rest

/-- The first match in a text is rewritten, and all else is kept. -/
inductive RewritesFirst (rule : Rule) : List Char → List Char → Prop
  | kept {text : List Char} (none : Nowhere rule.Starts text) : RewritesFirst rule text text
  | rewritten {before here new rest : List Char} (first : Leftmost rule.Starts before here)
      (found : rule here new rest) : RewritesFirst rule (before ++ here) (before ++ (new ++ rest))

/-- The first match in a text is rewritten, then the first one in what follows it, and so on to
the end. All else is kept. -/
inductive RewritesAll (rule : Rule) : List Char → List Char → Prop
  | kept {text : List Char} (none : Nowhere rule.Starts text) : RewritesAll rule text text
  | rewritten {before here new rest out : List Char} (first : Leftmost rule.Starts before here)
      (found : rule here new rest) (later : RewritesAll rule rest out) :
      RewritesAll rule (before ++ here) (before ++ (new ++ out))

/-- A function gives just the matches of a rule, and none of them is empty. -/
structure Reads (read : List Char → Option (List Char × List Char)) (rule : Rule) : Prop where
  eq_some_iff : ∀ {here new rest}, read here = some (new, rest) ↔ rule here new rest
  shorter : ∀ {here new rest}, rule here new rest → rest.length < here.length

section Reading

variable {read : List Char → Option (List Char × List Char)} {rule : Rule}

theorem Reads.not_starts (reads : Reads read rule) (h : read here = none) :
    ¬ rule.Starts here := by
  intro starts
  obtain ⟨new, rest, found⟩ := starts
  rw [reads.eq_some_iff.mpr found] at h
  exact nomatch h

theorem Reads.not_starts_nil (reads : Reads read rule) : ¬ rule.Starts [] := by
  intro starts
  obtain ⟨new, rest, found⟩ := starts
  exact Nat.not_lt_zero _ (reads.shorter found)

/-- At one place a rule that is read writes one text. -/
theorem Reads.unique (reads : Reads read rule) {new rest new' rest' : List Char}
    (h : rule here new rest) (h' : rule here new' rest') : new = new' ∧ rest = rest' := by
  have same := (reads.eq_some_iff.mpr h).symm.trans (reads.eq_some_iff.mpr h')
  exact Prod.mk.inj (Option.some.inj same)

theorem RewritesFirst.cons {out : List Char} (h : RewritesFirst rule text out)
    (other : ¬ rule.Starts (c :: text)) : RewritesFirst rule (c :: text) (c :: out) := by
  cases h with
  | kept none => exact .kept (none.cons other)
  | rewritten first found => exact .rewritten (first.cons other) found

theorem RewritesAll.cons {out : List Char} (h : RewritesAll rule text out)
    (other : ¬ rule.Starts (c :: text)) : RewritesAll rule (c :: text) (c :: out) := by
  cases h with
  | kept none => exact .kept (none.cons other)
  | rewritten first found later => exact .rewritten (first.cons other) found later

theorem RewritesFirst.unique (reads : Reads read rule) {out out' : List Char}
    (h : RewritesFirst rule text out) (h' : RewritesFirst rule text out') : out = out' := by
  cases h with
  | kept none =>
    cases h' with
    | kept _ => rfl
    | rewritten first _ => exact absurd first none.not_leftmost
  | @rewritten before here new rest first found =>
    generalize split : before ++ here = text at h'
    cases h' with
    | kept none => exact absurd first (split ▸ none).not_leftmost
    | rewritten first' found' =>
      obtain ⟨rfl, rfl⟩ := first.unique first' split
      obtain ⟨rfl, rfl⟩ := reads.unique found found'
      rfl

theorem RewritesAll.unique (reads : Reads read rule) {out out' : List Char}
    (h : RewritesAll rule text out) (h' : RewritesAll rule text out') : out = out' := by
  induction h generalizing out' with
  | kept none =>
    cases h' with
    | kept _ => rfl
    | rewritten first _ _ => exact absurd first none.not_leftmost
  | @rewritten before here new rest out first found _ ih =>
    generalize split : before ++ here = text at h'
    cases h' with
    | kept none => exact absurd first (split ▸ none).not_leftmost
    | rewritten first' found' later' =>
      obtain ⟨rfl, rfl⟩ := first.unique first' split
      obtain ⟨rfl, rfl⟩ := reads.unique found found'
      rw [ih later']

/-- A scan from the left rewrites the first match. -/
theorem rewriteFirst_eq_iff (reads : Reads read rule) {out : List Char} :
    rewriteFirst read text = out ↔ RewritesFirst rule text out := by
  have rewrites : ∀ text, RewritesFirst rule text (rewriteFirst read text) := by
    intro text
    induction text with
    | nil => exact .kept (nowhere_nil reads.not_starts_nil)
    | cons c cs ih =>
      unfold rewriteFirst
      cases found : read (c :: cs) with
      | none => exact ih.cons (reads.not_starts found)
      | some x =>
        have found := reads.eq_some_iff.mp found
        exact .rewritten (.start ⟨x.1, x.2, found⟩) found
  constructor
  · intro h
    exact h ▸ rewrites text
  · intro h
    exact (rewrites text).unique reads h

/-- A scan from the left that goes on behind each match rewrites them all. -/
theorem rewritesAll_scan (reads : Reads read rule) {scan : List Char → List Char}
    (nil : scan [] = []) (skips : ∀ {c cs}, read (c :: cs) = none → scan (c :: cs) = c :: scan cs)
    (writes : ∀ {here new rest}, read here = some (new, rest) → scan here = new ++ scan rest)
    (text : List Char) : RewritesAll rule text (scan text) := by
  -- by the text's length, as what follows a match is some shorter text
  induction size : text.length using Nat.strongRecOn generalizing text with
  | ind n ih =>
    cases text with
    | nil =>
      rw [nil]
      exact .kept (nowhere_nil reads.not_starts_nil)
    | cons c cs =>
      cases found : read (c :: cs) with
      | none =>
        have later := ih cs.length (by rw [← size]; exact Nat.lt_succ_self _) cs rfl
        rw [skips found]
        exact later.cons (reads.not_starts found)
      | some x =>
        obtain ⟨new, rest⟩ := x
        rw [writes found]
        have found := reads.eq_some_iff.mp found
        have later := ih rest.length (by rw [← size]; exact reads.shorter found) rest rfl
        exact .rewritten (.start ⟨new, rest, found⟩) found later

/-- Such a scan gives the one text in which all matches are rewritten. -/
theorem scan_eq_iff (reads : Reads read rule) {scan : List Char → List Char}
    (nil : scan [] = []) (skips : ∀ {c cs}, read (c :: cs) = none → scan (c :: cs) = c :: scan cs)
    (writes : ∀ {here new rest}, read here = some (new, rest) → scan here = new ++ scan rest)
    {out : List Char} : scan text = out ↔ RewritesAll rule text out := by
  have rewrites := rewritesAll_scan reads nil skips writes text
  constructor
  · intro h
    exact h ▸ rewrites
  · intro h
    exact rewrites.unique reads h

end Reading

end Ambient.Text
