/-
  The steps of a path: its components without `.`. They are read off the segments, and joining,
  taking the parent and displaying do to them what their names say. Main statements:
  `steps_join`, `steps_parent` and `components_display` (a displayed path is read back, a `.` in
  front and the root included).
-/
import Ambient.Path.Relative
import Mathlib.Data.List.Induction

namespace Ambient

/-! ## Parts of a text -/

namespace Text

variable {sep : Char}

theorem split_of_not_mem {cs : List Char} (h : sep ∉ cs) : split sep cs = [cs] := by
  induction cs with
  | nil => rfl
  | cons c cs ih =>
    rw [List.mem_cons, not_or] at h
    rw [split, if_neg (Ne.symm h.1), ih h.2]

/-- A separator ends the parts before it. -/
theorem split_append_sep (xs ys : List Char) :
    split sep (xs ++ sep :: ys) = split sep xs ++ split sep ys := by
  induction xs with
  | nil => rw [List.nil_append, split.eq_2, if_pos rfl, split, List.singleton_append]
  | cons x xs ih =>
    rw [List.cons_append, split, split]
    split
    · rw [ih, List.cons_append]
    · rw [ih]
      cases parts : split sep xs with
      | nil => exact absurd parts (split_ne_nil sep xs)
      | cons first rest => rfl

/-- Parts without separators are read back from their row. -/
theorem split_join {parts : List (List Char)} (some_part : parts ≠ [])
    (free : ∀ part ∈ parts, sep ∉ part) : split sep (join sep parts) = parts := by
  induction parts with
  | nil => exact absurd rfl some_part
  | cons part parts ih =>
    have first : split sep part = [part] := split_of_not_mem (free part List.mem_cons_self)
    cases parts with
    | nil => rw [join, List.intercalate_singleton, first]
    | cons next parts =>
      have later := ih (by simp) fun q hq => free q (List.mem_cons_of_mem _ hq)
      rw [join, List.intercalate_cons_cons, List.append_assoc, List.singleton_append,
        split_append_sep, first]
      exact congrArg ([part] ++ ·) later

end Text

namespace Path

/-! ## Segments -/

@[simp] theorem component?_nil : component? [] = none := rfl

theorem component?_ne_here (segment : List Char) : component? segment ≠ some .here := by
  unfold component?
  split
  · simp
  · split <;> simp

/-- The component that a segment stands for has the segment as its text. -/
theorem text_of_component? {segment : List Char} {c : Component}
    (h : component? segment = some c) : c.text = segment := by
  unfold component? at h
  split at h
  · simp at h
  · split at h
    · next up =>
      obtain rfl := Option.some.inj h
      exact up.symm
    · obtain rfl := Option.some.inj h
      rfl

/-- A path starts at the root just if its first segment is empty and not its only one. -/
theorem isAbsolute_iff {p : Path} {first : List Char} {rest : List (List Char)}
    (h : p.segments = first :: rest) : p.isAbsolute = true ↔ first = [] ∧ rest ≠ [] := by
  obtain ⟨chars⟩ := p
  cases chars with
  | nil =>
    obtain ⟨rfl, rfl⟩ := List.cons.inj h
    simp [isAbsolute]
  | cons c cs =>
    rw [segments, Text.split] at h
    by_cases sep : c = '/'
    · rw [if_pos sep] at h
      obtain ⟨rfl, rfl⟩ := List.cons.inj h
      simp [isAbsolute, sep, Text.split_ne_nil]
    · rw [if_neg sep] at h
      cases parts : Text.split '/' cs with
      | nil => exact absurd parts (Text.split_ne_nil '/' cs)
      | cons part parts' =>
        rw [parts] at h
        obtain ⟨rfl, rfl⟩ := List.cons.inj h
        simp [isAbsolute, sep]

theorem segments_ofSegments {first : List Char} {rest : List (List Char)}
    (free : ∀ segment ∈ first :: rest, '/' ∉ segment) :
    (ofSegments first rest).segments = first :: rest :=
  Text.split_join (by simp) free

/-- The steps are read off the segments, behind the root if there is one. -/
theorem steps_eq (p : Path) :
    p.steps = (if p.isAbsolute then [.root] else []) ++ p.segments.filterMap component? := by
  have kept : ∀ segments : List (List Char),
      (segments.filterMap component?).filter (· != .here) = segments.filterMap component? := by
    intro segments
    refine List.filter_eq_self.mpr fun c hc => ?_
    obtain ⟨segment, -, hs⟩ := List.mem_filterMap.mp hc
    rw [bne_iff_ne]
    rintro rfl
    exact component?_ne_here segment hs
  rw [steps, components]
  cases parts : p.segments with
  | nil => exact absurd parts (Text.split_ne_nil '/' p.chars)
  | cons first rest =>
    rw [List.filter_append, kept, firstComponent?]
    by_cases absolute : p.isAbsolute
    · have empty : first = [] := ((isAbsolute_iff parts).mp absolute).1
      rw [if_pos absolute, if_pos absolute, empty]
      rfl
    · rw [if_neg absolute, if_neg absolute, List.nil_append, List.filterMap_cons]
      by_cases here : first = ['.']
      · rw [if_pos here, here]
        rfl
      · rw [if_neg here]
        cases own : component? first with
        | none => rfl
        | some c =>
          have : c ≠ .here := fun h => component?_ne_here first (h ▸ own)
          simp [this]

/-- A text without separators stands for one step at most. -/
theorem steps_of_not_mem {segment : List Char} (h : '/' ∉ segment) :
    steps ⟨segment⟩ = (component? segment).toList := by
  have relative : isAbsolute ⟨segment⟩ = false := by
    cases segment with
    | nil => rfl
    | cons c cs =>
      rw [List.mem_cons, not_or] at h
      simp [isAbsolute, Ne.symm h.1]
  rw [steps_eq, relative, segments, Text.split_of_not_mem h]
  cases own : component? segment <;> simp [own]

/-! ## Joining -/

theorem isAbsolute_append {p : Path} (some_char : p.chars ≠ []) (cs : List Char) :
    isAbsolute ⟨p.chars ++ cs⟩ = p.isAbsolute := by
  obtain ⟨chars⟩ := p
  cases chars with
  | nil => exact absurd rfl some_char
  | cons c chars => rfl

/-- A separator ends the steps before it. -/
theorem steps_append_sep (xs : List Char) {q : Path} (relative : q.isAbsolute = false) :
    steps ⟨xs ++ '/' :: q.chars⟩ = steps ⟨xs ++ ['/']⟩ ++ q.steps := by
  have starts : isAbsolute ⟨xs ++ '/' :: q.chars⟩ = isAbsolute ⟨xs ++ ['/']⟩ := by
    cases xs <;> rfl
  have silent : (Text.split '/' []).filterMap component? = [] := rfl
  simp only [steps_eq, starts, relative, segments, Text.split_append_sep, List.filterMap_append,
    silent, List.append_nil, List.append_assoc]
  rfl

/-- A separator at the end of a path is no step. -/
theorem steps_closed {p : Path} (some_char : p.chars ≠ []) :
    steps ⟨p.chars ++ ['/']⟩ = p.steps := by
  have silent : (Text.split '/' []).filterMap component? = [] := rfl
  rw [steps_eq, steps_eq p, isAbsolute_append some_char, segments, Text.split_append_sep,
    List.filterMap_append, silent, List.append_nil]
  rfl

/-- A path that does not start at the root goes on where the one before it ends. -/
theorem steps_join (p : Path) {q : Path} (relative : q.isAbsolute = false) :
    (p.join q).steps = p.steps ++ q.steps := by
  rw [join, relative, if_neg (by simp)]
  cases last : p.chars.getLast? with
  | none =>
    have empty : p = ⟨[]⟩ := congrArg Path.mk (List.getLast?_eq_none_iff.mp last)
    rw [empty]
    rfl
  | some c =>
    obtain ⟨xs, ends⟩ := List.getLast?_eq_some_iff.mp last
    by_cases sep : c = '/'
    · rw [needsSeparator, last, sep, if_neg (by simp)]
      rw [sep] at ends
      rw [ends, List.append_assoc, List.singleton_append, steps_append_sep xs relative, ← ends]
    · rw [needsSeparator, last, if_pos (by simpa using sep), steps_append_sep _ relative,
        steps_closed (by simp [ends])]

theorem join_of_isAbsolute (p : Path) {q : Path} (h : q.isAbsolute = true) : p.join q = q :=
  if_pos h

theorem isAbsolute_join {p : Path} (h : p.isAbsolute = true) (q : Path) :
    (p.join q).isAbsolute = true := by
  have some_char : p.chars ≠ [] := by
    intro none
    simp [isAbsolute, none] at h
  rw [join]
  split
  · assumption
  · split <;> rwa [isAbsolute_append some_char]

/-- The last segment of a joined path is that of the path behind. -/
theorem getLast?_segments_join (p q : Path) :
    (p.join q).segments.getLast? = q.segments.getLast? := by
  have behind : ∀ xs : List Char, (segments ⟨xs ++ '/' :: q.chars⟩).getLast? =
      q.segments.getLast? := by
    intro xs
    obtain ⟨init, last, parts⟩ :=
      List.eq_nil_or_concat _ |>.resolve_left (Text.split_ne_nil '/' q.chars)
    rw [segments, Text.split_append_sep, segments, parts, List.concat_eq_append,
      ← List.append_assoc, List.getLast?_concat, List.getLast?_concat]
  rw [join]
  split
  · rfl
  · split
    · exact behind p.chars
    · next closed =>
      cases last : p.chars.getLast? with
      | none => rw [List.getLast?_eq_none_iff.mp last, List.nil_append]
      | some c =>
        obtain ⟨xs, ends⟩ := List.getLast?_eq_some_iff.mp last
        have sep : c = '/' := by simpa [needsSeparator, last] using closed
        rw [ends, sep, List.append_assoc, List.singleton_append, behind]

/-- A step down or up: the segment with its text stands for it, wherever it is in a path. -/
def IsMove (c : Component) : Prop := component? c.text = some c ∧ '/' ∉ c.text

theorem isMove_of_component? {segment : List Char} {c : Component}
    (h : component? segment = some c) (free : '/' ∉ segment) : IsMove c := by
  obtain rfl := text_of_component? h
  exact ⟨h, free⟩

theorem isMove_up : IsMove .up := ⟨rfl, by simp [Component.text]⟩

theorem IsMove.ne_root {c : Component} (h : IsMove c) : c ≠ .root := by
  rintro rfl
  exact h.2 (by simp [Component.text])

theorem IsMove.ne_here {c : Component} (h : IsMove c) : c ≠ .here := by
  rintro rfl
  exact component?_ne_here _ h.1

theorem isMove_of_mem_filterMap {p : Path} {c : Component}
    (h : c ∈ p.segments.filterMap component?) : IsMove c := by
  obtain ⟨segment, hs, own⟩ := List.mem_filterMap.mp h
  exact isMove_of_component? own (Text.sep_not_mem_of_mem_split hs)

/-- All steps behind the root are moves. -/
theorem isMove_of_mem_steps {p : Path} {c : Component} (h : c ∈ p.steps) (hc : c ≠ .root) :
    IsMove c := by
  rw [steps_eq] at h
  rcases List.mem_append.mp h with root | move
  · split at root
    · exact absurd (List.mem_singleton.mp root) hc
    · simp at root
  · exact isMove_of_mem_filterMap move

/-- A path is absolute just if its steps start at the root. -/
theorem root_mem_steps {p : Path} : .root ∈ p.steps ↔ p.isAbsolute = true := by
  rw [steps_eq, List.mem_append]
  constructor
  · rintro (root | move)
    · by_contra relative
      simp [relative] at root
    · exact absurd rfl (isMove_of_mem_filterMap move).ne_root
  · intro absolute
    simp [absolute]

theorem exists_steps_of_isAbsolute {p : Path} (h : p.isAbsolute = true) :
    ∃ moves, p.steps = .root :: moves ∧ ∀ c ∈ moves, IsMove c :=
  ⟨p.segments.filterMap component?, by rw [steps_eq, h]; rfl,
    fun _ hc => isMove_of_mem_filterMap hc⟩

theorem IsMove.isAbsolute_text {c : Component} (h : IsMove c) : isAbsolute ⟨c.text⟩ = false := by
  rw [Bool.eq_false_iff, Ne, ← root_mem_steps, steps_of_not_mem h.2, h.1]
  simpa using h.ne_root.symm

/-- Moves are taken one after the other. -/
theorem steps_joinAll {moves : List Component} (h : ∀ c ∈ moves, IsMove c) (p : Path) :
    (p.joinAll (moves.map Component.text)).steps = p.steps ++ moves := by
  induction moves generalizing p with
  | nil => exact (List.append_nil _).symm
  | cons c moves ih =>
    obtain ⟨own, free⟩ := h c List.mem_cons_self
    have one : steps ⟨c.text⟩ = [c] := by rw [steps_of_not_mem free, own]; rfl
    have later := ih (fun d hd => h d (List.mem_cons_of_mem _ hd)) (p.join ⟨c.text⟩)
    rw [steps_join p (h c List.mem_cons_self).isAbsolute_text, one, List.append_assoc,
      List.singleton_append] at later
    exact later

/-! ## The end of a path -/

theorem filterMap_trimEnd (segments : List (List Char)) :
    (trimEnd segments).filterMap component? = segments.filterMap component? := by
  induction segments using List.reverseRecOn with
  | nil => rfl
  | append_singleton segments last ih =>
    rw [trimEnd, List.reverse_concat, List.dropWhile_cons]
    split
    · next silent =>
      rw [List.filterMap_append, ← ih]
      simp [trimEnd, component?, silent]
    · rw [← List.reverse_concat, List.reverse_reverse]

/-- The last of the segments that are kept stands for a component. -/
theorem exists_component?_of_trimEnd {segments init : List (List Char)} {last : List Char}
    (h : trimEnd segments = init ++ [last]) : ∃ c, component? last = some c := by
  have loud : isSilent last = false := by
    have kept : (segments.reverse.dropWhile isSilent).head? = some last := by
      rw [trimEnd] at h
      rw [← List.reverse_reverse (segments.reverse.dropWhile isSilent), h]
      simp
    have := List.head?_dropWhile_not isSilent segments.reverse
    simpa [kept] using this
  rw [component?, loud]
  split
  · simp_all
  · split
    · exact ⟨_, rfl⟩
    · exact ⟨_, rfl⟩

/-- A path whose last segment is a name ends in the step of that name. -/
theorem exists_steps_of_getLast? {p : Path} {last : List Char} {c : Component}
    (h : p.segments.getLast? = some last) (own : component? last = some c) :
    ∃ init, p.steps = init ++ [c] := by
  obtain ⟨xs, ends⟩ := List.getLast?_eq_some_iff.mp h
  refine ⟨(if p.isAbsolute then [.root] else []) ++ xs.filterMap component?, ?_⟩
  rw [steps_eq, ends, List.filterMap_append, ← List.append_assoc]
  simp [own]

theorem free_of_mem_trimEnd {p : Path} {first : List Char} {rest init : List (List Char)}
    (parts : p.segments = first :: rest) (h : init <+: rest) :
    ∀ segment ∈ first :: trimEnd init, '/' ∉ segment := by
  intro segment hs
  have within : segment ∈ p.segments := by
    rw [parts]
    rcases List.mem_cons.mp hs with rfl | hs
    · exact List.mem_cons_self
    · exact List.mem_cons_of_mem _ (((trimEnd_isPrefix init).trans h).subset hs)
  exact Text.sep_not_mem_of_mem_split within

/-- Cutting segments off the end of a path leaves it absolute, or not, unless only the root is
left. -/
theorem isAbsolute_ofSegments {p : Path} {first : List Char} {rest init : List (List Char)}
    (parts : p.segments = first :: rest) (h : init <+: rest) (shorter : init ≠ rest)
    (further : ¬ (p.isAbsolute && (trimEnd init).isEmpty) = true) :
    (ofSegments first (trimEnd init)).isAbsolute = p.isAbsolute := by
  have start := isAbsolute_iff parts
  rw [Bool.eq_iff_iff, isAbsolute_iff (segments_ofSegments (free_of_mem_trimEnd parts h)), start]
  have some_rest : rest ≠ [] := by
    rintro rfl
    exact shorter (List.prefix_nil.mp h)
  refine and_congr_right fun empty => iff_of_true (fun none => further ?_) some_rest
  rw [none, Bool.and_eq_true]
  exact ⟨start.mpr ⟨empty, some_rest⟩, rfl⟩

/-- Cutting segments off the end of a path takes their steps away. -/
theorem steps_rebuild {p : Path} {first : List Char} {rest init : List (List Char)}
    (parts : p.segments = first :: rest) (h : init <+: rest) (shorter : init ≠ rest) :
    (rebuild p.isAbsolute first (trimEnd init)).steps =
      (if p.isAbsolute then [.root] else []) ++ (first :: init).filterMap component? := by
  have start := isAbsolute_iff parts
  have kept : (first :: init).filterMap component? =
      (first :: trimEnd init).filterMap component? := by
    rw [List.filterMap_cons, List.filterMap_cons, filterMap_trimEnd]
  rw [kept, rebuild]
  split
  · next root =>
    obtain ⟨absolute, none⟩ := Bool.and_eq_true_iff.mp root
    rw [List.isEmpty_iff.mp none, absolute, (start.mp absolute).1]
    rfl
  · next further =>
    have segments_eq := segments_ofSegments (free_of_mem_trimEnd parts h)
    rw [steps_eq, isAbsolute_ofSegments parts h shorter further, segments_eq]

theorem parent?_of_segments {p : Path} {first : List Char} {rest : List (List Char)}
    (parts : p.segments = first :: rest) :
    p.parent? = if (trimEnd rest).isEmpty then
        if p.isAbsolute || first.isEmpty then none else some .empty
      else some (rebuild p.isAbsolute first (trimEnd (trimEnd rest).dropLast)) := by
  rw [parent?, parts]

/-- A parent has one step less than its path. The empty path stands for the parent of a path
that has none. -/
theorem steps_parent (p : Path) : (p.parent?.getD .empty).steps = p.steps.dropLast := by
  rw [steps_eq p]
  cases parts : p.segments with
  | nil => exact absurd parts (Text.split_ne_nil '/' p.chars)
  | cons first rest =>
    rw [parent?_of_segments parts]
    have own : (first :: rest).filterMap component? =
        (first :: trimEnd rest).filterMap component? := by
      rw [List.filterMap_cons, List.filterMap_cons, filterMap_trimEnd]
    rw [own]
    rcases List.eq_nil_or_concat (trimEnd rest) with body | ⟨init, last, body⟩
    · have single : ((if p.isAbsolute then [Component.root] else []) ++
          [first].filterMap component?).dropLast = [] := by
        by_cases absolute : p.isAbsolute
        · rw [((isAbsolute_iff parts).mp absolute).1, absolute]
          rfl
        · rw [if_neg absolute, List.nil_append]
          cases h : component? first <;> simp [h]
      have none : (trimEnd rest).isEmpty = true := by simp [body]
      rw [if_pos none, body, single]
      split <;> rfl
    · rw [List.concat_eq_append] at body
      obtain ⟨c, hc⟩ := exists_component?_of_trimEnd body
      have cut : init <+: rest := by
        refine List.IsPrefix.trans ?_ (trimEnd_isPrefix rest)
        rw [body]
        exact List.prefix_append _ _
      have shorter : init ≠ rest := by
        intro same
        have shortened := (trimEnd_isPrefix rest).length_le
        rw [body, List.length_append, same, List.length_singleton] at shortened
        omega
      have some_body : ¬ (trimEnd rest).isEmpty = true := by simp [body]
      rw [if_neg some_body, body, List.dropLast_concat, Option.getD_some,
        steps_rebuild parts cut shorter, ← List.cons_append, List.filterMap_append,
        ← List.append_assoc]
      simp [hc]

/-- The root and the empty path have no further step. -/
theorem steps_of_parent?_eq_none {p : Path} (h : p.parent? = none) :
    p.steps = if p.isAbsolute then [.root] else [] := by
  cases parts : p.segments with
  | nil => exact absurd parts (Text.split_ne_nil '/' p.chars)
  | cons first rest =>
    rw [parent?_of_segments parts] at h
    have body : trimEnd rest = [] := by
      by_contra some_body
      simp [some_body] at h
    have no_name : component? first = none := by
      by_cases absolute : p.isAbsolute
      · rw [((isAbsolute_iff parts).mp absolute).1, component?_nil]
      · have empty : first = [] := by simpa [body, absolute] using h
        rw [empty, component?_nil]
    rw [steps_eq, parts, List.filterMap_cons, no_name, ← filterMap_trimEnd, body]
    simp

/-! ## Displaying -/

theorem IsMove.text_ne_nil {c : Component} (h : IsMove c) : c.text ≠ [] := by
  intro empty
  simp [IsMove, empty] at h

theorem filterMap_text {moves : List Component} (h : ∀ c ∈ moves, IsMove c) :
    (moves.map Component.text).filterMap component? = moves := by
  induction moves with
  | nil => rfl
  | cons c moves ih =>
    rw [List.map_cons, List.filterMap_cons, (h c List.mem_cons_self).1,
      ih fun d hd => h d (List.mem_cons_of_mem _ hd)]

theorem free_of_moves {moves : List Component} (h : ∀ c ∈ moves, IsMove c) :
    ∀ text ∈ moves.map Component.text, '/' ∉ text := by
  intro text ht
  obtain ⟨c, hc, rfl⟩ := List.mem_map.mp ht
  exact (h c hc).2

/-- What the components of a path are: moves, behind the root or a `.` if there is one. -/
theorem exists_components (p : Path) : ∃ moves : List Component, (∀ c ∈ moves, IsMove c) ∧
    (p.components = .root :: moves ∨ p.components = .here :: moves ∨ p.components = moves) := by
  cases parts : p.segments with
  | nil => exact absurd parts (Text.split_ne_nil '/' p.chars)
  | cons first rest =>
    have later : ∀ c ∈ rest.filterMap component?, IsMove c := by
      intro c hc
      obtain ⟨segment, within, own⟩ := List.mem_filterMap.mp hc
      have member : segment ∈ p.segments := parts ▸ List.mem_cons_of_mem _ within
      exact isMove_of_component? own (Text.sep_not_mem_of_mem_split member)
    have free : '/' ∉ first := Text.sep_not_mem_of_mem_split (parts ▸ List.mem_cons_self)
    rw [components, parts]
    dsimp only
    rw [firstComponent?]
    split
    · exact ⟨_, later, .inl rfl⟩
    · split
      · exact ⟨_, later, .inr (.inl rfl)⟩
      · refine ⟨_, ?_, .inr (.inr rfl)⟩
        intro c hc
        rcases List.mem_append.mp hc with own | hc
        · exact isMove_of_component? (by simpa using own) free
        · exact later c hc

/-- Moves in a row, the first of which may be a `.`, are read back. -/
theorem components_row {c : Component} {moves : List Component} (start : c = .here ∨ IsMove c)
    (h : ∀ d ∈ moves, IsMove d) :
    components ⟨Text.join '/' ((c :: moves).map Component.text)⟩ = c :: moves := by
  have free : ∀ text ∈ (c :: moves).map Component.text, '/' ∉ text := by
    intro text ht
    rcases List.mem_cons.mp ht with rfl | ht
    · rcases start with rfl | move
      · simp [Component.text]
      · exact move.2
    · exact free_of_moves h text ht
  have parts : segments ⟨Text.join '/' ((c :: moves).map Component.text)⟩ =
      c.text :: moves.map Component.text := Text.split_join (by simp) free
  have relative : isAbsolute ⟨Text.join '/' ((c :: moves).map Component.text)⟩ = false := by
    rw [Bool.eq_false_iff, Ne, isAbsolute_iff parts]
    rintro ⟨silent, -⟩
    rcases start with rfl | move
    · simp [Component.text] at silent
    · exact move.text_ne_nil silent
  rw [components, parts]
  dsimp only
  rw [filterMap_text h, firstComponent?, relative, if_neg Bool.false_ne_true]
  rcases start with rfl | move
  · rfl
  · have loud : c.text ≠ ['.'] := by
      intro here
      have own := move.1
      rw [here] at own
      cases own
    rw [if_neg loud, move.1]
    rfl

/-- The root in front of moves in a row is read back, though two separators stand there. -/
theorem components_rooted_row {moves : List Component} (h : ∀ c ∈ moves, IsMove c) :
    components ⟨Text.join '/' ((.root :: moves).map Component.text)⟩ = .root :: moves := by
  cases moves with
  | nil => rfl
  | cons c moves =>
    have row : Text.join '/' ((.root :: c :: moves).map Component.text) =
        '/' :: '/' :: Text.join '/' ((c :: moves).map Component.text) :=
      Text.join_append_cons '/' (List.cons_ne_nil ['/'] []) c.text (moves.map Component.text)
    have parts : segments ⟨'/' :: '/' :: Text.join '/' ((c :: moves).map Component.text)⟩ =
        [] :: [] :: (c :: moves).map Component.text := by
      have read := Text.split_join (by simp) (free_of_moves h)
      rw [segments, Text.split, if_pos rfl, Text.split, if_pos rfl, read]
    rw [row, components, parts]
    dsimp only
    rw [List.filterMap_cons, component?_nil, filterMap_text h]
    rfl

/-- A path is displayed as a text with the same components. -/
theorem components_display (p : Path) : (ofString p.display).components = p.components := by
  have written : ofString p.display = ⟨Text.join '/' (p.components.map Component.text)⟩ := by
    rw [display, ofString, String.toList_ofList]
  obtain ⟨moves, h, rooted | dotted | bare⟩ := exists_components p
  · rw [written, rooted, components_rooted_row h]
  · rw [written, dotted, components_row (.inl rfl) h]
  · rw [written, bare]
    cases moves with
    | nil => rfl
    | cons c moves =>
      exact components_row (.inr (h c List.mem_cons_self)) fun d hd =>
        h d (List.mem_cons_of_mem _ hd)

theorem steps_display (p : Path) : (ofString p.display).steps = p.steps := by
  rw [steps, components_display]
  rfl

end Path

end Ambient
