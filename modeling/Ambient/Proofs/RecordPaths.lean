/-
  The paths of records: below the root of a database, the parts of a dotted name lead to the
  file. Main statements: `recordPath_eq_joinAll` (which file) and `recordPath_eq_join` (how it is
  reached from the root).
-/
import Ambient.Database.Layout
import Ambient.Proofs.PathSteps

namespace Ambient

namespace Path

/-! ## Joining names -/

/-- A text that is a name wherever it is in a path. -/
def IsName (segment : List Char) : Prop :=
  component? segment = some (.name segment) ∧ '/' ∉ segment

namespace IsName

variable {segment : List Char}

theorem ne_nil (h : IsName segment) : segment ≠ [] := by
  rintro rfl
  cases h.1

theorem not_silent (h : IsName segment) : isSilent segment = false := by
  by_contra silent
  simp [IsName, component?, silent] at h

theorem ne_up (h : IsName segment) : segment ≠ ['.', '.'] := by
  rintro rfl
  cases h.1

/-- A text that starts with a name is no absolute path. -/
theorem isAbsolute_append (h : IsName segment) (cs : List Char) :
    isAbsolute ⟨segment ++ cs⟩ = false := by
  cases segment with
  | nil => exact absurd rfl h.ne_nil
  | cons c segment =>
    have : c ≠ '/' := by
      rintro rfl
      exact h.2 List.mem_cons_self
    simp [isAbsolute, this]

theorem isAbsolute_eq_false (h : IsName segment) : isAbsolute ⟨segment⟩ = false := by
  have := h.isAbsolute_append []
  rwa [List.append_nil] at this

/-- Without dots there is nothing that a segment could stand for but its name. -/
theorem of_no_dot (some_char : segment ≠ []) (no_dot : '.' ∉ segment) (no_sep : '/' ∉ segment) :
    IsName segment := by
  have here : segment ≠ ['.'] := by
    rintro rfl
    simp at no_dot
  have up : segment ≠ ['.', '.'] := by
    rintro rfl
    simp at no_dot
  exact ⟨by simp [component?, isSilent, some_char, here, up], no_sep⟩

/-- A segment of a path that leads down is a name. -/
theorem of_mem_segments {p : Path} (within : segment ∈ p.segments)
    (loud : isSilent segment = false) (no_up : segment ≠ ['.', '.']) : IsName segment := by
  refine ⟨?_, Text.sep_not_mem_of_mem_split within⟩
  rw [component?, loud, if_neg Bool.false_ne_true, if_neg no_up]

/-- A letter that is no dot makes a name of a segment. -/
theorem of_mem {c : Char} (h : c ∈ segment) (no_dot : c ≠ '.') (no_sep : '/' ∉ segment) :
    IsName segment := by
  have some_char : segment ≠ [] := List.ne_nil_of_mem h
  have here : segment ≠ ['.'] := by
    rintro rfl
    exact no_dot (by simpa using h)
  have up : segment ≠ ['.', '.'] := by
    rintro rfl
    exact no_dot (by simpa using h)
  exact ⟨by simp [component?, isSilent, some_char, here, up], no_sep⟩

end IsName

/-- What is put between a path and what is joined to it. -/
theorem join_eq_append {q : Path} (p : Path) (relative : q.isAbsolute = false) :
    p.join q = ⟨(if p.needsSeparator then p.chars ++ ['/'] else p.chars) ++ q.chars⟩ := by
  rw [join, relative, if_neg Bool.false_ne_true]
  split
  · rw [List.append_assoc]
    rfl
  · rfl

theorem needsSeparator_join {name : List Char} (h : IsName name) (p : Path) :
    (p.join ⟨name⟩).needsSeparator = true := by
  obtain ⟨init, c, rfl⟩ := List.eq_nil_or_concat name |>.resolve_left h.ne_nil
  have : c ≠ '/' := by
    rintro rfl
    exact h.2 (by simp)
  rw [join_eq_append p h.isAbsolute_eq_false, needsSeparator]
  simp [this]

/-- A name joined to a path, and a path joined behind it. -/
theorem join_join {name cs : List Char} (h : IsName name) (relative : isAbsolute ⟨cs⟩ = false)
    (p : Path) : (p.join ⟨name⟩).join ⟨cs⟩ = p.join ⟨name ++ '/' :: cs⟩ := by
  rw [join_eq_append _ relative, needsSeparator_join h, if_pos rfl,
    join_eq_append p h.isAbsolute_eq_false, join_eq_append p (h.isAbsolute_append _)]
  simp

/-- Names in a row do not start at the root. -/
theorem isAbsolute_row {names : List (List Char)} (h : ∀ name ∈ names, IsName name) :
    isAbsolute ⟨Text.join '/' names⟩ = false := by
  cases names with
  | nil => rfl
  | cons name names =>
    have first := h name List.mem_cons_self
    cases names with
    | nil =>
      rw [Text.join, List.intercalate_singleton]
      exact first.isAbsolute_eq_false
    | cons next names =>
      rw [Text.join, List.intercalate_cons_cons, List.append_assoc]
      exact first.isAbsolute_append _

/-- Names joined one by one are joined together. -/
theorem joinAll_eq_join {names : List (List Char)} (some_name : names ≠ [])
    (h : ∀ name ∈ names, IsName name) (p : Path) :
    p.joinAll names = p.join ⟨Text.join '/' names⟩ := by
  induction names generalizing p with
  | nil => exact absurd rfl some_name
  | cons name names ih =>
    cases names with
    | nil =>
      rw [Text.join, List.intercalate_singleton]
      rfl
    | cons next names =>
      have later : ∀ n ∈ next :: names, IsName n := fun n hn => h n (List.mem_cons_of_mem _ hn)
      have row : Text.join '/' (name :: next :: names) =
          name ++ '/' :: Text.join '/' (next :: names) := by
        rw [Text.join, List.intercalate_cons_cons, List.append_assoc]
        rfl
      rw [row, ← join_join (h name List.mem_cons_self) (isAbsolute_row later),
        ← ih (by simp) later]
      rfl

/-! ## Extensions -/

variable {p : Path} {last : List Char}

/-- The last segment is the file name, if it is a name. -/
theorem fileName?_of_getLast? (ends : p.segments.getLast? = some last)
    (own : component? last = some (.name last)) : p.fileName? = some last := by
  obtain ⟨init, parts⟩ := List.getLast?_eq_some_iff.mp ends
  have loud : last ≠ ['.'] := by
    rintro rfl
    cases own
  rw [fileName?, components, parts]
  cases init with
  | nil =>
    have relative : ¬ p.isAbsolute = true := by
      rw [isAbsolute_iff parts]
      rintro ⟨-, some_rest⟩
      exact some_rest rfl
    rw [List.nil_append]
    simp [firstComponent?, relative, loud, own]
  | cons first init =>
    rw [List.cons_append]
    simp [List.filterMap_append, own]

/-- A path whose last segment is not silent has none to lose. -/
theorem trimmed_of_getLast? (ends : p.segments.getLast? = some last)
    (loud : isSilent last = false) : p.trimmed = p := by
  obtain ⟨init, parts⟩ := List.getLast?_eq_some_iff.mp ends
  rw [trimmed]
  cases segments_eq : p.segments with
  | nil => rfl
  | cons first rest =>
    have kept : trimEnd rest = rest := by
      rcases List.eq_nil_or_concat rest with rfl | ⟨rest', last', rfl⟩
      · rfl
      · rw [List.concat_eq_append] at segments_eq ⊢
        have : last' = last := by
          rw [segments_eq, ← List.cons_append, List.getLast?_concat] at ends
          exact Option.some.inj ends
        rw [trimEnd, List.reverse_concat, List.dropWhile_cons, this, loud]
        simp
    have further : ¬ (p.isAbsolute && rest.isEmpty) = true := by
      rw [Bool.and_eq_true, isAbsolute_iff segments_eq, List.isEmpty_iff]
      rintro ⟨⟨-, some_rest⟩, none⟩
      exact some_rest none
    dsimp only
    rw [kept, rebuild, if_neg further, ofSegments, ← segments_eq]
    exact congrArg Path.mk (Text.join_split '/' p.chars)

theorem splitExtension_of_not_mem {name : List Char} (h : '.' ∉ name) :
    splitExtension name = (name, none) := by
  rw [splitExtension, Text.split_of_not_mem h]
  rfl

/-- A name without a dot takes an extension at its end. -/
theorem withExtension_join {stem extension : List Char} (name : IsName stem) (no_dot : '.' ∉ stem)
    (some_char : extension ≠ []) (p : Path) :
    (p.join ⟨stem⟩).withExtension extension = p.join ⟨stem ++ '.' :: extension⟩ := by
  have ends : (p.join ⟨stem⟩).segments.getLast? = some stem := by
    rw [getLast?_segments_join, segments, Text.split_of_not_mem name.2]
    rfl
  rw [withExtension, fileName?_of_getLast? ends name.1]
  dsimp only
  rw [trimmed_of_getLast? ends name.not_silent, splitExtension_of_not_mem no_dot,
    join_eq_append p name.isAbsolute_eq_false, join_eq_append p (name.isAbsolute_append _)]
  simp [some_char]

end Path

namespace Database

open Ambient.Path

/-- A dotted name that a record file can be found by: no part of it is empty, and none has a
separator of paths. -/
def IsPlain (name : String) : Prop :=
  ∀ part ∈ Text.split '.' name.toList, part ≠ [] ∧ '/' ∉ part

instance (name : String) : Decidable (IsPlain name) :=
  inferInstanceAs (Decidable (∀ part ∈ Text.split '.' name.toList, part ≠ [] ∧ '/' ∉ part))

/-- The names of the directories and of the file that a dotted name leads to. -/
def recordNames (name : String) : List (List Char) :=
  let parts := Text.split '.' name.toList
  parts.dropLast ++ [parts.getLast?.getD [] ++ '.' :: recordExtension]

theorem exists_recordNames_eq (name : String) : ∃ directories last,
    Text.split '.' name.toList = directories ++ [last] ∧
      recordNames name = directories ++ [last ++ '.' :: recordExtension] := by
  obtain ⟨directories, last, parts⟩ :=
    List.eq_nil_or_concat _ |>.resolve_left (Text.split_ne_nil '.' name.toList)
  rw [List.concat_eq_append] at parts
  exact ⟨directories, last, parts, by simp [recordNames, parts]⟩

theorem isName_of_mem_split {name : String} (plain : IsPlain name) {part : List Char}
    (h : part ∈ Text.split '.' name.toList) : IsName part :=
  .of_no_dot (plain part h).1 (Text.sep_not_mem_of_mem_split h) (plain part h).2

theorem isName_of_mem_recordNames {name : String} (plain : IsPlain name) {segment : List Char}
    (h : segment ∈ recordNames name) : IsName segment := by
  obtain ⟨directories, last, parts, names⟩ := exists_recordNames_eq name
  rw [names] at h
  rcases List.mem_append.mp h with directory | file
  · exact isName_of_mem_split plain (parts ▸ List.mem_append_left _ directory)
  · have file_eq := List.mem_singleton.mp file
    have no_sep : '/' ∉ last := (plain last (by simp [parts])).2
    have letter : 'j' ∈ segment := by
      rw [file_eq]
      exact List.mem_append_right _ (by decide)
    refine .of_mem letter (by decide) ?_
    rw [file_eq, List.mem_append, not_or]
    exact ⟨no_sep, by decide⟩

/-- The record of a plain name lies below the root, where the parts of the name lead. -/
theorem recordPath_eq_joinAll {name : String} (plain : IsPlain name) (root : Path) :
    recordPath root name = root.joinAll (recordNames name) := by
  obtain ⟨directories, last, parts, names⟩ := exists_recordNames_eq name
  have last_mem : last ∈ Text.split '.' name.toList := by simp [parts]
  rw [recordPath, parts, names, joinAll, joinAll, List.foldl_append, List.foldl_append]
  exact withExtension_join (isName_of_mem_split plain last_mem)
    (Text.sep_not_mem_of_mem_split last_mem) (by decide) _

/-- The record of a plain name is reached from the root by segments that are names. -/
theorem recordPath_eq_join {name : String} (plain : IsPlain name) (root : Path) :
    recordPath root name = root.join ⟨Text.join '/' (recordNames name)⟩ := by
  rw [recordPath_eq_joinAll plain]
  exact joinAll_eq_join (by simp [recordNames])
    (fun _ hn => isName_of_mem_recordNames plain hn) root

end Database

end Ambient
