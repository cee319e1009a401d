/-
  What is there already: a directory is not made again, and a file is opened in its place. Main
  statement: `FileTree.opens_of_find` (a path that leads to a file can be written to).
-/
import Ambient.Proofs.Writing

namespace Ambient

/-! ## Parents -/

namespace Path

variable {p q : Path}

theorem join_isPrefix (first : List Char) {xs ys : List (List Char)} (h : xs <+: ys) :
    Text.join '/' (first :: xs) <+: Text.join '/' (first :: ys) := by
  obtain ⟨zs, rfl⟩ := h
  cases zs with
  | nil => exact (List.append_nil xs).symm ▸ List.prefix_rfl
  | cons z zs =>
    rw [← List.cons_append, Text.join_append_cons '/' (by simp)]
    exact List.prefix_append _ _

/-- A parent is the start of its path. -/
theorem isPrefix_of_parent? (h : p.parent? = some q) : q.chars <+: p.chars := by
  cases parts : p.segments with
  | nil => exact absurd parts (Text.split_ne_nil '/' p.chars)
  | cons first rest =>
    have whole : p.chars = Text.join '/' (first :: rest) := by
      rw [← parts]
      exact (Text.join_split '/' p.chars).symm
    rw [parent?_of_segments parts] at h
    split at h
    · split at h
      · cases h
      · obtain rfl := Option.some.inj h
        exact List.nil_prefix
    · obtain rfl := Option.some.inj h
      rw [rebuild]
      split
      · next root =>
        obtain ⟨absolute, -⟩ := Bool.and_eq_true_iff.mp root
        have start : p.chars.head? = some '/' := by simpa [isAbsolute] using absolute
        obtain ⟨cs, chars⟩ := List.head?_eq_some_iff.mp start
        rw [chars]
        exact List.prefix_append ['/'] cs
      · rw [whole]
        exact join_isPrefix first
          ((trimEnd_isPrefix _).trans ((List.dropLast_prefix _).trans (trimEnd_isPrefix rest)))

/-- The start of a path that can be used can be used, unless it is empty. -/
theorem checked_of_isPrefix (h : q.chars <+: p.chars) (some_char : q.chars ≠ [])
    (checked : p.checked = .ok p) : q.checked = .ok q := by
  have usable : FileFault.ofPath? p = none := by
    rw [Path.checked] at checked
    split at checked
    · cases checked
    · next usable => exact usable
  obtain ⟨cs, chars⟩ := h
  rw [FileFault.ofPath?, text, ← chars] at usable
  split at usable
  · cases usable
  · next no_nul =>
    split at usable
    · cases usable
    · split at usable
      · cases usable
      · next short =>
        have no_nul : ¬ q.chars.contains '\x00' = true := by
          intro nul
          rw [List.contains_iff_mem] at nul
          exact no_nul (List.contains_iff_mem.mpr (List.mem_append_left cs nul))
        have no_longer : ¬ FileFault.maxPathBytes < q.text.utf8ByteSize := by
          rw [String.ofList_append, String.utf8ByteSize_append] at short
          rw [text]
          omega
        rw [Path.checked, FileFault.ofPath?, if_neg no_nul,
          if_neg (by simpa using some_char), if_neg no_longer]

end Path

/-- Above a directory there is a directory. -/
theorem Node.exists_directory_dropLast {n : Node} {loc : Location}
    {entries : List (String × Node)} (there : n.get? loc = some (.directory entries)) :
    ∃ es, n.get? loc.dropLast = some (.directory es) := by
  rcases List.eq_nil_or_concat loc with rfl | ⟨above, name, rfl⟩
  · exact ⟨entries, there⟩
  · rw [List.concat_eq_append] at there ⊢
    rw [get?_append] at there
    obtain ⟨m, found, below⟩ := Option.bind_eq_some_iff.mp there
    rw [List.dropLast_concat, found]
    cases m with
    | file bytes => cases below
    | directory es => exact ⟨es, rfl⟩

namespace FileTree

variable {t : FileTree} {p : Path}

/-! ## Directories that are there -/

theorem exists_directory_of_follow {loc loc' : Location} {segment : List Char}
    (h : t.follow loc segment = .ok loc') :
    ∃ entries, t.root.get? loc = some (.directory entries) := by
  rw [follow] at h
  split at h
  · next entries there => exact ⟨entries, there⟩
  · cases h

theorem followAll_concat {segments : List (List Char)} {last : List Char} {loc loc' : Location} :
    t.followAll loc (segments ++ [last]) = .ok loc' ↔
      ∃ mid, t.followAll loc segments = .ok mid ∧ t.follow mid last = .ok loc' := by
  rw [followAll, List.foldlM_append]
  simp only [List.foldlM_cons, List.foldlM_nil, bind_pure]
  exact bind_eq_ok

/-- A last segment that is not blank stays. -/
theorem dropEnd_concat {blank : List Char → Bool} {last : List Char} (kept : ¬ blank last = true)
    (segments : List (List Char)) :
    ((segments ++ [last]).reverse.dropWhile blank).reverse = segments ++ [last] := by
  rw [List.reverse_concat, List.dropWhile_cons_of_neg kept, ← List.reverse_concat,
    List.reverse_reverse]

/-- Segments at the end that lead nowhere may be left out. -/
theorem followAll_dropEnd (blank : List Char → Bool)
    (silent : ∀ segment, blank segment = true → Path.isSilent segment = true)
    {segments : List (List Char)} {loc loc' : Location}
    (h : t.followAll loc segments = .ok loc') :
    t.followAll loc (segments.reverse.dropWhile blank).reverse = .ok loc' := by
  induction segments using List.reverseRecOn generalizing loc' with
  | nil => exact h
  | append_singleton segments last ih =>
    by_cases dropped : blank last = true
    · obtain ⟨mid, before, same⟩ := followAll_concat.mp h
      rw [List.reverse_concat, List.dropWhile_cons_of_pos dropped,
        eq_of_follow_silent (silent last dropped) same]
      exact ih before
    · rwa [dropEnd_concat dropped]

/-- The place that a path names, read off its last segment with a character. -/
theorem slot_eq {init : List (List Char)} {last : List Char} {dir : Location}
    {entries : List (String × Node)} (checked : p.checked = .ok p)
    (named : (p.segments.reverse.dropWhile (·.isEmpty)).reverse = init ++ [last])
    (followed : t.followAll (t.start p) init = .ok dir)
    (there : t.root.get? dir = some (.directory entries)) :
    t.slot p = .ok (if Path.isSilent last || last = ['.', '.'] then none else
      some ⟨dir, String.ofList last, decide ((init ++ [last]).length < p.segments.length)⟩) := by
  rw [slot, checked]
  dsimp only [bind, Except.bind]
  rw [named, List.getLast?_concat, List.dropLast_concat, followed]
  dsimp only
  rw [there]
  dsimp only
  split <;> rfl

/-- A directory that is there is not made again. -/
theorem createDirectory_of_locate {loc : Location} {entries : List (String × Node)}
    (located : t.locate p = .ok loc) (there : t.root.get? loc = some (.directory entries)) :
    t.createDirectory p = .error .alreadyExists := by
  obtain ⟨checked, followed⟩ := locate_eq_ok.mp located
  -- the separators at the end of the path make no difference to where it leads
  have blank : ∀ segment : List Char, segment.isEmpty = true → Path.isSilent segment = true := by
    intro segment none
    rw [List.isEmpty_iff.mp none]
    rfl
  have reached := followAll_dropEnd _ blank followed
  cases ends : (p.segments.reverse.dropWhile (·.isEmpty)).reverse.getLast? with
  | none =>
    have placed : t.slot p = .ok none := by
      rw [slot, checked]
      dsimp only [bind, Except.bind]
      rw [ends]
    rw [createDirectory, placed]
    rfl
  | some last =>
    obtain ⟨init, named⟩ := List.getLast?_eq_some_iff.mp ends
    rw [named] at reached
    obtain ⟨dir, above, next⟩ := followAll_concat.mp reached
    obtain ⟨es, directory⟩ := exists_directory_of_follow next
    rw [createDirectory, slot_eq checked named above directory]
    dsimp only [bind, Except.bind]
    by_cases loud : (Path.isSilent last || last = ['.', '.']) = true
    · rw [if_pos loud]
    · rw [if_neg loud]
      obtain ⟨loud, no_up⟩ : Path.isSilent last = false ∧ last ≠ ['.', '.'] := by simpa using loud
      have within : last ∈ p.segments := by
        have kept : last ∈ p.segments.reverse.dropWhile (·.isEmpty) := by
          rw [← List.mem_reverse, named]
          exact List.mem_append_right _ (List.mem_singleton_self last)
        exact List.mem_reverse.mp ((List.dropWhile_sublist _).subset kept)
      have below := follow_name (.of_mem_segments within loud no_up) next
      dsimp only [Slot.location]
      rw [← below, there]

theorem createDirectories_of_locate {loc : Location} {entries : List (String × Node)}
    (located : t.locate p = .ok loc) (there : t.root.get? loc = some (.directory entries)) :
    t.createDirectories p = (t, .ok ()) := by
  have present : t.isDirectory p = true := by
    rw [isDirectory, find_of_locate located there]
  have some_char : ¬ p.chars.isEmpty = true :=
    not_isEmpty_of_checked (locate_eq_ok.mp located).1
  rw [createDirectories, if_neg some_char, createDirectory_of_locate located there]
  dsimp only
  rw [if_pos present]

/-! ## Files that are there -/

theorem follow_up {loc loc' : Location} (h : t.follow loc ['.', '.'] = .ok loc') :
    loc' = loc.dropLast := by
  rw [follow] at h
  split at h
  · exact (Except.ok.inj h).symm
  · cases h

/-- A path to a file ends in the name of the file, behind segments that lead to its directory. -/
theorem exists_of_find {bytes : ByteArray} (h : t.find p = .ok (.file bytes)) :
    p.checked = .ok p ∧ ∃ init name dir entries,
      p.segments = init ++ [name] ∧ Path.IsName name ∧
      t.followAll (t.start p) init = .ok dir ∧ t.root.get? dir = some (.directory entries) ∧
      entries.lookup (String.ofList name) = some (.file bytes) := by
  obtain ⟨loc, located, there⟩ := exists_locate_of_find h
  obtain ⟨checked, followed⟩ := locate_eq_ok.mp located
  obtain ⟨init, name, segments⟩ :=
    List.eq_nil_or_concat p.segments |>.resolve_left (Text.split_ne_nil '/' p.chars)
  rw [List.concat_eq_append] at segments
  rw [segments] at followed
  obtain ⟨dir, above, next⟩ := followAll_concat.mp followed
  obtain ⟨entries, directory⟩ := exists_directory_of_follow next
  have loud : Path.isSilent name = false := by
    by_contra silent
    rw [eq_of_follow_silent (by simpa using silent) next, directory] at there
    cases there
  have no_up : name ≠ ['.', '.'] := by
    rintro rfl
    obtain ⟨es, higher⟩ := Node.exists_directory_dropLast directory
    rw [follow_up next, higher] at there
    cases there
  have within : name ∈ p.segments := by simp [segments]
  have own : Path.IsName name := .of_mem_segments within loud no_up
  refine ⟨checked, init, name, dir, entries, segments, own, above, directory, ?_⟩
  rw [← Node.get?_concat directory, ← follow_name own next, there]

/-- The parent of a path leads where the segments before the last name lead. -/
theorem locate_parent {q : Path} {init : List (List Char)} {name : List Char} {dir : Location}
    (checked : p.checked = .ok p) (segments : p.segments = init ++ [name])
    (own : Path.IsName name) (followed : t.followAll (t.start p) init = .ok dir)
    (parent : p.parent? = some q) (some_char : q.chars ≠ []) : t.locate q = .ok dir := by
  have usable : q.checked = .ok q :=
    Path.checked_of_isPrefix (Path.isPrefix_of_parent? parent) some_char checked
  refine locate_eq_ok.mpr ⟨usable, ?_⟩
  cases init with
  | nil =>
    rw [Path.parent?_of_segments segments] at parent
    split at parent
    · split at parent
      · cases parent
      · obtain rfl := Option.some.inj parent
        exact absurd rfl some_char
    · next body => exact absurd rfl body
  | cons first rest =>
    rw [followAll, List.foldlM_cons] at followed
    obtain ⟨mid, head, behind⟩ := bind_eq_ok.mp followed
    have trimmed : t.followAll mid (Path.trimEnd rest) = .ok dir :=
      followAll_dropEnd _ (fun _ silent => silent) behind
    have parts : p.segments = first :: (rest ++ [name]) := segments
    have body : Path.trimEnd (rest ++ [name]) = rest ++ [name] :=
      dropEnd_concat (by simp [own.not_silent]) rest
    rw [Path.parent?_of_segments parts, body, if_neg (by simp), List.dropLast_concat] at parent
    obtain rfl := Option.some.inj parent
    rw [Path.rebuild]
    split
    · next root =>
      -- the segments before the name lead nowhere, and the parent is the root
      obtain ⟨absolute, none⟩ := Bool.and_eq_true_iff.mp root
      obtain ⟨rfl, -⟩ := (Path.isAbsolute_iff parts).mp absolute
      rw [start, if_pos absolute] at head
      obtain rfl := eq_of_follow_silent rfl head
      rw [List.isEmpty_iff.mp none] at trimmed
      obtain rfl := Except.ok.inj trimmed
      show t.followAll [] [[], []] = .ok []
      rw [followAll, List.foldlM_cons]
      exact bind_eq_ok.mpr ⟨[], head, bind_eq_ok.mpr ⟨[], head, rfl⟩⟩
    · next further =>
      have cut : rest <+: rest ++ [name] := List.prefix_append _ _
      have same := Path.isAbsolute_ofSegments parts cut (by simp) further
      rw [Path.segments_ofSegments (Path.free_of_mem_trimEnd parts cut), start, same, followAll,
        List.foldlM_cons]
      exact bind_eq_ok.mpr ⟨mid, head, trimmed⟩

/-- Whether a file can be written at a path: once the directories on the way to it are made, it
has a place. -/
def Opens (t : FileTree) (p : Path) : Prop :=
  ∃ files loc, t.createDirectories (p.parent?.getD .empty) = (files, .ok ()) ∧
    files.outputLocation p = .ok loc

/-- A path that leads to a file can be written to. -/
theorem opens_of_find {bytes : ByteArray} (h : t.find p = .ok (.file bytes)) : t.Opens p := by
  obtain ⟨checked, init, name, dir, entries, segments, own, followed, there, entry⟩ :=
    exists_of_find h
  have made : t.createDirectories (p.parent?.getD .empty) = (t, .ok ()) := by
    by_cases none : (p.parent?.getD .empty).chars = []
    · rw [createDirectories, if_pos (List.isEmpty_iff.mpr none)]
    · cases parent : p.parent? with
      | none => exact absurd (by rw [parent]; rfl) none
      | some q =>
        rw [parent] at none
        exact createDirectories_of_locate
          (locate_parent checked segments own followed parent none) there
  refine ⟨t, dir ++ [String.ofList name], made, ?_⟩
  have last : (p.segments.reverse.dropWhile (·.isEmpty)).reverse = init ++ [name] := by
    rw [segments]
    exact dropEnd_concat (by simp [own.ne_nil]) init
  have loud : ¬ (Path.isSilent name || decide (name = ['.', '.'])) = true := by
    simp [own.not_silent, own.ne_up]
  have at_end : ¬ (init ++ [name]).length < p.segments.length := by simp [segments]
  have found : t.root.get? (dir ++ [String.ofList name]) = some (.file bytes) := by
    rw [Node.get?_concat there, entry]
  rw [outputLocation, slot_eq checked last followed there, if_neg loud]
  dsimp only [bind, Except.bind, Slot.location]
  rw [if_neg (by simpa using at_end), found]

end FileTree

end Ambient
