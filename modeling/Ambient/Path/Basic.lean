/-
  Paths: texts in which `/` separates segments. The text is kept as it was given; its
  components are a reading of it in which empty segments and all but a leading `.` do not
  count. Joining, parents, file names and extensions work on the text.
-/
import Ambient.Text.Split

namespace Ambient

open Text

/-- A path, as its text. -/
structure Path where
  chars : List Char
deriving DecidableEq, Repr, Inhabited

/-- A component of a path: the root, a leading `.`, a `..`, or a name. -/
inductive Component
  | root
  | here
  | up
  | name (text : List Char)
deriving DecidableEq, Repr

/-- The text of a component. -/
def Component.text : Component → List Char
  | .root => ['/']
  | .here => ['.']
  | .up => ['.', '.']
  | .name n => n

namespace Path

/-- The path with a given text. -/
def ofString (s : String) : Path := ⟨s.toList⟩

/-- The text of a path. -/
def text (p : Path) : String := String.ofList p.chars

/-- The path with the empty text. -/
def empty : Path := ⟨[]⟩

/-- Whether a path starts at the root. -/
def isAbsolute (p : Path) : Bool := p.chars.head? == some '/'

/-- The segments of a path, empty ones included. -/
def segments (p : Path) : List (List Char) := split '/' p.chars

/-- Whether a segment that is not the first one is no component. -/
def isSilent (segment : List Char) : Bool := segment == [] || segment == ['.']

/-- The component that a segment which is not the first one stands for. -/
def component? (segment : List Char) : Option Component :=
  if isSilent segment then none
  else if segment = ['.', '.'] then some .up
  else some (.name segment)

/-- The component that the first segment stands for. -/
def firstComponent? (p : Path) (segment : List Char) : Option Component :=
  if p.isAbsolute then some .root
  else if segment = ['.'] then some .here
  else component? segment

/-- The components of a path. -/
def components (p : Path) : List Component :=
  match p.segments with
  | [] => []
  | first :: rest => (p.firstComponent? first).toList ++ rest.filterMap component?

/-! ## Joining -/

/-- Whether a separator has to be put between a path and what is appended to it. -/
def needsSeparator (p : Path) : Bool :=
  match p.chars.getLast? with
  | some c => c != '/'
  | none => false

/-- The path `q` seen from `p`. An absolute `q` stands for itself. -/
def join (p q : Path) : Path :=
  if q.isAbsolute then q
  else if p.needsSeparator then ⟨p.chars ++ '/' :: q.chars⟩
  else ⟨p.chars ++ q.chars⟩

/-- The path reached from `p` by joining texts one after the other. -/
def joinAll (p : Path) (parts : List (List Char)) : Path :=
  parts.foldl (fun q part => q.join ⟨part⟩) p

/-! ## The end of a path -/

/-- Segments without the silent ones at their end. -/
def trimEnd (segments : List (List Char)) : List (List Char) :=
  (segments.reverse.dropWhile isSilent).reverse

/-- The text made of a first segment and of segments after it. -/
def ofSegments (first : List Char) (rest : List (List Char)) : Path :=
  ⟨Text.join '/' (first :: rest)⟩

/-- The path of a first segment and the segments after it; no segment after an empty first one
leaves the root. -/
def rebuild (absolute : Bool) (first : List Char) (rest : List (List Char)) : Path :=
  if absolute && rest.isEmpty then ⟨['/']⟩ else ofSegments first rest

/-- A path without the silent segments at its end. -/
def trimmed (p : Path) : Path :=
  match p.segments with
  | [] => p
  | first :: rest => rebuild p.isAbsolute first (trimEnd rest)

/-- The path without its last component. The root and the empty path have no parent. -/
def parent? (p : Path) : Option Path :=
  match p.segments with
  | [] => none
  | first :: rest =>
    let body := trimEnd rest
    if body.isEmpty then
      if p.isAbsolute || first.isEmpty then none else some empty
    else some (rebuild p.isAbsolute first (trimEnd body.dropLast))

theorem trimEnd_isPrefix (xs : List (List Char)) : trimEnd xs <+: xs := by
  have h := List.dropWhile_suffix isSilent (l := xs.reverse)
  rw [trimEnd, ← List.reverse_suffix]
  simpa using h

theorem length_join_lt {first : List Char} {xs rest : List (List Char)} (h : xs <+: rest)
    (hne : xs.length < rest.length) :
    (Text.join '/' (first :: xs)).length < (Text.join '/' (first :: rest)).length := by
  obtain ⟨ys, rfl⟩ := h
  cases ys with
  | nil => simp at hne
  | cons y ys =>
    rw [← List.cons_append, join_append_cons '/' (by simp)]
    simp

/-- A parent is shorter than its path. -/
theorem length_lt_of_parent? {p q : Path} (h : p.parent? = some q) :
    q.chars.length < p.chars.length := by
  unfold parent? at h
  split at h
  · simp at h
  · next first rest hs =>
    have hp : Text.join '/' (first :: rest) = p.chars := by
      rw [← hs]; exact join_split '/' p.chars
    dsimp only at h
    split at h
    · split at h
      · simp at h
      · next hempty hf =>
        simp only [Option.some.injEq] at h
        subst h
        cases first with
        | nil => simp at hf
        | cons c cs => rw [← hp, join_cons_cons]; simp [empty]
    · next hbody =>
      simp only [Option.some.injEq] at h
      subst h
      have hlt : (trimEnd (trimEnd rest).dropLast).length < rest.length := by
        have h₁ := (trimEnd_isPrefix (trimEnd rest).dropLast).length_le
        have h₂ := (trimEnd_isPrefix rest).length_le
        have h₃ : 0 < (trimEnd rest).length := by
          cases htr : trimEnd rest with
          | nil => simp [htr] at hbody
          | cons => simp
        simp only [List.length_dropLast] at h₁
        omega
      have hpre : trimEnd (trimEnd rest).dropLast <+: rest :=
        (trimEnd_isPrefix _).trans ((List.dropLast_prefix _).trans (trimEnd_isPrefix rest))
      have := @length_join_lt first _ _ hpre hlt
      unfold rebuild
      split
      · next habs =>
        have : (trimEnd (trimEnd rest).dropLast) = [] := by simp_all
        rw [← hp]
        cases rest with
        | nil => simp at hlt
        | cons y ys =>
          have hb : 0 < (Text.join '/' (y :: ys)).length := by
            cases hj : Text.join '/' (y :: ys) with
            | nil =>
              exfalso
              apply hbody
              cases y with
              | cons c cs => rw [join_cons_cons] at hj; simp at hj
              | nil =>
                cases ys with
                | nil => simp [trimEnd, isSilent]
                | cons z zs => rw [join_nil_cons '/' (by simp)] at hj; simp at hj
            | cons => simp
          rw [show first :: y :: ys = [first] ++ y :: ys from rfl,
            join_append_cons '/' (by simp)]
          simp
          omega
      · rw [← hp]; exact this

/-- The last component, if it is a name. -/
def fileName? (p : Path) : Option (List Char) :=
  match p.components.getLast? with
  | some (.name n) => some n
  | _ => none

/-- A file name cut before its last dot; a name without a dot, or with its only dot in front,
has no extension. -/
def splitExtension (name : List Char) : List Char × Option (List Char) :=
  let parts := split '.' name
  let stem := Text.join '.' parts.dropLast
  if stem.isEmpty then (name, none) else (stem, parts.getLast?)

/-- The extension of the file name. -/
def extension? (p : Path) : Option (List Char) :=
  p.fileName?.bind fun name => (splitExtension name).2

/-- The path with the extension of its file name replaced, dropped for the empty one. A path
without a file name stays as it is. -/
def withExtension (p : Path) (extension : List Char) : Path :=
  match p.fileName? with
  | none => p
  | some name =>
    let chars := p.trimmed.chars
    let stem := chars.take (chars.length - name.length) ++ (splitExtension name).1
    ⟨if extension.isEmpty then stem else stem ++ '.' :: extension⟩

/-- The path without the extension of its file name: the letters after the last dot go first,
and then, if a file name is left, its last dot with what follows it. So nothing more goes if
`..` is left. -/
def dropExtension (p : Path) : Path :=
  match p.extension? with
  | some letters => withExtension ⟨p.chars.take (p.chars.length - letters.length)⟩ []
  | none => p

end Path

end Ambient
