/-
  File trees seen from above: what a walk meets, and what stays when something is put into a
  directory. Main statements: `Node.file_mem_walk_iff` (a walk meets the files at all
  locations), `Node.get?_put_cases` (nothing else changes) and `FileTree.locate_join` (where a
  joined path leads).
-/
import Ambient.Files.Access
import Ambient.Proofs.Loading
import Ambient.Proofs.RecordPaths

namespace Ambient

namespace Node

/-! ## Walks -/

/-- The path of a location below a root. -/
def pathBelow (root : Path) (loc : Location) : Path := root.joinAll (loc.map String.toList)

/-- No directory has two entries of one name. -/
def Tidy (n : Node) : Prop :=
  ∀ loc entries, n.get? loc = some (.directory entries) → (entries.map (·.1)).Nodup

theorem get?_cons (entries : List (String × Node)) (name : String) (loc : Location) :
    (directory entries).get? (name :: loc) = (entries.lookup name).bind (·.get? loc) := rfl

theorem Tidy.child {entries : List (String × Node)} (tidy : (directory entries).Tidy)
    {name : String} {c : Node} (h : entries.lookup name = some c) : c.Tidy := by
  intro loc es found
  exact tidy (name :: loc) es (by rw [get?_cons, h]; exact found)

theorem walkEntries_eq_map (path : Path) (entries : List (String × Node)) :
    walkEntries path entries =
      entries.map fun e => (e.1, e.2.walk (path.join (.ofString e.1))) := by
  induction entries with
  | nil => rw [walkEntries, List.map_nil]
  | cons e entries ih =>
    obtain ⟨name, n⟩ := e
    rw [walkEntries, ih, List.map_cons]

/-- In a tidy directory that can be entered, a walk meets what walks of its entries meet. -/
theorem mem_walk_directory {path : Path} {entries : List (String × Node)}
    (tidy : (directory entries).Tidy) (entered : FileFault.ofPath? path = none) {s : Sighting} :
    s ∈ (directory entries).walk path ↔
      ∃ name c, entries.lookup name = some c ∧ s ∈ c.walk (path.join (.ofString name)) := by
  have distinct : (entries.map (·.1)).Nodup := tidy [] entries rfl
  rw [walk, entered]
  simp [walkEntries_eq_map, Table.lookup_eq_some_iff distinct]

theorem sizeOf_lt_of_lookup {entries : List (String × Node)} {name : String} {c : Node}
    (h : entries.lookup name = some c) : sizeOf c < sizeOf (directory entries) := by
  have listed : (name, c) ∈ entries := by
    obtain ⟨before, after, rfl, -⟩ := List.lookup_eq_some_iff.mp h
    exact List.mem_append_right _ List.mem_cons_self
  have smaller := List.sizeOf_lt_of_mem listed
  rw [Prod.mk.sizeOf_spec] at smaller
  rw [directory.sizeOf_spec]
  omega

theorem entered_of_not_barred {path : Path} {entries : List (String × Node)}
    (open_ : ∀ p f, .barred p f ∉ (directory entries).walk path) :
    FileFault.ofPath? path = none := by
  cases h : FileFault.ofPath? path with
  | none => rfl
  | some fault =>
    refine absurd ?_ (open_ path fault)
    rw [walk, h]
    exact List.mem_singleton_self _

/-- A walk that can enter every directory meets the files at all locations. -/
theorem file_mem_walk_iff (n : Node) (tidy : n.Tidy) {root : Path}
    (open_ : ∀ p f, .barred p f ∉ n.walk root) {p : Path} {bytes : ByteArray} :
    .file p bytes ∈ n.walk root ↔
      ∃ loc, n.get? loc = some (.file bytes) ∧ p = pathBelow root loc := by
  match n with
  | .file own =>
    rw [walk, List.mem_singleton]
    constructor
    · intro h
      obtain ⟨rfl, rfl⟩ := Sighting.file.inj h
      exact ⟨[], rfl, rfl⟩
    · rintro ⟨loc, found, rfl⟩
      cases loc with
      | nil => rw [file.inj (Option.some.inj found)]; rfl
      | cons name loc => cases found
  | .directory entries =>
    rw [mem_walk_directory tidy (entered_of_not_barred open_)]
    have below : ∀ name c, entries.lookup name = some c →
        (.file p bytes ∈ c.walk (root.join (.ofString name)) ↔
          ∃ loc, c.get? loc = some (.file bytes) ∧
            p = pathBelow (root.join (.ofString name)) loc) := by
      intro name c found
      refine file_mem_walk_iff c (tidy.child found) fun q f barred => open_ q f ?_
      exact (mem_walk_directory tidy (entered_of_not_barred open_)).mpr ⟨name, c, found, barred⟩
    constructor
    · rintro ⟨name, c, found, met⟩
      obtain ⟨loc, file, rfl⟩ := (below name c found).mp met
      exact ⟨name :: loc, by rw [get?_cons, found]; exact file, rfl⟩
    · rintro ⟨loc, found, rfl⟩
      cases loc with
      | nil => cases found
      | cons name loc =>
        obtain ⟨c, entry, file⟩ := Option.bind_eq_some_iff.mp found
        exact ⟨name, c, entry, (below name c entry).mpr ⟨loc, file, rfl⟩⟩
termination_by sizeOf n
decreasing_by exact sizeOf_lt_of_lookup found

/-- A walk can enter every directory whose path can be used. -/
theorem barred_not_mem_walk (n : Node) (tidy : n.Tidy) {root : Path}
    (usable : ∀ loc entries, n.get? loc = some (.directory entries) →
      FileFault.ofPath? (pathBelow root loc) = none) (p : Path) (f : FileFault) :
    .barred p f ∉ n.walk root := by
  match n with
  | .file own =>
    rw [walk, List.mem_singleton]
    exact nofun
  | .directory entries =>
    have here : FileFault.ofPath? root = none := usable [] entries rfl
    rw [mem_walk_directory tidy here]
    rintro ⟨name, c, entry, met⟩
    refine barred_not_mem_walk c (tidy.child entry) (fun loc es found => ?_) p f met
    exact usable (name :: loc) es (by rw [get?_cons, entry]; exact found)
termination_by sizeOf n
decreasing_by exact sizeOf_lt_of_lookup entry

/-! ## New entries -/

/-- Whether what is found in a tree is found in another one as well: the same files, and
directories where there are directories. -/
def Keeps (n n' : Node) : Prop :=
  ∀ loc m, n.get? loc = some m →
    ∃ m', n'.get? loc = some m' ∧ (m = m' ∨ m.isDirectory = true ∧ m'.isDirectory = true)

/-- Whether what is found in a tree is found in another one as well, directories as directories
and files as files, whatever these hold. -/
def KeepsKinds (n n' : Node) : Prop :=
  ∀ loc m, n.get? loc = some m →
    ∃ m', n'.get? loc = some m' ∧ m'.isDirectory = m.isDirectory

theorem Keeps.keepsKinds {n n' : Node} (kept : n.Keeps n') : n.KeepsKinds n' := by
  intro loc m found
  obtain ⟨m', found', rfl | ⟨directory, directory'⟩⟩ := kept loc m found
  · exact ⟨m, found', rfl⟩
  · exact ⟨m', found', directory'.trans directory.symm⟩

theorem KeepsKinds.refl (n : Node) : n.KeepsKinds n := fun _ m found => ⟨m, found, rfl⟩

theorem KeepsKinds.trans {n n' n'' : Node} (first : n.KeepsKinds n') (next : n'.KeepsKinds n'') :
    n.KeepsKinds n'' := by
  intro loc m found
  obtain ⟨m', found', alike⟩ := first loc m found
  obtain ⟨m'', found'', alike'⟩ := next loc m' found'
  exact ⟨m'', found'', alike'.trans alike⟩

theorem KeepsKinds.exists_directory {n n' : Node} (kept : n.KeepsKinds n') {loc : Location}
    {entries : List (String × Node)} (there : n.get? loc = some (.directory entries)) :
    ∃ entries', n'.get? loc = some (.directory entries') := by
  obtain ⟨m, found, alike⟩ := kept loc _ there
  cases m with
  | directory entries' => exact ⟨entries', found⟩
  | file bytes => cases alike

theorem get?_append (n : Node) (loc loc' : Location) :
    n.get? (loc ++ loc') = (n.get? loc).bind (·.get? loc') := by
  induction loc generalizing n with
  | nil => rfl
  | cons name loc ih =>
    rw [List.cons_append, get?, get?]
    cases n.child? name with
    | none => rfl
    | some c => exact ih c

theorem get?_concat {n : Node} {loc : Location} {entries : List (String × Node)}
    (there : n.get? loc = some (.directory entries)) (name : String) :
    n.get? (loc ++ [name]) = entries.lookup name := by
  rw [get?_append, there, Option.bind_some, get?_cons]
  cases entries.lookup name <;> rfl

section Put

variable {new n : Node} {dir : Location} {name : String} {entries : List (String × Node)}

/-- What is put into a directory is met at its place and below. The directories above stay
directories, and nothing changes elsewhere. -/
theorem get?_put_cases (new : Node) (name : String)
    (there : n.get? dir = some (.directory entries)) (loc : Location) :
    (∃ rest, loc = dir ++ name :: rest) ∨
      (∃ es es', n.get? loc = some (.directory es) ∧
        (put new (dir ++ [name]) n).get? loc = some (.directory es')) ∨
      (put new (dir ++ [name]) n).get? loc = n.get? loc := by
  -- down the way to the directory: a location leaves the way, ends on it or goes past its end
  induction dir generalizing n loc with
  | nil =>
    obtain rfl := Option.some.inj there
    rw [List.nil_append, put]
    cases loc with
    | nil => exact .inr (.inl ⟨_, _, rfl, rfl⟩)
    | cons first loc =>
      rw [get?_cons, get?_cons, Table.lookup_insertEntry]
      by_cases same : first = name
      · exact .inl ⟨loc, by rw [same]; rfl⟩
      · rw [if_neg same]
        exact .inr (.inr rfl)
  | cons d dir ih =>
    cases n with
    | file bytes => cases there
    | directory es =>
      rw [get?_cons] at there
      obtain ⟨c, entry, below⟩ := Option.bind_eq_some_iff.mp there
      obtain ⟨next, rest, further⟩ : ∃ next rest, dir ++ [name] = next :: rest :=
        List.exists_cons_of_ne_nil (by simp)
      rw [List.cons_append, further, put, entry, ← further]
      dsimp only
      cases loc with
      | nil => exact .inr (.inl ⟨_, _, rfl, rfl⟩)
      | cons first loc =>
        rw [get?_cons, get?_cons, Table.lookup_insertEntry]
        by_cases same : first = d
        · rw [if_pos same, same, entry, Option.bind_some, Option.bind_some]
          rcases ih below loc with ⟨rest, rfl⟩ | elsewhere
          · exact .inl ⟨rest, rfl⟩
          · exact .inr elsewhere
        · rw [if_neg same]
          exact .inr (.inr rfl)

/-- Below its place, what is put into a directory is met as it is. -/
theorem get?_put_below (new : Node) (name : String)
    (there : n.get? dir = some (.directory entries)) (rest : Location) :
    (put new (dir ++ [name]) n).get? (dir ++ name :: rest) = new.get? rest := by
  rw [List.append_cons dir name rest, get?_append, get?_put ⟨entries, there⟩, Option.bind_some]

theorem get?_below (there : n.get? dir = some (.directory entries)) (name : String)
    (rest : Location) :
    n.get? (dir ++ name :: rest) = (entries.lookup name).bind (·.get? rest) := by
  rw [List.append_cons dir name rest, get?_append, get?_concat there]

/-- A new entry takes nothing away. -/
theorem keeps_put (there : n.get? dir = some (.directory entries))
    (fresh : entries.lookup name = none) : n.Keeps (put new (dir ++ [name]) n) := by
  intro loc m found
  rcases get?_put_cases new name there loc with ⟨rest, rfl⟩ | ⟨es, es', old, now⟩ | same
  · rw [get?_below there, fresh] at found
    cases found
  · exact ⟨_, now, .inr ⟨Option.some.inj (old.symm.trans found) ▸ rfl, rfl⟩⟩
  · exact ⟨m, same.trans found, .inl rfl⟩

/-- A file in the place of a file takes no directory and no other file away. -/
theorem keepsKinds_put_file {bytes : ByteArray}
    (there : n.get? dir = some (.directory entries))
    (no_directory : ∀ old, entries.lookup name = some old → old.isDirectory = false) :
    n.KeepsKinds (put (.file bytes) (dir ++ [name]) n) := by
  intro loc m found
  rcases get?_put_cases (.file bytes) name there loc with ⟨rest, rfl⟩ | ⟨es, es', old, now⟩ | same
  · rw [get?_below there] at found
    obtain ⟨old, entry, below⟩ := Option.bind_eq_some_iff.mp found
    have kind := no_directory old entry
    cases old with
    | directory es => cases kind
    | file own =>
      -- below a file there is nothing, so the location is that of the file itself
      cases rest with
      | nil =>
        obtain rfl := Option.some.inj below
        exact ⟨_, get?_put_below _ _ there [], rfl⟩
      | cons first rest => cases below
  · exact ⟨_, now, Option.some.inj (old.symm.trans found) ▸ rfl⟩
  · exact ⟨m, same.trans found, rfl⟩

/-- What has no entries leaves the files at other places as they are, if it is put where no
directory was. -/
theorem file_put_iff (bare : ∀ first rest, new.get? (first :: rest) = none)
    (there : n.get? dir = some (.directory entries))
    (no_directory : ∀ old, entries.lookup name = some old → old.isDirectory = false)
    {loc : Location} (elsewhere : loc ≠ dir ++ [name]) (bytes : ByteArray) :
    (put new (dir ++ [name]) n).get? loc = some (.file bytes) ↔
      n.get? loc = some (.file bytes) := by
  rcases get?_put_cases new name there loc with ⟨rest, rfl⟩ | ⟨es, es', old, now⟩ | same
  · cases rest with
    | nil => exact absurd rfl elsewhere
    | cons first rest =>
      rw [get?_put_below new name there, bare, get?_below there]
      cases entry : entries.lookup name with
      | none => rfl
      | some old =>
        cases old with
        | directory es => cases no_directory _ entry
        | file own => rfl
  · rw [old, now]
    exact ⟨nofun, nofun⟩
  · rw [same]

end Put

end Node

namespace FileTree

variable {t t' : FileTree}

/-! ## Following paths -/

theorem follow_of_keepsKinds (kept : t.root.KeepsKinds t'.root) {loc loc' : Location}
    {segment : List Char} (h : t.follow loc segment = .ok loc') :
    t'.follow loc segment = .ok loc' := by
  rw [follow] at h
  split at h
  · next entries there =>
    obtain ⟨entries', there'⟩ := kept.exists_directory there
    rw [follow, there']
    dsimp only at h ⊢
    split at h
    · rwa [if_pos ‹_›]
    · rw [if_neg ‹_›]
      split at h
      · rwa [if_pos ‹_›]
      · rw [if_neg ‹_›]
        split at h
        · next entry =>
          have entry' : (entries'.lookup (String.ofList segment)).isSome = true := by
            rw [← Node.get?_concat there] at entry
            obtain ⟨c, found⟩ := Option.isSome_iff_exists.mp entry
            obtain ⟨c', found', -⟩ := kept _ c found
            rw [← Node.get?_concat there', found']
            rfl
          rwa [if_pos entry']
        · cases h
  · cases h

theorem followAll_of_keepsKinds (kept : t.root.KeepsKinds t'.root)
    {segments : List (List Char)} {loc loc' : Location}
    (h : t.followAll loc segments = .ok loc') : t'.followAll loc segments = .ok loc' := by
  induction segments generalizing loc with
  | nil => exact h
  | cons segment segments ih =>
    rw [followAll, List.foldlM_cons] at h ⊢
    obtain ⟨next, first, rest⟩ := bind_eq_ok.mp h
    exact bind_eq_ok.mpr ⟨next, follow_of_keepsKinds kept first, ih rest⟩

theorem locate_of_keepsKinds (kept : t.root.KeepsKinds t'.root) (home : t.home = t'.home)
    {p : Path} {loc : Location} (h : t.locate p = .ok loc) : t'.locate p = .ok loc := by
  obtain ⟨q, checked, followed⟩ := bind_eq_ok.mp h
  refine bind_eq_ok.mpr ⟨q, checked, ?_⟩
  rw [start, ← home]
  exact followAll_of_keepsKinds kept followed

/-- The node at a location that a path leads to. -/
theorem find_of_locate {p : Path} {loc : Location} {n : Node} (located : t.locate p = .ok loc)
    (there : t.root.get? loc = some n) : t.find p = .ok n := by
  refine bind_eq_ok.mpr ⟨loc, located, ?_⟩
  rw [there]

/-- What is found at a path is the node where the path leads. -/
theorem exists_locate_of_find {p : Path} {n : Node} (h : t.find p = .ok n) :
    ∃ loc, t.locate p = .ok loc ∧ t.root.get? loc = some n := by
  obtain ⟨loc, located, there⟩ := bind_eq_ok.mp h
  refine ⟨loc, located, ?_⟩
  split at there
  · next m found => rw [found, Except.ok.inj there]
  · cases there

theorem find_of_not_locate {p : Path} {e : FileFault} (h : t.locate p = .error e) :
    t.find p = .error e := by
  rw [find, h]
  rfl

/-- Written text is read back. -/
theorem decode_toUTF8 (s : String) : decode s.toUTF8 = .ok s := by
  have : String.fromUTF8? s.toUTF8 = some s := by
    simp only [String.fromUTF8?, String.toUTF8_eq_toByteArray, dif_pos s.isValidUTF8]
    rfl
  rw [decode, this]

theorem isFile_of_find {p : Path} {bytes : ByteArray} (h : t.find p = .ok (.file bytes)) :
    t.isFile p = true := by rw [isFile, h]

theorem readText_of_find {p : Path} {bytes : ByteArray} (h : t.find p = .ok (.file bytes)) :
    t.readText p = decode bytes := by
  rw [readText, h]
  rfl

theorem eq_of_checked {p q : Path} (h : p.checked = .ok q) : q = p := by
  rw [Path.checked] at h
  split at h
  · cases h
  · exact (Except.ok.inj h).symm

/-- The empty path cannot be used. -/
theorem not_isEmpty_of_checked {p q : Path} (h : p.checked = .ok q) :
    ¬ p.chars.isEmpty = true := by
  intro none
  have empty : p = ⟨[]⟩ := congrArg Path.mk (List.isEmpty_iff.mp none)
  rw [empty] at h
  cases h

theorem locate_eq_ok {p : Path} {loc : Location} :
    t.locate p = .ok loc ↔
      p.checked = .ok p ∧ t.followAll (t.start p) p.segments = .ok loc := by
  constructor
  · intro h
    obtain ⟨q, checked, followed⟩ := bind_eq_ok.mp h
    obtain rfl := eq_of_checked checked
    exact ⟨checked, followed⟩
  · rintro ⟨checked, followed⟩
    exact bind_eq_ok.mpr ⟨p, checked, followed⟩

/-- A silent segment leads nowhere else. -/
theorem eq_of_follow_silent {loc loc' : Location} {segment : List Char}
    (silent : Path.isSilent segment = true) (h : t.follow loc segment = .ok loc') :
    loc' = loc := by
  rw [follow] at h
  split at h
  · dsimp only at h
    rw [if_pos silent] at h
    exact (Except.ok.inj h).symm
  · cases h

/-- A name leads down to an entry. -/
theorem follow_name {loc loc' : Location} {name : List Char} (named : Path.IsName name)
    (h : t.follow loc name = .ok loc') : loc' = loc ++ [String.ofList name] := by
  rw [follow] at h
  split at h
  · dsimp only at h
    rw [named.not_silent, if_neg Bool.false_ne_true, if_neg named.ne_up] at h
    split at h
    · exact (Except.ok.inj h).symm
    · cases h
  · cases h

/-- An entry is reached by its name. -/
theorem follow_of_get? {loc : Location} {name : List Char} (named : Path.IsName name)
    {entries : List (String × Node)} (there : t.root.get? loc = some (.directory entries))
    {c : Node} (entry : t.root.get? (loc ++ [String.ofList name]) = some c) :
    t.follow loc name = .ok (loc ++ [String.ofList name]) := by
  rw [Node.get?_concat there] at entry
  rw [follow, there]
  dsimp only
  rw [named.not_silent, if_neg Bool.false_ne_true, if_neg named.ne_up, entry]
  rfl

/-- A path joined to another is followed from where the other leads. -/
theorem locate_join {p q : Path} {loc : Location} (located : t.locate p = .ok loc)
    (relative : q.isAbsolute = false) (usable : (p.join q).checked = .ok (p.join q)) :
    t.locate (p.join q) = t.followAll loc q.segments := by
  obtain ⟨checked, followed⟩ := locate_eq_ok.mp located
  have some_char : p.chars ≠ [] := fun none =>
    not_isEmpty_of_checked checked (List.isEmpty_iff.mpr none)
  have start_join : t.start (p.join q) = t.start p := by
    rw [start, start, Path.join_eq_append p relative]
    split <;> simp [Path.isAbsolute_append, some_char]
  have unchecked : t.locate (p.join q) =
      t.followAll (t.start p) (p.join q).segments := by
    rw [locate, usable, ← start_join]
    rfl
  rw [unchecked, Path.join_eq_append p relative]
  by_cases sep : p.needsSeparator
  · rw [if_pos sep, Path.segments, List.append_assoc, List.singleton_append,
      Text.split_append_sep, followAll, List.foldlM_append]
    show (t.followAll (t.start p) p.segments >>= _) = _
    rw [followed]
    rfl
  · -- the segment behind the separator at the end is empty and leads nowhere
    obtain ⟨xs, ends⟩ : ∃ xs, p.chars = xs ++ ['/'] := by
      obtain ⟨xs, c, ends⟩ := List.eq_nil_or_concat p.chars |>.resolve_left some_char
      rw [List.concat_eq_append] at ends
      have : c = '/' := by simpa [Path.needsSeparator, ends] using sep
      exact ⟨xs, this ▸ ends⟩
    rw [Path.segments, ends, Text.split_append_sep, followAll, List.foldlM_append] at followed
    obtain ⟨mid, before, last⟩ := bind_eq_ok.mp followed
    obtain ⟨_, silent, same⟩ := bind_eq_ok.mp last
    obtain rfl := (Except.ok.inj same).symm.trans (eq_of_follow_silent rfl silent)
    rw [if_neg sep, Path.segments, ends, List.append_assoc, List.singleton_append,
      Text.split_append_sep, followAll, List.foldlM_append, before]
    rfl

/-- An entry of a directory is reached by its name behind the path of the directory. -/
theorem locate_join_name {p : Path} {loc : Location} (located : t.locate p = .ok loc)
    {entries : List (String × Node)} (there : t.root.get? loc = some (.directory entries))
    {name : List Char} (named : Path.IsName name) {c : Node}
    (entry : t.root.get? (loc ++ [String.ofList name]) = some c)
    (usable : (p.join ⟨name⟩).checked = .ok (p.join ⟨name⟩)) :
    t.locate (p.join ⟨name⟩) = .ok (loc ++ [String.ofList name]) := by
  rw [locate_join located named.isAbsolute_eq_false usable, Path.segments,
    Text.split_of_not_mem named.2, followAll, List.foldlM_cons]
  exact bind_eq_ok.mpr ⟨_, follow_of_get? named there entry, rfl⟩

/-- A path that nothing is found at can be used, unless it is empty. -/
theorem checked_of_find_notFound {p : Path} (h : t.find p = .error .notFound)
    (some_char : p.chars ≠ []) : p.checked = .ok p := by
  cases unusable : FileFault.ofPath? p with
  | none => rw [Path.checked, unusable]
  | some fault =>
    have failed : t.locate p = .error fault := by
      rw [locate, Path.checked, unusable]
      rfl
    have : fault = .notFound :=
      Except.error.inj ((find_of_not_locate failed).symm.trans h)
    rw [this] at unusable
    simp [FileFault.ofPath?, some_char] at unusable
    split at unusable <;> simp at unusable

/-- Names lead down to the location that they spell out. -/
theorem eq_append_of_followAll {names : List (List Char)} (h : ∀ name ∈ names, Path.IsName name)
    {loc loc' : Location} (followed : t.followAll loc names = .ok loc') :
    loc' = loc ++ names.map String.ofList := by
  induction names generalizing loc with
  | nil => exact (Except.ok.inj followed).symm.trans (List.append_nil loc).symm
  | cons name names ih =>
    rw [followAll, List.foldlM_cons] at followed
    obtain ⟨next, first, rest⟩ := bind_eq_ok.mp followed
    obtain rfl := follow_name (h name List.mem_cons_self) first
    rw [ih (fun n hn => h n (List.mem_cons_of_mem _ hn)) rest, List.append_assoc]
    rfl

end FileTree

end Ambient
