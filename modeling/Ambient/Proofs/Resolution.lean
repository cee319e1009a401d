/-
  Lexical resolution: where a path leads if every `.` stays and every `..` takes the name before
  it back, whatever the directories are. The way from one path to another is read off the place
  where they part. Main statements: `exists_parting` and `resolved_join_relative_iff` (when the
  way from one absolute path to another, put behind the first, resolves to the second).
-/
import Ambient.Proofs.PathSteps

namespace Ambient.Path

/-- One more component behind a resolved path. At the root `..` stays; where there is no name to
take back it is kept. -/
def resolveNext (done : List Component) : Component → List Component
  | .here => done
  | .up =>
    match done.getLast? with
    | some (.name _) => done.dropLast
    | some .root => done
    | _ => done ++ [.up]
  | c => done ++ [c]

/-- Components with `.` and `..` resolved. -/
def resolve (cs : List Component) : List Component := cs.foldl resolveNext []

/-- The components of a path with `.` and `..` resolved. -/
def resolved (p : Path) : List Component := resolve p.components

example : resolve [.root, .name ['a'], .up, .up, .here, .name ['b']] = [.root, .name ['b']] := by
  decide

/-- Only the steps of a path count. -/
theorem resolved_eq (p : Path) : p.resolved = resolve p.steps := by
  have skip : ∀ (cs done : List Component),
      cs.foldl resolveNext done = (cs.filter (· != .here)).foldl resolveNext done := by
    intro cs
    induction cs with
    | nil => exact fun _ => rfl
    | cons c cs ih =>
      intro done
      by_cases here : c = .here
      · subst here
        exact ih done
      · rw [List.filter_cons, if_pos (by simpa using here)]
        exact ih (resolveNext done c)
  exact skip p.components []

/-! ## Below the root -/

/-- The resolved path of names below the root. -/
def rooted (names : List (List Char)) : List Component := .root :: names.map .name

theorem rooted_inj {ns ms : List (List Char)} : rooted ns = rooted ms ↔ ns = ms := by
  have inj : Function.Injective Component.name := fun _ _ h => Component.name.inj h
  rw [rooted, rooted, List.cons_inj_right, List.map_inj_right fun _ _ same => inj same]

theorem rooted_concat (names : List (List Char)) (n : List Char) :
    rooted (names ++ [n]) = rooted names ++ [.name n] := by
  rw [rooted, List.map_append]
  rfl

/-- A move from a directory, given by the names that lead there from the root. -/
def descend (names : List (List Char)) : Component → List (List Char)
  | .up => names.dropLast
  | .name n => names ++ [n]
  | _ => names

theorem resolveNext_rooted {c : Component} (move : IsMove c) (names : List (List Char)) :
    resolveNext (rooted names) c = rooted (descend names c) := by
  cases c with
  | root => exact absurd rfl move.ne_root
  | here => exact absurd rfl move.ne_here
  | name n => exact (rooted_concat names n).symm
  | up =>
    rcases List.eq_nil_or_concat names with rfl | ⟨init, last, rfl⟩
    · rfl
    · rw [List.concat_eq_append, descend, List.dropLast_concat, rooted_concat, resolveNext,
        List.getLast?_concat]
      exact List.dropLast_concat

theorem foldl_resolveNext_rooted {moves : List Component} (h : ∀ c ∈ moves, IsMove c)
    (names : List (List Char)) :
    moves.foldl resolveNext (rooted names) = rooted (moves.foldl descend names) := by
  induction moves generalizing names with
  | nil => rfl
  | cons c moves ih =>
    rw [List.foldl_cons, resolveNext_rooted (h c List.mem_cons_self),
      ih fun d hd => h d (List.mem_cons_of_mem _ hd)]
    rfl

/-- Moves from the root on. -/
theorem resolve_root_cons {moves : List Component} (h : ∀ c ∈ moves, IsMove c) :
    resolve (.root :: moves) = rooted (moves.foldl descend []) :=
  foldl_resolveNext_rooted h []

/-- Moves keep a start of the directory that they are made from, and put names behind it; how
much of it they leave off and which names those are does not depend on the directory. -/
theorem exists_foldl_descend (moves : List Component) :
    ∃ (off : ℕ) (further : List (List Char)), ∀ names,
      moves.foldl descend names = names.take (names.length - off) ++ further := by
  induction moves using List.reverseRecOn with
  | nil => exact ⟨0, [], fun names => by simp⟩
  | append_singleton moves c ih =>
    obtain ⟨off, further, same⟩ := ih
    have step : ∀ names, (moves ++ [c]).foldl descend names =
        descend (names.take (names.length - off) ++ further) c := by
      intro names
      rw [List.foldl_append, List.foldl_cons, List.foldl_nil, same]
    cases c with
    | root => exact ⟨off, further, step⟩
    | here => exact ⟨off, further, step⟩
    | name n => exact ⟨off, further ++ [n], fun names => by rw [step, ← List.append_assoc]; rfl⟩
    | up =>
      rcases List.eq_nil_or_concat further with rfl | ⟨init, last, rfl⟩
      · refine ⟨off + 1, [], fun names => ?_⟩
        rw [step, List.append_nil, List.append_nil, descend, List.dropLast_eq_take,
          List.take_take, List.length_take]
        congr 1
        omega
      · refine ⟨off, init, fun names => ?_⟩
        rw [step, List.concat_eq_append, ← List.append_assoc]
        exact List.dropLast_concat

/-- The same moves from a directory and from one above it lead to the same place only if both
are the same or the moves first go up to the root. -/
theorem foldl_descend_eq_iff (moves : List Component) {above names : List (List Char)}
    (pre : above <+: names) :
    moves.foldl descend above = moves.foldl descend names ↔
      above = names ∨ moves.foldl descend [] = moves.foldl descend names := by
  obtain ⟨off, further, same⟩ := exists_foldl_descend moves
  obtain ⟨below, rfl⟩ := pre
  rw [same, same, same, List.append_left_inj, List.append_left_inj, List.take_nil]
  constructor
  · intro reached
    have lengths := congrArg List.length reached
    simp only [List.length_take, List.length_append] at lengths
    by_cases none : below = []
    · exact .inl (by rw [none, List.append_nil])
    · have := List.length_pos_iff.mpr none
      have all : (above ++ below).length - off = 0 := by
        rw [List.length_append]
        omega
      exact .inr (by rw [all, List.take_zero])
  · rintro (whole | root)
    · rw [← whole]
    · have all : (above ++ below).length - off = 0 := by
        simpa using (congrArg List.length root).symm
      have : above.length - off = 0 := by
        rw [List.length_append] at all
        omega
      rw [this, all, List.take_zero, List.take_zero]

/-! ## Going back -/

/-- One `..` for each move leads to a directory on the way from the root to the one that the
moves were made from: to that directory itself if no move went up, and else to one above it,
unless it is the root. -/
theorem foldl_descend_back {moves : List Component} (h : ∀ c ∈ moves, IsMove c)
    (names : List (List Char)) :
    ∃ reached, (List.replicate moves.length .up).foldl descend (moves.foldl descend names) =
        reached ∧ reached <+: names ∧ (.up ∉ moves → reached = names) ∧
      (.up ∈ moves → names ≠ [] → reached.length < names.length) := by
  induction moves generalizing names with
  | nil => exact ⟨names, rfl, List.prefix_refl names, fun _ => rfl, by simp⟩
  | cons c moves ih =>
    obtain ⟨inner, reached_eq, pre, same, shorter⟩ :=
      ih (fun d hd => h d (List.mem_cons_of_mem _ hd)) (descend names c)
    have back : (List.replicate (c :: moves).length .up).foldl descend
        ((c :: moves).foldl descend names) = inner.dropLast := by
      rw [List.length_cons, List.replicate_succ', List.foldl_append, List.foldl_cons (b := names),
        reached_eq]
      rfl
    have dropped := inner.length_dropLast
    have le := pre.length_le
    refine ⟨inner.dropLast, back, ?_⟩
    cases c with
    | root => exact absurd rfl (h .root List.mem_cons_self).ne_root
    | here => exact absurd rfl (h .here List.mem_cons_self).ne_here
    | up =>
      rw [descend, List.length_dropLast] at le
      refine ⟨?_, ?_, ?_⟩
      · exact (List.dropLast_prefix _).trans (pre.trans (List.dropLast_prefix _))
      · intro no_up
        exact absurd List.mem_cons_self no_up
      · intro _ some_name
        have := List.length_pos_iff.mpr some_name
        omega
    | name n =>
      rw [descend, List.length_append, List.length_singleton] at le
      refine ⟨?_, ?_, ?_⟩
      · refine List.prefix_of_prefix_length_le ((List.dropLast_prefix _).trans pre)
          (List.prefix_append names [n]) ?_
        omega
      · intro no_up
        rw [List.mem_cons, not_or] at no_up
        rw [same no_up.2]
        exact List.dropLast_concat
      · intro up some_name
        have inner_up : .up ∈ moves := by simpa using up
        have lt := shorter inner_up (by simp [descend])
        have := List.length_pos_iff.mpr some_name
        rw [descend, List.length_append, List.length_singleton] at lt
        omega

/-! ## The way between two paths -/

/-- Two lists go on differently behind a start that they share, or one of them ends there. -/
structure Parting {α : Type} (as bs common back forth : List α) : Prop where
  first : as = common ++ back
  second : bs = common ++ forth
  differ : ∀ a, back.head? = some a → forth.head? ≠ some a

section Parting

variable {α : Type} [DecidableEq α] {as bs common back forth : List α}

/-- What two lists share at their start is taken off both. -/
theorem Parting.dropCommon_eq (h : Parting as bs common back forth) :
    dropCommon as bs = (back, forth) := by
  obtain ⟨rfl, rfl, differ⟩ := h
  induction common with
  | cons c common ih => rw [List.cons_append, List.cons_append, dropCommon, if_pos rfl, ih]
  | nil =>
    cases back with
    | nil => cases forth <;> rfl
    | cons a back =>
      cases forth with
      | nil => rfl
      | cons b forth =>
        have other : a ≠ b := by
          rintro rfl
          exact differ a rfl rfl
        rw [List.nil_append, List.nil_append, dropCommon, if_neg other]

/-- Any two lists part somewhere. -/
theorem exists_parting (as bs : List α) : ∃ common back forth, Parting as bs common back forth := by
  induction as generalizing bs with
  | nil => exact ⟨[], [], bs, rfl, rfl, fun _ first => nomatch first⟩
  | cons a as ih =>
    cases bs with
    | nil => exact ⟨[], a :: as, [], rfl, rfl, fun _ _ second => nomatch second⟩
    | cons b bs =>
      by_cases same : a = b
      · obtain ⟨common, back, forth, rfl, rfl, differ⟩ := ih bs
        exact ⟨a :: common, back, forth, rfl, by rw [same, List.cons_append], differ⟩
      · refine ⟨[], a :: as, b :: bs, rfl, rfl, fun c first second => same ?_⟩
        exact (Option.some.inj first).trans (Option.some.inj second).symm

end Parting

/-- The way from one path to another is put together from the steps between them. -/
theorem steps_relative {source target : Path}
    (h : ∀ c ∈ stepsBetween source target, IsMove c) :
    (relative source target).steps = stepsBetween source target := by
  have joined := steps_joinAll h empty
  rw [relative]
  split
  · next none =>
    have silent : empty.joinAll ((stepsBetween source target).map Component.text) = ⟨[]⟩ :=
      congrArg Path.mk (List.isEmpty_iff.mp none)
    rw [silent] at joined
    exact joined
  · exact joined

theorem isAbsolute_relative {source target : Path}
    (h : ∀ c ∈ stepsBetween source target, IsMove c) :
    (relative source target).isAbsolute = false := by
  rw [Bool.eq_false_iff, Ne, ← root_mem_steps, steps_relative h]
  exact fun root => (h _ root).ne_root rfl

/-- The way to a path, put behind another as it is displayed, adds the steps between them. -/
theorem steps_join_relative {source target : Path}
    (h : ∀ c ∈ stepsBetween source target, IsMove c) :
    (source.join (ofString (relative source target).display)).steps =
      source.steps ++ stepsBetween source target := by
  have read := steps_display (relative source target)
  have read_relative : (ofString (relative source target).display).isAbsolute = false := by
    rw [Bool.eq_false_iff, Ne, ← root_mem_steps, read, root_mem_steps, isAbsolute_relative h]
    exact Bool.false_ne_true
  rw [steps_join source read_relative, read, steps_relative h]

section Ways

variable {source target : Path} {common back forth : List Component}

theorem Parting.stepsBetween_eq (parting : Parting source.steps target.steps common back forth) :
    stepsBetween source target = List.replicate back.length .up ++ forth := by
  rw [stepsBetween, parting.dropCommon_eq]

/-- Absolute paths part behind the root. -/
theorem Parting.exists_rooted (parting : Parting source.steps target.steps common back forth)
    (hs : source.isAbsolute = true) (ht : target.isAbsolute = true) :
    ∃ moves, common = .root :: moves ∧ ∀ c ∈ moves ++ back ++ forth, IsMove c := by
  obtain ⟨source_steps, target_steps, differ⟩ := parting
  obtain ⟨as, from_root, as_moves⟩ := exists_steps_of_isAbsolute hs
  obtain ⟨bs, from_root', bs_moves⟩ := exists_steps_of_isAbsolute ht
  rw [from_root] at source_steps
  rw [from_root'] at target_steps
  cases common with
  | nil =>
    -- both own parts would begin with the root
    rw [List.nil_append] at source_steps target_steps
    exact absurd (target_steps ▸ rfl) (differ .root (source_steps ▸ rfl))
  | cons d moves =>
    obtain ⟨rfl, rfl⟩ := List.cons.inj source_steps
    obtain rfl := (List.cons.inj target_steps).2
    refine ⟨moves, rfl, fun c hc => ?_⟩
    rcases List.mem_append.mp hc with first | second
    · exact as_moves c first
    · exact bs_moves c (List.mem_append_right moves second)

/-- The own steps of paths of one kind, both absolute or both not, are moves. -/
theorem Parting.moves (parting : Parting source.steps target.steps common back forth)
    (level : source.isAbsolute = target.isAbsolute) : ∀ c ∈ back ++ forth, IsMove c := by
  intro c hc
  cases absolute : source.isAbsolute with
  | false =>
    rcases List.mem_append.mp hc with own | own
    · have member : c ∈ source.steps := parting.first ▸ List.mem_append_right common own
      refine isMove_of_mem_steps member ?_
      rintro rfl
      simp [root_mem_steps.mp member] at absolute
    · have member : c ∈ target.steps := parting.second ▸ List.mem_append_right common own
      refine isMove_of_mem_steps member ?_
      rintro rfl
      simp [level, root_mem_steps.mp member] at absolute
  | true =>
    obtain ⟨moves, -, all_moves⟩ := parting.exists_rooted absolute (level ▸ absolute)
    exact all_moves c (by rw [List.append_assoc]; exact List.mem_append_right moves hc)

/-- The steps between paths of one kind are moves. -/
theorem Parting.isMove_of_mem_stepsBetween
    (parting : Parting source.steps target.steps common back forth)
    (level : source.isAbsolute = target.isAbsolute) :
    ∀ c ∈ stepsBetween source target, IsMove c := by
  intro c hc
  rw [parting.stepsBetween_eq] at hc
  rcases List.mem_append.mp hc with up | own
  · rw [List.eq_of_mem_replicate up]
    exact isMove_up
  · exact parting.moves level c (List.mem_append_right back own)

end Ways

/-- Where the way from one absolute path to another, put behind the first as it is displayed,
leads. It is the second path if the first has no `..` behind the start that both share; else it
only is if the way goes up to the root again. -/
theorem resolved_join_relative_iff {source target : Path} (hs : source.isAbsolute = true)
    (ht : target.isAbsolute = true) :
    (source.join (ofString (relative source target).display)).resolved = target.resolved ↔
      .up ∉ (dropCommon source.steps target.steps).1 ∨
        resolve (.root :: (dropCommon source.steps target.steps).2) = target.resolved := by
  obtain ⟨shared, back, forth, parting⟩ := exists_parting source.steps target.steps
  obtain ⟨common, rfl, moves⟩ := parting.exists_rooted hs ht
  have way_moves := parting.isMove_of_mem_stepsBetween (hs.trans ht.symm)
  have back_moves : ∀ c ∈ back, IsMove c := fun c hc => moves c (by simp [hc])
  have forth_moves : ∀ c ∈ forth, IsMove c := fun c hc => moves c (by simp [hc])
  -- where both ways part, the directory that the first goes on from
  let start := common.foldl descend []
  obtain ⟨reached, reached_eq, pre, same, shorter⟩ := foldl_descend_back back_moves start
  have left : (source.join (ofString (relative source target).display)).resolved =
      rooted (forth.foldl descend reached) := by
    have all_moves : ∀ c ∈ common ++ back ++ stepsBetween source target, IsMove c := by
      intro c hc
      exact (List.mem_append.mp hc).elim (fun h => moves c (List.mem_append_left _ h))
        (way_moves c)
    rw [resolved_eq, steps_join_relative way_moves, parting.first, List.cons_append,
      List.cons_append, resolve_root_cons all_moves, parting.stepsBetween_eq]
    simp only [List.foldl_append]
    rw [reached_eq]
  have right : target.resolved = rooted (forth.foldl descend start) := by
    have all_moves : ∀ c ∈ common ++ forth, IsMove c := by
      intro c hc
      rcases List.mem_append.mp hc with h | h
      · exact moves c (by simp [h])
      · exact forth_moves c h
    rw [resolved_eq, parting.second, List.cons_append, resolve_root_cons all_moves,
      List.foldl_append]
  rw [left, right, parting.dropCommon_eq, resolve_root_cons forth_moves, rooted_inj, rooted_inj,
    foldl_descend_eq_iff forth pre]
  constructor
  · rintro (whole | root)
    · by_cases up : .up ∈ back
      · by_cases none : start = []
        · exact .inr (by rw [none])
        · exact absurd (shorter up none) (by rw [whole]; exact Nat.lt_irrefl _)
      · exact .inl up
    · exact .inr root
  · rintro (level | root)
    · exact .inl (same level)
    · exact .inr root

end Ambient.Path
