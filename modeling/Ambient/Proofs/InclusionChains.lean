/-
  Chains of inclusions: when the block of a class cannot be written. A chain starts with the
  class, and each further name is a mixin of the record before it. It is bad if it comes back
  to one of its names, or to a name without a record. Main result: a block is
  written just when there is no bad chain, and the error tells of the first one in the order
  of the text.
-/
import Ambient.Declaration.Block
import Ambient.Emission.Sink
import Ambient.Proofs.Reachability

namespace Ambient

/-- A chain of inclusions: the place of each mixin in the list that it is taken from, the names
before the last one, and the last one. -/
structure Chain where
  places : List Nat
  earlier : List String
  last : String

namespace Chain

/-- The chain with one more list to go through before it. -/
def enter (c : Chain) : Chain := { c with places := 0 :: c.places }

/-- The chain in a list with one more mixin in front. -/
def shift (c : Chain) : Chain := { c with places := c.places.modifyHead (· + 1) }

/-- Whether a chain cannot be inlined: its last name is on it already, or has no record. -/
def Bad (i : Index) (c : Chain) : Prop := c.last ∈ c.earlier ∨ i.find? c.last = none

/-- The error that tells of a bad chain of a class. -/
def error (className : String) (c : Chain) : InclusionError :=
  if c.last ∈ c.earlier then .cycle className (c.earlier ++ [c.last])
  else .missing className c.last

end Chain

namespace Index

/-- The chains that go on through a list of mixins after the names `before`. -/
inductive Follows (i : Index) : List String → List String → Chain → Prop
  | stop {before mixins : List String} {place : Nat} {m : String}
      (taken : mixins[place]? = some m) : Follows i before mixins ⟨[place], before, m⟩
  | go {before mixins : List String} {place : Nat} {m : String} {r : Record} {c : Chain}
      (taken : mixins[place]? = some m) (found : i.find? m = some r)
      (rest : Follows i (before ++ [m]) r.mixins c) :
      Follows i before mixins { c with places := place :: c.places }

/-- The bad chains that go on through a list of mixins. -/
def BadChain (i : Index) (before mixins : List String) (c : Chain) : Prop :=
  i.Follows before mixins c ∧ c.Bad i

/-- The first bad chain in the order of the text: a chain stands before those that go on from
it, and these stand before the chains through a later mixin. -/
def FirstBadChain (i : Index) (before mixins : List String) (c : Chain) : Prop :=
  i.BadChain before mixins c ∧ ∀ d, i.BadChain before mixins d → ¬ d.places < c.places

variable {i : Index} {before mixins : List String} {m : String} {c : Chain}

theorem Follows.places_ne_nil (h : i.Follows before mixins c) : c.places ≠ [] := by
  cases h <;> simp

/-- The places determine a chain. -/
theorem Follows.eq_of_places {d : Chain} (hc : i.Follows before mixins c)
    (hd : i.Follows before mixins d) (h : c.places = d.places) : c = d := by
  induction hc generalizing d with
  | stop taken =>
    cases hd with
    | stop taken' =>
      obtain rfl := (List.cons.inj h).1
      obtain rfl := Option.some.inj (taken.symm.trans taken')
      rfl
    | go _ _ rest => exact absurd (List.cons.inj h).2.symm rest.places_ne_nil
  | go taken found rest ih =>
    cases hd with
    | stop _ => exact absurd (List.cons.inj h).2 rest.places_ne_nil
    | go taken' found' rest' =>
      obtain ⟨rfl, hplaces⟩ := List.cons.inj h
      obtain rfl := Option.some.inj (taken.symm.trans taken')
      obtain rfl := Option.some.inj (found.symm.trans found')
      rw [ih rest' hplaces]

/-- There is only one first bad chain. -/
theorem FirstBadChain.eq {d : Chain} (hc : i.FirstBadChain before mixins c)
    (hd : i.FirstBadChain before mixins d) : c = d :=
  hc.1.1.eq_of_places hd.1.1 (List.le_antisymm (hc.2 d hd.1) (hd.2 c hc.1))

theorem not_follows_nil : ¬ i.Follows before [] c := by
  rintro (h | h) <;> simp at h

/-- A chain through a list stops at its first mixin, goes on from it, or runs through the rest
of the list. -/
theorem follows_cons_iff : i.Follows before (m :: mixins) c ↔
    c = ⟨[0], before, m⟩ ∨
    (∃ r d, i.find? m = some r ∧ i.Follows (before ++ [m]) r.mixins d ∧ c = d.enter) ∨
    ∃ d, i.Follows before mixins d ∧ c = d.shift := by
  constructor
  · rintro (@⟨_, _, place, a, taken⟩ | @⟨_, _, place, a, r, d, taken, found, rest⟩)
    · cases place with
      | zero => exact .inl (by simp_all)
      | succ place => exact .inr (.inr ⟨_, .stop (by simpa using taken), rfl⟩)
    · cases place with
      | zero =>
        obtain rfl : m = a := by simpa using taken
        exact .inr (.inl ⟨r, d, found, rest, rfl⟩)
      | succ place => exact .inr (.inr ⟨_, .go (by simpa using taken) found rest, rfl⟩)
  · rintro (rfl | ⟨r, d, found, rest, rfl⟩ | ⟨d, h, rfl⟩)
    · exact .stop rfl
    · exact .go rfl found rest
    · cases h with
      | stop taken => exact .stop (by simpa using taken)
      | go taken found rest => exact .go (by simpa using taken) found rest

/-! ## The first bad chain of a list -/

theorem not_places_lt_zero {places : List Nat} (h : places ≠ []) : ¬ places < [0] := by
  obtain ⟨p, ps, rfl⟩ := List.exists_cons_of_ne_nil h
  rw [List.cons_lt_cons_iff]
  intro lt
  rcases lt with h | ⟨-, h⟩
  · exact Nat.not_lt_zero p h
  · exact List.not_lt_nil ps h

theorem not_shift_places_lt_enter {d : Chain} (h : d.places ≠ []) (c : Chain) :
    ¬ d.shift.places < c.enter.places := by
  obtain ⟨p, ps, hd⟩ := List.exists_cons_of_ne_nil h
  rw [Chain.enter, Chain.shift, hd, List.modifyHead_cons, List.cons_lt_cons_iff]
  omega

theorem not_shift_places_lt_shift {d : Chain} (h : ¬ d.places < c.places) :
    ¬ d.shift.places < c.shift.places := by
  rcases hc : c.places with _ | ⟨p, ps⟩ <;> rcases hd : d.places with _ | ⟨q, qs⟩
  all_goals simp_all [Chain.shift, List.cons_lt_cons_iff]

/-- A bad first mixin ends the first bad chain. -/
theorem firstBadChain_stop (h : Chain.Bad i ⟨[0], before, m⟩) :
    i.FirstBadChain before (m :: mixins) ⟨[0], before, m⟩ :=
  ⟨⟨.stop rfl, h⟩, fun _ hd => not_places_lt_zero hd.1.places_ne_nil⟩

/-- Else the first bad chain that goes on from the first mixin is the first one. -/
theorem FirstBadChain.enter {r : Record} (hm : ¬ Chain.Bad i ⟨[0], before, m⟩)
    (found : i.find? m = some r) (h : i.FirstBadChain (before ++ [m]) r.mixins c) :
    i.FirstBadChain before (m :: mixins) c.enter := by
  refine ⟨⟨follows_cons_iff.mpr (.inr (.inl ⟨r, c, found, h.1.1, rfl⟩)), h.1.2⟩, ?_⟩
  intro d hd
  obtain ⟨hd, bad⟩ := hd
  rcases follows_cons_iff.mp hd with rfl | ⟨r', d, found', rest, rfl⟩ | ⟨d, rest, rfl⟩
  · exact absurd bad hm
  · obtain rfl : r = r' := Option.some.inj (found.symm.trans found')
    intro lt
    obtain ⟨-, lt⟩ := (List.cons_lt_cons_iff.mp lt).resolve_left (Nat.lt_irrefl 0)
    exact h.2 d ⟨rest, bad⟩ lt
  · exact not_shift_places_lt_enter rest.places_ne_nil c

/-- Without a bad chain through the first mixin, the first one of the rest is the first. -/
theorem FirstBadChain.shift (hm : ¬ Chain.Bad i ⟨[0], before, m⟩)
    (inner : ∀ r, i.find? m = some r → ∀ d, ¬ i.BadChain (before ++ [m]) r.mixins d)
    (h : i.FirstBadChain before mixins c) : i.FirstBadChain before (m :: mixins) c.shift := by
  refine ⟨⟨follows_cons_iff.mpr (.inr (.inr ⟨c, h.1.1, rfl⟩)), h.1.2⟩, ?_⟩
  intro d hd
  obtain ⟨hd, bad⟩ := hd
  rcases follows_cons_iff.mp hd with rfl | ⟨r, d, found, rest, rfl⟩ | ⟨d, rest, rfl⟩
  · exact absurd bad hm
  · exact absurd ⟨rest, bad⟩ (inner r found d)
  · exact not_shift_places_lt_shift (h.2 d ⟨rest, bad⟩)

/-- A list has no bad chain if its first mixin starts none and the rest has none. -/
theorem not_badChain_cons (hm : ¬ Chain.Bad i ⟨[0], before, m⟩)
    (inner : ∀ r, i.find? m = some r → ∀ d, ¬ i.BadChain (before ++ [m]) r.mixins d)
    (later : ∀ d, ¬ i.BadChain before mixins d) : ¬ i.BadChain before (m :: mixins) c := by
  intro hc
  obtain ⟨hc, bad⟩ := hc
  rcases follows_cons_iff.mp hc with rfl | ⟨r, d, found, rest, rfl⟩ | ⟨d, rest, rfl⟩
  · exact hm bad
  · exact inner r found d ⟨rest, bad⟩
  · exact later d ⟨rest, bad⟩

end Index

/-! ## The writing of a block -/

namespace Subject

/-- A view that finds the mixins of its mixins as the index does. -/
def Sees (s : Subject) (mixins : List String) : Prop :=
  ∀ m ∈ mixins, s.view.mixins.get? m = s.index.find? m

/-- The mixins of a list are inlined just when no bad chain goes on through the list; else the
first bad one is told of. -/
theorem outcome_inclusions (s : Subject)
    (closed : ∀ m r, s.view.mixins.get? m = some r → s.Sees r.mixins)
    (before mixins : List String) (sees : s.Sees mixins) :
    ((s.inclusions before mixins).outcome = .ok () ∧
      ∀ c, ¬ s.index.BadChain before mixins c) ∨
    ∃ c, s.index.FirstBadChain before mixins c ∧
      (s.inclusions before mixins).outcome = .error (c.error s.name) := by
  induction before, mixins using inclusions.induct s with
  | case1 before =>
    rw [inclusions_nil]
    exact .inl ⟨rfl, fun c h => Index.not_follows_nil h.1⟩
  | case2 before m mixins ih_inner ih_rest =>
    by_cases on_chain : m ∈ before
    · refine .inr ⟨_, Index.firstBadChain_stop (.inl on_chain), ?_⟩
      rw [inclusions_of_mem s mixins on_chain, Chain.error, if_pos on_chain]
    · have known : s.view.mixins.get? m = s.index.find? m := sees m List.mem_cons_self
      cases found : s.view.mixins.get? m with
      | none =>
        refine .inr ⟨_, Index.firstBadChain_stop (.inr (known ▸ found)), ?_⟩
        rw [inclusions_of_none s mixins on_chain found, Chain.error, if_neg on_chain]
      | some r =>
        have good : ¬ Chain.Bad s.index ⟨[0], before, m⟩ := by
          intro h
          rcases h with h | h
          · exact on_chain h
          · simp [← known, found] at h
        rw [inclusions_of_some s mixins on_chain found, Emission.outcome_write_andThen]
        rcases ih_inner (by simpa using on_chain) r found (closed m r found) with
          ⟨written, inner⟩ | ⟨c, first, stopped⟩
        · rw [Emission.outcome_andThen_of_ok written]
          have inner' : ∀ r', s.index.find? m = some r' →
              ∀ d, ¬ s.index.BadChain (before ++ [m]) r'.mixins d := by
            intro r' found'
            obtain rfl : r = r' := Option.some.inj (found.symm.trans (known.trans found'))
            exact inner
          rcases ih_rest (fun m' hm' => sees m' (List.mem_cons_of_mem _ hm')) with
            ⟨done, later⟩ | ⟨c, first, stopped⟩
          · exact .inl ⟨done, fun c => Index.not_badChain_cons good inner' later⟩
          · exact .inr ⟨c.shift, first.shift good inner', stopped⟩
        · rw [Emission.outcome_andThen_of_error stopped]
          exact .inr ⟨c.enter, first.enter good (known ▸ found), rfl⟩

end Subject

namespace Index

variable {i : Index} {settings : Settings} {r : Record} {name : String}

/-- The view of a class finds the mixins that a chain can meet as the index does. -/
theorem sees_subject (i : Index) (settings : Settings) (r : Record) (name : String) :
    (i.subject settings r name).Sees r.mixins ∧
      ∀ m q, (i.subject settings r name).view.mixins.get? m = some q →
        (i.subject settings r name).Sees q.mixins :=
  ⟨fun _ => get?_mixins_of_mem, fun _ _ found _ => get?_mixins_of_mixin found⟩

/-- On a sink that accepts everything the block of a class is written just when no chain of its
mixins is bad. Else the first bad chain is told of, and a mixin with a record is never called
missing. -/
theorem block_written_iff_no_badChain (i : Index) (settings : Settings) (r : Record)
    (name : String) (inModule : Bool) (named : r.name = some name) :
    ((Sink.unbounded.deliver (i.recordBlock settings r inModule)).outcome = .ok true ↔
      ¬ ∃ c, i.BadChain [name] r.mixins c) ∧
    ((∃ c, i.BadChain [name] r.mixins c) →
      ∃ c, i.FirstBadChain [name] r.mixins c ∧
        (∀ d, i.FirstBadChain [name] r.mixins d → d = c) ∧
        (Sink.unbounded.deliver (i.recordBlock settings r inModule)).outcome =
          .error (.inclusion (c.error name)) ∧
        (c.last ∈ c.earlier → (c.error name).message =
          "cyclic mixin inclusion while emitting " ++ name ++ ": " ++
            " -> ".intercalate (c.earlier ++ [c.last]))) ∧
    ∀ className mixin, (Sink.unbounded.deliver (i.recordBlock settings r inModule)).outcome =
      .error (.inclusion (.missing className mixin)) → i.find? mixin = none := by
  have delivered : (Sink.unbounded.deliver (i.recordBlock settings r inModule)).outcome =
      Sink.unbounded.finish (((i.subject settings r name).inclusions [name] r.mixins).outcome.map
        fun _ => true) := by
    rw [← outcome_recordBlock inModule named]
    rfl
  obtain ⟨sees, closed⟩ := sees_subject i settings r name
  rw [delivered]
  rcases (i.subject settings r name).outcome_inclusions closed [name] r.mixins sees with
    ⟨written, good⟩ | ⟨c, first, stopped⟩
  · rw [written]
    have no_bad : ¬ ∃ c, i.BadChain [name] r.mixins c := fun ⟨c, hc⟩ => good c hc
    refine ⟨iff_of_true rfl no_bad, fun h => absurd h no_bad, fun className mixin h => ?_⟩
    exact nomatch h
  · rw [stopped]
    have bad : ∃ c, i.BadChain [name] r.mixins c := ⟨c, first.1⟩
    refine ⟨iff_of_false (fun h => nomatch h) (fun h => h bad), fun _ => ?_, ?_⟩
    · refine ⟨c, first, fun d hd => hd.eq first, rfl, fun repeated => ?_⟩
      rw [Chain.error, if_pos repeated]
      rfl
    · intro className mixin h
      have h : c.error name = .missing className mixin :=
        WriteError.inclusion.inj (Except.error.inj h)
      unfold Chain.error at h
      split at h
      · exact nomatch h
      · next new =>
        obtain ⟨-, rfl⟩ := InclusionError.missing.inj h
        exact first.1.2.resolve_left new

/-- Two mixins that include each other. -/
def mixinPair : Index :=
  ⟨.empty, [], .ofList [("a.MX", { Record.blank with mixins := ["a.MY"] }),
    ("a.MY", { Record.blank with mixins := ["a.MX"] })]⟩

/-- A class without a record of its own includes one of the two. -/
theorem not_written_with_mixinPair :
    (Sink.unbounded.deliver (mixinPair.recordBlock .blank
      { Record.blank with name := some "a.C", mixins := ["a.MX"] } true)).outcome ≠ .ok true := by
  intro written
  have no_bad := (block_written_iff_no_badChain mixinPair .blank
    { Record.blank with name := some "a.C", mixins := ["a.MX"] } "a.C" true rfl).1.mp written
  refine no_bad ⟨⟨[0, 0, 0], ["a.C", "a.MX", "a.MY"], "a.MX"⟩, ?_, .inl (by decide)⟩
  exact .go rfl rfl (.go rfl rfl (.stop rfl))

end Index

end Ambient
