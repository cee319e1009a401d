/-
  Nearest first: the order in which a search enters names, and what the flattened view of a
  record is. Paths are counted in steps; the queue of a search holds names at two depths only,
  those of the depth in work before those of the next one. Main result: the ancestors of a view
  are the names that superclasses lead to, nearest first, and its mixins are the least set of
  names that inclusion closes, on every graph.
-/
import Ambient.Proofs.Reachability
import Mathlib.Order.Lattice.Nat
import Mathlib.Order.Bounds.Basic

namespace Ambient

/-! ## Paths, counted in steps -/

/-- Where a path of so many steps leads along `next`: through known records, past no name to
skip. The first step goes to a name of `start`. -/
inductive ReachableIn (known : Table Record) (next : Record → List String)
    (skip : String → Bool) (start : List String) : Nat → String → Prop
  | start {name : String} {r : Record} (listed : name ∈ start) (kept : skip name = false)
      (found : known.get? name = some r) : ReachableIn known next skip start 1 name
  | step {n : Nat} {last name : String} {s r : Record}
      (path : ReachableIn known next skip start n last) (at_last : known.get? last = some s)
      (listed : name ∈ next s) (kept : skip name = false) (found : known.get? name = some r) :
      ReachableIn known next skip start (n + 1) name

section Search

variable {known : Table Record} {next : Record → List String} {skip : String → Bool}
  {start : List String}

theorem reachable_iff_exists_steps {name : String} :
    Reachable known next skip start name ↔ ∃ n, ReachableIn known next skip start n name := by
  constructor
  · intro path
    induction path with
    | start listed kept found => exact ⟨1, .start listed kept found⟩
    | step _ at_last listed kept found ih =>
      obtain ⟨n, path⟩ := ih
      exact ⟨n + 1, path.step at_last listed kept found⟩
  · rintro ⟨n, path⟩
    induction path with
    | start listed kept found => exact .start listed kept found
    | step _ at_last listed kept found ih => exact ih.step at_last listed kept found

namespace ReachableIn

variable {n : Nat} {name : String}

theorem pos (path : ReachableIn known next skip start n name) : 0 < n := by
  cases path <;> omega

theorem kept (path : ReachableIn known next skip start n name) : skip name = false := by
  cases path <;> assumption

theorem found (path : ReachableIn known next skip start n name) :
    ∃ r, known.get? name = some r := by
  cases path <;> exact ⟨_, by assumption⟩

end ReachableIn

/-- The least number of steps to a name. -/
noncomputable def distance (known : Table Record) (next : Record → List String)
    (skip : String → Bool) (start : List String) (name : String) : Nat :=
  sInf {n | ReachableIn known next skip start n name}

/-! ## The queue of a search -/

/-- A search at depth `n`: of its queue, `now` holds names at that depth and `later` names one
step further. What lies nearer has been entered, and what has been entered is sorted. -/
structure Frontier (known : Table Record) (next : Record → List String) (skip : String → Bool)
    (start : List String) (n : Nat) (now later : List String) (seen : Table Record) : Prop where
  pos : 0 < n
  bound : ∀ {x r}, seen.get? x = some r → known.get? x = some r
  pending : Pending known next skip (now ++ later) seen
  now_at : ∀ x ∈ now, skip x = false → ∀ r, known.get? x = some r →
    ReachableIn known next skip start n x
  later_at : ∀ x ∈ later, skip x = false → ∀ r, known.get? x = some r →
    ReachableIn known next skip start (n + 1) x
  seen_near : ∀ x, seen.contains x = true → ∃ k ≤ n, ReachableIn known next skip start k x
  near_seen : ∀ k ≤ n, ∀ x, ReachableIn known next skip start k x →
    seen.contains x = true ∨ k = n ∧ x ∈ now
  sorted : seen.keys.Pairwise fun a b =>
    distance known next skip start a ≤ distance known next skip start b

namespace Frontier

variable {n : Nat} {now later : List String} {seen : Table Record} {name : String} {r : Record}

theorem initial (known : Table Record) (next : Record → List String) (skip : String → Bool)
    (start : List String) : Frontier known next skip start 1 start [] .empty where
  pos := Nat.one_pos
  bound := by simp
  pending := fun m r hm => by simp at hm
  now_at := fun x hx kept r found => .start hx kept found
  later_at := by simp
  seen_near := by simp [Table.contains]
  near_seen := by
    intro k hk x path
    cases path with
    | start listed kept found => exact .inr ⟨rfl, listed⟩
    | step path => exact absurd path.pos (by omega)
  sorted := List.Pairwise.nil

/-- When no name of the depth in work is left, the next depth is in work. -/
theorem advance (h : Frontier known next skip start n [] later seen) :
    Frontier known next skip start (n + 1) later [] seen where
  pos := by omega
  bound := h.bound
  pending := by simpa using h.pending
  now_at := h.later_at
  later_at := by simp
  seen_near := fun x hx => by
    obtain ⟨k, hk, path⟩ := h.seen_near x hx
    exact ⟨k, by omega, path⟩
  near_seen := by
    have entered : ∀ k ≤ n, ∀ x, ReachableIn known next skip start k x →
        seen.contains x = true := fun k hk x path => by simpa using h.near_seen k hk x path
    intro k hk x path
    cases path with
    | start listed kept found =>
      exact .inl (entered 1 h.pos x (.start listed kept found))
    | @step k last _ s t path at_last listed kept found =>
      -- the last name but one lies at most at depth `n`, so its names are entered or queued
      obtain ⟨s', hs'⟩ := Option.isSome_iff_exists.mp (entered k (by omega) last path)
      obtain rfl : s = s' := Option.some.inj (at_last.symm.trans (h.bound hs'))
      rcases h.pending last s hs' x listed kept (by simp [Table.contains, found]) with hx | hx
      · by_cases same : k = n
        · exact .inr ⟨by omega, by simpa using hx⟩
        · exact .inl (entered (k + 1) (by omega) x (path.step at_last listed kept found))
      · exact .inl hx
  sorted := h.sorted

/-- A queue with a first name has it among those of a depth in work. -/
theorem exists_cons {queue : List String} (h : Frontier known next skip start n now later seen)
    (hq : now ++ later = name :: queue) :
    ∃ n now later, now ++ later = queue ∧
      Frontier known next skip start n (name :: now) later seen := by
  cases now with
  | nil =>
    obtain rfl : later = name :: queue := hq
    exact ⟨n + 1, queue, [], List.append_nil _, h.advance⟩
  | cons first now =>
    obtain ⟨rfl, rfl⟩ := List.cons.inj hq
    exact ⟨n, now, later, rfl, h⟩

/-- A name that need not be entered may leave the queue. -/
theorem drop (h : Frontier known next skip start n (name :: now) later seen)
    (done : skip name = true ∨ seen.contains name = true ∨ known.get? name = none) :
    Frontier known next skip start n now later seen where
  pos := h.pos
  bound := h.bound
  pending := Pending.drop h.pending done
  now_at := fun x hx => h.now_at x (List.mem_cons_of_mem _ hx)
  later_at := h.later_at
  seen_near := h.seen_near
  near_seen := by
    intro k hk x path
    rcases h.near_seen k hk x path with hx | ⟨rfl, hx⟩
    · exact .inl hx
    · rcases List.mem_cons.mp hx with rfl | hx
      · rcases done with skipped | old | unknown
        · simp [path.kept] at skipped
        · exact .inl old
        · obtain ⟨r, found⟩ := path.found
          simp [unknown] at found
      · exact .inr ⟨rfl, hx⟩
  sorted := h.sorted

/-- A name that has not been entered at the depth in work lies at that depth. -/
theorem distance_eq (h : Frontier known next skip start n (name :: now) later seen)
    (kept : skip name = false) (new : seen.contains name = false)
    (found : known.get? name = some r) : distance known next skip start name = n := by
  have path := h.now_at name List.mem_cons_self kept r found
  refine le_antisymm (Nat.sInf_le path) ?_
  by_contra nearer
  have least := Nat.sInf_mem (s := {k | ReachableIn known next skip start k name}) ⟨n, path⟩
  rcases h.near_seen _ (Nat.le_of_not_le nearer) name least with old | ⟨same, -⟩
  · simp [new] at old
  · exact nearer (le_of_eq same.symm)

/-- A name that is entered comes after all that lies nearer. -/
theorem enter (h : Frontier known next skip start n (name :: now) later seen)
    (kept : skip name = false) (new : seen.contains name = false)
    (found : known.get? name = some r) :
    Frontier known next skip start n now (later ++ next r) (seen.insert name r) where
  pos := h.pos
  bound := by
    intro x s hx
    rw [Table.get?_insert] at hx
    split at hx
    · next same => rw [same, found, hx]
    · exact h.bound hx
  pending := by simpa using Pending.enter (r := r) h.pending
  now_at := fun x hx => h.now_at x (List.mem_cons_of_mem _ hx)
  later_at := by
    intro x hx
    rcases List.mem_append.mp hx with hx | hx
    · exact h.later_at x hx
    · intro kept' s found'
      exact (h.now_at name List.mem_cons_self kept r found).step found hx kept' found'
  seen_near := by
    intro x hx
    rw [Table.contains, Table.get?_insert] at hx
    split at hx
    · next same => exact ⟨n, le_rfl, same ▸ h.now_at name List.mem_cons_self kept r found⟩
    · exact h.seen_near x hx
  near_seen := by
    intro k hk x path
    rw [Table.contains, Table.get?_insert]
    split
    · exact .inl rfl
    · next other =>
      rcases h.near_seen k hk x path with hx | ⟨rfl, hx⟩
      · exact .inl hx
      · exact .inr ⟨rfl, (List.mem_cons.mp hx).resolve_left other⟩
  sorted := by
    have fresh : name ∉ seen.keys := fun hx => by simp [Table.contains_iff.mpr hx] at new
    rw [Table.keys_insert, if_neg fresh, List.pairwise_append]
    refine ⟨h.sorted, List.pairwise_singleton _ _, ?_⟩
    intro a ha b hb
    obtain rfl := List.mem_singleton.mp hb
    obtain ⟨k, hk, path⟩ := h.seen_near a (Table.contains_iff.mpr ha)
    rw [h.distance_eq kept new found]
    exact (Nat.sInf_le path).trans hk

end Frontier

/-- A search enters names nearest first. -/
theorem pairwise_distance_reach {n : Nat} {now later queue : List String} {seen : Table Record}
    (h : Frontier known next skip start n now later seen) (hq : now ++ later = queue) :
    (reach known next skip queue seen).keys.Pairwise fun a b =>
      distance known next skip start a ≤ distance known next skip start b := by
  fun_induction reach known next skip queue seen generalizing n now later with
  | case1 seen => exact h.sorted
  | case2 seen name queue hskip ih =>
    obtain ⟨n, now, later, hq, h⟩ := h.exists_cons hq
    exact ih (h.drop (.inl hskip)) hq
  | case3 seen name queue hskip hnew ih =>
    obtain ⟨n, now, later, hq, h⟩ := h.exists_cons hq
    exact ih (h.drop (.inr (.inl hnew))) hq
  | case4 seen name queue hskip hnew hfound ih =>
    obtain ⟨n, now, later, hq, h⟩ := h.exists_cons hq
    exact ih (h.drop (.inr (.inr hfound))) hq
  | case5 seen name queue hskip hnew r hfound ih =>
    obtain ⟨n, now, later, hq, h⟩ := h.exists_cons hq
    refine ih (h.enter (by simpa using hskip) hnew hfound) ?_
    rw [← hq, List.append_assoc]

end Search

/-! ## Flattened views -/

namespace Index

/-- Where so many superclass steps lead from a record: through records of the index, past
the record's own name. -/
def AncestorIn (i : Index) (r : Record) : Nat → String → Prop :=
  ReachableIn i.records Record.superClasses (· == r.name.getD "") r.superClasses

/-- The least number of superclass steps from a record to a name. -/
noncomputable def ancestorDistance (i : Index) (r : Record) : String → Nat :=
  distance i.records Record.superClasses (· == r.name.getD "") r.superClasses

/-- Names that hold the known mixins of a record and of its ancestors, and with a mixin the
known mixins that it lists. -/
structure ClosedUnderMixins (i : Index) (r : Record) (ancestors : Table Record)
    (names : Set String) : Prop where
  own : ∀ m ∈ r.mixins, i.knows m = true → m ∈ names
  inherited : ∀ a ∈ ancestors.values, ∀ m ∈ a.mixins, i.knows m = true → m ∈ names
  nested : ∀ name ∈ names, ∀ outer, i.find? name = some outer →
    ∀ m ∈ outer.mixins, i.knows m = true → m ∈ names

/-- A view that flattens the hierarchy of a record: the ancestors nearest first and the mixins
that the hierarchy includes, each once and with its record in the index. -/
structure Flattens (i : Index) (r : Record) (v : View) : Prop where
  ancestors_iff : ∀ name, name ∈ v.ancestors.keys ↔ ∃ n, i.AncestorIn r n name
  ancestors_nodup : v.ancestors.keys.Nodup
  ancestors_bound : ∀ name ∈ v.ancestors.keys, v.ancestors.get? name = i.find? name
  nearest_first : v.ancestors.keys.Pairwise fun a b =>
    i.ancestorDistance r a ≤ i.ancestorDistance r b
  mixins_least : IsLeast {names | i.ClosedUnderMixins r v.ancestors names}
    {name | name ∈ v.mixins.keys}
  mixins_nodup : v.mixins.keys.Nodup
  mixins_bound : ∀ name ∈ v.mixins.keys, v.mixins.get? name = i.find? name

theorem ancestorIn_iff_mem_keys {i : Index} {r : Record} {name : String} :
    name ∈ (i.view r).ancestors.keys ↔ ∃ n, i.AncestorIn r n name := by
  rw [← Table.contains_iff, Table.contains, Option.isSome_iff_exists]
  constructor
  · rintro ⟨a, ha⟩
    exact reachable_iff_exists_steps.mp (get?_ancestors.mp ha).1
  · rintro ⟨n, steps⟩
    obtain ⟨a, found⟩ := steps.found
    exact ⟨a, get?_ancestors.mpr ⟨reachable_iff_exists_steps.mpr ⟨n, steps⟩, found⟩⟩

theorem ancestors_nearest_first (i : Index) (r : Record) :
    (i.view r).ancestors.keys.Pairwise fun a b =>
      i.ancestorDistance r a ≤ i.ancestorDistance r b :=
  pairwise_distance_reach (.initial _ _ _ _) (List.append_nil _)

theorem find?_eq_of_mem_mixins {i : Index} {r : Record} {name : String}
    (h : name ∈ (i.view r).mixins.keys) : (i.view r).mixins.get? name = i.find? name := by
  obtain ⟨m, hm⟩ := Option.isSome_iff_exists.mp (Table.contains_iff.mpr h)
  rw [hm, Index.find?, (get?_reach_empty.mp hm).2]

/-- The mixins of a view are closed under inclusion. -/
theorem closedUnderMixins_view (i : Index) (r : Record) :
    i.ClosedUnderMixins r (i.view r).ancestors {name | name ∈ (i.view r).mixins.keys} := by
  have entered : ∀ {name}, (i.view r).mixins.get? name = i.find? name → i.knows name = true →
      name ∈ (i.view r).mixins.keys := by
    intro name same known
    rw [← Table.contains_iff, Table.contains, same]
    exact known
  refine ⟨?_, ?_, ?_⟩
  · intro m hm known
    exact entered (get?_mixins_of_mem hm) known
  · intro a ha m hm known
    exact entered (get?_mixins_of_ancestor ha hm) known
  · intro name hname outer found m hm known
    exact entered (get?_mixins_of_mixin ((find?_eq_of_mem_mixins hname).trans found) hm) known

/-- Any names that are closed under inclusion hold the mixins of a view. -/
theorem mixins_subset_of_closed {i : Index} {r : Record} {names : Set String}
    (closed : i.ClosedUnderMixins r (i.view r).ancestors names) {name : String}
    (h : name ∈ (i.view r).mixins.keys) : name ∈ names := by
  have known : ∀ {x m}, i.records.get? x = some m → i.knows x = true := by
    intro x m found
    rw [knows, Table.contains, found]
    rfl
  obtain ⟨m, hm⟩ := Option.isSome_iff_exists.mp (Table.contains_iff.mpr h)
  have path := (get?_reach_empty.mp hm).1
  clear h hm
  induction path with
  | start listed _ found =>
    rcases List.mem_append.mp listed with own | inherited
    · exact closed.own _ own (known found)
    · obtain ⟨a, ha, listed⟩ := List.mem_flatMap.mp inherited
      exact closed.inherited a ha _ listed (known found)
  | step _ at_last listed _ found ih => exact closed.nested _ ih _ at_last _ listed (known found)

/-- The view of a record flattens its hierarchy, whatever the graph. -/
theorem view_flattens (i : Index) (r : Record) : i.Flattens r (i.view r) where
  ancestors_iff := fun _ => ancestorIn_iff_mem_keys
  ancestors_nodup := (i.view r).ancestors.keys_nodup
  ancestors_bound := by
    intro name h
    obtain ⟨a, ha⟩ := Option.isSome_iff_exists.mp (Table.contains_iff.mpr h)
    rw [ha, (get?_ancestors.mp ha).2]
  nearest_first := ancestors_nearest_first i r
  mixins_least := ⟨closedUnderMixins_view i r, fun _ closed _ => mixins_subset_of_closed closed⟩
  mixins_nodup := (i.view r).mixins.keys_nodup
  mixins_bound := fun _ => find?_eq_of_mem_mixins

end Index

end Ambient
