/-
  Reachability: which names a search enters. Main statements: `get?_reach_empty` (a search
  enters the known names that a path leads to, each with its record, and no others), and for
  the view of a class `get?_ancestors`, `get?_mixins_of_mem` and `get?_mixins_of_mixin`.
-/
import Ambient.Hierarchy

namespace Ambient

/-- Where a path from a list of names leads along `next`: through known records, past no name
to skip. -/
inductive Reachable (known : Table Record) (next : Record → List String)
    (skip : String → Bool) (start : List String) : String → Prop
  | start {name : String} {r : Record} (listed : name ∈ start) (kept : skip name = false)
      (found : known.get? name = some r) : Reachable known next skip start name
  | step {last name : String} {s r : Record} (path : Reachable known next skip start last)
      (at_last : known.get? last = some s) (listed : name ∈ next s) (kept : skip name = false)
      (found : known.get? name = some r) : Reachable known next skip start name

namespace Reachable

variable {known : Table Record} {next : Record → List String} {skip : String → Bool}
  {start : List String} {name : String}

/-- What a path leads to from names that paths lead to. -/
theorem of_reachable {mid : List String} (h : Reachable known next skip mid name)
    (hmid : ∀ m ∈ mid, ∀ r, skip m = false → known.get? m = some r →
      Reachable known next skip start m) : Reachable known next skip start name := by
  induction h with
  | start listed kept found => exact hmid _ listed _ kept found
  | step _ at_last listed kept found ih => exact ih.step at_last listed kept found

end Reachable

/-! ## A search, entry by entry -/

section Search

variable {known : Table Record} {next : Record → List String} {skip : String → Bool}

/-- What a search enters keeps a property that the queue and the earlier entries have and that
entries pass on. -/
theorem reach_sound {P : String → Prop}
    (pass : ∀ {m r}, P m → known.get? m = some r → ∀ y ∈ next r, skip y = false →
      ∀ s, known.get? y = some s → P y)
    {queue : List String} {seen : Table Record}
    (hqueue : ∀ x ∈ queue, skip x = false → ∀ r, known.get? x = some r → P x)
    (hseen : ∀ {x r}, seen.get? x = some r → P x ∧ known.get? x = some r) {x : String} {r : Record}
    (h : (reach known next skip queue seen).get? x = some r) :
    P x ∧ known.get? x = some r := by
  fun_induction reach known next skip queue seen with
  | case1 seen => exact hseen h
  | case2 seen name queue hskip ih =>
    exact ih (fun y hy => hqueue y (List.mem_cons_of_mem _ hy)) hseen h
  | case3 seen name queue hskip hnew ih =>
    exact ih (fun y hy => hqueue y (List.mem_cons_of_mem _ hy)) hseen h
  | case4 seen name queue hskip hnew hfound ih =>
    exact ih (fun y hy => hqueue y (List.mem_cons_of_mem _ hy)) hseen h
  | case5 seen name queue hskip hnew s hfound ih =>
    have hname : P name := hqueue name List.mem_cons_self (by simpa using hskip) s hfound
    refine ih (fun y hy => ?_) (fun {y t} hy => ?_) h
    · rcases List.mem_append.mp hy with hy | hy
      · exact hqueue y (List.mem_cons_of_mem _ hy)
      · exact pass hname hfound y hy
    · rw [Table.get?_insert] at hy
      split at hy
      · next hyn =>
        obtain rfl := Option.some.inj hy
        exact hyn ▸ ⟨hname, hfound⟩
      · exact hseen hy

/-- A search forgets no entry. -/
theorem get?_reach_of_seen {queue : List String} {seen : Table Record} {x : String} {r : Record}
    (h : seen.get? x = some r) : (reach known next skip queue seen).get? x = some r := by
  fun_induction reach known next skip queue seen with
  | case1 seen => exact h
  | case2 seen name queue hskip ih => exact ih h
  | case3 seen name queue hskip hnew ih => exact ih h
  | case4 seen name queue hskip hnew hfound ih => exact ih h
  | case5 seen name queue hskip hnew s hfound ih =>
    refine ih ?_
    rw [Table.get?_insert, if_neg]
    · exact h
    · intro same
      subst same
      simp [Table.contains, h] at hnew

/-- A search enters what waits in its queue. -/
theorem contains_reach_of_mem {queue : List String} {seen : Table Record} {x : String}
    {r : Record} (hx : x ∈ queue) (kept : skip x = false) (found : known.get? x = some r) :
    (reach known next skip queue seen).contains x = true := by
  fun_induction reach known next skip queue seen with
  | case1 seen => simp at hx
  | case2 seen name queue hskip ih =>
    refine ih ((List.mem_cons.mp hx).resolve_left ?_)
    intro same
    subst same
    simp [kept] at hskip
  | case3 seen name queue hskip hnew ih =>
    rcases List.mem_cons.mp hx with rfl | hx
    · obtain ⟨s, hs⟩ := Option.isSome_iff_exists.mp hnew
      simp [Table.contains, get?_reach_of_seen hs]
    · exact ih hx
  | case4 seen name queue hskip hnew hfound ih =>
    refine ih ((List.mem_cons.mp hx).resolve_left ?_)
    intro same
    subst same
    simp [found] at hfound
  | case5 seen name queue hskip hnew s hfound ih =>
    rcases List.mem_cons.mp hx with rfl | hx
    · have : (seen.insert x s).get? x = some s := by simp [Table.get?_insert]
      simp [Table.contains, get?_reach_of_seen this]
    · exact ih (List.mem_append_left _ hx)

/-- Whatever the entries lead to is an entry or waits in the queue. -/
def Pending (known : Table Record) (next : Record → List String) (skip : String → Bool)
    (queue : List String) (seen : Table Record) : Prop :=
  ∀ m r, seen.get? m = some r → ∀ y ∈ next r, skip y = false → known.contains y = true →
    y ∈ queue ∨ seen.contains y = true

namespace Pending

variable {queue : List String} {seen : Table Record} {name : String} {r : Record}

/-- A name that need not be entered may leave the queue. -/
theorem drop (h : Pending known next skip (name :: queue) seen)
    (done : skip name = true ∨ seen.contains name = true ∨ known.get? name = none) :
    Pending known next skip queue seen := by
  intro m r hm y hy kept found
  rcases h m r hm y hy kept found with hq | hs
  · rcases List.mem_cons.mp hq with rfl | hq
    · rcases done with skipped | old | unknown
      · simp [kept] at skipped
      · exact .inr old
      · simp [Table.contains, unknown] at found
    · exact .inl hq
  · exact .inr hs

/-- A name that is entered puts what it leads to into the queue. -/
theorem enter (h : Pending known next skip (name :: queue) seen) :
    Pending known next skip (queue ++ next r) (seen.insert name r) := by
  have grown : ∀ y, y = name ∨ seen.contains y = true →
      (seen.insert name r).contains y = true := by
    intro y hy
    rw [Table.contains, Table.get?_insert]
    split
    · rfl
    · next hne => exact hy.resolve_left hne
  intro m s hm y hy kept found
  rw [Table.get?_insert] at hm
  split at hm
  · obtain rfl := Option.some.inj hm
    exact .inl (List.mem_append_right _ hy)
  · rcases h m s hm y hy kept found with hq | hs
    · rcases List.mem_cons.mp hq with rfl | hq
      · exact .inr (grown y (.inl rfl))
      · exact .inl (List.mem_append_left _ hq)
    · exact .inr (grown y (.inr hs))

end Pending

/-- A search ends with nothing left to enter. -/
theorem pending_reach {queue : List String} {seen : Table Record}
    (h : Pending known next skip queue seen) :
    Pending known next skip [] (reach known next skip queue seen) := by
  fun_induction reach known next skip queue seen with
  | case1 seen => exact h
  | case2 seen name queue hskip ih => exact ih (h.drop (.inl hskip))
  | case3 seen name queue hskip hnew ih => exact ih (h.drop (.inr (.inl hnew)))
  | case4 seen name queue hskip hnew hfound ih => exact ih (h.drop (.inr (.inr hfound)))
  | case5 seen name queue hskip hnew s hfound ih => exact ih h.enter

/-- A search from nothing enters the known names that a path leads to, each with its
record. -/
theorem get?_reach_empty {start : List String} {x : String} {r : Record} :
    (reach known next skip start .empty).get? x = some r ↔
      Reachable known next skip start x ∧ known.get? x = some r := by
  have sound : ∀ {y s}, (reach known next skip start .empty).get? y = some s →
      Reachable known next skip start y ∧ known.get? y = some s :=
    reach_sound (fun hm hs _ hy kept _ found => hm.step hs hy kept found)
      (fun _ hy kept _ found => .start hy kept found) (by simp)
  have closed : Pending known next skip [] (reach known next skip start .empty) :=
    pending_reach fun m r hm => by simp at hm
  have complete : ∀ {y}, Reachable known next skip start y →
      (reach known next skip start .empty).contains y = true := by
    intro y hy
    induction hy with
    | start listed kept found => exact contains_reach_of_mem listed kept found
    | @step last y s t _ at_last listed kept found ih =>
      obtain ⟨s', hs'⟩ := Option.isSome_iff_exists.mp ih
      obtain rfl : s' = s := Option.some.inj ((sound hs').2.symm.trans at_last)
      exact (closed last s' hs' y listed kept (by simp [Table.contains, found])).resolve_left
        List.not_mem_nil
  refine ⟨sound, ?_⟩
  intro h
  obtain ⟨hx, hr⟩ := h
  obtain ⟨s, hs⟩ := Option.isSome_iff_exists.mp (complete hx)
  rw [hs, ← (sound hs).2, hr]

/-- A search from nothing finds a name as it is known if a path leads there. -/
theorem get?_reach_eq {start : List String} {y : String}
    (h : ∀ s, known.get? y = some s → Reachable known next skip start y) :
    (reach known next skip start .empty).get? y = known.get? y :=
  Option.ext fun s =>
    ⟨fun hs => (get?_reach_empty.mp hs).2, fun hs => get?_reach_empty.mpr ⟨h s hs, hs⟩⟩

end Search

/-! ## Views -/

namespace Index

/-- A name of an ancestor of a record: superclasses lead there, never past the record's own
name. -/
def Ancestor (i : Index) (r : Record) : String → Prop :=
  Reachable i.records Record.superClasses (· == r.name.getD "") r.superClasses

variable {i : Index} {r a m : Record} {name : String}

theorem get?_ancestors :
    (i.view r).ancestors.get? name = some a ↔ i.Ancestor r name ∧ i.find? name = some a :=
  get?_reach_empty

/-- A mixin of the record itself is in its view if it is known. -/
theorem get?_mixins_of_mem (h : name ∈ r.mixins) :
    (i.view r).mixins.get? name = i.find? name :=
  get?_reach_eq fun _ found => .start (List.mem_append_left _ h) rfl found

/-- A mixin of an ancestor is in the view if it is known. -/
theorem get?_mixins_of_ancestor (ha : a ∈ (i.view r).ancestors.values) (h : name ∈ a.mixins) :
    (i.view r).mixins.get? name = i.find? name :=
  get?_reach_eq fun _ found =>
    .start (List.mem_append_right _ (List.mem_flatMap.mpr ⟨a, ha, h⟩)) rfl found

/-- A mixin of a mixin of the view is in the view if it is known. -/
theorem get?_mixins_of_mixin {outer : String} (hm : (i.view r).mixins.get? outer = some m)
    (h : name ∈ m.mixins) : (i.view r).mixins.get? name = i.find? name :=
  get?_reach_eq fun _ found =>
    (get?_reach_empty.mp hm).1.step (get?_reach_empty.mp hm).2 h rfl found

end Index

end Ambient
