/-
  The stack of inclusions: a class is written to a sink that may refuse at any time, and the
  names that are being inlined stand on a stack, from the class inwards. The name of a mixin is
  pushed before the body of its record is written and popped afterwards, however that ended.
  Bodies are nested only so deep as a limit allows, and there is no answer beyond it.
  `Subject.keeps_writeBody` says what an entry into a body keeps of the stack,
  `Subject.entries_writeBody` and `Subject.visits_writeBody` which entries are made, and
  `Subject.exists_writeBody` that a limit above the mixins not yet on the stack is never met and
  that what is written is the block of the class. Main statement: `Index.inlining_bounded`.
-/
import Ambient.Proofs.BlockEntries
import Ambient.Proofs.BoundedSinks
import Mathlib.Data.List.Nodup
import Mathlib.Data.List.Perm.Subperm

namespace Ambient

/-! ## Writing with a stack -/

/-- The writing of a class in its course: the sink, the names being inlined, and what these
names were at each entry into the body of a record. -/
structure Inlining where
  sink : Progress
  stack : List String
  entries : List (List String)

/-- A part of the writing, with the way in which it ended. -/
abbrev Inlining.Ended := Inlining × Except WriteError Unit

namespace Inlining

def push (t : Inlining) (m : String) : Inlining := { t with stack := t.stack ++ [m] }

def pop (t : Inlining) : Inlining := { t with stack := t.stack.dropLast }

/-- Notes that the body of a record is entered. -/
def enter (t : Inlining) : Inlining := { t with entries := t.entries ++ [t.stack] }

/-- Writes pieces to the sink. -/
def write (t : Inlining) (k : Intake) (refusal : Refusal) (pieces : List String) : Ended :=
  ({ t with sink := (k.run refusal (.write pieces) t.sink).1 },
    (k.run refusal (.write pieces) t.sink).2)

/-- Goes on after a part of the writing, unless it failed. -/
def Ended.andThen (x : Ended) (f : Inlining → Option Ended) : Option Ended :=
  match x.2 with
  | .error e => some (x.1, .error e)
  | .ok () => f x.1

/-- Pops a name after a part of the writing, also if it failed. -/
def Ended.pop (x : Ended) : Ended := (x.1.pop, x.2)

end Inlining

namespace Subject

open Inlining

variable (s : Subject) (k : Intake) (refusal : Refusal)

/-- Writes mixins one by one, each with its body, which `body` writes. -/
def includeMixins (body : Record → Inlining → Option Ended) : List String → Inlining → Option Ended
  | [], t => some (t, .ok ())
  | m :: mixins, t =>
    (t.write k refusal [mixinLine m]).andThen fun t =>
      if m ∈ t.stack then some (t, .error (.inclusion (.cycle s.name (t.stack ++ [m]))))
      else
        match s.view.mixins.get? m with
        | none => some (t, .error (.inclusion (.missing s.name m)))
        | some r => (body r (t.push m)).bind fun x => x.pop.andThen (includeMixins body mixins)

/-- Writes the body of a record, with bodies nested in it to this depth. -/
def writeBody : Nat → Record → Inlining → Option Ended
  | 0 => fun _ _ => none
  | depth + 1 => fun r t =>
    (t.enter.write k refusal (s.ownTexts r)).andThen
      (s.includeMixins k refusal (writeBody depth) r.mixins)

/-- Writes the block of the class, with bodies nested to this depth. -/
def writeBlock (depth : Nat) (inModule : Bool) (sink : Progress) : Option Ended :=
  ((⟨sink, [s.name], []⟩ : Inlining).write k refusal (s.opening inModule)).andThen fun t =>
    (s.writeBody k refusal depth s.record t).bind fun x =>
      x.andThen fun t => some (t.write k refusal ["\n  \x7d\n"])

end Subject

/-! ## What is kept -/

/-- The stack stands as given, and each entry was made with a good stack. -/
structure Inlining.Keeps (good : List String → Prop) (stack : List String) (t : Inlining) :
    Prop where
  stack_eq : t.stack = stack
  entries_good : ∀ entry ∈ t.entries, good entry

namespace Inlining

variable {good : List String → Prop} {stack : List String} {t : Inlining} {m : String}

theorem Keeps.push (h : t.Keeps good stack) : (t.push m).Keeps good (stack ++ [m]) :=
  ⟨by rw [Inlining.push, h.stack_eq], h.entries_good⟩

theorem Keeps.pop (h : t.Keeps good (stack ++ [m])) : t.pop.Keeps good stack :=
  ⟨by rw [Inlining.pop, h.stack_eq, List.dropLast_concat], h.entries_good⟩

theorem Keeps.enter (h : t.Keeps good stack) (hgood : good stack) : t.enter.Keeps good stack := by
  refine ⟨h.stack_eq, ?_⟩
  intro entry hentry
  rcases List.mem_append.mp hentry with old | new
  · exact h.entries_good entry old
  · rw [List.mem_singleton.mp new, h.stack_eq]
    exact hgood

theorem Keeps.write (h : t.Keeps good stack) (k : Intake) (refusal : Refusal)
    (pieces : List String) : (t.write k refusal pieces).1.Keeps good stack :=
  ⟨h.stack_eq, h.entries_good⟩

theorem Keeps.andThen {x y : Ended} {f : Inlining → Option Ended} (h : x.1.Keeps good stack)
    (keeps : ∀ y ∈ f x.1, y.1.Keeps good stack) (ended : y ∈ x.andThen f) :
    y.1.Keeps good stack := by
  unfold Ended.andThen at ended
  split at ended
  · obtain rfl := Option.some.inj ended
    exact h
  · exact keeps y ended

end Inlining

namespace Subject

open Inlining

variable {s : Subject} {k : Intake} {refusal : Refusal} {good : List String → Prop}
  {stack mixins : List String}

/-- The writing of mixins keeps what the writing of each body keeps. -/
theorem keeps_includeMixins {body : Record → Inlining → Option Ended}
    (grows : ∀ {stack : List String} {m : String}, good stack → m ∉ stack →
      s.view.mixins.contains m = true → good (stack ++ [m]))
    (body_keeps : ∀ {stack : List String} {r : Record} {t : Inlining}, good stack →
      t.Keeps good stack → ∀ y ∈ body r t, y.1.Keeps good stack)
    (hgood : good stack) {t : Inlining} (h : t.Keeps good stack) :
    ∀ y ∈ s.includeMixins k refusal body mixins t, y.1.Keeps good stack := by
  induction mixins generalizing t with
  | nil =>
    intro y hy
    obtain rfl := Option.some.inj hy
    exact h
  | cons m mixins ih =>
    intro y hy
    unfold includeMixins at hy
    apply (h.write k refusal [mixinLine m]).andThen _ hy
    intro y hy
    have same : (t.write k refusal [mixinLine m]).1.stack = stack := h.stack_eq
    split at hy
    · obtain rfl := Option.some.inj hy
      exact h.write k refusal [mixinLine m]
    · next new =>
      split at hy
      · obtain rfl := Option.some.inj hy
        exact h.write k refusal [mixinLine m]
      · next r found =>
        obtain ⟨x, hx, hy⟩ := Option.bind_eq_some_iff.mp hy
        have hpushed : good (stack ++ [m]) :=
          grows hgood (same ▸ new) (by simp [Table.contains, found])
        have body_kept := body_keeps hpushed (h.write k refusal [mixinLine m]).push x hx
        exact body_kept.pop.andThen (ih body_kept.pop) hy

/-- An entry into a body finds a good stack and leaves the stack as it was, if a good stack stays
good with one more mixin of the view. -/
theorem keeps_writeBody (grows : ∀ {stack : List String} {m : String}, good stack → m ∉ stack →
      s.view.mixins.contains m = true → good (stack ++ [m]))
    (depth : Nat) {r : Record} {t : Inlining} (hgood : good stack) (h : t.Keeps good stack) :
    ∀ y ∈ s.writeBody k refusal depth r t, y.1.Keeps good stack := by
  induction depth generalizing stack r t with
  | zero =>
    intro y hy
    cases hy
  | succ depth ih =>
    intro y hy
    unfold writeBody at hy
    have entered := (h.enter hgood).write k refusal (s.ownTexts r)
    exact entered.andThen (keeps_includeMixins grows ih hgood entered) hy

/-- However a body ends, the stack is as it was before. -/
theorem stack_writeBody (depth : Nat) (r : Record) (t : Inlining) :
    ∀ y ∈ s.writeBody k refusal depth r t, y.1.stack = t.stack := by
  intro y hy
  have kept : y.1.Keeps (fun _ => True) t.stack :=
    keeps_writeBody (fun _ _ _ => trivial) depth trivial ⟨rfl, fun _ _ => trivial⟩ y hy
  exact kept.stack_eq

/-- However the writing of mixins ends, the stack is as it was before. -/
theorem stack_includeMixins (depth : Nat) (mixins : List String) (t : Inlining) :
    ∀ y ∈ s.includeMixins k refusal (s.writeBody k refusal depth) mixins t,
      y.1.stack = t.stack := by
  intro y hy
  have kept : y.1.Keeps (fun _ => True) t.stack :=
    keeps_includeMixins (fun _ _ _ => trivial) (keeps_writeBody (fun _ _ _ => trivial) depth)
      trivial ⟨rfl, fun _ _ => trivial⟩ y hy
  exact kept.stack_eq

/-- A stack that starts with the class, goes on with mixins of its view, and has no name
twice. -/
structure Stacked (s : Subject) (stack : List String) : Prop where
  first : stack.head? = some s.name
  nodup : stack.Nodup
  mixins : ∀ m ∈ stack.tail, m ∈ s.view.mixins.keys

theorem stacked_class (s : Subject) : s.Stacked [s.name] :=
  ⟨rfl, List.nodup_singleton _, fun _ h => absurd h List.not_mem_nil⟩

theorem Stacked.push {m : String} (h : s.Stacked stack) (new : m ∉ stack)
    (known : s.view.mixins.contains m = true) : s.Stacked (stack ++ [m]) := by
  obtain ⟨c, rest, rfl⟩ : ∃ c rest, stack = c :: rest := by
    cases stack with
    | nil => exact nomatch h.first
    | cons c rest => exact ⟨c, rest, rfl⟩
  refine ⟨h.first, ?_, ?_⟩
  · apply List.nodup_append.mpr
    refine ⟨h.nodup, List.nodup_singleton m, fun a ha b hb => ?_⟩
    obtain rfl := List.mem_singleton.mp hb
    intro same
    exact new (same ▸ ha)
  · intro a ha
    rcases List.mem_append.mp ha with ha | ha
    · exact h.mixins a ha
    · obtain rfl := List.mem_singleton.mp ha
      exact Table.contains_iff.mp known

/-- No stack is longer than the class and all mixins of its view. -/
theorem Stacked.length_le (h : s.Stacked stack) : stack.length ≤ 1 + s.view.mixins.size := by
  have inner : stack.tail.length ≤ s.view.mixins.keys.length :=
    (List.subperm_of_subset h.nodup.tail h.mixins).length_le
  have size : s.view.mixins.keys.length = s.view.mixins.size := List.length_map _
  rw [List.length_tail] at inner
  omega

end Subject

/-! ## The entries -/

namespace Inlining

/-- A writing in two parts ends in its first part or in its second. -/
theorem Ended.andThen_eq_some {x y : Ended} {f : Inlining → Option Ended}
    (h : x.andThen f = some y) :
    (∃ e, y = (x.1, .error e)) ∨ x.2 = .ok () ∧ f x.1 = some y := by
  unfold Ended.andThen at h
  split at h
  · next e _ => exact .inl ⟨e, (Option.some.inj h).symm⟩
  · next done => exact .inr ⟨done, h⟩

theorem Ended.andThen_of_ok {x : Ended} {f : Inlining → Option Ended} (h : x.2 = .ok ()) :
    x.andThen f = f x.1 := by rw [andThen, h]

theorem Ended.andThen_eq_ok {x y : Ended} {f : Inlining → Option Ended} (h : x.andThen f = some y)
    (written : y.2 = .ok ()) : x.2 = .ok () ∧ f x.1 = some y := by
  rcases andThen_eq_some h with ⟨e, rfl⟩ | later
  · cases written
  · exact later

end Inlining

namespace Subject

open Inlining

variable {s : Subject} {k : Intake} {refusal : Refusal}

/-- The writing of mixins forgets no entry if the writing of no body does. -/
theorem entries_includeMixins {body : Record → Inlining → Option Ended}
    (body_notes : ∀ {r : Record} {t : Inlining}, ∀ y ∈ body r t, t.entries <+: y.1.entries)
    (mixins : List String) (t : Inlining) :
    ∀ y ∈ s.includeMixins k refusal body mixins t, t.entries <+: y.1.entries := by
  induction mixins generalizing t with
  | nil =>
    intro y hy
    obtain rfl := Option.some.inj hy
    exact List.prefix_rfl
  | cons m mixins ih =>
    intro y hy
    unfold includeMixins at hy
    rcases Ended.andThen_eq_some hy with ⟨e, rfl⟩ | ⟨-, hy⟩
    · exact List.prefix_rfl
    · split at hy
      · obtain rfl := Option.some.inj hy
        exact List.prefix_rfl
      · split at hy
        · obtain rfl := Option.some.inj hy
          exact List.prefix_rfl
        · obtain ⟨x, hx, hy⟩ := Option.bind_eq_some_iff.mp hy
          have nested : ((t.write k refusal [mixinLine m]).1.push m).entries <+: x.1.entries :=
            body_notes x hx
          rcases Ended.andThen_eq_some hy with ⟨e, rfl⟩ | ⟨-, hy⟩
          · exact nested
          · exact nested.trans (ih x.pop.1 y hy)

/-- An entry into a body is noted with its stack, and no entry is forgotten. -/
theorem entries_writeBody (depth : Nat) (r : Record) (t : Inlining) :
    ∀ y ∈ s.writeBody k refusal depth r t, t.entries ++ [t.stack] <+: y.1.entries := by
  induction depth generalizing r t with
  | zero =>
    intro y hy
    cases hy
  | succ depth ih =>
    intro y hy
    unfold writeBody at hy
    rcases Ended.andThen_eq_some hy with ⟨e, rfl⟩ | ⟨-, hy⟩
    · exact List.prefix_rfl
    · exact entries_includeMixins (fun y hy => (List.prefix_append _ _).trans (ih _ _ y hy)) _ _ y hy

/-- Mixins that are written to the end note the mixins inlined for them, one by one, if the body
of each notes itself and the mixins inlined for it. -/
theorem visits_includeMixins {body : Record → Inlining → Option Ended}
    (closed : ∀ m r, s.view.mixins.get? m = some r → s.Sees r.mixins)
    (body_notes : ∀ {r : Record} {t : Inlining} {y : Ended}, s.Sees r.mixins → body r t = some y →
      y.2 = .ok () → ∃ visits, s.index.Inlines r.mixins visits ∧ y.1.entries.map List.getLast? =
        t.entries.map List.getLast? ++ t.stack.getLast? :: visits.map fun v => some v.1)
    {mixins : List String} (sees : s.Sees mixins) {t : Inlining} {y : Ended}
    (ended : s.includeMixins k refusal body mixins t = some y) (written : y.2 = .ok ()) :
    ∃ visits, s.index.Inlines mixins visits ∧ y.1.entries.map List.getLast? =
      t.entries.map List.getLast? ++ visits.map fun v => some v.1 := by
  induction mixins generalizing t with
  | nil =>
    obtain rfl := Option.some.inj ended
    exact ⟨[], .nil, by simp⟩
  | cons m mixins ih =>
    unfold includeMixins at ended
    obtain ⟨-, ended⟩ := Ended.andThen_eq_ok ended written
    split at ended
    · obtain rfl := Option.some.inj ended
      cases written
    · split at ended
      · obtain rfl := Option.some.inj ended
        cases written
      · next r found =>
        obtain ⟨x, hx, ended⟩ := Option.bind_eq_some_iff.mp ended
        obtain ⟨x_written, ended⟩ := Ended.andThen_eq_ok ended written
        obtain ⟨inner, inlines, inner_noted⟩ := body_notes (closed m r found) hx x_written
        obtain ⟨later, later_inlines, later_noted⟩ :=
          ih (fun m' hm' => sees m' (List.mem_cons_of_mem _ hm')) ended
        refine ⟨(m, r) :: (inner ++ later),
          .cons ((sees m List.mem_cons_self).symm.trans found) inlines later_inlines, ?_⟩
        have popped : x.pop.1.entries = x.1.entries := rfl
        have pushed : ((t.write k refusal [mixinLine m]).1.push m).stack.getLast? = some m := by
          rw [Inlining.push, List.getLast?_concat]
        rw [later_noted, popped, inner_noted, pushed, List.map_cons, List.map_append]
        simp [Inlining.push, Inlining.write]

theorem visits_writeBody (closed : ∀ m r, s.view.mixins.get? m = some r → s.Sees r.mixins)
    (depth : Nat) {r : Record} {t : Inlining} {y : Ended} (sees : s.Sees r.mixins)
    (ended : s.writeBody k refusal depth r t = some y) (written : y.2 = .ok ()) :
    ∃ visits, s.index.Inlines r.mixins visits ∧ y.1.entries.map List.getLast? =
      t.entries.map List.getLast? ++ t.stack.getLast? :: visits.map fun v => some v.1 := by
  induction depth generalizing r t y with
  | zero => cases ended
  | succ depth ih =>
    unfold writeBody at ended
    obtain ⟨-, ended⟩ := Ended.andThen_eq_ok ended written
    obtain ⟨visits, inlines, noted⟩ := visits_includeMixins closed ih sees ended written
    refine ⟨visits, inlines, ?_⟩
    rw [noted]
    simp [Inlining.enter, Inlining.write]

end Subject

/-! ## The writing ends -/

namespace Inlining

/-- The sink received what an emission from the sink `p` on gives it, and the writing ended as
the emission does. -/
def Ended.Tells (x : Ended) (k : Intake) (refusal : Refusal) (m : Emission Unit) (p : Progress) :
    Prop :=
  k.run refusal m p = (x.1.sink, x.2)

variable {k : Intake} {refusal : Refusal}

theorem tells_write (t : Inlining) (pieces : List String) :
    (t.write k refusal pieces).Tells k refusal (.write pieces) t.sink := rfl

theorem Ended.Tells.andThen {x : Ended} {m : Emission Unit} {p : Progress}
    {f : Inlining → Option Ended} {g : Unit → Emission Unit} (h : x.Tells k refusal m p)
    (later : ∃ y, f x.1 = some y ∧ y.Tells k refusal (g ()) x.1.sink) :
    ∃ y, x.andThen f = some y ∧ y.Tells k refusal (m.andThen g) p := by
  unfold Ended.Tells at h
  unfold Ended.andThen
  cases ended : x.2 with
  | error e =>
    refine ⟨(x.1, .error e), rfl, ?_⟩
    unfold Ended.Tells
    rw [Intake.run_andThen, h, ended]
  | ok a =>
    obtain ⟨y, hy, tells⟩ := later
    refine ⟨y, hy, ?_⟩
    unfold Ended.Tells at tells ⊢
    rw [Intake.run_andThen, h, ended]
    exact tells

/-- With more depth a part of the writing that ended ends in the same way. -/
theorem Ended.andThen_mono {x y : Ended} {f f' : Inlining → Option Ended}
    (deeper : f x.1 = some y → f' x.1 = some y) (h : x.andThen f = some y) :
    x.andThen f' = some y := by
  unfold Ended.andThen at h ⊢
  cases ended : x.2 with
  | error e => rwa [ended] at h
  | ok a =>
    rw [ended] at h
    exact deeper h

end Inlining

namespace Subject

open Inlining

variable {s : Subject} {k : Intake} {refusal : Refusal}

/-- What is written for the body of a record. -/
def body (s : Subject) (chain : List String) (r : Record) : Emission Unit :=
  (Emission.write (s.ownTexts r)).andThen fun _ => s.inclusions chain r.mixins

/-- A mixin of the view that is not on the chain has its line and its body. -/
theorem inclusions_of_body {chain : List String} {m : String} {r : Record} (mixins : List String)
    (new : m ∉ chain) (found : s.view.mixins.get? m = some r) :
    s.inclusions chain (m :: mixins) =
      (Emission.write [mixinLine m]).andThen fun _ =>
        (s.body (chain ++ [m]) r).andThen fun _ => s.inclusions chain mixins := by
  rw [inclusions_of_some s mixins new found, ← List.singleton_append,
    Emission.write_append_andThen]
  unfold body
  simp only [Emission.andThen_assoc]

theorem block_eq_body (s : Subject) (inModule : Bool) :
    s.block inModule = (Emission.write (s.opening inModule)).andThen fun _ =>
      (s.body [s.name] s.record).andThen fun _ => .write ["\n  \x7d\n"] := by
  unfold block body
  rw [Emission.write_append_andThen]
  simp only [Emission.andThen_assoc]

/-- Mixins are written to the end if each body is that can be nested in them. -/
theorem exists_includeMixins {nested : Record → Inlining → Option Ended} {chain : List String}
    (nested_ends : ∀ {m : String} {r : Record} {t : Inlining}, t.stack = chain → m ∉ chain →
      s.view.mixins.get? m = some r → ∃ y, nested r (t.push m) = some y ∧
        y.1.stack = chain ++ [m] ∧ y.Tells k refusal (s.body (chain ++ [m]) r) t.sink)
    (mixins : List String) {t : Inlining} (h : t.stack = chain) :
    ∃ y, s.includeMixins k refusal nested mixins t = some y ∧
      y.Tells k refusal (s.inclusions chain mixins) t.sink := by
  induction mixins generalizing t with
  | nil =>
    refine ⟨(t, .ok ()), rfl, ?_⟩
    rw [inclusions_nil]
    rfl
  | cons m mixins ih =>
    unfold includeMixins
    have same : (t.write k refusal [mixinLine m]).1.stack = chain := h
    by_cases old : m ∈ chain
    · rw [inclusions_of_mem s mixins old]
      apply (t.tells_write [mixinLine m]).andThen
        (g := fun _ => .fail (.cycle s.name (chain ++ [m])))
      rw [same, if_pos old]
      exact ⟨_, rfl, rfl⟩
    · cases found : s.view.mixins.get? m with
      | none =>
        rw [inclusions_of_none s mixins old found]
        apply (t.tells_write [mixinLine m]).andThen (g := fun _ => .fail (.missing s.name m))
        rw [same, if_neg old]
        exact ⟨_, rfl, rfl⟩
      | some r =>
        rw [inclusions_of_body mixins old found]
        apply (t.tells_write [mixinLine m]).andThen
        rw [same, if_neg old]
        obtain ⟨x, hx, stack_eq, tells⟩ := nested_ends same old found
        dsimp only
        rw [hx, Option.bind_some]
        have popped : x.pop.1.stack = chain := by
          unfold Ended.pop Inlining.pop
          rw [stack_eq, List.dropLast_concat]
        have tells : x.pop.Tells k refusal (s.body (chain ++ [m]) r)
            (t.write k refusal [mixinLine m]).1.sink := tells
        exact tells.andThen (ih popped)

/-- The writing of a body ends if there is more depth than there are mixins not on the stack. -/
theorem exists_writeBody (depth : Nat) {r : Record} {t : Inlining}
    (enough : (s.unused t.stack).length < depth) :
    ∃ y, s.writeBody k refusal depth r t = some y ∧
      y.Tells k refusal (s.body t.stack r) t.sink := by
  induction depth generalizing r t with
  | zero => omega
  | succ depth ih =>
    unfold writeBody body
    apply (t.enter.tells_write (s.ownTexts r)).andThen
    have same : (t.enter.write k refusal (s.ownTexts r)).1.stack = t.stack := rfl
    apply exists_includeMixins _ r.mixins same
    intro m q u hu new found
    have pushed : (u.push m).stack = t.stack ++ [m] := by rw [Inlining.push, hu]
    have fewer : (s.unused (t.stack ++ [m])).length < (s.unused t.stack).length :=
      length_unused_lt found (by simpa using new)
    obtain ⟨y, hy, tells⟩ := ih (r := q) (t := u.push m) (by rw [pushed]; omega)
    rw [pushed] at tells
    exact ⟨y, hy, by rw [stack_writeBody depth q _ y hy, pushed], tells⟩

theorem includeMixins_mono {nested nested' : Record → Inlining → Option Ended}
    (deeper : ∀ {r t y}, nested r t = some y → nested' r t = some y) {mixins : List String}
    {t : Inlining} {y : Ended} (h : s.includeMixins k refusal nested mixins t = some y) :
    s.includeMixins k refusal nested' mixins t = some y := by
  induction mixins generalizing t with
  | nil => exact h
  | cons m mixins ih =>
    unfold includeMixins at h ⊢
    apply Ended.andThen_mono _ h
    intro h
    split at h
    · next old => rwa [if_pos old]
    · next new =>
      rw [if_neg new]
      split at h
      · exact h
      · obtain ⟨x, hx, h⟩ := Option.bind_eq_some_iff.mp h
        rw [deeper hx, Option.bind_some]
        exact Ended.andThen_mono ih h

/-- More depth makes no difference to a writing that ends. -/
theorem writeBody_mono {depth depth' : Nat} (h : depth ≤ depth') {r : Record} {t : Inlining}
    {y : Ended} (ended : s.writeBody k refusal depth r t = some y) :
    s.writeBody k refusal depth' r t = some y := by
  induction depth generalizing depth' r t y with
  | zero => exact nomatch ended
  | succ depth ih =>
    obtain ⟨d, rfl⟩ : ∃ d, depth' = d + 1 := ⟨depth' - 1, by omega⟩
    unfold writeBody at ended ⊢
    apply Ended.andThen_mono _ ended
    intro ended
    exact includeMixins_mono (ih (by omega)) ended

/-! ## Blocks -/

theorem exists_writeBlock {depth : Nat} (enough : (s.unused [s.name]).length < depth)
    (inModule : Bool) (sink : Progress) :
    ∃ y, s.writeBlock k refusal depth inModule sink = some y ∧
      y.Tells k refusal (s.block inModule) sink := by
  unfold writeBlock
  rw [block_eq_body]
  apply (tells_write ⟨sink, [s.name], []⟩ (s.opening inModule)).andThen
  obtain ⟨x, hx, tells⟩ := exists_writeBody depth (k := k) (r := s.record)
    (t := ((⟨sink, [s.name], []⟩ : Inlining).write k refusal (s.opening inModule)).1) enough
  rw [hx, Option.bind_some]
  exact tells.andThen ⟨_, rfl, rfl⟩

theorem keeps_writeBlock (depth : Nat) (inModule : Bool) (sink : Progress) :
    ∀ y ∈ s.writeBlock k refusal depth inModule sink, y.1.Keeps s.Stacked [s.name] := by
  intro y hy
  have start : (⟨sink, [s.name], []⟩ : Inlining).Keeps s.Stacked [s.name] :=
    ⟨rfl, fun _ h => absurd h List.not_mem_nil⟩
  have opened := start.write k refusal (s.opening inModule)
  apply opened.andThen _ hy
  intro y hy
  obtain ⟨x, hx, hy⟩ := Option.bind_eq_some_iff.mp hy
  have body_kept := keeps_writeBody Stacked.push depth s.stacked_class opened x hx
  apply body_kept.andThen _ hy
  intro y hy
  obtain rfl := Option.some.inj hy
  exact body_kept.write k refusal ["\n  \x7d\n"]

/-- Once the opening of a block is written, the body of the class is entered. -/
theorem entries_writeBlock {depth : Nat} {inModule : Bool} {sink : Progress} {y : Ended}
    (ended : s.writeBlock k refusal depth inModule sink = some y)
    (opened : (k.run refusal (.write (s.opening inModule)) sink).2 = .ok ()) :
    y.1.entries.head? = some [s.name] := by
  rw [writeBlock, Ended.andThen_of_ok opened] at ended
  obtain ⟨x, hx, ended⟩ := Option.bind_eq_some_iff.mp ended
  obtain ⟨later, entries⟩ := entries_writeBody depth s.record _ x hx
  have same : y.1.entries = x.1.entries := by
    rcases Ended.andThen_eq_some ended with ⟨e, rfl⟩ | ⟨-, ended⟩
    · rfl
    · obtain rfl := Option.some.inj ended
      rfl
  rw [same, ← entries]
  rfl

/-- A block that is written to the end notes the class and the mixins inlined into it. -/
theorem visits_writeBlock (closed : ∀ m r, s.view.mixins.get? m = some r → s.Sees r.mixins)
    {depth : Nat} {inModule : Bool} {sink : Progress} {y : Ended} (sees : s.Sees s.record.mixins)
    (ended : s.writeBlock k refusal depth inModule sink = some y) (written : y.2 = .ok ()) :
    ∃ visits, s.index.Inlines s.record.mixins visits ∧
      y.1.entries.map List.getLast? = some s.name :: visits.map fun v => some v.1 := by
  unfold writeBlock at ended
  obtain ⟨-, ended⟩ := Ended.andThen_eq_ok ended written
  obtain ⟨x, hx, ended⟩ := Option.bind_eq_some_iff.mp ended
  obtain ⟨x_written, ended⟩ := Ended.andThen_eq_ok ended written
  obtain rfl := Option.some.inj ended
  exact visits_writeBody closed depth sees hx x_written

theorem writeBlock_mono {depth depth' : Nat} (h : depth ≤ depth') {inModule : Bool}
    {sink : Progress} {y : Ended} (ended : s.writeBlock k refusal depth inModule sink = some y) :
    s.writeBlock k refusal depth' inModule sink = some y := by
  unfold writeBlock at ended ⊢
  apply Ended.andThen_mono _ ended
  intro ended
  obtain ⟨x, hx, ended⟩ := Option.bind_eq_some_iff.mp ended
  rw [writeBody_mono h hx, Option.bind_some]
  exact ended

end Subject

namespace Index

open Inlining

/-- The writing of a class ends on every graph, with bodies nested no deeper than the class and
all the mixins of its view, and any more depth makes no difference. It gives the sink what the
block of the class gives it. At each entry into a body the stack starts with the class, goes on
with mixins of the view, and has no name twice. The first entry is into the body of the class, and
a writing that comes to its end has one for the class and one for each mixin inlined into it, in
the order of the text. Every body that is written notes its stack as it is entered. However the
writing of mixins ends, in the sink or in an inclusion, the stack is as it was before. -/
theorem inlining_bounded (i : Index) (settings : Settings) (r : Record) (name : String)
    (inModule : Bool) (k : Intake) (refusal : Refusal) (sink : Progress)
    (named : r.name = some name) :
    (∃ t outcome,
      (∀ depth, 1 + (i.view r).mixins.size ≤ depth →
        (i.subject settings r name).writeBlock k refusal depth inModule sink =
          some (t, outcome)) ∧
      k.run refusal (i.recordBlock settings r inModule) sink =
        (t.sink, outcome.map fun _ => true) ∧
      t.stack = [name] ∧
      (∀ stack ∈ t.entries, stack.head? = some name ∧ stack.Nodup ∧
        (∀ m ∈ stack.tail, m ∈ (i.view r).mixins.keys) ∧
        stack.length ≤ 1 + (i.view r).mixins.size) ∧
      ((k.run refusal (.write ((i.subject settings r name).opening inModule)) sink).2 = .ok () →
        t.entries.head? = some [name]) ∧
      (outcome = .ok () → ∃ visits, i.Inlines r.mixins visits ∧
        t.entries.map List.getLast? = some name :: visits.map fun v => some v.1)) ∧
    (∀ (depth : Nat) (q : Record) (t : Inlining),
      ∀ y ∈ (i.subject settings r name).writeBody k refusal depth q t,
        t.entries ++ [t.stack] <+: y.1.entries) ∧
    ∀ (depth : Nat) (mixins : List String) (t : Inlining),
      ∀ y ∈ (i.subject settings r name).includeMixins k refusal
          ((i.subject settings r name).writeBody k refusal depth) mixins t,
        y.1.stack = t.stack := by
  refine ⟨?_, Subject.entries_writeBody,
    fun depth mixins t => Subject.stack_includeMixins depth mixins t⟩
  have few : ((i.subject settings r name).unused [name]).length < 1 + (i.view r).mixins.size := by
    have size : (i.view r).mixins.keys.length = (i.view r).mixins.size := List.length_map _
    have filtered : ((i.subject settings r name).unused [name]).length ≤
        (i.view r).mixins.keys.length := List.length_filter_le _ _
    omega
  obtain ⟨y, ended, tells⟩ :=
    Subject.exists_writeBlock (k := k) few inModule sink
  have kept := Subject.keeps_writeBlock _ inModule sink y ended
  obtain ⟨sees, closed⟩ := sees_subject i settings r name
  refine ⟨y.1, y.2, fun depth enough => Subject.writeBlock_mono enough ended, ?_,
    kept.stack_eq, ?_, Subject.entries_writeBlock ended,
    Subject.visits_writeBlock closed sees ended⟩
  · unfold Ended.Tells at tells
    rw [recordBlock, named]
    dsimp only
    rw [Intake.run_andThen, tells]
    cases y.2 <;> rfl
  · intro stack hstack
    have stacked := kept.entries_good stack hstack
    exact ⟨stacked.first, stacked.nodup, stacked.mixins, stacked.length_le⟩

/-- A class that includes one of two mixins that include each other. -/
def pairUser : Record := { Record.blank with name := some "a.C", mixins := ["a.MX"] }

/-- The sink that takes as much at once as there is room for. -/
def eager : Intake where
  take _ offered room := min offered room
  take_pos _ _ _ hoffered hroom := by omega
  take_le_offered _ _ _ := Nat.min_le_left _ _
  take_le_room _ _ _ := Nat.min_le_right _ _

/-- On a sink with room for a hundred bytes. -/
theorem inlining_bounded_pairUser :
    pairUser.name = some "a.C" ∧
    (∃ t outcome,
      (mixinPair.subject .blank pairUser "a.C").writeBlock eager .nothing
        (1 + (mixinPair.view pairUser).mixins.size) true ⟨[], 100⟩ = some (t, outcome) ∧
      eager.run .nothing (mixinPair.recordBlock .blank pairUser true) ⟨[], 100⟩ =
        (t.sink, outcome.map fun _ => true) ∧
      t.stack = ["a.C"] ∧
      (∀ stack ∈ t.entries, stack.head? = some "a.C" ∧ stack.Nodup ∧
        (∀ m ∈ stack.tail, m ∈ (mixinPair.view pairUser).mixins.keys) ∧
        stack.length ≤ 1 + (mixinPair.view pairUser).mixins.size) ∧
      t.entries.head? = some ["a.C"]) ∧
    ∀ y ∈ (mixinPair.subject .blank pairUser "a.C").includeMixins eager .nothing
        ((mixinPair.subject .blank pairUser "a.C").writeBody eager .nothing 2) ["a.MX"]
        ⟨⟨[], 100⟩, ["a.C"], []⟩,
      y.1.stack = ["a.C"] := by
  obtain ⟨⟨t, outcome, ended, same, stack_eq, entries, first, -⟩, -, restored⟩ :=
    inlining_bounded mixinPair .blank pairUser "a.C" true eager .nothing ⟨[], 100⟩ rfl
  have opened : (eager.run .nothing
      (.write ((mixinPair.subject .blank pairUser "a.C").opening true)) ⟨[], 100⟩).2 = .ok () := by
    have fits : (((mixinPair.subject .blank pairUser "a.C").opening true).flatMap bytesOf).length ≤
        100 := by decide +kernel
    rw [Intake.run_eq]
    exact congrArg Prod.snd (if_pos fits)
  exact ⟨rfl, ⟨t, outcome, ended _ (Nat.le_refl _), same, stack_eq, entries, first opened⟩,
    restored 2 _ _⟩

end Index

end Ambient
