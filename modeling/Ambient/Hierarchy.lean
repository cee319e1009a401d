/-
  Hierarchies: the ancestors of a class, nearest first, and the mixins that the class or an
  ancestor includes, directly or through other mixins. Every name is entered once, so the
  search ends on every graph: each entry takes a name from those not yet seen.
-/
import Ambient.Database

namespace Ambient

namespace Table

variable {α : Type}

/-- The names of a table that another one lacks. -/
def missing (t s : Table α) : List String := t.keys.filter fun k => !s.contains k

theorem length_filter_lt {p q : String → Bool} {ks : List String} {k : String} (hk : k ∈ ks)
    (hqp : ∀ a, q a = true → p a = true) (hp : p k = true) (hq : q k = false) :
    (ks.filter q).length < (ks.filter p).length := by
  induction ks with
  | nil => simp at hk
  | cons a ks ih =>
    have hle : (ks.filter q).length ≤ (ks.filter p).length := by
      rw [← List.countP_eq_length_filter, ← List.countP_eq_length_filter]
      exact List.countP_mono_left fun x _ => hqp x
    rcases List.mem_cons.mp hk with rfl | hk
    · simp [hp, hq]; omega
    · have := ih hk
      cases hqa : q a with
      | true => simp [hqa, hqp a hqa]; omega
      | false =>
        cases hpa : p a with
        | true => simp [hqa, hpa]; omega
        | false => simpa [hqa, hpa] using this

/-- A new name of a table is missing from fewer tables. -/
theorem length_missing_insert_lt {t s : Table α} {k : String} {v w : α}
    (ht : t.get? k = some v) (hs : s.contains k = false) :
    (t.missing (s.insert k w)).length < (t.missing s).length := by
  refine length_filter_lt (mem_keys_of_get?_eq_some ht) (fun a ha => ?_) (by simp [hs]) ?_
  · simp only [contains, get?_insert, Bool.not_eq_true', Option.isSome_eq_false_iff] at ha ⊢
    split at ha
    · simp at ha
    · exact ha
  · simp [contains, get?_insert]

end Table

/-! ## Searching -/

/-- The known records reached from a queue of names, in the order in which a breadth-first
search along `next` meets them, after those already seen. Names to skip are never entered. -/
def reach (known : Table Record) (next : Record → List String) (skip : String → Bool)
    (queue : List String) (seen : Table Record) : Table Record :=
  match queue with
  | [] => seen
  | name :: queue =>
    if skip name then reach known next skip queue seen
    else
      match _new : seen.contains name with
      | true => reach known next skip queue seen
      | false =>
        match _found : known.get? name with
        | none => reach known next skip queue seen
        | some r => reach known next skip (queue ++ next r) (seen.insert name r)
termination_by ((known.missing seen).length, queue.length)
decreasing_by
  · exact Prod.Lex.right _ (by simp)
  · exact Prod.Lex.right _ (by simp)
  · exact Prod.Lex.right _ (by simp)
  · exact Prod.Lex.left _ _ (Table.length_missing_insert_lt _found _new)

/-- What a class can see: its ancestors and its mixins, by name. -/
structure View where
  ancestors : Table Record
  mixins : Table Record

namespace View

/-- Whether an ancestor declares a name. -/
def ancestorDeclares (v : View) (s : Section) (name : String) : Bool :=
  v.ancestors.values.any (·.declares s name)

/-- Whether a mixin declares a name. -/
def mixinDeclares (v : View) (s : Section) (name : String) : Bool :=
  v.mixins.values.any (·.declares s name)

end View

namespace Index

/-- The ancestors of a record, nearest first. The record's own name is none of them. -/
def ancestors (i : Index) (r : Record) : Table Record :=
  reach i.records Record.superClasses (· == r.name.getD "") r.superClasses .empty

/-- What a record can see in an index. -/
def view (i : Index) (r : Record) : View :=
  let ancestors := i.ancestors r
  let included := r.mixins ++ ancestors.values.flatMap Record.mixins
  ⟨ancestors, reach i.records Record.mixins (fun _ => false) included .empty⟩

end Index

end Ambient
