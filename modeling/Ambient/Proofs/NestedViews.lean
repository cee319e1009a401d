/-
  Nested views: what an ancestor sees, the class sees as well. A search from the ancestor may
  run through the class, which the class's own search leaves out. Such a path is cut at its last
  visit to the class, and what is left of it starts at the class. Main statement:
  `Database.view_nests`, on graphs with and without cycles.
-/
import Ambient.Proofs.Reachability

namespace Ambient

namespace Index

variable {i : Index} {r s : Record} {c a n : String}

/-- An ancestor of an ancestor is the class itself or an ancestor of it. -/
theorem Ancestor.of_ancestor (found : i.find? c = some r) (named : r.name = some c)
    (above : i.Ancestor r a) (found_above : i.find? a = some s) (path : i.Ancestor s n) :
    n = c ∨ i.Ancestor r n := by
  have own : r.name.getD "" = c := by rw [named, Option.getD_some]
  have kept : ∀ {m : String}, m ≠ c → (m == r.name.getD "") = false := by
    intro m other
    rw [own, beq_eq_false_iff_ne]
    exact other
  unfold Ancestor at path
  induction path with
  | @start n q listed _ found_n =>
    by_cases same : n = c
    · exact .inl same
    · exact .inr (above.step found_above listed (kept same) found_n)
  | @step last n t q _ at_last listed _ found_n ih =>
    by_cases same : n = c
    · exact .inl same
    · right
      rcases ih with rfl | path
      · -- the path has just come through the class, so it may as well start there
        obtain rfl : r = t := Option.some.inj (found.symm.trans at_last)
        exact .start listed (kept same) found_n
      · exact path.step at_last listed (kept same) found_n

/-- An entry among the ancestors of an ancestor is the class or one among its ancestors. -/
theorem get?_ancestors_of_ancestor {q : Record} (found : i.find? c = some r)
    (named : r.name = some c) (above : (i.view r).ancestors.get? a = some s)
    (entry : (i.view s).ancestors.get? n = some q) :
    n = c ∧ q = r ∨ (i.view r).ancestors.get? n = some q := by
  obtain ⟨path, found_above⟩ := get?_ancestors.mp above
  obtain ⟨later, found_n⟩ := get?_ancestors.mp entry
  rcases Ancestor.of_ancestor found named path found_above later with same | whole
  · rw [same] at found_n
    exact .inl ⟨same, Option.some.inj (found_n.symm.trans found)⟩
  · exact .inr (get?_ancestors.mpr ⟨whole, found_n⟩)

/-- A mixin that an ancestor sees is one that the class sees. -/
theorem get?_mixins_of_view {q : Record} (found : i.find? c = some r) (named : r.name = some c)
    (above : (i.view r).ancestors.get? a = some s)
    (entry : (i.view s).mixins.get? n = some q) : (i.view r).mixins.get? n = some q := by
  -- whatever the search of the ancestor starts from, the search of the class starts from too
  have listed : ∀ m ∈ s.mixins ++ (i.ancestors s).values.flatMap Record.mixins,
      m ∈ r.mixins ++ (i.ancestors r).values.flatMap Record.mixins := by
    intro m hm
    have inherited : ∀ {b : String} {t : Record}, (i.view r).ancestors.get? b = some t →
        m ∈ t.mixins → m ∈ r.mixins ++ (i.ancestors r).values.flatMap Record.mixins := by
      intro b t entry hm
      apply List.mem_append_right
      exact List.mem_flatMap.mpr ⟨t, Table.mem_values_iff.mpr ⟨b, entry⟩, hm⟩
    rcases List.mem_append.mp hm with hm | hm
    · exact inherited above hm
    · obtain ⟨t, ht, hm⟩ := List.mem_flatMap.mp hm
      obtain ⟨b, hb⟩ := Table.mem_values_iff.mp ht
      rcases get?_ancestors_of_ancestor found named above hb with ⟨-, rfl⟩ | hb
      · exact List.mem_append_left _ hm
      · exact inherited hb hm
  obtain ⟨path, found_n⟩ := get?_reach_empty.mp entry
  refine get?_reach_empty.mpr ⟨?_, found_n⟩
  apply path.of_reachable
  intro m hm q kept found_m
  exact .start (listed m hm) kept found_m

end Index

namespace Database

/-- Every name that an ancestor of a class sees as an ancestor is the class or one of its own
ancestors, and every mixin that it sees is one of the class's mixins. So a name that an ancestor
or a mixin declares for the ancestor is declared for the class as well, if not by the class
itself. The class has to stand under its own name; the other records need not. -/
theorem view_nests (db : Database) (c a : String) (r s : Record) (found : db.find? c = some r)
    (named : r.name = some c) (above : (db.index.view r).ancestors.get? a = some s) :
    (∀ n ∈ (db.index.view s).ancestors.keys, n ∈ (db.index.view r).ancestors.keys ∨ n = c) ∧
    (∀ n ∈ (db.index.view s).mixins.keys, n ∈ (db.index.view r).mixins.keys) ∧
    ∀ (part : Section) (name : String),
      ((db.index.view s).ancestorDeclares part name = true →
        (db.index.view r).ancestorDeclares part name = true ∨ r.declares part name = true) ∧
      ((db.index.view s).mixinDeclares part name = true →
        (db.index.view r).mixinDeclares part name = true) := by
  have ancestors : ∀ {n q}, (db.index.view s).ancestors.get? n = some q →
      n = c ∧ q = r ∨ (db.index.view r).ancestors.get? n = some q :=
    Index.get?_ancestors_of_ancestor found named above
  have mixins : ∀ {n q}, (db.index.view s).mixins.get? n = some q →
      (db.index.view r).mixins.get? n = some q := Index.get?_mixins_of_view found named above
  have entry : ∀ {t : Table Record} {n : String}, n ∈ t.keys → ∃ q, t.get? n = some q := by
    intro t n hn
    exact Option.isSome_iff_exists.mp (Table.contains_iff.mpr hn)
  refine ⟨?_, ?_, fun part name => ⟨?_, ?_⟩⟩
  · intro n hn
    obtain ⟨q, hq⟩ := entry hn
    rcases ancestors hq with ⟨same, -⟩ | hq
    · exact .inr same
    · exact .inl (Table.mem_keys_of_get?_eq_some hq)
  · intro n hn
    obtain ⟨q, hq⟩ := entry hn
    exact Table.mem_keys_of_get?_eq_some (mixins hq)
  · intro declared
    obtain ⟨q, hq, declares⟩ := List.any_eq_true.mp declared
    obtain ⟨n, hn⟩ := Table.mem_values_iff.mp hq
    rcases ancestors hn with ⟨-, rfl⟩ | hn
    · exact .inr declares
    · exact .inl (List.any_eq_true.mpr ⟨q, Table.mem_values_iff.mpr ⟨n, hn⟩, declares⟩)
  · intro declared
    obtain ⟨q, hq, declares⟩ := List.any_eq_true.mp declared
    obtain ⟨n, hn⟩ := Table.mem_values_iff.mp hq
    exact List.any_eq_true.mpr ⟨q, Table.mem_values_iff.mpr ⟨n, mixins hn⟩, declares⟩

/-- A class that extends its own heir. It has a property and includes a mixin with another. -/
def loopLow : Record :=
  { Record.blank with
    name := some "a.Low", superClasses := ["a.Top"], mixins := ["a.Mix"]
    properties := .ofList [("width", ⟨none, false, []⟩)] }

def loopTop : Record := { Record.blank with name := some "a.Top", superClasses := ["a.Low"] }

def loopMix : Record :=
  { Record.blank with
    name := some "a.Mix", properties := .ofList [("height", ⟨none, false, []⟩)] }

/-- Two classes that extend each other, and the mixin of one of them. -/
def loop : Database :=
  ⟨.empty, .ofList [("a.Low", loopLow), ("a.Top", loopTop), ("a.Mix", loopMix)]⟩

/-- The ancestor sees the class itself, and what the class declares and includes. -/
theorem view_nests_in_loop :
    loop.find? "a.Low" = some loopLow ∧ loopLow.name = some "a.Low" ∧
    (loop.index.view loopLow).ancestors.get? "a.Top" = some loopTop ∧
    ("a.Low" ∈ (loop.index.view loopTop).ancestors.keys ∧
      ∀ n ∈ (loop.index.view loopTop).ancestors.keys,
        n ∈ (loop.index.view loopLow).ancestors.keys ∨ n = "a.Low") ∧
    ("a.Mix" ∈ (loop.index.view loopTop).mixins.keys ∧
      ∀ n ∈ (loop.index.view loopTop).mixins.keys, n ∈ (loop.index.view loopLow).mixins.keys) ∧
    ((loop.index.view loopTop).ancestorDeclares .properties "width" = true ∧
      ((loop.index.view loopLow).ancestorDeclares .properties "width" = true ∨
        loopLow.declares .properties "width" = true)) ∧
    (loop.index.view loopTop).mixinDeclares .properties "height" = true ∧
      (loop.index.view loopLow).mixinDeclares .properties "height" = true := by
  have above : (loop.index.view loopLow).ancestors.get? "a.Top" = some loopTop :=
    Index.get?_ancestors.mpr ⟨.start (r := loopTop) List.mem_cons_self rfl rfl, rfl⟩
  have below : (loop.index.view loopTop).ancestors.get? "a.Low" = some loopLow :=
    Index.get?_ancestors.mpr ⟨.start (r := loopLow) List.mem_cons_self rfl rfl, rfl⟩
  have values : loopLow ∈ (loop.index.view loopTop).ancestors.values :=
    Table.mem_values_iff.mpr ⟨"a.Low", below⟩
  have mixed : (loop.index.view loopTop).mixins.get? "a.Mix" = some loopMix :=
    Index.get?_mixins_of_ancestor values List.mem_cons_self
  have width : (loop.index.view loopTop).ancestorDeclares .properties "width" = true :=
    List.any_eq_true.mpr ⟨loopLow, values, rfl⟩
  have height : (loop.index.view loopTop).mixinDeclares .properties "height" = true :=
    List.any_eq_true.mpr ⟨loopMix, Table.mem_values_iff.mpr ⟨"a.Mix", mixed⟩, rfl⟩
  obtain ⟨ancestors, mixins, declared⟩ :=
    view_nests loop "a.Low" "a.Top" loopLow loopTop rfl rfl above
  refine ⟨rfl, rfl, above, ⟨?_, ancestors⟩, ⟨?_, mixins⟩, ⟨width, ?_⟩, height, ?_⟩
  · exact Table.mem_keys_of_get?_eq_some below
  · exact Table.mem_keys_of_get?_eq_some mixed
  · exact (declared _ _).1 width
  · exact (declared _ _).2 height

end Database

end Ambient
