/-
  The entries of a block: which statics, members and properties are written for a class, and
  where. A block consists of the entries of the class and, for each mixin inlined into it, of
  the entries of that mixin. Main result: which of them are written, by the tables of the class,
  its ancestors and its mixins alone.
-/
import Ambient.Proofs.InclusionChains
import Mathlib.Data.List.Basic

namespace Ambient

/-- The table of the static methods, or that of the others. -/
def Section.ofMethods (isStatic : Bool) : Section := if isStatic then .statics else .members

/-- A method without parameters. -/
def Method.plain : Method := ⟨some "function", none, false, false, false, false, [], none, none⟩

/-- An entry of a record: a method among its statics or its members, or a property. -/
inductive Entry
  | method (isStatic : Bool) (name : String) (m : Method)
  | property (name : String) (p : Property)

namespace Entry

/-- The table that an entry stands in. -/
def part : Entry → Section
  | .method true _ _ => .statics
  | .method false _ _ => .members
  | .property _ _ => .properties

/-- The name that an entry stands under. -/
def name : Entry → String
  | .method _ name _ => name
  | .property name _ => name

/-- Whether an entry of `owner` can be written: a method that is not private, or a property
that bundles no others. The members of an interface have no access. -/
def writable (owner : Record) : Entry → Bool
  | .method _ _ m => m.isFunction && (owner.isInterface || m.access != some .owner)
  | .property _ p => !p.isGroup

theorem part_method (isStatic : Bool) (name : String) (m : Method) :
    (method isStatic name m).part = .ofMethods isStatic := by
  cases isStatic <;> rfl

end Entry

/-- The entries of a record in the order of their texts. -/
def Record.entries (r : Record) : List Entry :=
  r.statics.entries.map (fun e => .method true e.1 e.2) ++
    r.members.entries.map (fun e => .method false e.1 e.2) ++
    r.properties.entries.map (fun e => .property e.1 e.2)

/-- A record declares the names of its entries. -/
theorem Record.declares_of_mem_entries {r : Record} {e : Entry} (h : e ∈ r.entries) :
    r.declares e.part e.name = true := by
  simp only [entries, List.mem_append, List.mem_map] at h
  obtain (⟨x, hx, rfl⟩ | ⟨x, hx, rfl⟩) | ⟨x, hx, rfl⟩ := h
  all_goals exact Table.contains_of_mem_entries hx

/-! ## Which entries a class keeps -/

namespace Index

/-- Some mixin that a record lists declares a name. -/
def MixesIn (i : Index) (r : Record) (part : Section) (name : String) : Prop :=
  ∃ m ∈ r.mixins, ∃ q, i.find? m = some q ∧ q.declares part name = true

/-- Some ancestor or some mixin in the view of a record declares a name. -/
def Inherits (i : Index) (r : Record) (part : Section) (name : String) : Prop :=
  (∃ a ∈ (i.view r).ancestors.values, a.declares part name = true) ∨
    ∃ q ∈ (i.view r).mixins.values, q.declares part name = true

variable {i : Index} {settings : Settings} {r : Record} {name : String}

theorem includes_iff (i : Index) (settings : Settings) (r : Record) (name : String)
    {part : Section} {n : String} :
    (i.subject settings r name).includes part n = true ↔ i.MixesIn r part n := by
  simp only [Subject.includes, MixesIn, List.any_eq_true, Option.any_eq_true]
  constructor
  · intro h
    obtain ⟨m, hm, q, hq, hd⟩ := h
    exact ⟨m, hm, q, (get?_mixins_of_mem hm).symm.trans hq, hd⟩
  · intro h
    obtain ⟨m, hm, q, hq, hd⟩ := h
    exact ⟨m, hm, q, (get?_mixins_of_mem hm).trans hq, hd⟩

theorem leaves_iff {part : Section} {n : String} :
    (i.subject settings r name).leaves part n = true ↔
      ¬ i.MixesIn r part n ∧ i.Inherits r part n := by
  rw [← includes_iff i settings r name]
  simp [Subject.leaves, Inherits, View.ancestorDeclares, View.mixinDeclares, subject]

instance decidableMixesIn (i : Index) (r : Record) (part : Section) (n : String) :
    Decidable (i.MixesIn r part n) :=
  decidable_of_iff _ (includes_iff i .blank r "")

instance decidableInherits (i : Index) (r : Record) (part : Section) (n : String) :
    Decidable (i.Inherits r part n) := inferInstanceAs (Decidable (_ ∨ _))

theorem not_mixesIn_of_nil {part : Section} (mixins : r.mixins = []) : ¬ i.MixesIn r part name := by
  intro h
  obtain ⟨m, hm, -⟩ := h
  simp [mixins] at hm

/-- A record without superclasses and mixins sees nobody. -/
theorem view_of_nil (supers : r.superClasses = []) (mixins : r.mixins = []) :
    i.view r = ⟨.empty, .empty⟩ := by
  have nobody : i.ancestors r = .empty := by rw [ancestors, supers, reach]
  simp [view, nobody, mixins, reach, Table.values, Table.empty]

theorem not_inherits_of_nil {part : Section} (supers : r.superClasses = [])
    (mixins : r.mixins = []) : ¬ i.Inherits r part name := by
  simp [Inherits, view_of_nil supers mixins, Table.values, Table.empty]

/-- A name that no record of an index declares is inherited from none. -/
theorem not_inherits_of_undeclared {part : Section}
    (undeclared : ∀ q ∈ i.records.values, ¬ q.declares part name = true) :
    ¬ i.Inherits r part name := by
  rintro (⟨a, ha, declares⟩ | ⟨q, hq, declares⟩)
  · obtain ⟨n, hn⟩ := Table.mem_values_iff.mp ha
    exact undeclared a (Table.mem_values_iff.mpr ⟨n, (get?_ancestors.mp hn).2⟩) declares
  · obtain ⟨n, hn⟩ := Table.mem_values_iff.mp hq
    exact undeclared q (Table.mem_values_iff.mpr ⟨n, (get?_reach_empty.mp hn).2⟩) declares

/-- The mixins inlined for a list of mixins, with their records, in the order of the text: each
one, then those that it lists, then the rest of the list. -/
inductive Inlines (i : Index) : List String → List (String × Record) → Prop
  | nil : Inlines i [] []
  | cons {m : String} {q : Record} {mixins : List String} {inner later : List (String × Record)}
      (found : i.find? m = some q) (nested : Inlines i q.mixins inner)
      (rest : Inlines i mixins later) : Inlines i (m :: mixins) ((m, q) :: (inner ++ later))

end Index

/-! ## The texts of entries -/

theorem flatMap_filter {α β : Type} (p : α → Bool) (f : α → List β) (l : List α) :
    (l.filter p).flatMap f = l.flatMap fun a => if p a then f a else [] := by
  induction l with
  | nil => rfl
  | cons a l ih => cases h : p a <;> simp [h, ih]

namespace Subject

open Declaration

/-- The text of an entry of `owner`, if it is written. -/
def entryText (s : Subject) (owner : Record) : Entry → List String
  | .method isStatic name m => s.methodText name (s.signature owner isStatic name m)
  | .property name p =>
    s.accessors (Text.capitalized name) (p.check.getD "") "" ++
      if p.isAsync then s.accessors (Text.capitalized name) (p.check.getD "") "Async" else []

/-- The lines that declare the accessors of a property. -/
def accessorDeclarations (s : Subject) (name check suffix : String) : List String :=
  let type := s.scope.translate check
  [(Signature.accessor [] (some type)).line s.scope ("get" ++ name ++ suffix)] ++
    (if type = "boolean" then
      [(Signature.accessor [] (some type)).line s.scope ("is" ++ name ++ suffix)] else []) ++
    [(Signature.accessor [⟨"value", false, some (.name check)⟩] none).line s.scope
        ("set" ++ name ++ suffix),
      (Signature.accessor [] none).line s.scope ("reset" ++ name ++ suffix)]

/-- The lines that declare an entry of `owner`: the line of a method, or those of the accessors
of a property. -/
def entryLines (s : Subject) (owner : Record) : Entry → List String
  | .method isStatic name m => [(s.signature owner isStatic name m).line s.scope name]
  | .property name p =>
    s.accessorDeclarations (Text.capitalized name) (p.check.getD "") "" ++
      if p.isAsync then s.accessorDeclarations (Text.capitalized name) (p.check.getD "") "Async"
      else []

/-- What is written for `owner` if the entries with a property are kept. -/
def written (s : Subject) (owner : Record) (keeps : Entry → Prop) [DecidablePred keeps] :
    List String :=
  s.instanceText owner ++
    (owner.entries.filter fun e => e.writable owner && decide (keeps e)).flatMap
      (s.entryText owner)

/-- Nothing is written for a record whose entries are not kept. -/
theorem written_eq_nil {s : Subject} {owner : Record} {keeps : Entry → Prop}
    [DecidablePred keeps] (single : owner.isSingleton = false)
    (h : ∀ e ∈ owner.entries, e.writable owner = true → ¬ keeps e) :
    s.written owner keeps = [] := by
  have none_kept : (owner.entries.filter fun e => e.writable owner && decide (keeps e)) = [] := by
    simp only [List.filter_eq_nil_iff, Bool.and_eq_true, decide_eq_true_eq, not_and]
    exact h
  rw [written, none_kept, instanceText, single]
  rfl

theorem methodText_of_private {s : Subject} {name : String} {sig : Signature}
    (h : sig.access = some .owner) : s.methodText name sig = [] := if_pos h

/-- An entry that is not private has its line, after its comment block. -/
theorem methodText_of_not_private {s : Subject} {name : String} {sig : Signature}
    (h : sig.access ≠ some .owner) :
    s.methodText name sig = (sig.comment.map s.commentBlock).toList ++ [sig.line s.scope name] :=
  if_neg h

theorem access_signature {s : Subject} {owner : Record} {isStatic : Bool} {name : String}
    {m : Method} : (s.signature owner isStatic name m).access = some .owner ↔
      owner.isInterface = false ∧ m.access = some .owner := by
  cases h : owner.isInterface <;> simp [signature, h]

/-- A method that cannot be written has no text. -/
theorem methodText_of_not_writable {s : Subject} {owner : Record} {isStatic : Bool}
    {name : String} {m : Method} (function : m.isFunction = true)
    (h : (Entry.method isStatic name m).writable owner = false) :
    s.methodText name (s.signature owner isStatic name m) = [] := by
  refine methodText_of_private (access_signature.mpr ?_)
  simpa [Entry.writable, function] using h

theorem access_signature_of_writable {s : Subject} {owner : Record} {isStatic : Bool}
    {name : String} {m : Method} (h : (Entry.method isStatic name m).writable owner = true) :
    (s.signature owner isStatic name m).access ≠ some .owner := by
  rw [Ne, access_signature, not_and]
  intro regular
  simp only [Entry.writable, regular, Bool.false_or, Bool.and_eq_true, bne_iff_ne] at h
  exact h.2

/-- An accessor has its line and nothing else. -/
theorem methodText_eq_line (s : Subject) (name : String) (params : List Param)
    (returned : Option String) : s.methodText name (.accessor params returned) =
      [(Signature.accessor params returned).line s.scope name] := rfl

theorem accessors_eq_declarations (s : Subject) (name check suffix : String) :
    s.accessors name check suffix = s.accessorDeclarations name check suffix := by
  simp [accessors, accessorDeclarations, methodText_eq_line]

theorem entryLines_ne_nil (s : Subject) (owner : Record) (e : Entry) :
    s.entryLines owner e ≠ [] := by
  cases e <;> simp [entryLines, accessorDeclarations]

/-- The text of an entry that can be written ends with its lines. -/
theorem entryLines_suffix_entryText {s : Subject} {owner : Record} {e : Entry}
    (h : e.writable owner = true) : s.entryLines owner e <:+ s.entryText owner e := by
  cases e with
  | method isStatic name m =>
    rw [entryText, methodText_of_not_private (access_signature_of_writable h)]
    exact List.suffix_append _ _
  | property name p =>
    rw [entryText, accessors_eq_declarations, accessors_eq_declarations]
    exact List.suffix_rfl

/-- The text of an entry that can be written is not empty. -/
theorem entryText_ne_nil {s : Subject} {owner : Record} {e : Entry}
    (h : e.writable owner = true) : s.entryText owner e ≠ [] := by
  intro none_written
  have lines := entryLines_suffix_entryText (s := s) h
  rw [none_written, List.suffix_nil] at lines
  exact s.entryLines_ne_nil owner e lines

/-- The lines of an entry that is kept are written. -/
theorem mem_written {s : Subject} {owner : Record} {keeps : Entry → Prop}
    [DecidablePred keeps] {e : Entry} (h : e ∈ owner.entries) (writable : e.writable owner = true)
    (kept : keeps e) {line : String} (hline : line ∈ s.entryLines owner e) :
    line ∈ s.written owner keeps := by
  refine List.mem_append_right _ (List.mem_flatMap.mpr ⟨e, ?_, ?_⟩)
  · exact List.mem_filter.mpr ⟨h, by simp [writable, kept]⟩
  · exact (entryLines_suffix_entryText writable).mem hline

/-- What is written for an entry of `owner`. -/
def keptText (s : Subject) (owner : Record) (e : Entry) : List String :=
  if e.writable owner && !s.leaves e.part e.name then s.entryText owner e else []

theorem methodTexts_eq (s : Subject) (owner : Record) (isStatic : Bool) :
    s.methodTexts owner isStatic =
      ((if isStatic then owner.statics.entries else owner.members.entries).map
        fun e => Entry.method isStatic e.1 e.2).flatMap (s.keptText owner) := by
  rw [methodTexts, List.flatMap_map]
  congr 1
  funext ⟨name, m⟩
  rw [keptText, Entry.part_method, Entry.name, Section.ofMethods]
  cases function : m.isFunction with
  | false => simp [Entry.writable, function]
  | true =>
    cases h : (Entry.method isStatic name m).writable owner with
    | false => simp [methodText_of_not_writable function h]
    | true => simp [entryText, function]

theorem propertyTexts_eq (s : Subject) (owner : Record) :
    s.propertyTexts owner =
      (owner.properties.entries.map fun e => Entry.property e.1 e.2).flatMap
        (s.keptText owner) := by
  rw [propertyTexts, List.flatMap_map]
  congr 1
  funext ⟨name, p⟩
  cases group : p.isGroup <;> cases left : s.leaves .properties name <;>
    simp [keptText, entryText, Entry.writable, Entry.part, Entry.name, group, left]

theorem ownTexts_eq (s : Subject) (owner : Record) :
    s.ownTexts owner = s.instanceText owner ++ owner.entries.flatMap (s.keptText owner) := by
  simp [ownTexts, methodTexts_eq, propertyTexts_eq, Record.entries]

/-- The text of `owner` is made up of its entries that can be written and that the class does
not leave. -/
theorem ownTexts_eq_written {s : Subject} {owner : Record} {keeps : Entry → Prop}
    [DecidablePred keeps]
    (h : ∀ e ∈ owner.entries, s.leaves e.part e.name = true ↔ ¬ keeps e) :
    s.ownTexts owner = s.written owner keeps := by
  have kept : owner.entries.filter (fun e => e.writable owner && !s.leaves e.part e.name) =
      owner.entries.filter fun e => e.writable owner && decide (keeps e) := by
    refine List.filter_congr fun e he => ?_
    have := h e he
    cases hl : s.leaves e.part e.name <;> simp_all
  rw [ownTexts_eq, written, ← kept, flatMap_filter]
  rfl

/-! ## Inlined mixins -/

/-- Without an error the mixins of a list are written one by one, each with its own mixins
behind it, and all of them are mixins of the view. -/
theorem pieces_inclusions (s : Subject)
    (closed : ∀ m r, s.view.mixins.get? m = some r → s.Sees r.mixins)
    (before mixins : List String) (sees : s.Sees mixins)
    (written : (s.inclusions before mixins).outcome = .ok ()) :
    ∃ visits, s.index.Inlines mixins visits ∧
      (∀ v ∈ visits, s.view.mixins.get? v.1 = some v.2) ∧
      (s.inclusions before mixins).pieces =
        visits.flatMap fun v => mixinLine v.1 :: s.ownTexts v.2 := by
  induction before, mixins using inclusions.induct s with
  | case1 before => exact ⟨[], .nil, by simp, by simp [Emission.done]⟩
  | case2 before m mixins ih_inner ih_rest =>
    have new : m ∉ before := by
      intro h
      rw [inclusions_of_mem s mixins h] at written
      simp at written
    have known : s.view.mixins.get? m = s.index.find? m := sees m List.mem_cons_self
    cases found : s.view.mixins.get? m with
    | none =>
      rw [inclusions_of_none s mixins new found] at written
      simp at written
    | some r =>
      rw [inclusions_of_some s mixins new found] at written ⊢
      rw [Emission.outcome_write_andThen, Emission.outcome_andThen_eq_ok] at written
      obtain ⟨⟨⟩, inner, rest⟩ := written
      obtain ⟨nested, inlines, nested_seen, nested_pieces⟩ :=
        ih_inner (by simpa using new) r found (closed m r found) inner
      obtain ⟨later, later_inlines, later_seen, later_pieces⟩ :=
        ih_rest (fun m' hm' => sees m' (List.mem_cons_of_mem _ hm')) rest
      refine ⟨(m, r) :: (nested ++ later), .cons (known ▸ found) inlines later_inlines, ?_, ?_⟩
      · intro v hv
        rcases List.mem_cons.mp hv with rfl | hv
        · exact found
        · exact (List.mem_append.mp hv).elim (nested_seen v) (later_seen v)
      · rw [Emission.pieces_write_andThen, Emission.pieces_andThen_of_ok inner, nested_pieces,
          later_pieces, List.flatMap_cons, List.flatMap_append]

end Subject

namespace Index

variable {i : Index} {settings : Settings} {r : Record} {name : String}

theorem Inlines.find? {mixins : List String} {visits : List (String × Record)}
    (h : i.Inlines mixins visits) {v : String × Record} (hv : v ∈ visits) :
    i.find? v.1 = some v.2 := by
  induction h with
  | nil => simp at hv
  | cons found _ _ ih_nested ih_rest =>
    rcases List.mem_cons.mp hv with rfl | hv
    · exact found
    · exact (List.mem_append.mp hv).elim ih_nested ih_rest

/-- The inlined mixins of a list are determined. -/
theorem Inlines.unique {mixins : List String} {visits visits' : List (String × Record)}
    (h : i.Inlines mixins visits) (h' : i.Inlines mixins visits') : visits = visits' := by
  induction h generalizing visits' with
  | nil => cases h' with | nil => rfl
  | cons found _ _ ih_nested ih_rest =>
    cases h' with
    | cons found' nested' rest' =>
      obtain rfl := Option.some.inj (found.symm.trans found')
      rw [ih_nested nested', ih_rest rest']

/-- The entries of the class itself that are kept. -/
theorem ownTexts_class :
    (i.subject settings r name).ownTexts r = (i.subject settings r name).written r fun e =>
      i.MixesIn r e.part e.name ∨ ¬ i.Inherits r e.part e.name :=
  Subject.ownTexts_eq_written fun e _ => by rw [leaves_iff, not_or, not_not]

/-- The entries of a mixin of the view that are kept. -/
theorem ownTexts_mixin {m : String} {q : Record} (hm : (i.view r).mixins.get? m = some q) :
    (i.subject settings r name).ownTexts q = (i.subject settings r name).written q fun e =>
      i.MixesIn r e.part e.name := by
  refine Subject.ownTexts_eq_written fun e he => ?_
  have inherited : i.Inherits r e.part e.name :=
    .inr ⟨q, Table.mem_values_iff.mpr ⟨m, hm⟩, Record.declares_of_mem_entries he⟩
  rw [leaves_iff, and_iff_left inherited]

/-- The pieces of a block that is written without an error. -/
theorem pieces_of_written {inModule : Bool} (named : r.name = some name)
    (written : (i.recordBlock settings r inModule).outcome = .ok true) :
    ∃ visits, i.Inlines r.mixins visits ∧
      (i.recordBlock settings r inModule).pieces =
        (i.subject settings r name).opening inModule ++
        (i.subject settings r name).written r (fun e =>
          i.MixesIn r e.part e.name ∨ ¬ i.Inherits r e.part e.name) ++
        (visits.flatMap fun v => Subject.mixinLine v.1 ::
          (i.subject settings r name).written v.2 fun e => i.MixesIn r e.part e.name) ++
        ["\n  \x7d\n"] := by
  obtain ⟨sees, closed⟩ := sees_subject i settings r name
  have inlined := outcome_inclusions_of_written named written
  obtain ⟨visits, inlines, seen, pieces⟩ :=
    (i.subject settings r name).pieces_inclusions closed [name] r.mixins sees inlined
  have mixed : (visits.flatMap fun v => Subject.mixinLine v.1 ::
      (i.subject settings r name).ownTexts v.2) = visits.flatMap fun v =>
        Subject.mixinLine v.1 ::
          (i.subject settings r name).written v.2 fun e => i.MixesIn r e.part e.name :=
    List.flatMap_congr fun v hv => by rw [ownTexts_mixin (seen v hv)]
  refine ⟨visits, inlines, ?_⟩
  rw [pieces_recordBlock i settings inModule named, Subject.pieces_block inlined,
    ← ownTexts_class, ← mixed, ← pieces]
  rfl

/-- A block consists of the opening, the entries of the class, and the entries of each mixin
inlined into it. Of the entries that can be written, the class keeps one of its own if a mixin
that it lists declares the name, or if neither an ancestor nor a mixin of its view does; it
keeps one of a mixin just if a mixin that it lists declares the name, so it keeps all those of
the mixins that it lists. The text of an entry ends with the lines that declare it, and the lines
of every entry that is kept stand in the block. -/
theorem recordBlock_keeps (i : Index) (settings : Settings) (r : Record) (name : String)
    (inModule : Bool) (named : r.name = some name)
    (written : (i.recordBlock settings r inModule).outcome = .ok true) :
    ∃ visits, i.Inlines r.mixins visits ∧
      (i.recordBlock settings r inModule).pieces =
        (i.subject settings r name).opening inModule ++
        (i.subject settings r name).written r (fun e =>
          i.MixesIn r e.part e.name ∨ ¬ i.Inherits r e.part e.name) ++
        (visits.flatMap fun v => Subject.mixinLine v.1 ::
          (i.subject settings r name).written v.2 fun e => i.MixesIn r e.part e.name) ++
        ["\n  \x7d\n"] ∧
      (∀ v ∈ visits, v.1 ∈ r.mixins → ∀ e ∈ v.2.entries, i.MixesIn r e.part e.name) ∧
      (∀ owner e, e.writable owner = true →
        (i.subject settings r name).entryLines owner e ≠ [] ∧
        (i.subject settings r name).entryLines owner e <:+
          (i.subject settings r name).entryText owner e) ∧
      (∀ e ∈ r.entries, e.writable r = true →
        i.MixesIn r e.part e.name ∨ ¬ i.Inherits r e.part e.name →
        ∀ line ∈ (i.subject settings r name).entryLines r e,
          line ∈ (i.recordBlock settings r inModule).pieces) ∧
      ∀ v ∈ visits, ∀ e ∈ v.2.entries, e.writable v.2 = true → i.MixesIn r e.part e.name →
        ∀ line ∈ (i.subject settings r name).entryLines v.2 e,
          line ∈ (i.recordBlock settings r inModule).pieces := by
  obtain ⟨visits, inlines, pieces⟩ := pieces_of_written named written
  refine ⟨visits, inlines, pieces, ?_,
    fun owner e writable => ⟨Subject.entryLines_ne_nil _ owner e,
      Subject.entryLines_suffix_entryText writable⟩, ?_, ?_⟩
  · intro v hv listed e he
    exact ⟨v.1, listed, v.2, inlines.find? hv, Record.declares_of_mem_entries he⟩
  · intro e he writable kept line hline
    rw [pieces]
    refine List.mem_append_left _ (List.mem_append_left _ (List.mem_append_right _ ?_))
    exact Subject.mem_written he writable kept hline
  · intro v hv e he writable kept line hline
    rw [pieces]
    refine List.mem_append_left _ (List.mem_append_right _ (List.mem_flatMap.mpr ⟨v, hv, ?_⟩))
    exact List.mem_cons_of_mem _ (Subject.mem_written he writable kept hline)

/-- A base class and a mixin that includes another one. -/
def nestedMixins : Index :=
  ⟨.empty, [], .ofList [("a.Base", { Record.blank with members := .ofList [("open", .plain)] }),
    ("a.Inner", { Record.blank with members := .ofList [("deep", .plain)] }),
    ("a.Outer", { Record.blank with mixins := ["a.Inner"] })]⟩

/-- A class that declares a name of its base class, one of the inner mixin, and one more. -/
def nestedLeaf : Record :=
  { Record.blank with
    name := some "a.Leaf", superClasses := ["a.Base"], mixins := ["a.Outer"],
    members := .ofList [("open", .plain), ("deep", .plain), ("own", .plain)] }

theorem written_nestedLeaf :
    (nestedMixins.recordBlock .blank nestedLeaf true).outcome = .ok true := by
  have outer : (nestedMixins.view nestedLeaf).mixins.get? "a.Outer" =
      nestedMixins.find? "a.Outer" := get?_mixins_of_mem (by decide)
  have inner : (nestedMixins.view nestedLeaf).mixins.get? "a.Inner" =
      nestedMixins.find? "a.Inner" := get?_mixins_of_mixin (outer.trans rfl) (by decide)
  rw [outcome_recordBlock true rfl, nestedLeaf]
  rw [Subject.inclusions_of_some _ [] (by decide) (outer.trans rfl), Emission.outcome_write_andThen,
    Subject.inclusions_of_some _ [] (by decide) (inner.trans rfl)]
  rw [Record.blank, Subject.inclusions_nil, Subject.inclusions_nil, Subject.inclusions_nil]
  rfl

theorem nestedLeaf_keeps :
    (nestedMixins.recordBlock .blank nestedLeaf true).outcome = .ok true ∧
      (∃ visits, nestedMixins.Inlines ["a.Outer"] visits ∧
        (nestedMixins.recordBlock .blank nestedLeaf true).pieces =
          (nestedMixins.subject .blank nestedLeaf "a.Leaf").opening true ++
          (nestedMixins.subject .blank nestedLeaf "a.Leaf").written nestedLeaf (fun e =>
            nestedMixins.MixesIn nestedLeaf e.part e.name ∨
              ¬ nestedMixins.Inherits nestedLeaf e.part e.name) ++
          (visits.flatMap fun v => Subject.mixinLine v.1 ::
            (nestedMixins.subject .blank nestedLeaf "a.Leaf").written v.2 fun e =>
              nestedMixins.MixesIn nestedLeaf e.part e.name) ++
          ["\n  \x7d\n"]) ∧
      "    own(): void;\n" ∈ (nestedMixins.recordBlock .blank nestedLeaf true).pieces := by
  obtain ⟨visits, inlines, pieces, -, -, own, -⟩ :=
    recordBlock_keeps nestedMixins .blank nestedLeaf "a.Leaf" true rfl written_nestedLeaf
  have line : "    own(): void;\n" ∈ (nestedMixins.subject .blank nestedLeaf "a.Leaf").entryLines
      nestedLeaf (.method false "own" .plain) := by decide +kernel
  have alone : ¬ nestedMixins.Inherits nestedLeaf .members "own" :=
    not_inherits_of_undeclared (by decide)
  exact ⟨written_nestedLeaf, ⟨visits, inlines, pieces⟩, own (.method false "own" .plain)
    (List.mem_cons_of_mem _ (List.mem_cons_of_mem _ List.mem_cons_self)) rfl (.inr alone) _ line⟩

end Index

end Ambient
