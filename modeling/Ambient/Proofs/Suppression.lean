/-
  Suppression: what becomes of a method that a class leaves to others. A class leaves a method
  to any ancestor or mixin that declares its name, also to one that does not write it. Main
  result: in a database without cycles of superclasses every method is written for its class
  or for an ancestor, but for those left to declarations that are not written.
-/
import Ambient.Proofs.BlockEntries
import Ambient.Proofs.Framing
import Ambient.Proofs.NestedViews
import Mathlib.Data.Set.Finite.Basic
import Mathlib.Order.WellFounded

namespace Ambient

/-! ## Lineages -/

/-- A class and its ancestors, nearest first, with their names. -/
def Index.lineage (i : Index) (c : String × Record) : List (String × Record) :=
  c :: (i.view c.2).ancestors.entries

namespace Database

/-- A known class lists another one as its superclass. -/
def Extends (db : Database) (name super : String) : Prop :=
  ∃ r, db.find? name = some r ∧ super ∈ r.superClasses

/-- Every record stands under its own name, and no class is an ancestor of itself. -/
structure WellFormed (db : Database) : Prop where
  keyed : ∀ name r, db.find? name = some r → r.name = some name
  acyclic : ∀ name, ¬ Relation.TransGen db.Extends name name

variable {db : Database} {c d e : String × Record}

/-- Without cycles the ancestors of a class are the known names that superclasses lead to. -/
theorem WellFormed.get?_ancestors_iff (wf : db.WellFormed) (found : db.find? c.1 = some c.2) :
    (db.index.view c.2).ancestors.get? d.1 = some d.2 ↔
      Relation.TransGen db.Extends c.1 d.1 ∧ db.find? d.1 = some d.2 := by
  rw [Index.get?_ancestors]
  refine and_congr_left fun found_d => ⟨fun h => ?_, fun h => ?_⟩
  · clear found_d
    generalize d.1 = n at h
    induction h with
    | start listed _ _ => exact .single ⟨c.2, found, listed⟩
    | step _ at_last listed _ _ ih => exact ih.tail ⟨_, at_last, listed⟩
  · have own : c.2.name.getD "" = c.1 := by rw [wf.keyed c.1 c.2 found, Option.getD_some]
    have kept : ∀ n, Relation.TransGen db.Extends c.1 n → (n == c.2.name.getD "") = false := by
      intro n hn
      rw [own, beq_eq_false_iff_ne]
      intro same
      exact wf.acyclic n (same ▸ hn)
    revert found_d
    generalize d.2 = a
    generalize d.1 = n at h
    induction h generalizing a with
    | single edge =>
      intro found_n
      obtain ⟨r, hr, listed⟩ := edge
      obtain rfl := Option.some.inj (found.symm.trans hr)
      exact .start listed (kept _ (.single ⟨_, hr, listed⟩)) found_n
    | tail path edge ih =>
      intro found_n
      obtain ⟨r, hr, listed⟩ := edge
      exact (ih r hr).step hr listed (kept _ (path.tail ⟨r, hr, listed⟩)) found_n

theorem WellFormed.mem_lineage_iff (wf : db.WellFormed) (found : db.find? c.1 = some c.2) :
    d ∈ db.index.lineage c ↔
      Relation.ReflTransGen db.Extends c.1 d.1 ∧ db.find? d.1 = some d.2 := by
  rw [Index.lineage, List.mem_cons, ← Table.get?_eq_some_iff, wf.get?_ancestors_iff found,
    Relation.reflTransGen_iff_eq_or_transGen]
  constructor
  · rintro (rfl | ⟨path, found_d⟩)
    · exact ⟨.inl rfl, found⟩
    · exact ⟨.inr path, found_d⟩
  · rintro ⟨same | path, found_d⟩
    · rw [same] at found_d
      exact .inl (Prod.ext same (Option.some.inj (found_d.symm.trans found)))
    · exact .inr ⟨path, found_d⟩

theorem WellFormed.lineage_subset (wf : db.WellFormed) (found : db.find? c.1 = some c.2)
    (hd : d ∈ db.index.lineage c) : db.index.lineage d ⊆ db.index.lineage c := by
  obtain ⟨path, found_d⟩ := (wf.mem_lineage_iff found).mp hd
  intro e he
  obtain ⟨later, found_e⟩ := (wf.mem_lineage_iff found_d).mp he
  exact (wf.mem_lineage_iff found).mpr ⟨path.trans later, found_e⟩

/-- What an ancestor sees of mixins the class sees as well. -/
theorem WellFormed.mixins_subset (wf : db.WellFormed) (found : db.find? c.1 = some c.2)
    (hd : d ∈ db.index.lineage c) :
    (db.index.view d.2).mixins.values ⊆ (db.index.view c.2).mixins.values := by
  intro q hq
  rcases List.mem_cons.mp hd with rfl | hd
  · exact hq
  · have named := wf.keyed c.1 c.2 found
    have above := Table.get?_eq_some_iff.mpr hd
    obtain ⟨n, hn⟩ := Table.mem_values_iff.mp hq
    exact Table.mem_values_iff.mpr ⟨n, Index.get?_mixins_of_view found named above hn⟩

/-- Superclasses lead upwards only so far. -/
theorem WellFormed.wellFounded (wf : db.WellFormed) :
    WellFounded fun a b : { n // n ∈ db.names } => Relation.TransGen db.Extends b.1 a.1 := by
  have : Finite { n // n ∈ db.names } := List.finite_toSet db.names
  have : IsTrans { n // n ∈ db.names } fun a b => Relation.TransGen db.Extends b.1 a.1 :=
    ⟨fun _ _ _ hab hbc => hbc.trans hab⟩
  have : Std.Irrefl fun a b : { n // n ∈ db.names } => Relation.TransGen db.Extends b.1 a.1 :=
    ⟨fun n hn => wf.acyclic n.1 hn⟩
  exact Finite.wellFounded_of_trans_of_irrefl _

/-- Of the classes of a lineage with a property one has no ancestor with it. -/
theorem WellFormed.exists_topmost (wf : db.WellFormed) (found : db.find? c.1 = some c.2)
    {P : Record → Prop} (hc : P c.2) :
    ∃ d ∈ db.index.lineage c, P d.2 ∧ ∀ a ∈ (db.index.view d.2).ancestors.values, ¬ P a := by
  have known : ∀ {n r}, db.find? n = some r → n ∈ db.names := Table.mem_keys_of_get?_eq_some
  let candidates : Set { n // n ∈ db.names } :=
    { n | ∃ d ∈ db.index.lineage c, d.1 = n.1 ∧ P d.2 }
  obtain ⟨⟨n, _⟩, ⟨d, hd, rfl, hP⟩, top⟩ :=
    wf.wellFounded.has_min candidates ⟨⟨c.1, known found⟩, c, List.mem_cons_self, rfl, hc⟩
  refine ⟨d, hd, hP, fun a ha hPa => ?_⟩
  obtain ⟨n, hn⟩ := Table.mem_values_iff.mp ha
  have found_d := ((wf.mem_lineage_iff found).mp hd).2
  obtain ⟨path, found_a⟩ := (wf.get?_ancestors_iff (d := (n, a)) found_d).mp hn
  have above : (n, a) ∈ db.index.lineage c :=
    wf.lineage_subset found hd (List.mem_cons_of_mem _ (Table.get?_eq_some_iff.mp hn))
  exact top ⟨n, known found_a⟩ ⟨(n, a), above, rfl, hPa⟩ path

end Database

/-! ## Methods that are written -/

/-- A record has a method of this name that can be written. -/
def Record.Offers (r : Record) (isStatic : Bool) (method : String) : Prop :=
  ∃ m, .method isStatic method m ∈ r.entries ∧ (Entry.method isStatic method m).writable r = true

theorem Record.Offers.declares {r : Record} {isStatic : Bool} {method : String}
    (h : r.Offers isStatic method) : r.declares (.ofMethods isStatic) method = true := by
  obtain ⟨m, hm, -⟩ := h
  have declared := declares_of_mem_entries hm
  rwa [Entry.part_method] at declared

namespace Index

open Declaration

/-- The block of a class has the line of a method. It is commented out just if the settings
ignore the method in this class. -/
def WritesMethod (i : Index) (settings : Settings) (d : String × Record) (isStatic : Bool)
    (method : String) : Prop :=
  ∃ sig : Signature, sig.isStatic = isStatic ∧ sig.hidden = settings.ignores d.1 method ∧
    sig.line (i.scope settings.vocabulary) method ∈ (i.listedBlock settings d).pieces

variable {i : Index} {settings : Settings} {d : String × Record} {isStatic : Bool}
  {method : String}

/-- A class writes its own methods if it lists a mixin with the name, or if nothing that it
sees has the name. -/
theorem writesMethod_of_offers (named : d.2.name = some d.1)
    (written : (i.listedBlock settings d).outcome = .ok true) (offers : d.2.Offers isStatic method)
    (kept : i.MixesIn d.2 (.ofMethods isStatic) method ∨
      ¬ i.Inherits d.2 (.ofMethods isStatic) method) :
    i.WritesMethod settings d isStatic method := by
  obtain ⟨m, hm, writable⟩ := offers
  obtain ⟨visits, -, pieces⟩ := pieces_of_written named written
  refine ⟨(i.subject settings d.2 d.1).signature d.2 isStatic method m, rfl, rfl, ?_⟩
  rw [← Entry.part_method isStatic method m] at kept
  rw [listedBlock, pieces]
  refine List.mem_append_left _ (List.mem_append_left _ (List.mem_append_right _ ?_))
  exact Subject.mem_written hm writable kept (List.mem_singleton_self _)

/-- A class that lists a mixin with the name writes the methods of all mixins inlined
into it. -/
theorem writesMethod_of_inlined (named : d.2.name = some d.1)
    (written : (i.listedBlock settings d).outcome = .ok true)
    (mixes : i.MixesIn d.2 (.ofMethods isStatic) method) {visits : List (String × Record)}
    (inlines : i.Inlines d.2.mixins visits) {v : String × Record} (hv : v ∈ visits)
    (offers : v.2.Offers isStatic method) : i.WritesMethod settings d isStatic method := by
  obtain ⟨m, hm, writable⟩ := offers
  obtain ⟨visits', inlines', pieces⟩ := pieces_of_written named written
  obtain rfl := inlines.unique inlines'
  refine ⟨(i.subject settings d.2 d.1).signature v.2 isStatic method m, rfl, rfl, ?_⟩
  rw [← Entry.part_method isStatic method m] at mixes
  rw [listedBlock, pieces]
  refine List.mem_append_left _ (List.mem_append_right _ (List.mem_flatMap.mpr ⟨v, hv, ?_⟩))
  exact List.mem_cons_of_mem _
    (Subject.mem_written hm writable mixes (List.mem_singleton_self _))

/-! ## Methods that are lost -/

/-- A record declares a name that none of its ancestors declares. -/
def Topmost (i : Index) (part : Section) (name : String) (r : Record) : Prop :=
  r.declares part name = true ∧ ∀ a ∈ (i.view r).ancestors.values, ¬ a.declares part name = true

/-- A method is left to ancestors that have the name first, and none of them offers it. No
mixin that the class sees has the name. -/
def LeftToAncestors (i : Index) (c : String × Record) (isStatic : Bool) (method : String) : Prop :=
  (∀ q ∈ (i.view c.2).mixins.values, ¬ q.declares (.ofMethods isStatic) method = true) ∧
  (∃ d ∈ (i.view c.2).ancestors.entries, i.Topmost (.ofMethods isStatic) method d.2) ∧
  ∀ d ∈ i.lineage c, i.Topmost (.ofMethods isStatic) method d.2 → ¬ d.2.Offers isStatic method

/-- A method is left to a mixin that neither the class nor an ancestor lists by itself, and
each of them that offers the method leaves it. -/
def LeftToNestedMixin (i : Index) (c : String × Record) (isStatic : Bool) (method : String) :
    Prop :=
  (∃ q ∈ (i.view c.2).mixins.values, q.declares (.ofMethods isStatic) method = true) ∧
  ∀ d ∈ i.lineage c, ¬ i.MixesIn d.2 (.ofMethods isStatic) method ∧
    (d.2.Offers isStatic method → i.Inherits d.2 (.ofMethods isStatic) method)

/-- A method is left to mixins that the class or an ancestor lists. No mixin inlined into one of
these classes offers it, and each class that offers it lists no such mixin and leaves it. -/
def LeftToMixins (i : Index) (c : String × Record) (isStatic : Bool) (method : String) : Prop :=
  (∃ d ∈ i.lineage c, i.MixesIn d.2 (.ofMethods isStatic) method) ∧
  (∀ d ∈ i.lineage c, i.MixesIn d.2 (.ofMethods isStatic) method →
    ∀ visits, i.Inlines d.2.mixins visits → ∀ v ∈ visits, ¬ v.2.Offers isStatic method) ∧
  ∀ d ∈ i.lineage c, d.2.Offers isStatic method →
    ¬ i.MixesIn d.2 (.ofMethods isStatic) method ∧ i.Inherits d.2 (.ofMethods isStatic) method

end Index

namespace Database

variable {db : Database} {settings : Settings} {time : String} {stats : Stats}
  {c d : String × Record} {isStatic : Bool} {method : String}

/-- In a listing without an error every known class has its whole block. -/
theorem WellFormed.block_of_listing (wf : db.WellFormed)
    (emitted : (db.index.listing settings time).outcome = .ok stats)
    (found : db.find? d.1 = some d.2) :
    (db.index.listedBlock settings d).outcome = .ok true ∧
      (db.index.listedBlock settings d).pieces <:+: (db.index.listing settings time).pieces := by
  have listed : d.1 ∈ db.index.names := Table.mem_keys_of_get?_eq_some found
  have block := Index.listedBlock_infix_listing emitted listed found
  rwa [wf.keyed d.1 d.2 found] at block

/-- A class of the lineage that offers a method which the lineage does not write leaves it. -/
theorem WellFormed.leaves_of_lost (wf : db.WellFormed)
    (emitted : (db.index.listing settings time).outcome = .ok stats)
    (found : db.find? c.1 = some c.2)
    (lost : ∀ d ∈ db.index.lineage c, ¬ db.index.WritesMethod settings d isStatic method)
    (hd : d ∈ db.index.lineage c) (offers : d.2.Offers isStatic method) :
    ¬ db.index.MixesIn d.2 (.ofMethods isStatic) method ∧
      db.index.Inherits d.2 (.ofMethods isStatic) method := by
  have found_d := ((wf.mem_lineage_iff found).mp hd).2
  have written := (wf.block_of_listing emitted found_d).1
  constructor
  · intro mixes
    exact lost d hd (Index.writesMethod_of_offers (wf.keyed _ _ found_d) written offers (.inl mixes))
  · by_contra free
    exact lost d hd (Index.writesMethod_of_offers (wf.keyed _ _ found_d) written offers (.inr free))

/-- If a class of the lineage lists a mixin with the name, no such class has a method to write,
and the other ones leave theirs. -/
theorem WellFormed.leftToMixins_of_lost (wf : db.WellFormed)
    (emitted : (db.index.listing settings time).outcome = .ok stats)
    (found : db.find? c.1 = some c.2)
    (lost : ∀ d ∈ db.index.lineage c, ¬ db.index.WritesMethod settings d isStatic method)
    (mixes : ∃ d ∈ db.index.lineage c, db.index.MixesIn d.2 (.ofMethods isStatic) method) :
    db.index.LeftToMixins c isStatic method := by
  refine ⟨mixes, fun d hd mixes_d visits inlines v hv offers => ?_,
    fun d hd offers => wf.leaves_of_lost emitted found lost hd offers⟩
  have found_d := ((wf.mem_lineage_iff found).mp hd).2
  have written := (wf.block_of_listing emitted found_d).1
  exact lost d hd
    (Index.writesMethod_of_inlined (wf.keyed _ _ found_d) written mixes_d inlines hv offers)

/-- If no mixin that the class sees has the name, the ancestors that have it first have no
method to write. -/
theorem WellFormed.leftToAncestors_of_lost (wf : db.WellFormed)
    (emitted : (db.index.listing settings time).outcome = .ok stats)
    (found : db.find? c.1 = some c.2) (offered : c.2.Offers isStatic method)
    (lost : ∀ d ∈ db.index.lineage c, ¬ db.index.WritesMethod settings d isStatic method)
    (unseen : ∀ q ∈ (db.index.view c.2).mixins.values,
      ¬ q.declares (.ofMethods isStatic) method = true) :
    db.index.LeftToAncestors c isStatic method := by
  have top_lost : ∀ d ∈ db.index.lineage c,
      db.index.Topmost (.ofMethods isStatic) method d.2 → ¬ d.2.Offers isStatic method := by
    intro d hd top offers
    rcases (wf.leaves_of_lost emitted found lost hd offers).2 with
      ⟨a, ha, declares⟩ | ⟨q, hq, declares⟩
    · exact top.2 a ha declares
    · exact unseen q (wf.mixins_subset found hd hq) declares
  obtain ⟨d, hd, top⟩ := wf.exists_topmost found
    (P := fun r => r.declares (.ofMethods isStatic) method = true) offered.declares
  refine ⟨unseen, ⟨d, ?_, top⟩, top_lost⟩
  rcases List.mem_cons.mp hd with rfl | hd
  · exact absurd offered (top_lost d List.mem_cons_self top)
  · exact hd

/-- A method that a class offers is written for the class or for one of its ancestors, unless it
is left to ancestors or mixins that are not written. -/
theorem method_written_or_left (db : Database) (settings : Settings) (time : String)
    (stats : Stats) (c : String × Record) (isStatic : Bool) (method : String)
    (wf : db.WellFormed) (emitted : (db.index.listing settings time).outcome = .ok stats)
    (found : db.find? c.1 = some c.2) (offered : c.2.Offers isStatic method) :
    (∃ d ∈ db.index.lineage c, db.index.WritesMethod settings d isStatic method ∧
      (db.index.listedBlock settings d).pieces <:+: (db.index.listing settings time).pieces) ∨
    db.index.LeftToAncestors c isStatic method ∨
    db.index.LeftToNestedMixin c isStatic method ∨
    db.index.LeftToMixins c isStatic method := by
  by_cases kept : ∃ d ∈ db.index.lineage c, db.index.WritesMethod settings d isStatic method
  · obtain ⟨d, hd, writes⟩ := kept
    have found_d := ((wf.mem_lineage_iff found).mp hd).2
    exact .inl ⟨d, hd, writes, (wf.block_of_listing emitted found_d).2⟩
  have lost : ∀ d ∈ db.index.lineage c, ¬ db.index.WritesMethod settings d isStatic method :=
    fun d hd writes => kept ⟨d, hd, writes⟩
  by_cases mixes : ∃ d ∈ db.index.lineage c, db.index.MixesIn d.2 (.ofMethods isStatic) method
  · exact .inr (.inr (.inr (wf.leftToMixins_of_lost emitted found lost mixes)))
  by_cases seen : ∃ q ∈ (db.index.view c.2).mixins.values,
      q.declares (.ofMethods isStatic) method = true
  · refine .inr (.inr (.inl ⟨seen, fun d hd => ⟨fun h => mixes ⟨d, hd, h⟩, fun offers => ?_⟩⟩))
    exact (wf.leaves_of_lost emitted found lost hd offers).2
  · have unseen : ∀ q ∈ (db.index.view c.2).mixins.values,
        ¬ q.declares (.ofMethods isStatic) method = true := fun q hq h => seen ⟨q, hq, h⟩
    exact .inr (.inl (wf.leftToAncestors_of_lost emitted found offered lost unseen))

end Database

/-! ## Blocks without methods -/

namespace Declaration

/-- The line of a method is indented further than the frame of a block. -/
theorem Signature.line_indented (sig : Signature) (s : TypeText.Scope) (name : String) :
    (sig.line s name).toList[3]? = some ' ' := by
  simp [Signature.line, indent]

/-- The line of a method has a parameter list. -/
theorem Signature.line_has_params (sig : Signature) (s : TypeText.Scope) (name : String) :
    '(' ∈ (sig.line s name).toList := by
  simp [Signature.line]

end Declaration

namespace Subject

theorem not_indented_of_mem_opening {s : Subject} {inModule : Bool} {piece : String}
    (noConstructor : s.record.construct = none) (h : piece ∈ s.opening inModule) :
    piece.toList[3]? ≠ some ' ' := by
  have bare : s.constructorText = [] := by
    rw [constructorText, noConstructor]
    simp
  rw [opening, bare, List.append_nil] at h
  rcases List.mem_cons.mp h with rfl | h
  · simp
  · obtain rfl := List.mem_singleton.mp h
    have word := s.keyword_mem
    simp only [List.mem_cons, List.not_mem_nil, or_false] at word
    rcases word with word | word | word <;> cases inModule <;> simp [heading, word]

end Subject

namespace Index

variable {i : Index} {settings : Settings} {d : String × Record} {isStatic : Bool}
  {method : String}

/-- A class that keeps no entry of its own and none of a mixin writes no method. -/
theorem not_writesMethod_of_bare (named : d.2.name = some d.1)
    (written : (i.listedBlock settings d).outcome = .ok true)
    (noConstructor : d.2.construct = none) (single : d.2.isSingleton = false)
    (own : ∀ e ∈ d.2.entries, e.writable d.2 = true →
      ¬ i.MixesIn d.2 e.part e.name ∧ i.Inherits d.2 e.part e.name)
    {visits : List (String × Record)} (inlines : i.Inlines d.2.mixins visits)
    (mixed : ∀ v ∈ visits, v.2.isSingleton = false ∧ '(' ∉ v.1.toList ∧
      ∀ e ∈ v.2.entries, e.writable v.2 = true → ¬ i.MixesIn d.2 e.part e.name) :
    ¬ i.WritesMethod settings d isStatic method := by
  obtain ⟨visits', inlines', pieces⟩ := pieces_of_written named written
  obtain rfl := inlines.unique inlines'
  intro writes
  obtain ⟨sig, -, -, line⟩ := writes
  rw [listedBlock, pieces, Subject.written_eq_nil single fun e he writable => by
    rw [not_or, not_not]
    exact own e he writable, List.append_nil] at line
  simp only [List.mem_append, List.mem_flatMap, List.mem_singleton] at line
  rcases line with (line | ⟨v, hv, line⟩) | line
  · exact Subject.not_indented_of_mem_opening noConstructor line (sig.line_indented _ _)
  · obtain ⟨single_v, name_v, entries_v⟩ := mixed v hv
    rw [Subject.written_eq_nil single_v entries_v, List.mem_singleton] at line
    have params := sig.line_has_params (i.scope settings.vocabulary) method
    rw [line] at params
    simp [Subject.mixinLine, Declaration.indent, name_v] at params
  · have indented := sig.line_indented (i.scope settings.vocabulary) method
    rw [line] at indented
    exact absurd indented (by decide)

end Index

namespace Database

/-! ## A database with lost methods -/

def lossyBase : Record :=
  { Record.blank with
    name := some "a.Base"
    members := .ofList [("hidden", { Method.plain with access := some .owner })] }

def lossyLeaf : Record :=
  { Record.blank with
    name := some "a.Leaf", superClasses := ["a.Base"], members := .ofList [("hidden", .plain)] }

def lossyInner : Record :=
  { Record.blank with name := some "a.Inner", members := .ofList [("deep", .plain)] }

def lossyHeir : Record :=
  { Record.blank with
    name := some "a.Heir", superClasses := ["a.Inner"], members := .ofList [("deep", .plain)] }

def lossyOuter : Record := { Record.blank with name := some "a.Outer", mixins := ["a.Inner"] }

def lossyOwner : Record :=
  { Record.blank with
    name := some "a.Owner", mixins := ["a.Outer"], members := .ofList [("deep", .plain)] }

def lossySecret : Record :=
  { Record.blank with
    name := some "a.Secret"
    members := .ofList [("shared", { Method.plain with access := some .owner })] }

def lossyHost : Record := { Record.blank with name := some "a.Host", mixins := ["a.Secret"] }

def lossyGuest : Record :=
  { Record.blank with
    name := some "a.Guest", superClasses := ["a.Host"], members := .ofList [("shared", .plain)] }

/-- A class with a method that is private in its base class, one with a method that its base
class has in the open, one with a method that a nested mixin has as well, and one with a method
that is private in a mixin of its base class. -/
def lossyClasses : List (String × Record) :=
  [("a.Base", lossyBase), ("a.Leaf", lossyLeaf), ("a.Inner", lossyInner), ("a.Heir", lossyHeir),
    ("a.Outer", lossyOuter), ("a.Owner", lossyOwner), ("a.Secret", lossySecret),
    ("a.Host", lossyHost), ("a.Guest", lossyGuest)]

/-- The database of these classes. -/
def lossy : Database := ⟨.empty, .ofList lossyClasses⟩

theorem mem_lossyClasses {c : String × Record} (h : lossy.find? c.1 = some c.2) :
    c ∈ lossyClasses := Table.get?_eq_some_iff.mp h

/-- The classes that list a superclass, with that superclass. -/
def lossySupers : List (String × String) :=
  [("a.Leaf", "a.Base"), ("a.Heir", "a.Inner"), ("a.Guest", "a.Host")]

theorem extends_lossy {n m : String} (h : lossy.Extends n m) : (n, m) ∈ lossySupers := by
  obtain ⟨r, found, listed⟩ := h
  have supers : ∀ c ∈ lossyClasses, ∀ m ∈ c.2.superClasses, (c.1, m) ∈ lossySupers := by decide
  exact supers (n, r) (mem_lossyClasses found) m listed

/-- No superclass has a superclass. -/
theorem transGen_lossy {n m : String} (h : Relation.TransGen lossy.Extends n m) :
    (n, m) ∈ lossySupers := by
  induction h with
  | single edge => exact extends_lossy edge
  | tail _ edge ih =>
    have apart : ∀ a ∈ lossySupers, ∀ b ∈ lossySupers, a.2 ≠ b.1 := by decide
    exact absurd rfl (apart _ ih _ (extends_lossy edge))

theorem wellFormed_lossy : lossy.WellFormed where
  keyed n r h := by
    have named : ∀ c ∈ lossyClasses, c.2.name = some c.1 := by decide
    exact named (n, r) (mem_lossyClasses h)
  acyclic n h := by
    have apart : ∀ a ∈ lossySupers, a.1 ≠ a.2 := by decide
    exact apart _ (transGen_lossy h) rfl

theorem written_lossy (c : String × Record) (h : lossy.find? c.1 = some c.2) :
    (lossy.index.listedBlock .blank c).outcome = .ok c.2.name.isSome := by
  have outer_inner : (lossy.index.view lossyOuter).mixins.get? "a.Inner" = some lossyInner :=
    Index.get?_mixins_of_mem List.mem_cons_self
  have owner_outer : (lossy.index.view lossyOwner).mixins.get? "a.Outer" = some lossyOuter :=
    Index.get?_mixins_of_mem List.mem_cons_self
  have owner_inner : (lossy.index.view lossyOwner).mixins.get? "a.Inner" = some lossyInner :=
    Index.get?_mixins_of_mixin owner_outer List.mem_cons_self
  have host_secret : (lossy.index.view lossyHost).mixins.get? "a.Secret" = some lossySecret :=
    Index.get?_mixins_of_mem List.mem_cons_self
  have bare : ∀ {r : Record} {n : String} {inModule : Bool}, r.name = some n → r.mixins = [] →
      (lossy.index.recordBlock .blank r inModule).outcome = .ok r.name.isSome := by
    intro r n inModule named mixins
    rw [Index.outcome_recordBlock _ named, mixins, Subject.inclusions_nil, named]
    rfl
  have listed := mem_lossyClasses h
  simp only [lossyClasses, List.mem_cons, List.not_mem_nil, or_false] at listed
  rcases listed with rfl | rfl | rfl | rfl | rfl | rfl | rfl | rfl | rfl
  · exact bare rfl rfl
  · exact bare rfl rfl
  · exact bare rfl rfl
  · exact bare rfl rfl
  · rw [Index.listedBlock, Index.outcome_recordBlock _ rfl,
      show lossyOuter.mixins = ["a.Inner"] from rfl,
      Subject.outcome_inclusions_singleton _ (by decide) outer_inner,
      show lossyInner.mixins = [] from rfl, Subject.inclusions_nil]
    rfl
  · rw [Index.listedBlock, Index.outcome_recordBlock _ rfl,
      show lossyOwner.mixins = ["a.Outer"] from rfl,
      Subject.outcome_inclusions_singleton _ (by decide) owner_outer,
      show lossyOuter.mixins = ["a.Inner"] from rfl,
      Subject.outcome_inclusions_singleton _ (by decide) owner_inner,
      show lossyInner.mixins = [] from rfl, Subject.inclusions_nil]
    rfl
  · exact bare rfl rfl
  · rw [Index.listedBlock, Index.outcome_recordBlock _ rfl,
      show lossyHost.mixins = ["a.Secret"] from rfl,
      Subject.outcome_inclusions_singleton _ (by decide) host_secret,
      show lossySecret.mixins = [] from rfl, Subject.inclusions_nil]
    rfl
  · exact bare rfl rfl

theorem exists_outcome_lossy : ∃ stats, (lossy.index.listing .blank "T").outcome = .ok stats := by
  rw [Index.listing, Emission.outcome_write_andThen]
  exact Index.exists_outcome_blocks written_lossy

theorem mem_ancestors_lossy {c d : String × Record} (found : lossy.find? c.1 = some c.2)
    (h : d ∈ (lossy.index.view c.2).ancestors.entries) :
    (c.1, d.1) ∈ lossySupers ∧ lossy.find? d.1 = some d.2 := by
  obtain ⟨path, found_d⟩ :=
    (wellFormed_lossy.get?_ancestors_iff found).mp (Table.get?_eq_some_iff.mpr h)
  exact ⟨transGen_lossy path, found_d⟩

/-- A class that lists no superclass has no ancestor. -/
theorem lineage_lossy_of_root {c d : String × Record} (found : lossy.find? c.1 = some c.2)
    (root : ∀ a ∈ lossySupers, a.1 ≠ c.1) (hd : d ∈ lossy.index.lineage c) : d = c := by
  rcases List.mem_cons.mp hd with rfl | hd
  · rfl
  · exact absurd rfl (root _ (mem_ancestors_lossy found hd).1)

/-- A class that lists one superclass has no other ancestor. -/
theorem lineage_lossy_of_super {c e d : String × Record} (found : lossy.find? c.1 = some c.2)
    (found_e : lossy.find? e.1 = some e.2) (super : ∀ a ∈ lossySupers, a.1 = c.1 → a.2 = e.1)
    (hd : d ∈ lossy.index.lineage c) : d = c ∨ d = e := by
  rcases List.mem_cons.mp hd with rfl | hd
  · exact .inl rfl
  · obtain ⟨listed, found_d⟩ := mem_ancestors_lossy found hd
    obtain ⟨n, r⟩ := d
    obtain rfl : n = e.1 := super _ listed rfl
    exact .inr (Prod.ext rfl (Option.some.inj (found_d.symm.trans found_e)))

theorem not_mixesIn_lossyOwner : ¬ lossy.index.MixesIn lossyOwner .members "deep" := by
  intro h
  obtain ⟨m, hm, q, hq, declares⟩ := h
  obtain rfl := List.mem_singleton.mp hm
  obtain rfl : lossyOuter = q := Option.some.inj hq
  exact absurd declares (by decide)

theorem not_writesMethod_lossyBase (method : String) :
    ¬ lossy.index.WritesMethod .blank ("a.Base", lossyBase) false method := by
  refine Index.not_writesMethod_of_bare rfl (written_lossy _ rfl) rfl rfl ?_ .nil (by simp)
  intro e he writable
  obtain rfl := List.mem_singleton.mp he
  exact absurd writable (by decide)

theorem not_writesMethod_lossyLeaf (method : String) :
    ¬ lossy.index.WritesMethod .blank ("a.Leaf", lossyLeaf) false method := by
  refine Index.not_writesMethod_of_bare rfl (written_lossy _ rfl) rfl rfl ?_ .nil (by simp)
  intro e he writable
  obtain rfl := List.mem_singleton.mp he
  have base : (lossy.index.view lossyLeaf).ancestors.get? "a.Base" = some lossyBase :=
    (wellFormed_lossy.get?_ancestors_iff (c := ("a.Leaf", lossyLeaf)) (d := ("a.Base", lossyBase))
      rfl).mpr ⟨.single ⟨lossyLeaf, rfl, List.mem_cons_self⟩, rfl⟩
  exact ⟨Index.not_mixesIn_of_nil rfl, .inl ⟨_, Table.mem_values_iff.mpr ⟨_, base⟩, by decide⟩⟩

theorem not_writesMethod_lossyOwner (method : String) :
    ¬ lossy.index.WritesMethod .blank ("a.Owner", lossyOwner) false method := by
  have outer : (lossy.index.view lossyOwner).mixins.get? "a.Outer" = some lossyOuter :=
    Index.get?_mixins_of_mem List.mem_cons_self
  have inner : (lossy.index.view lossyOwner).mixins.get? "a.Inner" = some lossyInner :=
    Index.get?_mixins_of_mixin outer List.mem_cons_self
  have nested : lossy.index.Inlines lossyOuter.mixins [("a.Inner", lossyInner)] :=
    @Index.Inlines.cons _ _ _ _ [] [] rfl .nil .nil
  have inlines : lossy.index.Inlines lossyOwner.mixins
      [("a.Outer", lossyOuter), ("a.Inner", lossyInner)] :=
    @Index.Inlines.cons _ _ _ _ [("a.Inner", lossyInner)] [] rfl nested .nil
  refine Index.not_writesMethod_of_bare rfl (written_lossy _ rfl) rfl rfl ?_ inlines ?_
  · intro e he writable
    obtain rfl := List.mem_singleton.mp he
    exact ⟨not_mixesIn_lossyOwner, .inr ⟨_, Table.mem_values_iff.mpr ⟨_, inner⟩, by decide⟩⟩
  · intro v hv
    rcases List.mem_cons.mp hv with rfl | hv
    · exact ⟨rfl, by decide, fun e he => nomatch he⟩
    · obtain rfl := List.mem_singleton.mp hv
      refine ⟨rfl, by decide, fun e he _ => ?_⟩
      obtain rfl := List.mem_singleton.mp he
      exact not_mixesIn_lossyOwner

theorem not_writesMethod_lossyHost (method : String) :
    ¬ lossy.index.WritesMethod .blank ("a.Host", lossyHost) false method := by
  have inlines : lossy.index.Inlines lossyHost.mixins [("a.Secret", lossySecret)] :=
    @Index.Inlines.cons _ _ _ _ [] [] rfl .nil .nil
  refine Index.not_writesMethod_of_bare rfl (written_lossy _ rfl) rfl rfl (fun e he => nomatch he)
    inlines fun v hv => ?_
  obtain rfl := List.mem_singleton.mp hv
  refine ⟨rfl, by decide, fun e he writable => ?_⟩
  obtain rfl := List.mem_singleton.mp he
  exact absurd writable (by decide)

theorem not_writesMethod_lossyGuest (method : String) :
    ¬ lossy.index.WritesMethod .blank ("a.Guest", lossyGuest) false method := by
  refine Index.not_writesMethod_of_bare rfl (written_lossy _ rfl) rfl rfl ?_ .nil (by simp)
  intro e he writable
  obtain rfl := List.mem_singleton.mp he
  have host : (lossy.index.view lossyGuest).ancestors.get? "a.Host" = some lossyHost :=
    (wellFormed_lossy.get?_ancestors_iff (c := ("a.Guest", lossyGuest))
      (d := ("a.Host", lossyHost)) rfl).mpr
      ⟨.single ⟨lossyGuest, rfl, List.mem_cons_self⟩, rfl⟩
  have secret : (lossy.index.view lossyGuest).mixins.get? "a.Secret" = some lossySecret :=
    Index.get?_mixins_of_ancestor (Table.mem_values_iff.mpr ⟨_, host⟩) List.mem_cons_self
  exact ⟨Index.not_mixesIn_of_nil rfl,
    .inr ⟨_, Table.mem_values_iff.mpr ⟨_, secret⟩, by decide⟩⟩

/-- Of the class with the method that is private in its base class, the class with the method of
the nested mixin and the class with the method that is private in a mixin of its base class, none
has it written, nor has an ancestor. -/
theorem lossy_loses :
    lossy.WellFormed ∧ (∃ stats, (lossy.index.listing .blank "T").outcome = .ok stats) ∧
    (lossy.find? "a.Leaf" = some lossyLeaf ∧ lossyLeaf.Offers false "hidden" ∧
      ∀ d ∈ lossy.index.lineage ("a.Leaf", lossyLeaf),
        ¬ lossy.index.WritesMethod .blank d false "hidden") ∧
    (lossy.find? "a.Owner" = some lossyOwner ∧ lossyOwner.Offers false "deep" ∧
      ∀ d ∈ lossy.index.lineage ("a.Owner", lossyOwner),
        ¬ lossy.index.WritesMethod .blank d false "deep") ∧
    lossy.find? "a.Guest" = some lossyGuest ∧ lossyGuest.Offers false "shared" ∧
      ∀ d ∈ lossy.index.lineage ("a.Guest", lossyGuest),
        ¬ lossy.index.WritesMethod .blank d false "shared" := by
  refine ⟨wellFormed_lossy, exists_outcome_lossy,
    ⟨rfl, ⟨.plain, List.mem_cons_self, by decide⟩, fun d hd => ?_⟩,
    ⟨rfl, ⟨.plain, List.mem_cons_self, by decide⟩, fun d hd => ?_⟩,
    rfl, ⟨.plain, List.mem_cons_self, by decide⟩, fun d hd => ?_⟩
  · rcases lineage_lossy_of_super (e := ("a.Base", lossyBase)) rfl rfl (by decide) hd with rfl | rfl
    · exact not_writesMethod_lossyLeaf _
    · exact not_writesMethod_lossyBase _
  · obtain rfl := lineage_lossy_of_root (c := ("a.Owner", lossyOwner)) rfl (by decide) hd
    exact not_writesMethod_lossyOwner _
  · rcases lineage_lossy_of_super (e := ("a.Host", lossyHost)) rfl rfl (by decide) hd with rfl | rfl
    · exact not_writesMethod_lossyGuest _
    · exact not_writesMethod_lossyHost _

/-- The method that the base class has in the open is written there. -/
theorem lossyHeir_written :
    ∃ d ∈ lossy.index.lineage ("a.Heir", lossyHeir),
      lossy.index.WritesMethod .blank d false "deep" := by
  obtain ⟨stats, emitted⟩ := exists_outcome_lossy
  have offered : lossyHeir.Offers false "deep" := ⟨.plain, List.mem_cons_self, by decide⟩
  have inner : ("a.Inner", lossyInner) ∈ lossy.index.lineage ("a.Heir", lossyHeir) :=
    (wellFormed_lossy.mem_lineage_iff rfl).mpr
      ⟨.single ⟨lossyHeir, rfl, List.mem_cons_self⟩, rfl⟩
  have inner_offers : lossyInner.Offers false "deep" := ⟨.plain, List.mem_cons_self, by decide⟩
  have inner_free : ¬ lossy.index.Inherits lossyInner .members "deep" :=
    Index.not_inherits_of_nil rfl rfl
  rcases method_written_or_left lossy .blank "T" stats ("a.Heir", lossyHeir) false "deep"
    wellFormed_lossy emitted rfl offered with ⟨d, hd, writes, -⟩ | left | left | left
  · exact ⟨d, hd, writes⟩
  · have top : lossy.index.Topmost .members "deep" lossyInner :=
      ⟨by decide, fun a ha declares => inner_free (.inl ⟨a, ha, declares⟩)⟩
    exact absurd inner_offers (left.2.2 _ inner top)
  · exact absurd ((left.2 _ inner).2 inner_offers) inner_free
  · exact absurd (left.2.2 _ inner inner_offers).2 inner_free

end Database

end Ambient
