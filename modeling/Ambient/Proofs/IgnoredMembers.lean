/-
  Ignored members: what the settings ignore is commented out where it is declared, and shows
  nowhere else. A draft is a listing whose declarations of methods are marked with the class in
  whose block they stand and with their names; which of them are commented out is left open
  until the draft is copied out. Main statement: `listing_copies_draft` (one draft serves both
  for the settings that ignore nothing and for those that ignore some members), with
  `declaration_mem_draft` (what the draft declares).
-/
import Ambient.Proofs.BlockEntries
import Ambient.Proofs.Framing

namespace Ambient

open Declaration

/-! ## Drafts -/

/-- A passage of a listing: the declaration of a method in the block of a class, without its
indentation, or any other text. -/
inductive Passage
  | plain (text : String)
  | declaration (className member declared : String)

/-- The text of a passage. A declaration is commented out behind its indentation if the member is
ignored in the block of the class. -/
def Passage.copy (ignores : String → String → Bool) : Passage → String
  | .plain text => text
  | .declaration className member declared =>
    indent ++ (if ignores className member then "// " else "") ++ declared

/-- A commented declaration keeps its indentation. -/
example : (Passage.declaration "a.B" "go" "go(): void;\n").copy (fun _ _ => true) =
    "    // go(): void;\n" := by decide

/-- Pieces in the order of writing, and the outcome of the writing. -/
structure Draft (α : Type) where
  pieces : List Passage
  outcome : Except InclusionError α

namespace Draft

variable {α β : Type}

/-- Writes nothing. -/
def done (a : α) : Draft α := ⟨[], .ok a⟩

/-- Writes pieces. -/
def write (pieces : List Passage) : Draft Unit := ⟨pieces, .ok ()⟩

/-- Ends in an error. -/
def fail (e : InclusionError) : Draft α := ⟨[], .error e⟩

/-- One draft after another, unless the first one ends in an error. -/
def andThen (m : Draft α) (f : α → Draft β) : Draft β :=
  match m.outcome with
  | .error e => ⟨m.pieces, .error e⟩
  | .ok a => ⟨m.pieces ++ (f a).pieces, (f a).outcome⟩

/-- The emission of a draft for given members to ignore. -/
def copy (ignores : String → String → Bool) (m : Draft α) : Emission α :=
  ⟨m.pieces.map (Passage.copy ignores), m.outcome⟩

variable {ignores : String → String → Bool}

@[simp] theorem copy_done (a : α) : (done a).copy ignores = .done a := rfl

@[simp] theorem copy_write (pieces : List Passage) :
    (write pieces).copy ignores = .write (pieces.map (Passage.copy ignores)) := rfl

@[simp] theorem copy_andThen (m : Draft α) (f : α → Draft β) :
    (m.andThen f).copy ignores = (m.copy ignores).andThen fun a => (f a).copy ignores := by
  rw [andThen, Emission.andThen]
  cases h : m.outcome <;> simp [copy, h]

end Draft

theorem map_copy_plain (ignores : String → String → Bool) (texts : List String) :
    (texts.map Passage.plain).map (Passage.copy ignores) = texts := by
  rw [List.map_map]
  exact List.map_id'' (fun _ => rfl) texts

/-! ## The draft of a listing -/

/-- The line that declares a method, without its indentation and without a comment mark. -/
def Declaration.Signature.declaration (sig : Signature) (s : TypeText.Scope) (name : String) :
    String :=
  sig.modifiers ++ memberName name ++ "(" ++ paramList s sig.params ++ "): " ++
    sig.returns.getD "void" ++ ";" ++ sig.remark ++ "\n"

theorem Declaration.Signature.line_eq (sig : Signature) (s : TypeText.Scope) (name : String) :
    sig.line s name =
      indent ++ (if sig.hidden then "// " else "") ++ sig.declaration s name := by
  simp only [line, declaration, String.append_assoc]

namespace Subject

/-- The pieces of a method: its comment block and its declaration. -/
def methodPieces (s : Subject) (name : String) (sig : Signature) : List Passage :=
  (sig.comment.map fun d => .plain (s.commentBlock d)).toList ++
    [.declaration s.name name (sig.declaration s.scope name)]

/-- The pieces of an entry of `owner`. The accessors of a property declare no methods. -/
def entryPieces (s : Subject) (owner : Record) : Entry → List Passage
  | .method isStatic name m => s.methodPieces name (s.signature owner isStatic name m)
  | .property name p => (s.entryText owner (.property name p)).map .plain

/-- The pieces of all that is written for `owner` itself. -/
def ownPieces (s : Subject) (owner : Record) : List Passage :=
  (if owner.isSingleton then s.methodPieces "getInstance" (s.instanceSignature owner) else []) ++
    owner.entries.flatMap fun e =>
      if e.writable owner && !s.leaves e.part e.name then s.entryPieces owner e else []

/-- The draft of what is written for mixins, and for the mixins that they include. -/
def draftInclusions (s : Subject) (chain mixins : List String) : Draft Unit :=
  match mixins with
  | [] => .done ()
  | m :: rest =>
    (Draft.write [.plain (mixinLine m)]).andThen fun _ =>
      match _new : chain.contains m with
      | true => .fail (.cycle s.name (chain ++ [m]))
      | false =>
        match _found : s.view.mixins.get? m with
        | none => .fail (.missing s.name m)
        | some r =>
          (Draft.write (s.ownPieces r)).andThen fun _ =>
            (s.draftInclusions (chain ++ [m]) r.mixins).andThen fun _ =>
              s.draftInclusions chain rest
termination_by ((s.unused chain).length, mixins.length)
decreasing_by
  · exact Prod.Lex.left _ _ (length_unused_lt _found _new)
  · exact Prod.Lex.right _ (by simp)

theorem draftInclusions_of_mem (s : Subject) {chain : List String} {m : String}
    (mixins : List String) (h : m ∈ chain) :
    s.draftInclusions chain (m :: mixins) =
      ⟨[.plain (mixinLine m)], .error (.cycle s.name (chain ++ [m]))⟩ := by
  rw [draftInclusions]
  simp only [Draft.andThen, Draft.write]
  split
  · rfl
  · next new => simp [h] at new

theorem draftInclusions_of_none (s : Subject) {chain : List String} {m : String}
    (mixins : List String) (h : m ∉ chain) (unknown : s.view.mixins.get? m = none) :
    s.draftInclusions chain (m :: mixins) =
      ⟨[.plain (mixinLine m)], .error (.missing s.name m)⟩ := by
  rw [draftInclusions]
  simp only [Draft.andThen, Draft.write]
  split
  · next old => simp [h] at old
  · split
    · rfl
    · next found => simp [unknown] at found

theorem draftInclusions_of_some (s : Subject) {chain : List String} {m : String}
    (mixins : List String) {r : Record} (h : m ∉ chain) (found : s.view.mixins.get? m = some r) :
    s.draftInclusions chain (m :: mixins) =
      (Draft.write (.plain (mixinLine m) :: s.ownPieces r)).andThen fun _ =>
        (s.draftInclusions (chain ++ [m]) r.mixins).andThen fun _ =>
          s.draftInclusions chain mixins := by
  rw [draftInclusions]
  simp only [Draft.andThen, Draft.write]
  split
  · next old => simp [h] at old
  · split
    · next unknown => simp [found] at unknown
    · next r' found' =>
      obtain rfl : r = r' := Option.some.inj (found.symm.trans found')
      simp

/-- The draft of the block of the class. -/
def draftBlock (s : Subject) (inModule : Bool) : Draft Unit :=
  (Draft.write ((s.opening inModule).map .plain ++ s.ownPieces s.record)).andThen fun _ =>
    (s.draftInclusions [s.name] s.record.mixins).andThen fun _ => .write [.plain "\n  \x7d\n"]

end Subject

namespace Index

/-- The draft of what is written for a record. -/
def draftRecord (i : Index) (settings : Settings) (r : Record) (inModule : Bool) : Draft Bool :=
  match r.name with
  | none => .done false
  | some name => ((i.subject settings r name).draftBlock inModule).andThen fun _ => .done true

/-- The draft of the declarations of names, after a name of the package `last`. -/
def draftBlocks (i : Index) (settings : Settings) (last : Option String) (stats : Stats) :
    List String → Draft Stats
  | [] =>
    (Draft.write (if isOpen last then [.plain "\x7d\n"] else [])).andThen fun _ => .done stats
  | name :: names =>
    match i.find? name with
    | none => i.draftBlocks settings last (stats.count false) names
    | some r =>
      let package := packageOf name
      (Draft.write ((transition last package).map .plain)).andThen fun _ =>
        (i.draftRecord settings r (package != "")).andThen fun declared =>
          let opened := last != some package && package != ""
          i.draftBlocks settings (some package) ((stats.openModule opened).count declared) names

/-- The draft of the whole listing. -/
def draft (i : Index) (settings : Settings) (time : String) : Draft Stats :=
  (Draft.write [.plain ("// Generated declaration file at " ++ time ++ "\n"),
      .plain settings.preamble, .plain "\n"]).andThen fun _ =>
    i.draftBlocks settings none .zero i.sortedNames

end Index

/-! ## Copying out -/

/-- The settings with nothing ignored. -/
def Settings.ignoringNothing (s : Settings) : Settings := { s with ignored := .empty }

/-- The class under settings that ignore nothing. -/
def Subject.ignoringNothing (s : Subject) : Subject :=
  { s with settings := s.settings.ignoringNothing }

namespace Subject

variable (s : Subject)

/-- What is ignored shows only in the declaration of a method. -/
theorem methodText_eq_copy {name : String} {sig sig' : Signature}
    (open_access : sig.access ≠ some .owner) (comment : sig.comment = sig'.comment)
    (hidden : sig.hidden = s.settings.ignores s.name name)
    (declared : sig.declaration s.scope name = sig'.declaration s.scope name) :
    s.methodText name sig =
      (s.ignoringNothing.methodPieces name sig').map (Passage.copy s.settings.ignores) := by
  rw [methodText_of_not_private open_access, Signature.line_eq, hidden, comment, declared,
    methodPieces, List.map_append]
  cases sig'.comment <;> rfl

theorem instanceText_eq_copy (owner : Record) :
    s.instanceText owner =
      (if owner.isSingleton then s.ignoringNothing.methodPieces "getInstance"
        (s.ignoringNothing.instanceSignature owner) else []).map
          (Passage.copy s.settings.ignores) := by
  rw [instanceText]
  split
  · exact s.methodText_eq_copy (by simp [instanceSignature]) rfl rfl rfl
  · rfl

theorem entryText_eq_copy {owner : Record} {e : Entry} (writable : e.writable owner = true) :
    s.entryText owner e =
      (s.ignoringNothing.entryPieces owner e).map (Passage.copy s.settings.ignores) := by
  cases e with
  | property name p => exact (map_copy_plain _ _).symm
  | method isStatic name m =>
    exact s.methodText_eq_copy (access_signature_of_writable writable) rfl rfl rfl

theorem ownTexts_eq_copy (owner : Record) :
    s.ownTexts owner =
      (s.ignoringNothing.ownPieces owner).map (Passage.copy s.settings.ignores) := by
  rw [ownTexts_eq, ownPieces, List.map_append, ← instanceText_eq_copy, List.map_flatMap]
  congr 2
  funext e
  have leaves : s.ignoringNothing.leaves = s.leaves := rfl
  rw [keptText, leaves]
  split
  · next kept => exact s.entryText_eq_copy (by simp_all)
  · rfl

theorem inclusions_eq_copy (chain mixins : List String) :
    s.inclusions chain mixins =
      (s.ignoringNothing.draftInclusions chain mixins).copy s.settings.ignores := by
  induction chain, mixins using inclusions.induct s with
  | case1 chain => rw [inclusions_nil, draftInclusions, Draft.copy_done]
  | case2 chain m mixins ih_inner ih_rest =>
    by_cases on_chain : m ∈ chain
    · rw [inclusions_of_mem s mixins on_chain, draftInclusions_of_mem _ mixins on_chain]
      rfl
    · cases found : s.view.mixins.get? m with
      | none =>
        rw [inclusions_of_none s mixins on_chain found,
          draftInclusions_of_none s.ignoringNothing mixins on_chain found]
        rfl
      | some r =>
        rw [inclusions_of_some s mixins on_chain found,
          draftInclusions_of_some s.ignoringNothing mixins on_chain found, ownTexts_eq_copy,
          ih_inner (by simpa using on_chain) r found, ih_rest]
        simp only [Draft.copy_andThen, Draft.copy_write]
        rfl

theorem block_eq_copy (inModule : Bool) :
    s.block inModule = (s.ignoringNothing.draftBlock inModule).copy s.settings.ignores := by
  rw [block, draftBlock, Draft.copy_andThen, Draft.copy_write, List.map_append, map_copy_plain,
    ownTexts_eq_copy, inclusions_eq_copy]
  simp only [Draft.copy_andThen, Draft.copy_write]
  rfl

end Subject

namespace Index

variable (i : Index) (settings : Settings)

theorem recordBlock_eq_copy (r : Record) (inModule : Bool) :
    i.recordBlock settings r inModule =
      (i.draftRecord settings.ignoringNothing r inModule).copy settings.ignores := by
  rw [recordBlock, draftRecord]
  cases r.name with
  | none => rfl
  | some name =>
    simp only [Draft.copy_andThen, Subject.block_eq_copy]
    rfl

theorem blocks_eq_copy (last : Option String) (stats : Stats) (names : List String) :
    i.blocks settings last stats names =
      (i.draftBlocks settings.ignoringNothing last stats names).copy settings.ignores := by
  induction names generalizing last stats with
  | nil =>
    rw [blocks, draftBlocks]
    split <;> rfl
  | cons name names ih =>
    rw [draftBlocks]
    cases known : i.find? name with
    | none => rw [blocks_cons_of_none known, ih]
    | some r =>
      rw [blocks_cons_of_some known]
      simp only [Draft.copy_andThen, Draft.copy_write, map_copy_plain, recordBlock_eq_copy, ih]

theorem listing_eq_copy (time : String) :
    i.listing settings time =
      (i.draft settings.ignoringNothing time).copy settings.ignores := by
  rw [listing, draft, Draft.copy_andThen, Draft.copy_write]
  simp only [blocks_eq_copy]
  rfl

end Index

/-! ## What a draft declares -/

/-- The members that settings ignore are those that stand in the table under the class. -/
theorem Settings.ignores_iff {settings : Settings} {className member : String} :
    settings.ignores className member = true ↔
      ∃ members, settings.ignored.get? className = some members ∧ member ∈ members := by
  unfold ignores
  cases settings.ignored.get? className <;> simp

namespace Draft

variable {α β : Type} {m : Draft α} {f : α → Draft β}

theorem pieces_andThen_of_ok {a : α} (h : m.outcome = .ok a) :
    (m.andThen f).pieces = m.pieces ++ (f a).pieces := by rw [andThen, h]

theorem outcome_andThen_eq_ok {b : β} :
    (m.andThen f).outcome = .ok b ↔ ∃ a, m.outcome = .ok a ∧ (f a).outcome = .ok b := by
  unfold andThen
  cases m.outcome <;> simp

end Draft

namespace Subject

/-- What is declared for `owner` in the block of the class, by its name and its declaration: the
accessor of the only instance of a singleton, and each method that can be written and that the
class does not leave. -/
inductive Declares (s : Subject) (owner : Record) : String → String → Prop
  | accessor (single : owner.isSingleton = true) :
    Declares s owner "getInstance" ((s.instanceSignature owner).declaration s.scope "getInstance")
  | method {isStatic : Bool} {name : String} {m : Method}
    (listed : .method isStatic name m ∈ owner.entries)
    (writable : (Entry.method isStatic name m).writable owner = true)
    (kept : s.leaves (.ofMethods isStatic) name = false) :
    Declares s owner name ((s.signature owner isStatic name m).declaration s.scope name)

variable {s : Subject} {c member declared : String}

theorem declaration_mem_methodPieces {name : String} {sig : Signature} :
    .declaration c member declared ∈ s.methodPieces name sig ↔
      c = s.name ∧ member = name ∧ declared = sig.declaration s.scope name := by
  cases h : sig.comment <;> simp [methodPieces, h]

/-- The pieces of `owner` hold a declaration for what is declared for it, under the name of the
class. -/
theorem declaration_mem_ownPieces {owner : Record} :
    .declaration c member declared ∈ s.ownPieces owner ↔
      c = s.name ∧ s.Declares owner member declared := by
  unfold ownPieces
  rw [List.mem_append, List.mem_flatMap]
  constructor
  · rintro (h | ⟨e, listed, h⟩)
    · split at h
      · next single =>
        obtain ⟨rfl, rfl, rfl⟩ := declaration_mem_methodPieces.mp h
        exact ⟨rfl, .accessor single⟩
      · cases h
    · split at h
      · next kept =>
        simp only [Bool.and_eq_true, Bool.not_eq_true'] at kept
        cases e with
        | method isStatic name m =>
          obtain ⟨rfl, rfl, rfl⟩ := declaration_mem_methodPieces.mp h
          rw [Entry.part_method] at kept
          exact ⟨rfl, .method listed kept.1 kept.2⟩
        | property name p => simp [entryPieces] at h
      · cases h
  · rintro ⟨rfl, declares⟩
    cases declares with
    | accessor single =>
      refine .inl ?_
      rw [if_pos single]
      exact declaration_mem_methodPieces.mpr ⟨rfl, rfl, rfl⟩
    | @method isStatic name m listed writable kept =>
      refine .inr ⟨_, listed, ?_⟩
      rw [if_pos (by rw [writable, Entry.part_method]; simp [Entry.name, kept])]
      exact declaration_mem_methodPieces.mpr ⟨rfl, rfl, rfl⟩

/-- Without an error the draft of mixins has a line for each mixin that is inlined, and behind it
the pieces of its record. -/
theorem pieces_draftInclusions
    (closed : ∀ m r, s.view.mixins.get? m = some r → s.Sees r.mixins)
    (chain mixins : List String) (sees : s.Sees mixins)
    (written : (s.draftInclusions chain mixins).outcome = .ok ()) :
    ∃ visits, s.index.Inlines mixins visits ∧ (s.draftInclusions chain mixins).pieces =
      visits.flatMap fun v => .plain (mixinLine v.1) :: s.ownPieces v.2 := by
  induction chain, mixins using inclusions.induct s with
  | case1 chain =>
    refine ⟨[], .nil, ?_⟩
    rw [draftInclusions]
    rfl
  | case2 chain m mixins ih_inner ih_rest =>
    have new : m ∉ chain := by
      intro h
      rw [draftInclusions_of_mem s mixins h] at written
      cases written
    have known : s.view.mixins.get? m = s.index.find? m := sees m List.mem_cons_self
    cases found : s.view.mixins.get? m with
    | none =>
      rw [draftInclusions_of_none s mixins new found] at written
      cases written
    | some r =>
      rw [draftInclusions_of_some s mixins new found] at written ⊢
      obtain ⟨⟨⟩, opened, written⟩ := Draft.outcome_andThen_eq_ok.mp written
      obtain ⟨⟨⟩, inner, rest⟩ := Draft.outcome_andThen_eq_ok.mp written
      obtain ⟨nested, inlines, nested_pieces⟩ :=
        ih_inner (by simpa using new) r found (closed m r found) inner
      obtain ⟨later, later_inlines, later_pieces⟩ :=
        ih_rest (fun m' hm' => sees m' (List.mem_cons_of_mem _ hm')) rest
      refine ⟨(m, r) :: (nested ++ later), .cons (known ▸ found) inlines later_inlines, ?_⟩
      rw [Draft.pieces_andThen_of_ok opened, Draft.pieces_andThen_of_ok inner, nested_pieces,
        later_pieces, List.flatMap_cons, List.flatMap_append]
      rfl

/-- Without an error the draft of a block declares what is declared for the class and for the
mixins inlined into it. -/
theorem declaration_mem_draftBlock
    (closed : ∀ m r, s.view.mixins.get? m = some r → s.Sees r.mixins)
    (sees : s.Sees s.record.mixins) {inModule : Bool}
    (written : (s.draftBlock inModule).outcome = .ok ()) :
    .declaration c member declared ∈ (s.draftBlock inModule).pieces ↔
      c = s.name ∧ ∃ visits, s.index.Inlines s.record.mixins visits ∧
        ∃ owner ∈ s.record :: visits.map Prod.snd, s.Declares owner member declared := by
  unfold draftBlock at written ⊢
  obtain ⟨⟨⟩, opened, written⟩ := Draft.outcome_andThen_eq_ok.mp written
  obtain ⟨⟨⟩, inlined, -⟩ := Draft.outcome_andThen_eq_ok.mp written
  obtain ⟨visits, inlines, pieces⟩ := pieces_draftInclusions closed _ _ sees inlined
  have plain (texts : List String) :
      Passage.declaration c member declared ∉ texts.map Passage.plain := by simp
  rw [Draft.pieces_andThen_of_ok opened, Draft.pieces_andThen_of_ok inlined, pieces]
  simp only [Draft.write, List.mem_append, plain, List.mem_flatMap, List.mem_cons,
    List.not_mem_nil, reduceCtorEq, declaration_mem_ownPieces, false_or, or_false]
  constructor
  · rintro (⟨rfl, declares⟩ | ⟨v, hv, rfl, declares⟩)
    · exact ⟨rfl, visits, inlines, _, .inl rfl, declares⟩
    · exact ⟨rfl, visits, inlines, v.2, .inr (List.mem_map_of_mem hv), declares⟩
  · rintro ⟨rfl, visits', inlines', owner, rfl | howner, declares⟩
    · exact .inl ⟨rfl, declares⟩
    · obtain rfl := inlines.unique inlines'
      obtain ⟨v, hv, rfl⟩ := List.mem_map.mp howner
      exact .inr ⟨v, hv, rfl, declares⟩

end Subject

namespace Index

variable {i : Index} {settings : Settings} {c member declared : String}

/-- A class declares something in its block: for itself, or for a mixin inlined into it. -/
def Declares (i : Index) (settings : Settings) (r : Record) (c member declared : String) : Prop :=
  r.name = some c ∧ ∃ visits, i.Inlines r.mixins visits ∧
    ∃ owner ∈ r :: visits.map Prod.snd, (i.subject settings r c).Declares owner member declared

theorem declaration_mem_draftRecord {r : Record} {inModule declares : Bool}
    (written : (i.draftRecord settings r inModule).outcome = .ok declares) :
    .declaration c member declared ∈ (i.draftRecord settings r inModule).pieces ↔
      i.Declares settings r c member declared := by
  unfold draftRecord at written ⊢
  cases named : r.name with
  | none => simp [Draft.done, Declares, named]
  | some name =>
    rw [named] at written
    obtain ⟨⟨⟩, block_written, -⟩ := Draft.outcome_andThen_eq_ok.mp written
    obtain ⟨sees, closed⟩ := sees_subject i settings r name
    dsimp only
    rw [Draft.pieces_andThen_of_ok block_written, Draft.done, List.append_nil,
      Subject.declaration_mem_draftBlock closed sees block_written]
    unfold Declares
    rw [named, Option.some.injEq]
    constructor
    · rintro ⟨rfl, declares⟩
      exact ⟨rfl, declares⟩
    · rintro ⟨rfl, declares⟩
      exact ⟨rfl, declares⟩

theorem declaration_mem_draftBlocks {last : Option String} {stats after : Stats}
    {names : List String}
    (written : (i.draftBlocks settings last stats names).outcome = .ok after) :
    .declaration c member declared ∈ (i.draftBlocks settings last stats names).pieces ↔
      ∃ name ∈ names, ∃ r, i.find? name = some r ∧ i.Declares settings r c member declared := by
  induction names generalizing last stats with
  | nil =>
    rw [draftBlocks]
    split <;> simp [Draft.andThen, Draft.write, Draft.done]
  | cons name names ih =>
    rw [draftBlocks] at written ⊢
    cases found : i.find? name with
    | none =>
      rw [found] at written
      simp only [List.exists_mem_cons_iff, found, reduceCtorEq, false_and, exists_false, false_or]
      exact ih written
    | some r =>
      rw [found] at written
      obtain ⟨⟨⟩, moved, written⟩ := Draft.outcome_andThen_eq_ok.mp written
      obtain ⟨declares, block_written, written⟩ := Draft.outcome_andThen_eq_ok.mp written
      dsimp only
      rw [Draft.pieces_andThen_of_ok moved, Draft.pieces_andThen_of_ok block_written]
      simp [List.mem_append, ih written, declaration_mem_draftRecord block_written, found,
        Draft.write]

/-- Without an error a draft declares what the blocks of the listed classes do. -/
theorem declaration_mem_draft {time : String} {stats : Stats}
    (written : (i.draft settings time).outcome = .ok stats) :
    .declaration c member declared ∈ (i.draft settings time).pieces ↔
      ∃ name ∈ i.names, ∃ r, i.find? name = some r ∧ i.Declares settings r c member declared := by
  unfold draft at written ⊢
  obtain ⟨⟨⟩, opened, written⟩ := Draft.outcome_andThen_eq_ok.mp written
  rw [Draft.pieces_andThen_of_ok opened, List.mem_append, declaration_mem_draftBlocks written]
  simp [Draft.write, sortedNames]

/-- One draft serves both for the settings that ignore nothing, for which no declaration in it
is commented out, and for the settings that ignore some members, for which just the
declarations of those are, under the name of the class in whose block they stand. So the two
listings end in the same way, and they differ in nothing else. Ignored are the members that stand
in the table under the class, and a listing that is written to its end declares all the methods
that are written for a listed class or for a mixin inlined into it. -/
theorem listing_copies_draft (i : Index) (settings : Settings) (time : String) :
    i.listing settings.ignoringNothing time =
        (i.draft settings.ignoringNothing time).copy (fun _ _ => false) ∧
      i.listing settings time = (i.draft settings.ignoringNothing time).copy settings.ignores ∧
      (∀ className member, settings.ignores className member = true ↔
        ∃ members, settings.ignored.get? className = some members ∧ member ∈ members) ∧
      ∀ stats, (i.listing settings time).outcome = .ok stats →
        ∀ c member declared,
          .declaration c member declared ∈ (i.draft settings.ignoringNothing time).pieces ↔
            ∃ name ∈ i.names, ∃ r, i.find? name = some r ∧
              i.Declares settings.ignoringNothing r c member declared := by
  refine ⟨i.listing_eq_copy settings.ignoringNothing time, i.listing_eq_copy settings time,
    fun _ _ => Settings.ignores_iff, fun stats written c member declared => ?_⟩
  rw [listing_eq_copy] at written
  exact declaration_mem_draft written

/-- A mixin with a method. -/
def quietMixin : Record :=
  { Record.blank with name := some "a.M", members := .ofList [("go", .plain)] }

/-- A class that lists the mixin. -/
def quietClass : Record := { Record.blank with name := some "a.B", mixins := ["a.M"] }

def quiet : Index :=
  ⟨.empty, ["a.B", "a.M"], .ofList [("a.B", quietClass), ("a.M", quietMixin)]⟩

/-- The settings ignore the method in the class, and not in the mixin. -/
def quietSettings : Settings := Settings.blank.ignore "a.B" ["go"]

theorem written_quiet (c : String × Record) (found : quiet.find? c.1 = some c.2) :
    (quiet.listedBlock quietSettings c).outcome = .ok c.2.name.isSome := by
  have mixed : (quiet.view quietClass).mixins.get? "a.M" = some quietMixin :=
    get?_mixins_of_mem List.mem_cons_self
  have listed : c ∈ [("a.B", quietClass), ("a.M", quietMixin)] := Table.get?_eq_some_iff.mp found
  rcases List.mem_cons.mp listed with rfl | listed
  · rw [listedBlock, outcome_recordBlock _ rfl, show quietClass.mixins = ["a.M"] from rfl,
      Subject.outcome_inclusions_singleton _ (by decide) mixed,
      show quietMixin.mixins = [] from rfl, Subject.inclusions_nil]
    rfl
  · obtain rfl := List.mem_singleton.mp listed
    rw [listedBlock, outcome_recordBlock _ rfl, show quietMixin.mixins = [] from rfl,
      Subject.inclusions_nil]
    rfl

/-- The draft has the method in the block of the class and in that of the mixin. It is commented
out in the first one and not in the second, and where nothing is ignored it is in neither. -/
theorem quiet_listing_copies_draft :
    .declaration "a.B" "go" "go(): void;\n" ∈
        (quiet.draft quietSettings.ignoringNothing "T").pieces ∧
      .declaration "a.M" "go" "go(): void;\n" ∈
        (quiet.draft quietSettings.ignoringNothing "T").pieces ∧
      "    // go(): void;\n" ∈ (quiet.listing quietSettings "T").pieces ∧
      "    go(): void;\n" ∈ (quiet.listing quietSettings "T").pieces ∧
      "    go(): void;\n" ∈ (quiet.listing quietSettings.ignoringNothing "T").pieces := by
  obtain ⟨bare, copied, -, declared⟩ := listing_copies_draft quiet quietSettings "T"
  obtain ⟨stats, written⟩ : ∃ stats, (quiet.listing quietSettings "T").outcome = .ok stats := by
    rw [listing, Emission.outcome_write_andThen]
    exact exists_outcome_blocks written_quiet
  have declares {r : Record} {c : String}
      (kept : (quiet.subject quietSettings.ignoringNothing r c).leaves .members "go" = false) :
      (quiet.subject quietSettings.ignoringNothing r c).Declares quietMixin "go"
        "go(): void;\n" :=
    @Subject.Declares.method _ quietMixin false "go" .plain List.mem_cons_self rfl kept
  have in_class : .declaration "a.B" "go" "go(): void;\n" ∈
      (quiet.draft quietSettings.ignoringNothing "T").pieces := by
    have mixes : quiet.MixesIn quietClass .members "go" :=
      ⟨"a.M", List.mem_cons_self, quietMixin, rfl, by decide⟩
    have kept : (quiet.subject quietSettings.ignoringNothing quietClass "a.B").leaves .members
        "go" = false := by
      rw [← Bool.not_eq_true, leaves_iff]
      exact fun left => left.1 mixes
    have inlines : quiet.Inlines quietClass.mixins [("a.M", quietMixin)] :=
      @Inlines.cons _ _ _ _ [] [] rfl .nil .nil
    exact (declared stats written _ _ _).mpr ⟨"a.B", List.mem_cons_self, quietClass, rfl, rfl, _,
      inlines, quietMixin, List.mem_cons_of_mem _ List.mem_cons_self, declares kept⟩
  have in_mixin : .declaration "a.M" "go" "go(): void;\n" ∈
      (quiet.draft quietSettings.ignoringNothing "T").pieces := by
    have alone : ¬ quiet.Inherits quietMixin .members "go" := not_inherits_of_nil rfl rfl
    have kept : (quiet.subject quietSettings.ignoringNothing quietMixin "a.M").leaves .members
        "go" = false := by
      rw [← Bool.not_eq_true, leaves_iff]
      exact fun left => alone left.2
    exact (declared stats written _ _ _).mpr ⟨"a.M", List.mem_cons_of_mem _ List.mem_cons_self,
      quietMixin, rfl, rfl, [], .nil, quietMixin, List.mem_cons_self, declares kept⟩
  refine ⟨in_class, in_mixin, ?_, ?_, ?_⟩
  · rw [copied]
    exact List.mem_map_of_mem (f := Passage.copy quietSettings.ignores) in_class
  · rw [copied]
    exact List.mem_map_of_mem (f := Passage.copy quietSettings.ignores) in_mixin
  · rw [bare]
    exact List.mem_map_of_mem (f := Passage.copy fun _ _ => false) in_class

end Index

end Ambient
