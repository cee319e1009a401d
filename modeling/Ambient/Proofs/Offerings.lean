/-
  Offerings: a listing as it is written, one text after the other, to a receiver that may refuse
  any of them. Each part of the listing offers its texts where they arise, and an error ends the
  offering at once, be it of the receiver or of an inclusion. Main statement:
  `Receiver.putListing_eq` (whatever the receiver is, it is offered the pieces of the listing in
  their order, up to the first refusal), by a lemma for each part.
-/
import Ambient.Declaration.Listing
import Ambient.Emission.Sink

namespace Ambient

open Declaration

/-- An offering of texts to a receiver in some state: the texts change the state, and an error
ends it. -/
abbrev Offering (σ : Type) := ExceptT WriteError (StateM σ)

/-- What takes texts, one at a time, and is flushed behind the last one. -/
structure Receiver (σ : Type) where
  put : String → Offering σ Unit
  flush : Offering σ Unit

namespace Receiver

variable {σ α β : Type} (rc : Receiver σ)

/-! ## Offering a listing -/

/-- Writes a method: its comment block and its line, or nothing if only its owner may use it. -/
def putMethod (s : Subject) (name : String) (sig : Signature) : Offering σ Unit :=
  if sig.access = some .owner then pure ()
  else do
    match sig.comment with
    | none => pure ()
    | some description => rc.put (s.commentBlock description)
    rc.put (sig.line s.scope name)

/-- Writes the accessor of the only instance of a singleton. -/
def putInstance (s : Subject) (owner : Record) : Offering σ Unit :=
  if owner.isSingleton then rc.putMethod s "getInstance" (s.instanceSignature owner) else pure ()

/-- Writes the static entries of `owner`, or its other entries. -/
def putMethods (s : Subject) (owner : Record) (isStatic : Bool) : Offering σ Unit :=
  let part := if isStatic then Section.statics else .members
  let entries := if isStatic then owner.statics.entries else owner.members.entries
  forM entries fun (name, m) =>
    if m.isFunction && !s.leaves part name then
      rc.putMethod s name (s.signature owner isStatic name m)
    else pure ()

/-- Writes the accessors of a property. -/
def putAccessors (s : Subject) (name check suffix : String) : Offering σ Unit := do
  let type := s.scope.translate check
  rc.putMethod s ("get" ++ name ++ suffix) (.accessor [] (some type))
  if type = "boolean" then
    rc.putMethod s ("is" ++ name ++ suffix) (.accessor [] (some type))
  rc.putMethod s ("set" ++ name ++ suffix) (.accessor [⟨"value", false, some (.name check)⟩] none)
  rc.putMethod s ("reset" ++ name ++ suffix) (.accessor [] none)

/-- Writes the properties of `owner`. -/
def putProperties (s : Subject) (owner : Record) : Offering σ Unit :=
  forM owner.properties.entries fun (name, p) =>
    if p.isGroup || s.leaves .properties name then pure ()
    else do
      let upper := Text.capitalized name
      let check := p.check.getD ""
      rc.putAccessors s upper check ""
      if p.isAsync then rc.putAccessors s upper check "Async"

/-- Writes the entries of `owner` itself. -/
def putOwn (s : Subject) (owner : Record) : Offering σ Unit := do
  rc.putInstance s owner
  rc.putMethods s owner true
  rc.putMethods s owner false
  rc.putProperties s owner

/-- Writes mixins, and the mixins that they include. `chain` leads from the class to the record
that includes them. -/
def putInclusions (s : Subject) (chain mixins : List String) : Offering σ Unit :=
  match mixins with
  | [] => pure ()
  | m :: rest => do
    rc.put (Subject.mixinLine m)
    match _new : chain.contains m with
    | true => throw (.inclusion (.cycle s.name (chain ++ [m])))
    | false =>
      match _found : s.view.mixins.get? m with
      | none => throw (.inclusion (.missing s.name m))
      | some r => do
        rc.putOwn s r
        putInclusions s (chain ++ [m]) r.mixins
        putInclusions s chain rest
termination_by ((s.unused chain).length, mixins.length)
decreasing_by
  · exact Prod.Lex.left _ _ (Subject.length_unused_lt _found _new)
  · exact Prod.Lex.right _ (by simp)

/-- Writes the block of the class. -/
def putBlock (s : Subject) (inModule : Bool) : Offering σ Unit := do
  rc.put ("  // " ++ s.name ++ "\n")
  rc.put (s.heading inModule)
  forM s.constructorText rc.put
  rc.putOwn s s.record
  rc.putInclusions s [s.name] s.record.mixins
  rc.put "\n  \x7d\n"

/-- Writes the block of a record, if the record has a name. The answer tells whether it has. -/
def putRecord (i : Index) (settings : Settings) (r : Record) (inModule : Bool) :
    Offering σ Bool :=
  match r.name with
  | none => pure false
  | some name => do
    rc.putBlock (i.subject settings r name) inModule
    pure true

/-- Writes the declarations of names, after a name of the package `last`. -/
def putBlocks (i : Index) (settings : Settings) (last : Option String) (stats : Stats) :
    List String → Offering σ Stats
  | [] => do
    if isOpen last then rc.put "\x7d\n"
    pure stats
  | name :: names =>
    match i.find? name with
    | none => putBlocks i settings last (stats.count false) names
    | some r => do
      let package := packageOf name
      forM (transition last package) rc.put
      let declared ← rc.putRecord i settings r (package != "")
      let opened := last != some package && package != ""
      putBlocks i settings (some package) ((stats.openModule opened).count declared) names

/-- Writes the whole listing and flushes the receiver. -/
def putListing (i : Index) (settings : Settings) (time : String) : Offering σ Stats := do
  rc.put ("// Generated declaration file at " ++ time ++ "\n")
  rc.put settings.preamble
  rc.put "\n"
  let stats ← rc.putBlocks i settings none .zero i.sortedNames
  rc.flush
  pure stats

/-! ## Offering an emission -/

/-- Offers the pieces of an emission one by one, and ends as the emission does. -/
def replay (m : Emission α) : Offering σ α := do
  forM m.pieces rc.put
  match m.outcome with
  | .ok a => pure a
  | .error e => throw (.inclusion e)

theorem replay_done (a : α) : rc.replay (.done a) = pure a := by
  rw [replay, Emission.done]
  exact pure_bind _ _

theorem replay_write (pieces : List String) :
    rc.replay (.write pieces) = forM pieces rc.put := by
  rw [replay, Emission.write]
  exact bind_pure_unit

theorem replay_andThen (m : Emission α) (f : α → Emission β) :
    rc.replay (m.andThen f) = rc.replay m >>= fun a => rc.replay (f a) := by
  unfold replay Emission.andThen
  cases m.outcome with
  | error e =>
    simp only [bind_assoc]
    rfl
  | ok a => simp only [bind_assoc, pure_bind, List.forM_append]

/-! ## The parts of a listing -/

theorem forM_ite (c : Prop) [Decidable c] (texts : List String) :
    forM (if c then texts else []) rc.put = if c then forM texts rc.put else pure () := by
  split
  · rfl
  · exact List.forM_nil

/-- Entries written one after the other offer all their texts, if each offers its own. -/
theorem forM_eq_forM_flatMap {γ : Type} {put : γ → Offering σ Unit} {texts : γ → List String}
    (entries : List γ) (h : ∀ e, put e = forM (texts e) rc.put) :
    forM entries put = forM (entries.flatMap texts) rc.put := by
  induction entries with
  | nil => rfl
  | cons e entries ih => rw [List.forM_cons, List.flatMap_cons, List.forM_append, h, ih]

theorem putMethod_eq (s : Subject) (name : String) (sig : Signature) :
    rc.putMethod s name sig = forM (s.methodText name sig) rc.put := by
  unfold putMethod Subject.methodText
  split
  · exact List.forM_nil.symm
  · cases sig.comment <;> simp

theorem putInstance_eq (s : Subject) (owner : Record) :
    rc.putInstance s owner = forM (s.instanceText owner) rc.put := by
  rw [putInstance, Subject.instanceText, forM_ite, putMethod_eq]

theorem putMethods_eq (s : Subject) (owner : Record) (isStatic : Bool) :
    rc.putMethods s owner isStatic = forM (s.methodTexts owner isStatic) rc.put := by
  refine rc.forM_eq_forM_flatMap _ fun (name, m) => ?_
  simp only [forM_ite, putMethod_eq]

theorem putAccessors_eq (s : Subject) (name check suffix : String) :
    rc.putAccessors s name check suffix = forM (s.accessors name check suffix) rc.put := by
  unfold putAccessors Subject.accessors
  simp only [putMethod_eq, List.forM_append, forM_ite, bind_assoc]
  split <;> simp only [pure_bind]

theorem putProperties_eq (s : Subject) (owner : Record) :
    rc.putProperties s owner = forM (s.propertyTexts owner) rc.put := by
  refine rc.forM_eq_forM_flatMap _ fun (name, p) => ?_
  dsimp only
  split
  · exact List.forM_nil.symm
  · simp only [putAccessors_eq, List.forM_append, forM_ite]

theorem putOwn_eq (s : Subject) (owner : Record) :
    rc.putOwn s owner = forM (s.ownTexts owner) rc.put := by
  unfold putOwn Subject.ownTexts
  simp only [putInstance_eq, putMethods_eq, putProperties_eq, List.forM_append, bind_assoc]

/-- The induction follows the writing, through the mixins of a mixin and the mixins behind it. -/
theorem putInclusions_eq (s : Subject) (chain mixins : List String) :
    rc.putInclusions s chain mixins = rc.replay (s.inclusions chain mixins) := by
  induction chain, mixins using Subject.inclusions.induct s with
  | case1 chain => rw [putInclusions, Subject.inclusions_nil, replay_done]
  | case2 chain m mixins ih_inner ih_rest =>
    rw [putInclusions]
    by_cases old : m ∈ chain
    · rw [Subject.inclusions_of_mem s mixins old, replay, List.forM_cons, List.forM_nil,
        bind_pure_unit]
      split
      · rfl
      · next new => simp [old] at new
    · cases found : s.view.mixins.get? m with
      | none =>
        rw [Subject.inclusions_of_none s mixins old found, replay, List.forM_cons, List.forM_nil,
          bind_pure_unit]
        split
        · next new => simp [old] at new
        · rfl
      | some r =>
        rw [Subject.inclusions_of_some s mixins old found]
        simp only [replay_andThen, replay_write, List.forM_cons, bind_assoc]
        split
        · next new => simp [old] at new
        · next new => simp only [putOwn_eq, ih_inner new r found, ih_rest]

theorem putBlock_eq (s : Subject) (inModule : Bool) :
    rc.putBlock s inModule = rc.replay (s.block inModule) := by
  unfold putBlock Subject.block Subject.opening
  simp only [replay_andThen, replay_write, putOwn_eq, putInclusions_eq, List.forM_append,
    List.forM_cons, List.forM_nil, bind_assoc, bind_pure_unit]

theorem putRecord_eq (i : Index) (settings : Settings) (r : Record) (inModule : Bool) :
    rc.putRecord i settings r inModule = rc.replay (i.recordBlock settings r inModule) := by
  unfold putRecord Index.recordBlock
  cases r.name with
  | none => exact (rc.replay_done false).symm
  | some name => simp only [replay_andThen, replay_done, putBlock_eq]

theorem putBlocks_eq (i : Index) (settings : Settings) (last : Option String) (stats : Stats)
    (names : List String) :
    rc.putBlocks i settings last stats names = rc.replay (i.blocks settings last stats names) := by
  induction names generalizing last stats with
  | nil =>
    rw [putBlocks, Index.blocks]
    simp only [replay_andThen, replay_write, replay_done, forM_ite, List.forM_cons, List.forM_nil,
      bind_pure_unit]
    split <;> simp only [pure_bind]
  | cons name names ih =>
    rw [putBlocks]
    cases found : i.find? name with
    | none =>
      rw [Index.blocks_cons_of_none found]
      exact ih _ _
    | some r =>
      rw [Index.blocks_cons_of_some found]
      simp only [replay_andThen, replay_write, putRecord_eq, ih]

/-- A receiver is offered the pieces of the listing one by one, up to the first one that it
refuses, and is flushed behind the last one if no inclusion failed. -/
theorem putListing_eq (i : Index) (settings : Settings) (time : String) :
    rc.putListing i settings time = (do
      let stats ← rc.replay (i.listing settings time)
      rc.flush
      pure stats) := by
  unfold putListing Index.listing
  simp only [replay_andThen, replay_write, putBlocks_eq, List.forM_cons, List.forM_nil, bind_assoc,
    pure_bind]

/-- With a flush that does nothing a receiver is offered the listing and that is all. -/
theorem putListing_of_flush (flushes : rc.flush = pure ()) (i : Index) (settings : Settings)
    (time : String) : rc.putListing i settings time = rc.replay (i.listing settings time) := by
  rw [putListing_eq, flushes]
  simp only [pure_bind, bind_pure]

end Receiver

end Ambient
