/-
  Private entries: what shows in a listing of the entries that only their owner may use. Outside
  of interfaces it is no more than their names, which heirs of the owner leave to it. The
  members of an interface have no access, so there they are written like any others. An index is
  redacted when each private entry of an interface has lost its access and of each other one only
  the name is left; then nothing in it is private, and its listing is the same. Main statements:
  `Subject.methodText_of_redacted` (the redaction of an entry changes nothing of its text),
  `Index.listing_eq_of_redacted` and `Index.listing_of_private`.
-/
import Ambient.Proofs.Agreement
import Ambient.Proofs.BlockEntries
import Ambient.Proofs.Framing

namespace Ambient

/-! ## Redacted records -/

/-- An entry of which no more than the name is left. -/
def Method.nameOnly : Method := ⟨none, none, false, false, false, false, [], none, none⟩

/-- An entry as far as it shows: a private one of an interface without its access, any other
private one as a mere name. -/
def Method.redacted (inInterface : Bool) (m : Method) : Method :=
  if m.access = some .owner then
    if inInterface then { m with access := none } else .nameOnly
  else m

/-- A record with each of its entries redacted. -/
def Record.redacted (r : Record) : Record :=
  { r with
    statics := r.statics.map (Method.redacted r.isInterface)
    members := r.members.map (Method.redacted r.isInterface) }

/-- The redaction keeps the names. -/
theorem Record.declares_redacted (r : Record) (part : Section) (name : String) :
    r.redacted.declares part name = r.declares part name := by
  cases part with
  | statics => exact Table.contains_map _ r.statics name
  | members => exact Table.contains_map _ r.members name
  | properties => rfl

/-! ## What a class sees -/

/-- A view of redacted records. -/
def View.redacted (v : View) : View :=
  ⟨v.ancestors.map Record.redacted, v.mixins.map Record.redacted⟩

namespace Index

/-- An index with each of its records redacted. -/
def redacted (i : Index) : Index := { i with records := i.records.map Record.redacted }

theorem knows_redacted (i : Index) : i.redacted.knows = i.knows := by
  funext name
  exact Table.contains_map _ i.records name

theorem find?_redacted (i : Index) (name : String) :
    i.redacted.find? name = (i.find? name).map Record.redacted :=
  Table.get?_map _ i.records name

/-- A search in the redacted index meets the redacted records. -/
theorem reach_redacted (i : Index) {next : Record → List String}
    (linked : ∀ r, next r.redacted = next r) (skip : String → Bool) (queue : List String)
    (seen : Table Record) :
    reach i.redacted.records next skip queue (seen.map Record.redacted) =
      (reach i.records next skip queue seen).map Record.redacted :=
  reach_map linked (fun name (_ : True) => i.find?_redacted name) (fun _ _ _ _ _ _ => trivial) skip
    (fun _ _ => trivial) seen

theorem ancestors_redacted (i : Index) (r : Record) :
    i.redacted.ancestors r.redacted = (i.ancestors r).map Record.redacted := by
  have linked : ∀ r : Record, r.redacted.superClasses = r.superClasses := fun _ => rfl
  exact i.reach_redacted linked _ r.superClasses .empty

theorem view_redacted (i : Index) (r : Record) :
    i.redacted.view r.redacted = (i.view r).redacted := by
  have linked : ∀ r : Record, r.redacted.mixins = r.mixins := fun _ => rfl
  have included : r.redacted.mixins ++
      (i.redacted.ancestors r.redacted).values.flatMap Record.mixins =
        r.mixins ++ (i.ancestors r).values.flatMap Record.mixins := by
    rw [ancestors_redacted, Table.values_map, List.flatMap_map]
    rfl
  rw [view, included, ancestors_redacted]
  exact congrArg (View.mk _) (i.reach_redacted linked _ _ .empty)

end Index

/-! ## The texts of a class -/

namespace Subject

/-- The class in the redacted index. -/
def redacted (s : Subject) : Subject :=
  { s with
    index := s.index.redacted, record := s.record.redacted, view := s.view.redacted }

variable (s : Subject)

theorem scope_redacted : s.redacted.scope = s.scope := by
  rw [scope, scope, Index.scope, Index.scope, redacted, Index.knows_redacted]

theorem methodText_redacted : s.redacted.methodText = s.methodText := by
  funext name sig
  rw [methodText, methodText, scope_redacted]
  rfl

theorem signature_redacted (owner : Record) :
    s.redacted.signature owner.redacted = s.signature owner := by
  funext isStatic name m
  rw [signature, signature, scope_redacted]
  rfl

theorem leaves_redacted : s.redacted.leaves = s.leaves := by
  funext part name
  unfold leaves includes View.ancestorDeclares View.mixinDeclares
  simp only [redacted, View.redacted, Table.get?_map, Table.values_map, Option.any_map,
    List.any_map, Function.comp_def, Record.declares_redacted]
  rfl

/-- The redaction of an entry of `owner` changes nothing of what is written for it. -/
theorem methodText_of_redacted (owner : Record) (isStatic : Bool) (name : String) (m : Method)
    (kept : Bool) :
    (if (m.redacted owner.isInterface).isFunction && kept then
        s.methodText name (s.signature owner isStatic name (m.redacted owner.isInterface))
      else []) =
      if m.isFunction && kept then s.methodText name (s.signature owner isStatic name m)
      else [] := by
  by_cases owned : m.access = some .owner
  · cases inInterface : owner.isInterface with
    | false =>
      have hidden : s.methodText name (s.signature owner isStatic name m) = [] :=
        methodText_of_private (access_signature.mpr ⟨inInterface, owned⟩)
      simp [Method.redacted, owned, Method.nameOnly, Method.isFunction, hidden]
    | true =>
      -- the access of an entry of an interface does not come into its signature
      simp [Method.redacted, owned, signature, inInterface, Method.isFunction,
        Method.description?]
  · rw [Method.redacted, if_neg owned]

theorem methodTexts_redacted (owner : Record) (isStatic : Bool) :
    s.redacted.methodTexts owner.redacted isStatic = s.methodTexts owner isStatic := by
  have texts : ∀ (part : Section) (t : Table Method),
      ((t.map (Method.redacted owner.isInterface)).entries.flatMap fun e =>
        if e.2.isFunction && !s.leaves part e.1 then
          s.methodText e.1 (s.signature owner isStatic e.1 e.2) else []) =
        t.entries.flatMap fun e =>
          if e.2.isFunction && !s.leaves part e.1 then
            s.methodText e.1 (s.signature owner isStatic e.1 e.2) else [] := by
    intro part t
    rw [Table.map, List.flatMap_map]
    exact List.flatMap_congr fun e _ => s.methodText_of_redacted owner isStatic e.1 e.2 _
  unfold methodTexts
  rw [methodText_redacted, signature_redacted, leaves_redacted]
  cases isStatic with
  | false => exact texts .members owner.members
  | true => exact texts .statics owner.statics

theorem ownTexts_redacted (owner : Record) :
    s.redacted.ownTexts owner.redacted = s.ownTexts owner := by
  have instance_same : s.redacted.instanceText owner.redacted = s.instanceText owner := by
    rw [instanceText, instanceText, instanceSignature, methodText_redacted, scope_redacted]
    rfl
  have properties_same : s.redacted.propertyTexts owner.redacted = s.propertyTexts owner := by
    unfold propertyTexts accessors
    rw [leaves_redacted, methodText_redacted, scope_redacted]
    rfl
  rw [ownTexts, ownTexts, instance_same, methodTexts_redacted, methodTexts_redacted,
    properties_same]

theorem inclusions_redacted (chain mixins : List String) :
    s.redacted.inclusions chain mixins = s.inclusions chain mixins := by
  have found : ∀ m, s.redacted.view.mixins.get? m = (s.view.mixins.get? m).map Record.redacted :=
    fun m => Table.get?_map _ s.view.mixins m
  have named : s.redacted.name = s.name := rfl
  have linked : ∀ r : Record, r.redacted.mixins = r.mixins := fun _ => rfl
  exact inclusions_map named found linked s.ownTexts_redacted chain mixins

theorem opening_redacted (inModule : Bool) :
    s.redacted.opening inModule = s.opening inModule := by
  unfold opening heading extendsClause implementsClause extended constructorText
  rw [scope_redacted]
  rfl

theorem block_redacted (inModule : Bool) : s.redacted.block inModule = s.block inModule := by
  have own : s.redacted.ownTexts s.redacted.record = s.ownTexts s.record :=
    s.ownTexts_redacted s.record
  have inlined : s.redacted.inclusions [s.redacted.name] s.redacted.record.mixins =
      s.inclusions [s.name] s.record.mixins := s.inclusions_redacted [s.name] s.record.mixins
  rw [block, block, opening_redacted, own, inlined]

/-- A private entry has a text just when it is a method of an interface and the class does not
leave it. -/
theorem keptText_of_private {s : Subject} {owner : Record} {isStatic : Bool} {name : String}
    {m : Method} (owned : m.access = some .owner) :
    s.keptText owner (.method isStatic name m) = [] ↔
      owner.isInterface = false ∨ m.isFunction = false ∨
        s.leaves (.ofMethods isStatic) name = true := by
  have writable : (Entry.method isStatic name m).writable owner =
      (m.isFunction && owner.isInterface) := by
    simp [Entry.writable, owned]
  unfold keptText
  rw [Entry.part_method, Entry.name, writable]
  split
  · next kept =>
    simp only [Bool.and_eq_true, Bool.not_eq_true'] at kept
    obtain ⟨⟨function, inInterface⟩, stays⟩ := kept
    have some_text := entryText_ne_nil (s := s) (writable.trans (by simp [function, inInterface]))
    simp [some_text, function, inInterface, stays]
  · next lost =>
    simp only [Bool.and_eq_true, Bool.not_eq_true', not_and_or, Bool.not_eq_true,
      Bool.not_eq_false] at lost
    simp only [true_iff]
    rcases lost with (silent | other) | left
    · exact .inr (.inl silent)
    · exact .inl other
    · exact .inr (.inr left)

end Subject

/-! ## Listings -/

namespace Index

variable (i : Index) (settings : Settings)

theorem subject_redacted (r : Record) (name : String) :
    i.redacted.subject settings r.redacted name = (i.subject settings r name).redacted := by
  rw [subject, subject, view_redacted]
  rfl

theorem recordBlock_redacted (r : Record) (inModule : Bool) :
    i.redacted.recordBlock settings r.redacted inModule = i.recordBlock settings r inModule := by
  have named : r.redacted.name = r.name := rfl
  rw [recordBlock, recordBlock, named]
  cases r.name with
  | none => rfl
  | some name => simp only [subject_redacted, Subject.block_redacted]

/-- A listing shows no more of an index than its redaction does. -/
theorem listing_eq_of_redacted (time : String) :
    i.redacted.listing settings time = i.listing settings time := by
  have blocks_same := blocks_map i.find?_redacted (i.recordBlock_redacted settings) none .zero
    i.sortedNames
  rw [listing, listing, ← blocks_same]
  rfl

/-- Of the private entries outside of interfaces nothing is written, whichever class they are
written or inlined for: a listing is the same with no more than their names, and with the access
taken from those of interfaces. The text of a record consists of those of its entries, and a
private entry has one just when it is a method of an interface and the class does not leave it. -/
theorem listing_of_private (time : String) :
    i.redacted.listing settings time = i.listing settings time ∧
      ∀ (s : Subject) (owner : Record),
        s.ownTexts owner = s.instanceText owner ++ owner.entries.flatMap (s.keptText owner) ∧
        ∀ (isStatic : Bool) (name : String) (m : Method), m.access = some .owner →
          (s.keptText owner (.method isStatic name m) = [] ↔
            owner.isInterface = false ∨ m.isFunction = false ∨
              s.leaves (.ofMethods isStatic) name = true) := by
  refine ⟨i.listing_eq_of_redacted settings time,
    fun s owner => ⟨s.ownTexts_eq owner, fun isStatic name m owned => ?_⟩⟩
  exact Subject.keptText_of_private owned

/-- A method that only its owner may use. -/
def inner : Method := { Method.plain with access := some .owner }

/-- An interface with a private method. -/
def secret : Record :=
  { Record.blank with
    name := some "a.Secret", kind := .interface, members := .ofList [("inner", inner)] }

def secrets : Index := ⟨.empty, ["a.Secret"], .ofList [("a.Secret", secret)]⟩

theorem written_secret (inModule : Bool) :
    (secrets.recordBlock .blank secret inModule).outcome = .ok true := by
  rw [outcome_recordBlock inModule rfl, show secret.mixins = [] from rfl, Subject.inclusions_nil]
  rfl

theorem exists_outcome_secrets : ∃ stats, (secrets.listing .blank "T").outcome = .ok stats := by
  rw [listing, Emission.outcome_write_andThen]
  refine exists_outcome_blocks fun c found => ?_
  have entry : c ∈ [("a.Secret", secret)] := Table.get?_eq_some_iff.mp found
  obtain rfl := List.mem_singleton.mp entry
  exact written_secret _

/-- The private method of the interface is written. -/
theorem private_line_mem_listing :
    secrets.find? "a.Secret" = some secret ∧ secret.members.get? "inner" = some inner ∧
      inner.access = some .owner ∧
      "    inner(): void;\n" ∈ (secrets.listing .blank "T").pieces := by
  have line : ((secrets.subject .blank secret "a.Secret").signature secret false "inner" inner).line
      (secrets.subject .blank secret "a.Secret").scope "inner" = "    inner(): void;\n" := by
    decide +kernel
  obtain ⟨stats, emitted⟩ := exists_outcome_secrets
  obtain ⟨block_written, block_listed⟩ := listedBlock_infix_listing emitted
    (c := ("a.Secret", secret)) List.mem_cons_self rfl
  have named : secret.name = some "a.Secret" := rfl
  obtain ⟨visits, -, pieces⟩ := pieces_of_written named block_written
  refine ⟨rfl, rfl, rfl, block_listed.subset ?_⟩
  rw [listedBlock, pieces, ← line]
  refine List.mem_append_left _ (List.mem_append_left _ (List.mem_append_right _ ?_))
  exact Subject.mem_written (e := .method false "inner" inner) List.mem_cons_self rfl
    (.inr (not_inherits_of_nil rfl rfl)) (List.mem_singleton_self _)

end Index

end Ambient
