/-
  The accessors of properties. What is written for a property are lines of one shape, without a
  comment block, a modifier or a mark that hides them, and one type stands in all of them. Main
  statement: `Subject.block_accessors`, by `methodText_accessor` (one accessor), `accessors_eq` (the
  accessors of a property), `ownTexts_eq_sections` (a record) and `pieces_inclusions_rows` (the
  mixins inlined behind it).
-/
import Ambient.Proofs.ParameterLists
import Ambient.Proofs.Retranslation

namespace Ambient

open TypeText Declaration

namespace Declaration

/-! ## Names -/

/-- A letter, a digit or an underscore. -/
def NameChar (c : Char) : Prop := c.isAlphanum = true ∨ c = '_'

/-- An identifier with a text behind it, and then characters of names, is one if the text has
only characters of names. -/
theorem isIdentifier_append_iff {word cs rest : List Char} (identifier : isIdentifier word = true)
    (plain : rest.all (fun c => c.isAlphanum || c == '_') = true) :
    isIdentifier (word ++ cs ++ rest) = true ↔ ∀ c ∈ cs, NameChar c := by
  cases word with
  | nil => exact nomatch identifier
  | cons first word =>
    simp only [isIdentifier, Bool.and_eq_true, List.all_eq_true, Bool.or_eq_true, beq_iff_eq]
      at identifier
    simp only [List.cons_append, isIdentifier, identifier.1, true_and, List.all_append, plain,
      and_true, Bool.and_eq_true, List.all_eq_true, Bool.or_eq_true, beq_iff_eq]
    constructor
    · intro h
      exact h.2
    · intro h
      exact ⟨identifier.2, h⟩

/-- An accessor's name is in quotes unless its property's name has only characters of names. -/
theorem memberName_accessor {verb suffix : String} (hv : verb ∈ ["get", "is", "set", "reset"])
    (hs : suffix ∈ ["", "Async"]) (upper : String) :
    ((∀ c ∈ upper.toList, NameChar c) →
      memberName (verb ++ upper ++ suffix) = verb ++ upper ++ suffix) ∧
    (¬ (∀ c ∈ upper.toList, NameChar c) →
      memberName (verb ++ upper ++ suffix) = "\"" ++ (verb ++ upper ++ suffix) ++ "\"") := by
  have identifiers : ∀ verb ∈ ["get", "is", "set", "reset"], isIdentifier verb.toList = true := by
    decide
  have plain : ∀ suffix ∈ ["", "Async"],
      suffix.toList.all (fun c => c.isAlphanum || c == '_') = true := by decide
  have named : isIdentifier (verb ++ upper ++ suffix).toList = true ↔
      ∀ c ∈ upper.toList, NameChar c := by
    rw [String.toList_append, String.toList_append]
    exact isIdentifier_append_iff (identifiers verb hv) (plain suffix hs)
  unfold memberName
  constructor
  · intro h
    exact if_pos (named.mpr h)
  · intro h
    exact if_neg (mt named.mp h)

/-! ## Lines -/

/-- The line of an accessor: its name, what it takes and what it returns. -/
def accessorLine (name taken returned : String) : String :=
  "    " ++ memberName name ++ "(" ++ taken ++ "): " ++ returned ++ ";\n"

/-- The lines of accessors of values of a type. -/
def accessorLines (upper type suffix : String) : List String :=
  [accessorLine ("get" ++ upper ++ suffix) "" type] ++
    (if type = "boolean" then [accessorLine ("is" ++ upper ++ suffix) "" "boolean"] else []) ++
    [accessorLine ("set" ++ upper ++ suffix) ("value: " ++ type) "void",
      accessorLine ("reset" ++ upper ++ suffix) "" "void"]

/-- The lines of a property. One that is asynchronous has them twice. -/
def propertyLines (name type : String) (isAsync : Bool) : List String :=
  accessorLines (Text.capitalized name) type "" ++
    if isAsync then accessorLines (Text.capitalized name) type "Async" else []

/-- The parameter of a setter has the type that the getter returns. -/
theorem paramList_value (s : Scope) (check : String) :
    paramList s [⟨"value", false, some (.name check)⟩] = "value: " ++ s.translate check := by
  have required : ¬ (false = true ∨ Opens ⟨"value", false, some (.name check)⟩) := by
    simp [Opens]
  rw [paramList, paramTexts_cons, if_neg required, paramTexts, String.intercalate_singleton]
  show "value: " ++ s.paramType (some (.name check)) = _
  rw [Scope.paramType_of_leadsTo (.name check), if_pos rfl, String.append_empty]

end Declaration

namespace Subject

/-- An accessor has its line and no comment block. -/
theorem methodText_accessor (s : Subject) (name : String) (params : List Param)
    (returned : Option String) :
    s.methodText name (.accessor params returned) =
      [accessorLine name (paramList s.scope params) (returned.getD "void")] := by
  rw [methodText_eq_line]
  simp [Signature.accessor, Signature.line, Signature.modifiers, Signature.remark, accessorLine,
    indent, String.append_assoc]

theorem accessors_eq (s : Subject) (upper check suffix : String) :
    s.accessors upper check suffix = accessorLines upper (s.scope.translate check) suffix := by
  unfold accessors accessorLines
  simp only [methodText_accessor, paramList_value]
  by_cases h : s.scope.translate check = "boolean"
  · simp [h, paramList, paramTexts]
  · simp [h, paramList, paramTexts]

/-! ## Sections -/

/-- What is written for the only instance, the statics and the members of `owner`. -/
def methodSection (s : Subject) (owner : Record) : List String :=
  s.instanceText owner ++ s.methodTexts owner true ++ s.methodTexts owner false

/-- The lines of the properties of `owner` that bundle no others and are not left to others, in
their order. -/
def accessorSection (s : Subject) (owner : Record) : List String :=
  (owner.properties.entries.filter fun e => !e.2.isGroup && !s.leaves .properties e.1).flatMap
    fun e => propertyLines e.1 (s.scope.translate (e.2.check.getD "")) e.2.isAsync

theorem propertyTexts_eq_accessorSection (s : Subject) (owner : Record) :
    s.propertyTexts owner = s.accessorSection owner := by
  unfold propertyTexts accessorSection
  rw [flatMap_filter]
  apply List.flatMap_congr
  intro e _
  simp only [accessors_eq, propertyLines]
  cases e.2.isGroup <;> cases s.leaves .properties e.1 <;> rfl

/-- What is written for a record ends with its accessors. -/
theorem ownTexts_eq_sections (s : Subject) (owner : Record) :
    s.ownTexts owner = s.methodSection owner ++ s.accessorSection owner := by
  rw [ownTexts, propertyTexts_eq_accessorSection, methodSection]

/-- What is written for mixins, however the writing ends: a line for each one, and behind it what
is written for the mixin's record. Only the mixin that ends the writing has no record. -/
theorem pieces_inclusions_rows (s : Subject) (chain mixins : List String) :
    ∃ visits : List (String × Option Record),
      (∀ v ∈ visits, ∀ q ∈ v.2, s.view.mixins.get? v.1 = some q) ∧
      ((s.inclusions chain mixins).outcome = .ok () → ∀ v ∈ visits, v.2.isSome = true) ∧
      (s.inclusions chain mixins).pieces =
        visits.flatMap fun v => mixinLine v.1 :: v.2.elim [] s.ownTexts := by
  induction chain, mixins using inclusions.induct s with
  | case1 chain => exact ⟨[], by simp, by simp, by simp [Emission.done]⟩
  | case2 chain m mixins ih_inner ih_rest =>
    by_cases old : m ∈ chain
    · rw [inclusions_of_mem s mixins old]
      exact ⟨[(m, none)], by simp, by simp, by simp⟩
    · cases found : s.view.mixins.get? m with
      | none =>
        rw [inclusions_of_none s mixins old found]
        exact ⟨[(m, none)], by simp, by simp, by simp⟩
      | some r =>
        obtain ⟨nested, nested_known, nested_all, nested_pieces⟩ :=
          ih_inner (by simpa using old) r found
        obtain ⟨later, later_known, later_all, later_pieces⟩ := ih_rest
        have known : ∀ q ∈ some r, s.view.mixins.get? m = some q := by simp [found]
        rw [inclusions_of_some s mixins old found, Emission.outcome_write_andThen,
          Emission.pieces_write_andThen]
        cases inner : (s.inclusions (chain ++ [m]) r.mixins).outcome with
        | error e =>
          refine ⟨(m, some r) :: nested, ?_, ?_, ?_⟩
          · rw [List.forall_mem_cons]
            exact ⟨known, nested_known⟩
          · rw [Emission.outcome_andThen_of_error inner]
            simp
          · rw [Emission.pieces_andThen_of_error inner, nested_pieces]
            rfl
        | ok a =>
          refine ⟨(m, some r) :: (nested ++ later), ?_, ?_, ?_⟩
          · rw [List.forall_mem_cons, List.forall_mem_append]
            exact ⟨known, nested_known, later_known⟩
          · rw [Emission.outcome_andThen_of_ok inner]
            intro written
            rw [List.forall_mem_cons, List.forall_mem_append]
            exact ⟨rfl, nested_all inner, later_all written⟩
          · rw [Emission.pieces_andThen_of_ok inner, nested_pieces, later_pieces,
              List.flatMap_cons, List.flatMap_append]
            rfl

/-- In a block the accessors of the class stand behind its methods, and those of each mixin
inlined into it behind the methods of that mixin. The accessors of a record are the lines of its
properties, one after the other, and in the lines of a property the getter, the second getter of a
boolean and the setter have the type of its check. A name is in quotes unless the property's name
has only characters of names. Of the property's name the first character is in upper case, and the
others are as they are. -/
theorem block_accessors (s : Subject) (inModule : Bool) :
    (∃ visits : List (String × Option Record),
      (∀ v ∈ visits, ∀ q ∈ v.2, s.view.mixins.get? v.1 = some q) ∧
      ((s.block inModule).outcome = .ok () → ∀ v ∈ visits, v.2.isSome = true) ∧
      (s.block inModule).pieces =
        s.opening inModule ++ (s.methodSection s.record ++ s.accessorSection s.record) ++
        (visits.flatMap fun v => mixinLine v.1 ::
          v.2.elim [] fun q => s.methodSection q ++ s.accessorSection q) ++
        if (s.block inModule).outcome.isOk then ["\n  \x7d\n"] else []) ∧
    (∀ verb ∈ ["get", "is", "set", "reset"], ∀ suffix ∈ ["", "Async"], ∀ upper : String,
      ((∀ c ∈ upper.toList, NameChar c) →
        memberName (verb ++ upper ++ suffix) = verb ++ upper ++ suffix) ∧
      (¬ (∀ c ∈ upper.toList, NameChar c) →
        memberName (verb ++ upper ++ suffix) = "\"" ++ (verb ++ upper ++ suffix) ++ "\"")) ∧
    Text.capitalized "" = "" ∧
    ∀ (c : Char) (cs : List Char),
      (Text.capitalized (.ofList (c :: cs))).toList = Text.capital c ++ cs ∧
      (c.toNat < 128 → Text.capital c = [c.toUpper]) := by
  refine ⟨?_, fun _ hv _ hs => memberName_accessor hv hs, Text.capitalized_empty,
    fun c cs => ⟨Text.toList_capitalized_cons c cs, Text.capital_of_ascii⟩⟩
  obtain ⟨visits, known, all, pieces⟩ := s.pieces_inclusions_rows [s.name] s.record.mixins
  refine ⟨visits, known, ?_, ?_⟩
  · rw [outcome_block]
    exact all
  · simp only [← ownTexts_eq_sections]
    rw [outcome_block]
    cases ended : (s.inclusions [s.name] s.record.mixins).outcome with
    | ok a =>
      rw [pieces_block ended, pieces]
      rfl
    | error e =>
      have broken : (Except.error e : Except InclusionError Unit).isOk = false := rfl
      rw [block, Emission.pieces_write_andThen, Emission.pieces_andThen_of_error ended, pieces,
        broken]
      simp

/-- A class with an asynchronous property that is true or false. -/
def visible : Record :=
  { Record.blank with
    name := some "a.V", properties := .ofList [("visible", ⟨some "Boolean", true, []⟩)] }

/-- The class on its own, with a word for truth values. -/
def visibleClass : Subject :=
  Index.subject ⟨.empty, [], .empty⟩ (Settings.blank.define "Boolean" "boolean") visible "a.V"

theorem translate_visibleClass : visibleClass.scope.translate "Boolean" = "boolean" := by
  have settled : visibleClass.scope.settled "Boolean" = "boolean".toList := by decide +kernel
  have kept : rewriteBuiltins "boolean".toList = "boolean".toList := by
    rw [rewriteBuiltins, rewriteTokens_of_plain (by decide), textOf_tokenize]
  rw [Scope.translate_of_settled (by decide) (by decide) (by decide) settled (by decide),
    if_neg (by decide +kernel), kept, String.ofList_toList]

/-- The property is nobody else's. -/
theorem not_leaves_visible : visibleClass.leaves .properties "visible" = false := by
  have alone : ¬ Index.Inherits ⟨.empty, [], .empty⟩ visible .properties "visible" :=
    Index.not_inherits_of_nil rfl rfl
  rw [← Bool.not_eq_true, visibleClass, Index.leaves_iff]
  exact fun left => alone left.2

/-- The accessors of the property, twice. -/
theorem pieces_visibleClass :
    (visibleClass.block true).pieces =
      ["  // a.V\n", "  class V \x7b\n",
        "    getVisible(): boolean;\n", "    isVisible(): boolean;\n",
        "    setVisible(value: boolean): void;\n", "    resetVisible(): void;\n",
        "    getVisibleAsync(): boolean;\n", "    isVisibleAsync(): boolean;\n",
        "    setVisibleAsync(value: boolean): void;\n", "    resetVisibleAsync(): void;\n",
        "\n  \x7d\n"] := by
  obtain ⟨⟨visits, known, all, pieces⟩, -⟩ := visibleClass.block_accessors true
  have ended : (visibleClass.block true).outcome = .ok () := by
    rw [outcome_block, show visibleClass.record.mixins = [] from rfl, inclusions_nil]
    rfl
  have alone : visibleClass.view = ⟨.empty, .empty⟩ := Index.view_of_nil rfl rfl
  have no_visits : visits = [] := by
    refine List.eq_nil_iff_forall_not_mem.mpr fun v hv => ?_
    obtain ⟨q, hq⟩ := Option.isSome_iff_exists.mp (all ended v hv)
    have found := known v hv q hq
    rw [alone] at found
    cases found
  have accessors : visibleClass.accessorSection visible = propertyLines "visible" "boolean" true := by
    rw [accessorSection, show visible.properties.entries = [("visible", ⟨some "Boolean", true, []⟩)]
      from rfl]
    simp [not_leaves_visible, Property.isGroup, translate_visibleClass]
  rw [pieces, no_visits, ended, show visibleClass.record = visible from rfl, accessors]
  decide +kernel

end Subject

end Ambient
