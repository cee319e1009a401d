/-
  Agreement: two indexes that list the same names and find the same records, and two settings
  that answer the same questions, give the same listing. What is written reads every table by
  looking names up in it, so nothing of the order of its entries shows. Main statements:
  `reach_map`, `Subject.inclusions_map` and `Index.blocks_map` (how far records may be changed
  without a change of what is searched and written) and `Index.Agrees.listing`.
-/
import Ambient.Proofs.ByteOrder

namespace Ambient

/-! ## Types -/

namespace TypeText

variable {v v' : Vocabulary}

theorem replacement?_congr (same : v.get? = v'.get?) : replacement? v = replacement? v' := by
  funext before t after
  rw [replacement?, replacement?, same]

theorem hasReplacement_congr (same : v.get? = v'.get?) :
    hasReplacement v = hasReplacement v' := by
  funext before ts
  induction ts generalizing before with
  | nil => rfl
  | cons t ts ih => rw [hasReplacement, hasReplacement, replacement?_congr same, ih]

theorem substitute_congr (same : v.get? = v'.get?) : substitute v = substitute v' := by
  funext before ts
  induction ts generalizing before with
  | nil => rfl
  | cons t ts ih => rw [substitute, substitute, replacement?_congr same, ih]

theorem settle_congr (same : v.get? = v'.get?) : settle v = settle v' := by
  funext n cs
  induction n generalizing cs with
  | zero => rfl
  | succ n ih =>
    rw [settle, settle, hasReplacement_congr same, substitute_congr same, ih]

/-- A translation depends on which dotted names are declared and on what the words stand
for. -/
theorem Scope.translate_congr {s s' : Scope}
    (declared : ∀ name, '.' ∈ name.toList → s.declared name = s'.declared name)
    (same : s.vocabulary.get? = s'.vocabulary.get?) : s.translate = s'.translate := by
  have settled : s.settled = s'.settled := by
    funext type
    rw [Scope.settled, Scope.settled, settle_congr same]
  have dotted : s.declaresDotted = s'.declaresDotted := by
    funext name
    rw [Scope.declaresDotted, Scope.declaresDotted]
    by_cases dot : '.' ∈ name
    · rw [declared (String.ofList name) (by simpa using dot)]
    · simp [dot]
  have rooted : s.isGlobalClass = s'.isGlobalClass := by
    funext name
    rw [Scope.isGlobalClass, Scope.isGlobalClass, dotted]
  funext type
  rw [Scope.translate, Scope.translate, settled, rooted]

end TypeText

namespace Declaration

open TypeText

variable {s s' : Scope}

theorem translateRef_congr (same : s.translate = s'.translate) :
    s.translateRef = s'.translateRef := by
  funext ref
  rw [Scope.translateRef, Scope.translateRef, same]

theorem paramList_congr (same : s.translate = s'.translate) : paramList s = paramList s' := by
  have texts : ∀ optional ps, paramTexts s optional ps = paramTexts s' optional ps := by
    intro optional ps
    induction ps generalizing optional with
    | nil => rfl
    | cons p ps ih => simp only [paramTexts, translateRef_congr same, ih]
  funext ps
  rw [paramList, paramList, texts]

theorem Signature.line_congr (same : s.translate = s'.translate) (sig : Signature) :
    sig.line s = sig.line s' := by
  funext name
  rw [Signature.line, Signature.line, paramList_congr same]

end Declaration

/-! ## Indexes and settings -/

/-- A search reads the known records by looking names up, and only names that its queue leads
to. It runs alike through records that are changed, if their links are not. -/
theorem reach_map {known known' : Table Record} {next : Record → List String}
    {f : Record → Record} (linked : ∀ r, next (f r) = next r) {near : String → Prop}
    (found : ∀ name, near name → known'.get? name = (known.get? name).map f)
    (closed : ∀ name r, near name → known.get? name = some r → ∀ n ∈ next r, near n)
    (skip : String → Bool) {queue : List String} (waiting : ∀ name ∈ queue, near name)
    (seen : Table Record) :
    reach known' next skip queue (seen.map f) = (reach known next skip queue seen).map f := by
  fun_induction reach known next skip queue seen with
  | case1 seen => rw [reach]
  | case2 seen name queue skipped ih =>
    rw [reach, if_pos skipped]
    exact ih fun n hn => waiting n (List.mem_cons_of_mem _ hn)
  | case3 seen name queue kept old ih =>
    rw [reach, if_neg kept]
    split
    · exact ih fun n hn => waiting n (List.mem_cons_of_mem _ hn)
    · next new => simp [old] at new
  | case4 seen name queue kept new unknown ih =>
    have unknown' : known'.get? name = none := by
      rw [found name (waiting name List.mem_cons_self), unknown, Option.map_none]
    rw [reach, if_neg kept]
    split
    · exact ih fun n hn => waiting n (List.mem_cons_of_mem _ hn)
    · split
      · exact ih fun n hn => waiting n (List.mem_cons_of_mem _ hn)
      · next found_there => simp [unknown'] at found_there
  | case5 seen name queue kept new r known_r ih =>
    have near_name : near name := waiting name List.mem_cons_self
    have known_r' : known'.get? name = some (f r) := by
      rw [found name near_name, known_r, Option.map_some]
    have later : ∀ n ∈ queue ++ next r, near n := by
      intro n hn
      rcases List.mem_append.mp hn with hn | hn
      · exact waiting n (List.mem_cons_of_mem _ hn)
      · exact closed name r near_name known_r n hn
    rw [reach, if_neg kept]
    split
    · next old => simp [new] at old
    · split
      · next unknown => simp [known_r'] at unknown
      · next r' found_there =>
        rw [← Option.some.inj (known_r'.symm.trans found_there), linked, Table.insert_map, ih later]

/-- Among the same records a search meets the same ones. -/
theorem reach_congr {known known' : Table Record} {next : Record → List String}
    {near : String → Prop} (same : ∀ name, near name → known.get? name = known'.get? name)
    (closed : ∀ name r, near name → known.get? name = some r → ∀ n ∈ next r, near n)
    (skip : String → Bool) {queue : List String} (waiting : ∀ name ∈ queue, near name)
    (seen : Table Record) :
    reach known next skip queue seen = reach known' next skip queue seen := by
  have found : ∀ name, near name → known'.get? name = (known.get? name).map id := by
    intro name near_name
    rw [Option.map_id, id, same name near_name]
  have linked : ∀ r, next (id r) = next r := fun _ => rfl
  have mapped := reach_map linked found closed skip waiting seen
  rw [Table.map_id, Table.map_id] at mapped
  exact mapped.symm

/-- Indexes that list the same names, in any order, and find the same records. -/
structure Index.Agrees (i i' : Index) : Prop where
  root : i.root = i'.root
  names : i.names.Perm i'.names
  find? : i.find? = i'.find?

/-- Settings that agree on all that can be asked of them. -/
structure Settings.Agrees (s s' : Settings) : Prop where
  output : s.output = s'.output
  workingDir : s.workingDir = s'.workingDir
  preamble : s.preamble = s'.preamble
  ignores : s.ignores = s'.ignores
  get? : s.vocabulary.get? = s'.vocabulary.get?

namespace Index.Agrees

variable {i i' : Index}

theorem knows (h : i.Agrees i') : i.knows = i'.knows := by
  funext name
  exact congrArg Option.isSome (congrFun h.find? name)

theorem view (h : i.Agrees i') (r : Record) : i.view r = i'.view r := by
  have searched : ∀ next skip queue seen,
      reach i.records next skip queue seen = reach i'.records next skip queue seen :=
    fun _ skip _ seen => reach_congr (fun name (_ : True) => congrFun h.find? name)
      (fun _ _ _ _ _ _ => trivial) skip (fun _ _ => trivial) seen
  simp only [Index.view, Index.ancestors, searched]

/-- Names are sorted into one order only. -/
theorem sortedNames (h : i.Agrees i') : i.sortedNames = i'.sortedNames := by
  refine List.Perm.eq_of_pairwise (fun a b _ _ hab hba => ?_) i.pairwise_sortedNames
    i'.pairwise_sortedNames (i.perm_sortedNames.trans (h.names.trans i'.perm_sortedNames.symm))
  rcases hab with rfl | hab
  · rfl
  · rcases hba with rfl | hba
    · rfl
    · exact absurd hba (List.lt_asymm hab)

end Index.Agrees

/-! ## The texts of a class -/

/-- A class in indexes and under settings that agree. -/
structure Subject.Agrees (s s' : Subject) : Prop where
  index : s.index.Agrees s'.index
  settings : s.settings.Agrees s'.settings
  record : s.record = s'.record
  name : s.name = s'.name
  view : s.view = s'.view

theorem Index.Agrees.subject {i i' : Index} {settings settings' : Settings} (h : i.Agrees i')
    (same : settings.Agrees settings') (r : Record) (name : String) :
    (i.subject settings r name).Agrees (i'.subject settings' r name) :=
  ⟨h, same, rfl, rfl, h.view r⟩

/-- The mixins that are inlined may be changed if their links and their own texts are not. -/
theorem Subject.inclusions_map {s s' : Subject} {f : Record → Record} (named : s'.name = s.name)
    (found : ∀ m, s'.view.mixins.get? m = (s.view.mixins.get? m).map f)
    (linked : ∀ r, (f r).mixins = r.mixins) (own : ∀ r, s'.ownTexts (f r) = s.ownTexts r)
    (chain mixins : List String) : s'.inclusions chain mixins = s.inclusions chain mixins := by
  induction chain, mixins using Subject.inclusions.induct s with
  | case1 chain => rw [inclusions_nil, inclusions_nil]
  | case2 chain m mixins ih_inner ih_rest =>
    by_cases on_chain : m ∈ chain
    · rw [inclusions_of_mem s mixins on_chain, inclusions_of_mem s' mixins on_chain, named]
    · have found_m := found m
      cases known : s.view.mixins.get? m with
      | none =>
        rw [known, Option.map_none] at found_m
        rw [inclusions_of_none s mixins on_chain known,
          inclusions_of_none s' mixins on_chain found_m, named]
      | some r =>
        rw [known, Option.map_some] at found_m
        rw [inclusions_of_some s mixins on_chain known,
          inclusions_of_some s' mixins on_chain found_m, own, linked,
          ih_inner (by simpa using on_chain) r known, ih_rest]

/-- A class whose texts are put together from the same parts. -/
structure Subject.Alike (s s' : Subject) : Prop where
  root : s.index.root = s'.index.root
  translate : s.scope.translate = s'.scope.translate
  output : s.settings.output = s'.settings.output
  workingDir : s.settings.workingDir = s'.settings.workingDir
  ignores : s.settings.ignores = s'.settings.ignores
  record : s.record = s'.record
  name : s.name = s'.name
  view : s.view = s'.view

theorem Subject.Agrees.alike {s s' : Subject} (h : s.Agrees s') : s.Alike s' where
  root := h.index.root
  translate := TypeText.Scope.translate_congr (fun name _ => congrFun h.index.knows name)
    h.settings.get?
  output := h.settings.output
  workingDir := h.settings.workingDir
  ignores := h.settings.ignores
  record := h.record
  name := h.name
  view := h.view

namespace Subject.Alike

open Declaration

variable {s s' : Subject}

theorem commentBlock (h : s.Alike s') : s.commentBlock = s'.commentBlock := by
  have link : s.sourceLink? = s'.sourceLink? := by
    simp only [Subject.sourceLink?, h.record, h.workingDir, h.output, h.root]
  have lines : s.descriptionLines = s'.descriptionLines := by
    funext description
    rw [Subject.descriptionLines, Subject.descriptionLines, h.name]
  funext description
  rw [Subject.commentBlock, Subject.commentBlock, link, lines]

theorem methodText (h : s.Alike s') : s.methodText = s'.methodText := by
  funext name sig
  rw [Subject.methodText, Subject.methodText, h.commentBlock, Signature.line_congr h.translate]

theorem leaves (h : s.Alike s') : s.leaves = s'.leaves := by
  funext part name
  simp only [Subject.leaves, Subject.includes, h.record, h.view]

theorem signature (h : s.Alike s') : s.signature = s'.signature := by
  funext owner isStatic name m
  simp only [Subject.signature, translateRef_congr h.translate, h.ignores, h.name]

theorem methodTexts (h : s.Alike s') : s.methodTexts = s'.methodTexts := by
  funext owner isStatic
  simp only [Subject.methodTexts, h.leaves, h.methodText, h.signature]

theorem instanceText (h : s.Alike s') : s.instanceText = s'.instanceText := by
  funext owner
  simp only [Subject.instanceText, Subject.instanceSignature, h.methodText, h.translate, h.ignores,
    h.name]

theorem propertyTexts (h : s.Alike s') : s.propertyTexts = s'.propertyTexts := by
  have accessors : s.accessors = s'.accessors := by
    funext name check suffix
    simp only [Subject.accessors, h.translate, h.methodText]
  funext owner
  simp only [Subject.propertyTexts, h.leaves, accessors]

theorem ownTexts (h : s.Alike s') : s.ownTexts = s'.ownTexts := by
  funext owner
  rw [Subject.ownTexts, Subject.ownTexts, h.instanceText, h.methodTexts, h.propertyTexts]

theorem inclusions (h : s.Alike s') (chain mixins : List String) :
    s.inclusions chain mixins = s'.inclusions chain mixins := by
  have found : ∀ m, s'.view.mixins.get? m = (s.view.mixins.get? m).map id := by
    intro m
    rw [h.view, Option.map_id, id]
  have own : ∀ r, s'.ownTexts (id r) = s.ownTexts r := by
    intro r
    rw [h.ownTexts, id]
  exact (inclusions_map h.name.symm found (fun _ => rfl) own chain mixins).symm

theorem opening (h : s.Alike s') : s.opening = s'.opening := by
  have extended : s.extended = s'.extended := by
    rw [Subject.extended, Subject.extended, h.record, h.translate]
  have heading : s.heading = s'.heading := by
    funext inModule
    simp only [Subject.heading, Subject.keyword, Subject.shortName, Subject.extendsClause,
      Subject.implementsClause, extended, h.record, h.name, h.translate]
  have constructorText : s.constructorText = s'.constructorText := by
    rw [Subject.constructorText, Subject.constructorText, h.record, paramList_congr h.translate]
  funext inModule
  rw [Subject.opening, Subject.opening, h.name, heading, constructorText]

theorem block (h : s.Alike s') (inModule : Bool) : s.block inModule = s'.block inModule := by
  rw [Subject.block, Subject.block, h.opening, h.ownTexts, h.record, h.name, h.inclusions]

end Subject.Alike

/-! ## Listings -/

/-- The records of an index may be changed if their blocks are not. -/
theorem Index.blocks_map {i i' : Index} {settings settings' : Settings} {f : Record → Record}
    (found : ∀ name, i'.find? name = (i.find? name).map f)
    (block : ∀ r inModule, i'.recordBlock settings' (f r) inModule =
      i.recordBlock settings r inModule)
    (last : Option String) (stats : Stats) (names : List String) :
    i'.blocks settings' last stats names = i.blocks settings last stats names := by
  induction names generalizing last stats with
  | nil => rfl
  | cons name names ih =>
    have found_name := found name
    cases known : i.find? name with
    | none =>
      rw [known, Option.map_none] at found_name
      rw [blocks_cons_of_none known, blocks_cons_of_none found_name, ih]
    | some r =>
      rw [known, Option.map_some] at found_name
      rw [blocks_cons_of_some known, blocks_cons_of_some found_name, block]
      simp only [ih]

namespace Index.Agrees

variable {i i' : Index} {settings settings' : Settings}

theorem recordBlock (h : i.Agrees i') (same : settings.Agrees settings') (r : Record)
    (inModule : Bool) :
    i.recordBlock settings r inModule = i'.recordBlock settings' r inModule := by
  rw [Index.recordBlock, Index.recordBlock]
  cases r.name with
  | none => rfl
  | some name => simp only [(h.subject same r name).alike.block]

theorem blocks (h : i.Agrees i') (same : settings.Agrees settings') (last : Option String)
    (stats : Stats) (names : List String) :
    i.blocks settings last stats names = i'.blocks settings' last stats names := by
  have found : ∀ name, i'.find? name = (i.find? name).map id := by
    intro name
    rw [h.find?, Option.map_id, id]
  have block : ∀ r inModule, i'.recordBlock settings' (id r) inModule =
      i.recordBlock settings r inModule := fun r inModule => (h.recordBlock same r inModule).symm
  exact (blocks_map found block last stats names).symm

/-- Indexes and settings that agree give the same listing. -/
theorem listing (h : i.Agrees i') (same : settings.Agrees settings') (time : String) :
    i.listing settings time = i'.listing settings' time := by
  rw [Index.listing, Index.listing, same.preamble, h.sortedNames]
  simp only [h.blocks same]

end Index.Agrees

end Ambient
