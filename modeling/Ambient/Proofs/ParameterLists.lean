/-
  Parameter lists: which parameters are marked as optional, and what stands for their types. A
  list falls into two rows, and the marks are on the second; `paramTexts_append` passes over the
  first row and `paramTexts_optional` reads the second. Main statement:
  `Declaration.paramList_eq_rows`.
-/
import Ambient.Proofs.TypePositions

namespace Ambient

open TypeText Declaration

/-! ## Types -/

namespace TypeRef

/-- A reference leads to no name: in it, or in what a single alternative stands for, there are
no alternatives or several. -/
inductive Strays : TypeRef → Prop
  | several {refs : List TypeRef} (h : refs.length ≠ 1) : (alternatives refs).Strays
  | only {ref : TypeRef} (h : ref.Strays) : (alternatives [ref]).Strays

theorem Strays.not_leadsTo {ref : TypeRef} (strays : ref.Strays) (text : String)
    (dimensions : UInt32) : ¬ ref.LeadsTo text dimensions := by
  induction strays with
  | several several =>
    intro leads
    cases leads with
    | only _ => exact several rfl
  | only _ ih =>
    intro leads
    cases leads with
    | only leads => exact ih leads

/-- A reference leads to a name or strays. -/
theorem leadsTo_or_strays (ref : TypeRef) : (∃ text d, ref.LeadsTo text d) ∨ ref.Strays := by
  induction ref using name?.induct with
  | case1 text => exact .inl ⟨text, 0, .name text⟩
  | case2 text d => exact .inl ⟨text, d, .sized text d⟩
  | case3 ref ih =>
    rcases ih with ⟨text, d, leads⟩ | strays
    · exact .inl ⟨text, d, .only leads⟩
    · exact .inr (.only strays)
  | case4 refs no_single =>
    refine .inr (.several fun single => ?_)
    obtain ⟨ref, rfl⟩ := List.length_eq_one_iff.mp single
    exact no_single ref rfl

end TypeRef

namespace TypeText.Scope

variable {s : Scope}

theorem paramType_of_leadsTo {ref : TypeRef} {text : String} {d : UInt32}
    (leads : ref.LeadsTo text d) :
    s.paramType (some ref) = s.translate text ++ if d = 0 then "" else "[]" := by
  rw [paramType, translateRef_of_leadsTo leads, arraySuffix_of_leadsTo leads]

theorem paramType_of_not_leadsTo {ref : Option TypeRef}
    (astray : ∀ r ∈ ref, ∀ text d, ¬ r.LeadsTo text d) : s.paramType ref = "any" := by
  obtain ⟨unknown, bare⟩ := translateRef_of_not_leadsTo (s := s) astray
  rw [paramType, unknown, bare, String.append_empty]
  rfl

theorem paramType_of_strays {ref : TypeRef} (strays : ref.Strays) :
    s.paramType (some ref) = "any" := by
  refine paramType_of_not_leadsTo fun r hr => ?_
  obtain rfl := Option.some.inj hr
  exact strays.not_leadsTo

end TypeText.Scope

namespace Declaration

/-! ## Marks -/

/-- A parameter from which on all parameters are optional. -/
def Opens (p : Param) : Prop := p.optional = true ∨ p.name = "varargs"

instance : DecidablePred Opens := fun _ => inferInstanceAs (Decidable (_ ∨ _))

/-- A parameter as it is declared, with a mark behind its name. -/
def paramText (s : Scope) (mark : String) (p : Param) : String :=
  p.name ++ mark ++ ": " ++ s.paramType p.type

variable {s : Scope}

theorem paramTexts_cons (optional : Bool) (p : Param) (ps : List Param) :
    paramTexts s optional (p :: ps) =
      if optional = true ∨ Opens p then paramText s "?" p :: paramTexts s true ps
      else paramText s "" p :: paramTexts s false ps := by
  rw [paramTexts]
  have marked : (optional || p.optional || p.name == "varargs") =
      decide (optional = true ∨ Opens p) := by
    rw [Bool.eq_iff_iff, decide_eq_true_iff]
    simp [Opens, or_assoc]
  rw [marked]
  by_cases opened : optional = true ∨ Opens p <;>
    simp only [opened, paramText, Scope.paramType, String.append_assoc, decide_true, decide_false,
      if_true, if_false, Bool.false_eq_true]

/-- Once a parameter is optional, all are. -/
theorem paramTexts_optional (ps : List Param) :
    paramTexts s true ps = ps.map (paramText s "?") := by
  induction ps with
  | nil => rfl
  | cons p ps ih => rw [paramTexts_cons, if_pos (.inl rfl), ih, List.map_cons]

/-- Before a parameter opens the optional ones, none is marked. -/
theorem paramTexts_append {required : List Param} (closed : ∀ p ∈ required, ¬ Opens p)
    (ps : List Param) :
    paramTexts s false (required ++ ps) =
      required.map (paramText s "") ++ paramTexts s false ps := by
  induction required with
  | nil => rfl
  | cons p required ih =>
    have here : ¬ (false = true ∨ Opens p) := by
      simpa using closed p List.mem_cons_self
    rw [List.cons_append, paramTexts_cons, if_neg here,
      ih fun q hq => closed q (List.mem_cons_of_mem p hq), List.map_cons, List.cons_append]

theorem paramTexts_of_opens {ps : List Param} (opened : ∀ p ∈ ps.head?, Opens p) :
    paramTexts s false ps = ps.map (paramText s "?") := by
  cases ps with
  | nil => rfl
  | cons p ps =>
    rw [paramTexts_cons, if_pos (.inr (opened p rfl)), paramTexts_optional, List.map_cons]

/-- A parameter list has every parameter once and in order. The marks are on those from the first
one on that is declared as optional or has the name `varargs`. The type of a parameter is the
translation of the name that its reference leads to, with one pair of brackets if there are
dimensions; it is `any` without a reference, or if the reference strays on the way. -/
theorem paramList_eq_rows (s : Scope) (ps : List Param) :
    (∃ required optional, ps = required ++ optional ∧ (∀ p ∈ required, ¬ Opens p) ∧
      (∀ p ∈ optional.head?, Opens p) ∧
      paramList s ps = ", ".intercalate
        (required.map (paramText s "") ++ optional.map (paramText s "?"))) ∧
      (∀ ref text d, ref.LeadsTo text d →
        s.paramType (some ref) = s.translate text ++ if d = 0 then "" else "[]") ∧
      (∀ ref : TypeRef, ref.Strays → s.paramType (some ref) = "any") ∧
      s.paramType none = "any" ∧
      ∀ ref : TypeRef, (∃ text d, ref.LeadsTo text d) ∨ ref.Strays := by
  refine ⟨?_, fun _ _ _ => Scope.paramType_of_leadsTo, fun _ => Scope.paramType_of_strays,
    Scope.paramType_of_not_leadsTo nofun, TypeRef.leadsTo_or_strays⟩
  let closed (p : Param) : Bool := decide (¬ Opens p)
  have split := (List.takeWhile_append_dropWhile (p := closed) (l := ps)).symm
  have required : ∀ p ∈ ps.takeWhile closed, ¬ Opens p :=
    fun p hp => of_decide_eq_true (List.mem_takeWhile_imp (p := closed) hp)
  have optional : ∀ p ∈ (ps.dropWhile closed).head?, Opens p := by
    intro p hp
    have stopped := List.head?_dropWhile_not closed ps
    rw [Option.mem_def.mp hp] at stopped
    simpa [closed] using stopped
  refine ⟨_, _, split, required, optional, ?_⟩
  rw [paramList, ← paramTexts_of_opens optional, ← paramTexts_append required, ← split]

end Declaration

end Ambient
