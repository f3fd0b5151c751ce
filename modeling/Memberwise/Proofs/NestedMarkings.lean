import Mathlib
import Memberwise.Marking

/-!
# Treatments of nested declarations

A declaration inside others is marked level by level, from the outside in, and each level sees only
the marking of the level around it.  What comes out is decided by one level alone, the innermost
that asks for a treatment or opts out.  Levels in between hand on what they got: what a declaration
passes on is passed on unchanged by all that do not decide.
-/

namespace Memberwise

namespace Treatment

theorem memberDefault_eq_some_iff {t u : Treatment} :
    t.memberDefault = some u ↔
      (t = .compiled ∨ t = .compiledInline) ∧ u = .compiled ∨ t = .stub ∧ u = .stub := by
  cases t <;> simp [memberDefault, eq_comm]

/-- What was inherited is inherited further. -/
theorem memberDefault_memberDefault (t : Treatment) :
    t.memberDefault.bind memberDefault = t.memberDefault := by
  cases t <;> rfl

end Treatment

namespace Marking

/-- The marking of the last of some declarations, each of which is inside the one before it. -/
def ofChain (chain : List (List Attribute)) : Marking := chain.foldl within {}

/-- Whether a declaration asks for a treatment or opts out. -/
def decides (attributes : List Attribute) : Bool :=
  (ofAttributes attributes).hasOwn || (ofAttributes attributes).optedOut

theorem ofChain_concat (outer : List (List Attribute)) (attributes : List Attribute) :
    ofChain (outer ++ [attributes]) = (ofChain outer).within attributes := by
  rw [ofChain, List.foldl_append]
  rfl

theorem hasOwn_ofAttributes (attributes : List Attribute) :
    (ofAttributes attributes).hasOwn = (ofAttributes attributes).treatment.isSome := rfl

/-- A level looks around only if it does not decide. -/
theorem treatment_within (enclosing : Marking) (attributes : List Attribute) :
    (enclosing.within attributes).treatment =
      if decides attributes then (ofAttributes attributes).treatment
      else enclosing.memberDefault := by
  rw [within, decides, hasOwn_ofAttributes]
  cases htreatment : (ofAttributes attributes).treatment with
  | some t => simp [htreatment]
  | none => cases (ofAttributes attributes).optedOut <;> simp [htreatment]

theorem memberDefault_within (enclosing : Marking) (attributes : List Attribute) :
    (enclosing.within attributes).memberDefault =
      if decides attributes then (ofAttributes attributes).memberDefault
      else enclosing.memberDefault := by
  rw [memberDefault, treatment_within]
  split_ifs
  · rfl
  · rw [memberDefault, Option.bind_assoc]
    exact congrArg _ (funext Treatment.memberDefault_memberDefault)

/-- What a chain of declarations passes on is what its innermost deciding level passes on. -/
theorem memberDefault_ofChain (chain : List (List Attribute)) :
    (ofChain chain).memberDefault =
      (chain.reverse.find? decides).bind fun scope => (ofAttributes scope).memberDefault := by
  induction chain using List.reverseRecOn with
  | nil => rfl
  | append_singleton outer attributes ih =>
    rw [ofChain_concat, memberDefault_within, List.reverse_concat, List.find?_cons]
    cases decides attributes with
    | true => rfl
    | false => exact ih

/--
The treatment of a declaration inside others is the one that it asks for, and none if it opts out.
Otherwise the nearest declaration around it that asks for a treatment or opts out decides: what is
compiled, inline or not, has compiled members, a stub has stubs for members, and nothing else
passes on a treatment.
-/
theorem treatment_from_nearest_scope (outer : List (List Attribute)) (attributes : List Attribute) :
    (ofChain (outer ++ [attributes])).treatment =
        (if (ofAttributes attributes).hasOwn then (ofAttributes attributes).treatment
        else if (ofAttributes attributes).optedOut then none
        else (outer.reverse.find? decides).bind fun scope =>
          (ofAttributes scope).treatment.bind Treatment.memberDefault) ∧
      ∀ t u : Treatment, t.memberDefault = some u ↔
        (t = .compiled ∨ t = .compiledInline) ∧ u = .compiled ∨ t = .stub ∧ u = .stub := by
  refine ⟨?_, fun t u => Treatment.memberDefault_eq_some_iff⟩
  rw [ofChain_concat, treatment_within, memberDefault_ofChain, decides, hasOwn_ofAttributes]
  cases htreatment : (ofAttributes attributes).treatment with
  | some t => rfl
  | none => cases (ofAttributes attributes).optedOut <;> rfl

/-- A method two silent levels inside a stub that is itself inside a compiled module. -/
example : (ofChain [[.javaScript true], [.name "shelf", .stub], [.pure], [], []]).treatment =
    some .stub := rfl

end Marking

end Memberwise
