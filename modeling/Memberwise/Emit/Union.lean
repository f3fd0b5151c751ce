import Memberwise.Options
import Memberwise.Output.Class

/-!
# Unions

The values of a union case are a constant, null, or an object with a tag. A
compiled union gets a factory for each case, a getter for each field of a tagged
case, and a getter of the tag that tells the cases apart.
-/

namespace Memberwise

/-- A synthesized method: a pure template. -/
def Member.synthesized (signature : Signature) (body : Expr) (params : List String)
    (isStatic : Bool) : Member :=
  .method signature { kind := .inline, body, params, isStatic, isPure := true }

namespace UnionCase

/-- The constant that a case is declared to be. -/
def constant? (c : UnionCase) : Option Literal :=
  match (Marking.ofAttributes c.attributes).treatment with
  | some (.constant value) => some value
  | _ => none

/-- Whether a case is declared to be the constant null. -/
def isExplicitNull (c : UnionCase) : Bool :=
  match c.constant? with
  | some .null => true
  | _ => false

/-- Whether a case can be represented by null: it has neither fields nor a constant. -/
def canBeNull (c : UnionCase) : Bool := c.fields.isEmpty && c.constant?.isNone

/--
The position of the case that is represented by null: the first that can be, in
a union of few cases none of which is declared to be null.
-/
def nullCase? (limit : Nat) (cases : List UnionCase) : Option Nat :=
  if !cases.any isExplicitNull && cases.length < limit then cases.findIdx? canBeNull else none

/-- The form of the values of a case, given the position that null represents. -/
def form (m : Marking) (nullCase : Option Nat) (tag : Nat) (c : UnionCase) : CaseForm :=
  match c.constant? with
  | some value => .constant value
  | none =>
    if nullCase = some tag then .null
    else .tagged (c.fields.map fun f => ⟨f.name, f.type, m.dateFormat? f.name⟩)

/-- The shapes of all cases of a union, in order. -/
def shapes (o : Options) (m : Marking) (cases : List UnionCase) : List CaseShape :=
  cases.mapIdx fun tag c => ⟨c.name, tag, c.form m (nullCase? o.caseLimit cases) tag⟩

end UnionCase

/-- The field that holds the tag. -/
def tagField : String := "$"

namespace CaseShape

/-- The integer constant for a tag. -/
def tagExpr (tag : Nat) : Expr := .int (Int64.ofNat tag)

/-- Tests whether the value at hand is a constant. -/
def isValue (constant : Literal) : Expr := .binary .strictEq (.hole 0) (.literal constant)

def isNull (s : CaseShape) : Bool :=
  match s.form with
  | .null => true
  | _ => false

/-- Tests the constants in order, and reads the tag if it is none of them. -/
def constantTags : List CaseShape → Expr
  | [] => .field (.hole 0) tagField
  | s :: rest =>
    match s.form with
    | .constant value => .ite (isValue value) (tagExpr s.tag) (constantTags rest)
    | _ => constantTags rest

/-- Finds the tag of a value; null is tested first. -/
def tagBody (shapes : List CaseShape) : Expr :=
  match shapes.find? isNull with
  | some s => .ite (isValue .null) (tagExpr s.tag) (constantTags shapes)
  | none => constantTags shapes

/-- Makes a value of a case from its fields. -/
def factoryBody (s : CaseShape) : Expr :=
  match s.form with
  | .constant value => .literal value
  | .null => .null
  | .tagged fields =>
    .object ((tagField, tagExpr s.tag) :: fields.mapIdx fun i f => (f.name, .hole i))

/-- The getters of the fields of a case. -/
def getters (s : CaseShape) : List Member :=
  match s.form with
  | .tagged fields => fields.map fun f =>
    .synthesized (.getter f.name f.type) (.field (.hole 0) f.name) [] false
  | _ => []

end CaseShape

/-- The members that a union gets besides its declared ones. -/
def UnionCase.members (o : Options) (m : Marking) (type : Ty) (cases : List UnionCase) :
    List Member :=
  let shapes := UnionCase.shapes o m cases
  let tag := .synthesized (.getter "Tag" Ty.int32) (CaseShape.tagBody shapes) [] false
  tag :: (cases.zip shapes).flatMap fun (c, shape) =>
    .synthesized ⟨"New" ++ c.name, c.fields.map Param.type, type, 0⟩ shape.factoryBody
      (c.fields.map Param.name) true :: shape.getters

end Memberwise
