import Memberwise.Diagnostic
import Memberwise.Source.Expr

/-!
# Source bodies

A source body can be emitted if it has no hole and no error in it. To replace
calls it is turned into a template: parameters become holes, and so does the
receiver.
-/

namespace Memberwise

namespace Expr

mutual

/--
The template of a body. A parameter becomes the hole of its position, after the
receiver's if there is one; a name in `bound` is not the parameter's.
-/
def toTemplate (params : List String) (hasReceiver : Bool) :
    Expr → (bound : List String) → Expr
  | var name, bound =>
    if bound.contains name then var name
    else
      match params.findIdx? (· = name) with
      | some i => hole (i + if hasReceiver then 1 else 0)
      | none => var name
  | self, _ => if hasReceiver then hole 0 else self
  | letIn name value body, bound =>
    letIn name (value.toTemplate params hasReceiver bound)
      (body.toTemplate params hasReceiver (name :: bound))
  | lambda names body, bound =>
    lambda names (body.toTemplate params hasReceiver (names ++ bound))
  | apply function args, bound =>
    apply (function.toTemplate params hasReceiver bound)
      (toTemplates params hasReceiver args bound)
  | call none method args, bound =>
    call none method (toTemplates params hasReceiver args bound)
  | call (some receiver) method args, bound =>
    call (some (receiver.toTemplate params hasReceiver bound)) method
      (toTemplates params hasReceiver args bound)
  | new constructor args, bound =>
    new (constructor.toTemplate params hasReceiver bound)
      (toTemplates params hasReceiver args bound)
  | field target name, bound => field (target.toTemplate params hasReceiver bound) name
  | setField target name value, bound =>
    setField (target.toTemplate params hasReceiver bound) name
      (value.toTemplate params hasReceiver bound)
  | item target key, bound =>
    item (target.toTemplate params hasReceiver bound) (key.toTemplate params hasReceiver bound)
  | setStatic owner name value, bound =>
    setStatic owner name (value.toTemplate params hasReceiver bound)
  | ite condition yes no, bound =>
    ite (condition.toTemplate params hasReceiver bound) (yes.toTemplate params hasReceiver bound)
      (no.toTemplate params hasReceiver bound)
  | seq items, bound => seq (toTemplates params hasReceiver items bound)
  | object fields, bound => object (toTemplateFields params hasReceiver fields bound)
  | array items, bound => array (toTemplates params hasReceiver items bound)
  | binary op left right, bound =>
    binary op (left.toTemplate params hasReceiver bound) (right.toTemplate params hasReceiver bound)
  | unary op operand, bound => unary op (operand.toTemplate params hasReceiver bound)
  | e, _ => e
termination_by structural e => e

/-- The templates of several expressions. -/
def toTemplates (params : List String) (hasReceiver : Bool) :
    List Expr → (bound : List String) → List Expr
  | [], _ => []
  | e :: es, bound =>
    e.toTemplate params hasReceiver bound :: toTemplates params hasReceiver es bound
termination_by structural es => es

/-- The templates of the fields of an object. -/
def toTemplateFields (params : List String) (hasReceiver : Bool) :
    List (String × Expr) → (bound : List String) → List (String × Expr)
  | [], _ => []
  | (key, e) :: fields, bound =>
    (key, e.toTemplate params hasReceiver bound) :: toTemplateFields params hasReceiver fields bound
termination_by structural fields => fields

end

/-- Whether there is a hole anywhere. -/
def hasHole (e : Expr) : Bool := e.subterms.any isHole

/-- The message of the first error anywhere. -/
def firstError? (e : Expr) : Option String := e.subterms.findSome? error?

end Expr

/-- Accepts a source body that can be emitted. -/
def checkBody (member : String) (body : Expr) (span : Span) : Except CompileError Unit :=
  if body.hasHole then .error (.unusableBody member "body contains a template hole" span)
  else
    match body.firstError? with
    | some message =>
      .error (.unusableBody member ("body failed to translate: " ++ message) span)
    | none => .ok ()

end Memberwise
