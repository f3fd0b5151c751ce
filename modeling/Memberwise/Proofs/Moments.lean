import Mathlib
import Memberwise.Eval.Run
import Memberwise.Proofs.Subterms

/-!
# The moments of an evaluation

The outcome of an evaluation does not tell which initializers ran on the way.  Here every
statement of a static initializer whose expression is evaluated is listed, in order, with the
state in which this happens.  The list follows the recursion of the evaluation: what comes
next depends on the value and the state that an evaluation ended with, and after a fault
nothing comes.
-/

namespace Memberwise

/-- A statement of a static initializer, with the state in which its expression is evaluated. -/
structure Moment where
  machine : Machine
  owner : Identity
  statement : Statement
  state : Machine.State

namespace Eval

/-! ## Moments -/

/-- What comes after an evaluation that gave a value. -/
def following {α β : Type} (r : EStateM.Result Fault Machine.State α)
    (next : α → Machine.State → List β) : List β :=
  match r with
  | .ok a s => next a s
  | .error _ _ => []

/-- The moments of what an expression does where it leaves its own body. -/
structure Tracer where
  enter : Frame → Expr → Machine.State → List Moment
  start : Identity → Machine.State → List Moment

/-- The moments of a call. -/
def callMoments (m : Machine) (enter : Frame → Expr → Machine.State → List Moment)
    (method : MethodRef) (receiver : Option Value) (args : List Value) (s : Machine.State) :
    List Moment :=
  match m.lookup method with
  | .error _ => []
  | .ok found =>
    match found.frame? receiver args with
    | none => []
    | some frame => enter frame found.body s

/-- The moments of an application. -/
def applyMoments (enter : Frame → Expr → Machine.State → List Moment) (function : Value)
    (args : List Value) (s : Machine.State) : List Moment :=
  match function with
  | .closure ref =>
    match s.store.closures[ref]? with
    | none => []
    | some closure => enter (closure.frame.bindAll closure.params args) closure.body s
  | _ => []

mutual

/-- The moments of evaluating an expression. -/
def moments (m : Machine) (around : Surroundings) (below : Tracer) (frame : Frame) :
    Expr → Machine.State → List Moment
  | .letIn name value body, s =>
    moments m around below frame value s ++
      following (expr m around frame value s) fun v s =>
        moments m around below (frame.bind name v) body s
  | .apply function args, s =>
    moments m around below frame function s ++
      following (expr m around frame function s) fun function s =>
        momentsOfAll m around below frame args s ++
          following (exprs m around frame args s) fun args s =>
            applyMoments below.enter function args s
  | .call none method args, s =>
    momentsOfAll m around below frame args s ++
      following (exprs m around frame args s) fun args s =>
        callMoments m below.enter method none args s
  | .call (some receiver) method args, s =>
    moments m around below frame receiver s ++
      following (expr m around frame receiver s) fun receiver s =>
        momentsOfAll m around below frame args s ++
          following (exprs m around frame args s) fun args s =>
            callMoments m below.enter method (some receiver) args s
  | .new constructor args, s =>
    moments m around below frame constructor s ++
      following (expr m around frame constructor s) fun constructor s =>
        momentsOfAll m around below frame args s ++
          following (exprs m around frame args s) fun args s =>
            applyMoments below.enter constructor args s
  | .field target _, s | .setStatic _ _ target, s | .unary _ target, s =>
    moments m around below frame target s
  | .setField target _ value, s | .item target value, s =>
    moments m around below frame target s ++
      following (expr m around frame target s) fun _ s => moments m around below frame value s
  | .start owner, s => below.start owner s
  | .ite condition yes no, s =>
    moments m around below frame condition s ++
      following (expr m around frame condition s) fun v s =>
        if v.truthy then moments m around below frame yes s else moments m around below frame no s
  | .seq items, s | .array items, s => momentsOfAll m around below frame items s
  | .object fields, s => momentsOfFields m around below frame fields s
  | .binary .and left right, s =>
    moments m around below frame left s ++
      following (expr m around frame left s) fun v s =>
        if v.truthy then moments m around below frame right s else []
  | .binary .or left right, s =>
    moments m around below frame left s ++
      following (expr m around frame left s) fun v s =>
        if v.truthy then [] else moments m around below frame right s
  | .binary _ left right, s =>
    moments m around below frame left s ++
      following (expr m around frame left s) fun _ s => moments m around below frame right s
  | _, _ => []
termination_by structural e => e

/-- The moments of evaluating expressions from left to right. -/
def momentsOfAll (m : Machine) (around : Surroundings) (below : Tracer) (frame : Frame) :
    List Expr → Machine.State → List Moment
  | [], _ => []
  | e :: es, s =>
    moments m around below frame e s ++
      following (expr m around frame e s) fun _ s => momentsOfAll m around below frame es s
termination_by structural es => es

/-- The moments of evaluating the fields of an object from left to right. -/
def momentsOfFields (m : Machine) (around : Surroundings) (below : Tracer) (frame : Frame) :
    List (String × Expr) → Machine.State → List Moment
  | [], _ => []
  | (_, e) :: es, s =>
    moments m around below frame e s ++
      following (expr m around frame e s) fun _ s => momentsOfFields m around below frame es s
termination_by structural es => es

end

/-- The moments of running the statements of a static initializer. -/
def statementMoments (m : Machine) (around : Surroundings) (below : Tracer) (owner : Identity) :
    List Statement → Machine.State → List Moment
  | [], _ => []
  | .expr e :: rest, s =>
    let begun := { s with begun := (owner, .expr e) :: s.begun }
    ⟨m, owner, .expr e, begun⟩ :: moments m around below {} e begun ++
      following (expr m around {} e begun) fun _ s =>
        statementMoments m around below owner rest s
  | .init field value :: rest, s =>
    let begun := { s with begun := (owner, .init field value) :: s.begun }
    ⟨m, owner, .init field value, begun⟩ :: moments m around below {} value begun ++
      following (expr m around {} value begun) fun v s =>
        statementMoments m around below owner rest (s.write ⟨owner, field, v, true⟩)

/-- The moments of starting a type with a bound on the initializers that it may start in turn. -/
def startMoments (m : Machine) (enter : Frame → Expr → Eval Value)
    (trace : Frame → Expr → Machine.State → List Moment) :
    Nat → Identity → Machine.State → List Moment
  | 0, _, _ => []
  | bound + 1, owner, s =>
    if owner ∈ s.started then []
    else
      statementMoments m ⟨enter, startWithin m enter bound⟩
        ⟨trace, startMoments m enter trace bound⟩ owner (m.initializer owner)
        { s with started := owner :: s.started }

/-- The moments where a body is left that enters other bodies in a given way. -/
def tracer (m : Machine) (enter : Frame → Expr → Eval Value)
    (trace : Frame → Expr → Machine.State → List Moment) : Tracer :=
  ⟨trace, startMoments m enter trace m.build.classes.size⟩

/-- The moments of evaluating a body as one more call, with so many calls left. -/
def enterMoments (m : Machine) : Nat → Frame → Expr → Machine.State → List Moment
  | 0, _, _, _ => []
  | left + 1, frame, body, s =>
    moments m (surroundings m (enterWithin m left))
      (tracer m (enterWithin m left) (enterMoments m left)) frame body
      { s with depth := s.depth + 1 }

end Eval

end Memberwise
