import Memberwise.Eval.Machine

/-!
# Evaluation

An expression is evaluated by recursion on its form. What leaves the expression
goes through its surroundings: entering another body, which is one more call in
progress, and starting a static initializer, which runs at the same depth.

Calls end because only so many may be in progress. Initializers end because a
type is marked before its initializer runs, so no more of them can be in
progress than there are classes.
-/

namespace Memberwise

namespace Eval

/-- How an expression leaves its own body. -/
structure Surroundings where
  /-- Evaluates another body in a frame of its own. -/
  enter : Frame → Expr → Eval Value
  /-- Runs the static initializer of a type unless it has been started. -/
  start : Identity → Eval Unit

/-- Calls a method. -/
def callMethod (m : Machine) (enter : Frame → Expr → Eval Value) (method : MethodRef)
    (receiver : Option Value) (args : List Value) : Eval Value := do
  let found ← lift (m.lookup method)
  match found.frame? receiver args with
  | none => throw (.notCallable method.signature.text)
  | some frame => enter frame found.body

/-- Applies a function, which a host or a closure is. -/
def applyValue (m : Machine) (enter : Frame → Expr → Eval Value) (function : Value)
    (args : List Value) : Eval Value := do
  let notCallable : Eval Value := do throw (.notCallable ((← get).store.text function))
  match function with
  | .host name => callHost m name args
  | .closure ref =>
    match (← get).store.closures[ref]? with
    | some closure => enter (closure.frame.bindAll closure.params args) closure.body
    | none => notCallable
  | _ => notCallable

mutual

/-- Evaluates an expression in a frame. -/
def expr (m : Machine) (around : Surroundings) (frame : Frame) : Expr → Eval Value
  | .undefined => return .undefined
  | .self =>
    match frame.receiver with
    | some receiver => return receiver
    | none => throw .noReceiver
  | .literal value => return .ofLiteral value
  | .var name =>
    match frame.var? name with
    | some value => return value
    | none => throw (.unboundVariable name)
  | .hole index =>
    match frame.holes[index]? with
    | some value => return value
    | none => throw (.missingHole index)
  | .global path => if m.hosts.contains path then return .host path else throw (.unknownGlobal path)
  | .letIn name value body => do
    let value ← expr m around frame value
    expr m around (frame.bind name value) body
  | .lambda params body => alloc fun store => store.newClosure ⟨params, body, frame⟩
  | .apply function args => do
    let function ← expr m around frame function
    let args ← exprs m around frame args
    applyValue m around.enter function args
  | .call none method args => do
    let args ← exprs m around frame args
    callMethod m around.enter method none args
  | .call (some receiver) method args => do
    let receiver ← expr m around frame receiver
    let args ← exprs m around frame args
    callMethod m around.enter method (some receiver) args
  | .new constructor args => do
    let constructor ← expr m around frame constructor
    let args ← exprs m around frame args
    applyValue m around.enter constructor args
  | .field target name => do
    let target ← expr m around frame target
    ofStore fun store => store.read target name
  | .setField target name value => do
    let target ← expr m around frame target
    let value ← expr m around frame value
    setStore (← ofStore fun store => store.write target name value)
    return .undefined
  | .item target key => do
    let target ← expr m around frame target
    let key ← expr m around frame key
    ofStore fun store => store.index target key
  | .static owner name => return ((← get).statics.get? (owner, name)).getD .undefined
  | .setStatic owner name value => do
    let value ← expr m around frame value
    setStatic owner name value
    return .undefined
  | .start owner => do
    around.start owner
    return .undefined
  | .ite condition yes no => do
    let condition ← expr m around frame condition
    if condition.truthy then expr m around frame yes else expr m around frame no
  | .seq items => lastOf m around frame .undefined items
  | .object fields => do
    let fields ← namedExprs m around frame fields
    alloc fun store => store.newObject fields
  | .array items => do
    let items ← exprs m around frame items
    alloc fun store => store.newArray items
  | .binary .and left right => do
    let left ← expr m around frame left
    if left.truthy then expr m around frame right else return left
  | .binary .or left right => do
    let left ← expr m around frame left
    if left.truthy then return left else expr m around frame right
  | .binary op left right => do
    let left ← expr m around frame left
    let right ← expr m around frame right
    ofStore fun store => store.binary op left right
  | .unary op operand => do
    let operand ← expr m around frame operand
    ofStore fun store => store.unary op operand
  | .error message => throw (.placeholder message)
termination_by structural e => e

/-- Evaluates expressions from left to right. -/
def exprs (m : Machine) (around : Surroundings) (frame : Frame) : List Expr → Eval (List Value)
  | [] => return []
  | e :: es => do
    let value ← expr m around frame e
    let values ← exprs m around frame es
    return value :: values
termination_by structural es => es

/-- Evaluates the fields of an object from left to right. -/
def namedExprs (m : Machine) (around : Surroundings) (frame : Frame) :
    List (String × Expr) → Eval (List (String × Value))
  | [] => return []
  | (name, e) :: es => do
    let value ← expr m around frame e
    let values ← namedExprs m around frame es
    return (name, value) :: values
termination_by structural es => es

/-- Evaluates expressions from left to right for the value of the last. -/
def lastOf (m : Machine) (around : Surroundings) (frame : Frame) (last : Value) :
    List Expr → Eval Value
  | [] => return last
  | e :: es => do
    let value ← expr m around frame e
    lastOf m around frame value es
termination_by structural es => es

end

/-- Runs the statements of a static initializer. -/
def statements (m : Machine) (around : Surroundings) (owner : Identity) :
    List Statement → Eval Unit
  | [] => return
  | .expr e :: rest => do
    beginStatement owner (.expr e)
    let _ ← expr m around {} e
    statements m around owner rest
  | .init field value :: rest => do
    beginStatement owner (.init field value)
    let value ← expr m around {} value
    fillStatic owner field value
    statements m around owner rest

/--
Runs the static initializer of a type unless it has been started, with a bound
on the initializers that it may start in turn.
-/
def startWithin (m : Machine) (enter : Frame → Expr → Eval Value) : Nat → Identity → Eval Unit
  | 0, owner => discard (markStarted owner)
  | bound + 1, owner => do
    if ← markStarted owner then
      statements m ⟨enter, startWithin m enter bound⟩ owner (m.initializer owner)

/-- The surroundings of a body that enters other bodies in a given way. -/
def surroundings (m : Machine) (enter : Frame → Expr → Eval Value) : Surroundings :=
  ⟨enter, startWithin m enter m.build.classes.size⟩

/-- Evaluates a body as one more call, with so many calls left. -/
def enterWithin (m : Machine) : Nat → Frame → Expr → Eval Value
  | 0, _, _ => throw .callDepth
  | left + 1, frame, body =>
    nested (expr m (surroundings m (enterWithin m left)) frame body)

/-- Evaluates a body as one more call. -/
def enter (m : Machine) (frame : Frame) (body : Expr) : Eval Value := do
  enterWithin m (Machine.maxDepth - (← get).depth) frame body

end Eval

namespace Machine

/-- Evaluates an expression in a frame. -/
def evalIn (m : Machine) (frame : Frame) (e : Expr) : Eval Value :=
  Eval.expr m (Eval.surroundings m (Eval.enter m)) frame e

/-- Evaluates an expression without a receiver, arguments or variables. -/
def eval (m : Machine) (e : Expr) : Eval Value := m.evalIn {} e

/-- Calls a member. -/
def call (m : Machine) (method : MethodRef) (receiver : Option Value) (args : List Value) :
    Eval Value :=
  Eval.callMethod m (Eval.enter m) method receiver args

/-- Applies a function to arguments. -/
def apply (m : Machine) (function : Value) (args : List Value) : Eval Value :=
  Eval.applyValue m (Eval.enter m) function args

/-- Runs the static initializer of a type unless it has been started. -/
def start (m : Machine) (owner : Identity) : Eval Unit :=
  (Eval.surroundings m (Eval.enter m)).start owner

/-- Runs the entry point, if there is one. -/
def runEntryPoint (m : Machine) : Eval (Option Value) :=
  match m.build.entryPoint with
  | none => return none
  | some (.expr e) => some <$> m.eval e
  | some (.init field _) => throw (.typeError (.initializeAtEntry field))

end Machine

end Memberwise
