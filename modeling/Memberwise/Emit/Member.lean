import Memberwise.Emit.Body
import Memberwise.Options
import Memberwise.Output.Class
import Memberwise.Template.Parse

/-!
# Emitting members

One declared member gives at most one emitted member. Its treatment decides the
kind of the method and its body:

| treatment                   | kind       | body                                  |
|-----------------------------|------------|---------------------------------------|
| no fallback                 | noFallback | empty                                 |
| template, inline or direct  | the same   | the template                          |
| constant                    | inline     | the constant                          |
| compiled                    | callable   | the source body; abstract without one |
| compiled, inline            | inline     | the template of the source body       |
| optional slot               | inline     | a read or write of the slot           |
| stub                        | stub       | a call of the external target         |
| remote                      | remote     | a call of the remote primitive        |
| generated                   | generated  | undefined                             |
-/

namespace Memberwise

/-- The type whose members are emitted. -/
structure Owner where
  id : Identity
  name : String
  /-- The name that stubs know the type by. -/
  externalName : String
deriving DecidableEq, Repr, Inhabited

namespace MemberDecl

/-- What the holes of the member's template refer to. -/
def slots (d : MemberDecl) : Template.Slots := ⟨d.hasReceiver, d.paramNames⟩

/-- The holes of the parameters. -/
def paramHoles (d : MemberDecl) : List Expr :=
  (List.range d.params.length).map fun i => .hole (i + if d.hasReceiver then 1 else 0)

/-- The emitted member for a method. -/
def emitted (d : MemberDecl) (method : Method) : Member :=
  match d.form with
  | .constructor => .constructor d.signature method
  | _ => .method d.signature method

/-- The emitted member with a kind and a body, as the marking asks for it. -/
def emittedAs (d : MemberDecl) (m : Marking) (kind : MethodKind) (body : Expr) : Member :=
  d.emitted {
    kind, body
    params := d.paramNames
    isStatic := d.isStatic
    isPure := m.isPure
    name := m.name
    expansions := m.expansions
    span := d.span }

/-- What stands in for a member that cannot be emitted. -/
def placeholder (d : MemberDecl) (e : CompileError) : Member :=
  d.emitted {
    kind := .callable
    body := .error e.message
    params := d.paramNames
    isStatic := d.isStatic
    span := d.span }

/-- The source body, if it can be emitted. -/
def sourceBody (d : MemberDecl) : Except CompileError Expr :=
  match d.body with
  | none => .error (.unusableBody d.name "the member has no body to translate" d.span)
  | some body =>
    match checkBody d.name body d.span with
    | .error e => .error e
    | .ok () => .ok body

/--
Why the member cannot be called without going through a slot: it is abstract,
implements an interface or overrides a member of the universal base.
-/
def slotReason? (o : Options) (owner : Owner) (d : MemberDecl) : Option String :=
  if d.modifiers.isAbstract then
    some "abstract members are called through their dispatch slot"
  else if d.modifiers.implements then
    some "interface implementations are called through the interface"
  else if d.modifiers.isOverride && d.overrides.any (fun base => base.name == o.universalBase) &&
      owner.name != o.universalBase then
    some s!"overrides of '{o.universalBase}' members are called through the base slot"
  else none

/-- Accepts a treatment that the place of the member allows. -/
def checkSlot (o : Options) (owner : Owner) (d : MemberDecl) (t : Treatment) :
    Except CompileError Unit :=
  if t.needsKnownTarget then
    match d.slotReason? o owner with
    | some reason => .error (.illegalTreatment t.name d.name reason d.span)
    | none => .ok ()
  else .ok ()

/-- The read or write of the slot that an accessor stands for. -/
def optionalBody (o : Options) (d : MemberDecl) (m : Marking) : Except CompileError Expr :=
  let misplaced := Except.error (.misplacedOptional d.name d.span)
  if d.isStatic then misplaced
  else
    match d.form with
    | .getter property =>
      .ok (.apply (.global o.getOptional) [.hole 0, .string (m.name.getD property)])
    | .setter property =>
      .ok (.apply (.global o.setOptional) [.hole 0, .string (m.name.getD property), .hole 1])
    | _ => misplaced

/-- A dotted path cut at its last point; a path without one belongs to the global object. -/
def splitPath (path : String) : String × String :=
  let reversed := path.toList.reverse
  let last := reversed.takeWhile (· ≠ '.')
  match reversed.dropWhile (· ≠ '.') with
  | [] => ("globalThis", path)
  | _ :: front => (String.ofList front.reverse, String.ofList last.reverse)

/-- The use of the external thing that a stub stands for. -/
def stubBody (owner : Owner) (d : MemberDecl) (m : Marking) : Expr :=
  let qualified (name : String) := m.name.getD (owner.externalName ++ "." ++ name)
  match d.form, d.hasReceiver with
  | .constructor, _ => .new (.global (m.name.getD owner.externalName)) d.paramHoles
  | .method, true => .apply (.field (.hole 0) (m.name.getD d.name)) d.paramHoles
  | .method, false => .apply (.global (qualified d.name)) d.paramHoles
  | .getter property, true => .field (.hole 0) (m.name.getD property)
  | .getter property, false => .global (qualified property)
  | .setter property, true => .setField (.hole 0) (m.name.getD property) (.hole 1)
  | .setter property, false =>
    let (target, name) := splitPath (qualified property)
    .setField (.global target) name (.hole 0)

/-- The handle of a remote member. -/
def remoteHandle (o : Options) (owner : Owner) (d : MemberDecl) : RemoteHandle :=
  .ofMember o.assemblyName (d.signature.identity owner.id)

/--
The call of a remote primitive: the handle, the arguments in one array, the
policy and the receiver. An absent policy is left out unless a receiver follows.
-/
def remoteBody (o : Options) (owner : Owner) (d : MemberDecl) (policy : Option String) : Expr :=
  let policy := match policy, d.hasReceiver with
    | some policy, _ => [Expr.string policy]
    | none, true => [.undefined]
    | none, false => []
  let receiver := if d.hasReceiver then [Expr.hole 0] else []
  .apply (.global (o.remotePrimitive (RemoteStyle.ofResult d.result).primitive))
    ([.string (d.remoteHandle o owner).text, .array d.paramHoles] ++ policy ++ receiver)

/-- The kind and the body that a treatment gives a member. -/
def kindAndBody (o : Options) (owner : Owner) (d : MemberDecl) (m : Marking) :
    Treatment → Except CompileError (MethodKind × Expr)
  | .conflict first second =>
    .error (.attributeConflict d.name (Treatment.conflictMessage first second) d.span)
  | .noFallback => .ok (.noFallback, .seq [])
  | .inline code => return (.inline, ← Template.parseAt d.slots code d.span)
  | .direct code => return (.direct, ← Template.parseAt d.slots code d.span)
  | .constant value => .ok (.inline, .literal value)
  | .compiled =>
    if d.modifiers.isAbstract then .ok (.abstract, .undefined)
    else return (.callable, ← d.sourceBody)
  | .compiledInline =>
    return (.inline, (← d.sourceBody).toTemplate d.paramNames d.hasReceiver [])
  | .optionalSlot => return (.inline, ← d.optionalBody o m)
  | .stub => .ok (.stub, d.stubBody owner m)
  | .remote policy =>
    if d.form = .method then
      .ok (.remote (RemoteStyle.ofResult d.result) (d.remoteHandle o owner),
        d.remoteBody o owner policy)
    else
      .error (.illegalTreatment "Remote" d.name "remote calls are only supported on methods" d.span)
  | .generated generator parameter => .ok (.generated generator parameter, .undefined)

/--
The emitted member, or nothing for a member that nobody asked to emit. An
abstract member keeps its slot unless it opted out.
-/
def emit (o : Options) (owner : Owner) (d : MemberDecl) (m : Marking) :
    Except CompileError (Option Member) :=
  match m.treatment with
  | none =>
    if !m.optedOut && d.modifiers.isAbstract then
      .ok (some (d.emittedAs m .abstract .undefined))
    else .ok none
  | some treatment => do
    d.checkSlot o owner treatment
    let (kind, body) ← d.kindAndBody o owner m treatment
    return some (d.emittedAs m kind body)

end MemberDecl

end Memberwise
