import Memberwise.Build.Basic
import Memberwise.Eval.Operators

/-!
# Machines

A machine is a build together with the functions of the outside world, its
hosts. What changes while expressions are evaluated is its state. A host sees
the calls that were made before, its arguments and the store.
-/

namespace Memberwise

/-- A call of a host, as it was made. -/
structure HostCall where
  host : String
  args : List Value
  /-- What the arguments referred to at that time. -/
  store : Store
deriving Inhabited

/-- A value that was stored in a static field. -/
structure StaticWrite where
  owner : Identity
  name : String
  value : Value
  /-- Whether a statement of the static initializer filled the field. -/
  fills : Bool
deriving Inhabited

/-- A function of the outside world. -/
abbrev Host := (earlier : List HostCall) → (args : List Value) → Store → Except Fault Value × Store

namespace Host

/-- Reads an optional slot of an object; a missing slot is undefined. -/
def getOptional (name : String) : Host := fun _ args store =>
  match args with
  | target :: .string field :: _ => (.ok ((store.field? target field).getD .undefined), store)
  | _ => (.error (.host name "expected an object and a field name"), store)

/-- Writes an optional slot of an object; without a value the slot is removed. -/
def setOptional (name : String) : Host := fun _ args store =>
  match args with
  | target :: .string field :: value :: _ =>
    let result :=
      if value.isNullish then store.remove target field else store.write target field value
    match result with
    | .ok store => (.ok .undefined, store)
    | .error fault => (.error fault, store)
  | _ => (.error (.host name "expected an object, a field name and a value"), store)

end Host

/-- A build with hosts. -/
structure Machine where
  build : Build
  hosts : Table String Host := {}

namespace Machine

/-- Adds a host; one of the same name is replaced. -/
def addHost (m : Machine) (name : String) (host : Host) : Machine :=
  { m with hosts := m.hosts.insert name host }

/-- A machine with the primitives of optional slots. -/
def new (build : Build) : Machine :=
  let get := build.options.getOptional
  let set := build.options.setOptional
  (addHost { build } get (Host.getOptional get)).addHost set (Host.setOptional set)

/-- How many calls may be in progress. -/
def maxDepth : Nat := 256

/-- The state of a machine. -/
structure State where
  store : Store := {}
  statics : Table (Identity × String) Value := {}
  /-- What was stored in static fields, the latest first. -/
  stored : List StaticWrite := []
  /-- The types whose static initializers have been started. -/
  started : List Identity := []
  /-- The statements of static initializers that were begun, the latest first. -/
  begun : List (Identity × Statement) := []
  /-- The number of calls in progress. -/
  depth : Nat := 0
  /-- The calls of hosts, the latest first. -/
  calls : List HostCall := []
deriving Inhabited

/-- Stores a value in a static field. -/
def State.write (s : State) (w : StaticWrite) : State :=
  { s with statics := s.statics.insert (w.owner, w.name) w.value, stored := w :: s.stored }

/-- The method that a reference means. -/
def lookup (m : Machine) (method : MethodRef) : Except Fault Method :=
  match m.build.classes.get? method.owner with
  | none => .error (.unknownMethod method.signature.text)
  | some c =>
    let found :=
      if method.signature.isConstructor then c.constructor? method.signature
      else c.method? method.signature
    match found with
    | some method => .ok method
    | none => .error (.unknownMethod (c.name ++ "::" ++ method.signature.text))

/-- The statements of the static initializer of a type. -/
def initializer (m : Machine) (owner : Identity) : List Statement :=
  ((m.build.classes.get? owner).bind ClassRecord.initializer?).getD []

end Machine

/--
What a method sees when it is called. A callable body names its parameters; the
others are templates, with the receiver before the arguments.
-/
def Method.frame? (method : Method) (receiver : Option Value) (args : List Value) : Option Frame :=
  match method.kind with
  | .callable => some (Frame.bindAll { receiver } method.params args)
  | .inline | .direct | .stub | .remote _ _ => some { holes := receiver.toList ++ args }
  | .abstract | .noFallback | .generated _ _ => none

/-- An evaluation: it changes the state of a machine, also if it stops with a fault. -/
abbrev Eval := EStateM Fault Machine.State

namespace Eval

/-- A result that needs no state. -/
def lift {α : Type} : Except Fault α → Eval α
  | .ok a => pure a
  | .error fault => throw fault

/-- A result that depends on the store. -/
def ofStore {α : Type} (f : Store → Except Fault α) : Eval α := do
  lift (f (← get).store)

/-- Replaces the store. -/
def setStore (store : Store) : Eval Unit :=
  modify fun s => { s with store }

/-- Makes something in the store. -/
def alloc (f : Store → Value × Store) : Eval Value := do
  let (value, store) := f (← get).store
  setStore store
  return value

/-- An evaluation as one more call in progress. -/
def nested {α : Type} (x : Eval α) : Eval α := fun s =>
  match x { s with depth := s.depth + 1 } with
  | .ok a s => .ok a { s with depth := s.depth - 1 }
  | .error fault s => .error fault { s with depth := s.depth - 1 }

/-- Calls a host and keeps a record of the call. -/
def callHost (m : Machine) (name : String) (args : List Value) : Eval Value := do
  match m.hosts.get? name with
  | none => throw (.unknownGlobal name)
  | some host =>
    let s ← get
    let (result, store) := host s.calls args s.store
    set { s with store, calls := ⟨name, args, s.store⟩ :: s.calls }
    lift result

/-- Stores a static field. -/
def setStatic (owner : Identity) (name : String) (value : Value) : Eval Unit :=
  modify fun s => s.write ⟨owner, name, value, false⟩

/-- Fills a static field by the static initializer of its type. -/
def fillStatic (owner : Identity) (name : String) (value : Value) : Eval Unit :=
  modify fun s => s.write ⟨owner, name, value, true⟩

/-- Marks a type as started; the answer tells whether it was not started before. -/
def markStarted (owner : Identity) : Eval Bool := do
  let s ← get
  if owner ∈ s.started then return false
  set { s with started := owner :: s.started }
  return true

/-- Records that a statement of the static initializer of a type begins. -/
def beginStatement (owner : Identity) (statement : Statement) : Eval Unit :=
  modify fun s => { s with begun := (owner, statement) :: s.begun }

end Eval

end Memberwise
