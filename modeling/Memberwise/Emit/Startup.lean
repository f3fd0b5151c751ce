import Memberwise.Emit.Body
import Memberwise.Output.Class

/-!
# Startup types

The top-level values of a file live in one synthesized type. A value is a static
field, filled by a statement of the type's static initializer in source order,
and read through a getter that first starts the initializer. A constant needs
neither field nor statement.
-/

namespace Memberwise

/-- The startup type of a file while its values are being collected. -/
structure Startup where
  name : String
  /-- Absent until the first value arrives. -/
  type : Option ClassRecord := none
  statements : List Statement := []
deriving Inhabited

namespace Startup

/-- A text with everything but letters, digits and underscores replaced by underscores. -/
def foldName (s : String) : String :=
  String.ofList (s.toList.map fun c => if c.isAlphanum || c = '_' then c else '_')

/-- A path without its extension. A point at the very start or before a separator begins none. -/
def stem (path : String) : String :=
  let reversed := path.toList.reverse
  let extension := reversed.takeWhile (· ≠ '.')
  match reversed.dropWhile (· ≠ '.') with
  | _ :: front =>
    if front.isEmpty || extension.any (fun c => c = '/' || c = '\\') then path
    else String.ofList front.reverse
  | [] => path

/-- The name of the startup type of a file. -/
def typeName (assembly path : String) : String :=
  "StartupCode$" ++ foldName assembly ++ "$" ++ foldName (stem path)

/-- The startup type of a file without any values. -/
def new (assembly path : String) : Startup := { name := typeName assembly path }

def id (s : Startup) : Identity := Identity.ofName s.name

/-- The type as it stands; a new one starts at the given span. -/
def typeAt (s : Startup) (span : Span) : ClassRecord :=
  s.type.getD { name := s.name, id := s.id, kind := .module, span }

/-- The getter of a value. -/
def getter (b : Binding) (m : Marking) (body : Expr) : Member :=
  .method (.getter b.name b.type) {
    kind := .inline, body
    isStatic := true
    isPure := m.isPure
    name := m.name
    span := b.span }

/-- The setter of a value. -/
def setter (b : Binding) (body : Expr) : Member :=
  .method (.setter b.name b.type) {
    kind := .inline, body
    params := ["value"]
    isStatic := true
    span := b.span }

/-- The field, the getter and, for a mutable value, the setter. -/
def fieldMembers (owner : Identity) (b : Binding) (m : Marking) : List Member :=
  let read : Expr := .seq [.start owner, .static owner b.name]
  let write : Expr := .seq [.start owner, .setStatic owner b.name (.hole 0)]
  .field { name := b.name, type := b.type, isStatic := true } :: getter b m read ::
    if b.isMutable then [setter b write] else []

/-- Adds members until one is refused; those before it stay. -/
def addMembers (type : ClassRecord) (span : Span) :
    List Member → ClassRecord × Except CompileError Unit
  | [] => (type, .ok ())
  | member :: rest =>
    match type.add member span with
    | .error e => (type, .error e)
    | .ok type => addMembers type span rest

/-- Adds a value that lives in a static field. -/
def addField (s : Startup) (b : Binding) (m : Marking) : Startup × Except CompileError Unit :=
  match checkBody b.name b.value b.span with
  | .error e => (s, .error e)
  | .ok () =>
    match addMembers (s.typeAt b.span) b.span (fieldMembers s.id b m) with
    | (type, .error e) => ({ s with type := some type }, .error e)
    | (type, .ok ()) =>
      ({ s with type := some type, statements := s.statements ++ [.init b.name b.value] }, .ok ())

/-- Adds a value that is a constant. -/
def addConstant (s : Startup) (b : Binding) (m : Marking) (value : Literal) :
    Startup × Except CompileError Unit :=
  let (type, result) := addMembers (s.typeAt b.span) b.span [getter b m (.literal value)]
  ({ s with type := some type }, result)

/--
Adds a top-level value as its marking asks for it. A value that nobody asked to
emit is left out, and only compiled values and constants are possible.
-/
def add (s : Startup) (b : Binding) (m : Marking) : Startup × Except CompileError Unit :=
  match m.treatment with
  | none => (s, .ok ())
  | some .compiled => s.addField b m
  | some (.constant value) => s.addConstant b m value
  | some (.conflict first second) =>
    (s, .error (.attributeConflict b.name (Treatment.conflictMessage first second) b.span))
  | some other =>
    (s, .error (.illegalTreatment other.name b.name
      "top-level values can only be translated or constant" b.span))

/-- The finished type, if any value was added. -/
def finish (s : Startup) : Option ClassRecord :=
  s.type.map fun type =>
    if s.statements.isEmpty then type
    else { type with members := type.members ++ [.initializer s.statements] }

end Startup

end Memberwise
