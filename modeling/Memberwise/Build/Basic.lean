import Memberwise.Options
import Memberwise.Output.Class
import Memberwise.Snapshot

/-!
# Builds

A build is all that the compilation of one assembly produces: the emitted types
and tables beside them. Earlier assemblies are seen only through a snapshot.
-/

namespace Memberwise

/-- The output names of types and members. -/
structure Names where
  types : Table Identity String := {}
  members : Table (Identity × MemberKey) String := {}
deriving Inhabited

/-- The state of a compilation. -/
structure Build where
  options : Options := {}
  /-- What earlier assemblies define. -/
  prior : Snapshot := {}
  classes : Table Identity ClassRecord := {}
  interfaces : Table Identity InterfaceRecord := {}
  /-- Resource types with their names. -/
  resources : List (Identity × String) := []
  proxies : Table Identity Identity := {}
  report : Report := {}
  graph : Graph := {}
  entryPoint : Option Statement := none
  remotes : Table MethodRef RemoteHandle := {}
  /-- The file that diagnostics belong to. -/
  file : Option String := none
  /-- The output names, once they have been assigned. -/
  names : Option Names := none
deriving Inhabited

namespace Build

/-- A build before anything has been compiled. -/
def new (prior : Snapshot) (options : Options) : Build := { options, prior }

/-- Whether an identity is taken by a type of this assembly. -/
def declares (b : Build) (id : Identity) : Bool :=
  b.classes.contains id || b.interfaces.contains id ||
    b.resources.any fun resource => resource.1 = id

/-- Accepts an identity that is free. -/
def checkNew (b : Build) (id : Identity) (name : String) (span : Span) :
    Except CompileError Unit :=
  if b.declares id then .error (.duplicateType name span) else .ok ()

/-- Registers a class. -/
def addClass (b : Build) (c : ClassRecord) : Except CompileError Build := do
  b.checkNew c.id c.name c.span
  return { b with classes := b.classes.insert c.id c }

/-- Registers an interface. -/
def addInterface (b : Build) (i : InterfaceRecord) : Except CompileError Build := do
  b.checkNew i.id i.name i.span
  return { b with interfaces := b.interfaces.insert i.id i }

/-- Registers a resource type. -/
def addResource (b : Build) (id : Identity) (name : String) (span : Span) :
    Except CompileError Build := do
  b.checkNew id name span
  return { b with resources := b.resources ++ [(id, name)] }

/-- Whether a type is a resource of this assembly or an earlier one. -/
def isResource (b : Build) (id : Identity) : Bool :=
  (b.resources.any fun resource => resource.1 = id) || b.prior.isResource id

/-- The class with a qualified name. -/
def classNamed? (b : Build) (name : String) : Option ClassRecord :=
  b.classes.get? (Identity.ofName name)

/-! ## Proxies -/

/-- Lets a type stand in for another one. -/
def addProxy (b : Build) (proxy target : Identity) : Build :=
  { b with proxies := b.proxies.insert proxy target }

/-- What a type stands in for; this assembly is asked before earlier ones. -/
def proxyTarget? (b : Build) (id : Identity) : Option Identity :=
  (b.proxies.get? id).or (b.prior.proxies.get? id)

/--
Follows proxies for a number of steps, until one has no target or leads back to
one that was passed.
-/
def followProxies (b : Build) : Nat → (passed : List Identity) → Identity → Identity
  | 0, _, id => id
  | steps + 1, passed, id =>
    match b.proxyTarget? id with
    | none => id
    | some target =>
      if target ∈ passed then id else b.followProxies steps (id :: passed) target

/-- The end of the chain of proxies from a type. Each step passes another proxy. -/
def resolveProxy (b : Build) (id : Identity) : Identity :=
  b.followProxies (b.proxies.size + b.prior.proxies.size + 1) [] id

/-! ## Diagnostics -/

/-- Reports an error in the file at hand. -/
def error (b : Build) (e : CompileError) : Build :=
  { b with report := b.report.push (.ofError e b.file) }

/-- Reports a warning in the file at hand. -/
def warning (b : Build) (w : CompileWarning) : Build :=
  { b with report := b.report.push (.ofWarning w b.file) }

def hasErrors (b : Build) : Bool := b.report.hasErrors

@[simp]
theorem hasErrors_error (b : Build) (e : CompileError) : (b.error e).hasErrors = true := by
  simp [hasErrors, error, Report.hasErrors, Report.errorCount, Report.errors, Report.push,
    Diagnostic.ofError, Diagnostic.isError]

@[simp]
theorem hasErrors_warning (b : Build) (w : CompileWarning) :
    (b.warning w).hasErrors = b.hasErrors := by
  simp [hasErrors, warning, Report.hasErrors, Report.errorCount, Report.errors, Report.push,
    Diagnostic.ofWarning, Diagnostic.isError]

/-- The outcome of a step that may fail: a failure is reported, and nothing else changes. -/
def attempt (b : Build) : Except CompileError Build → Build × Bool
  | .ok next => (next, true)
  | .error e => (b.error e, false)

/-! ## Other tables -/

/-- Sets the entry point; a later one replaces it. -/
def setEntryPoint (b : Build) (statement : Statement) : Build :=
  { b with entryPoint := some statement }

/-- Records the handle of a remote method. -/
def addRemote (b : Build) (method : MethodRef) (handle : RemoteHandle) : Build :=
  { b with remotes := b.remotes.insert method handle }

/-- Changes the dependency graph. -/
def mapGraph (b : Build) (f : Graph → Graph) : Build := { b with graph := f b.graph }

/-! ## Output names -/

def isResolved (b : Build) : Bool := b.names.isSome

/-- The output name of a type, once assigned. -/
def outputName? (b : Build) (id : Identity) : Option String :=
  b.names.bind fun names => names.types.get? id

/-- The output name of a member, once assigned; what replaces its calls has none. -/
def memberName? (b : Build) (owner : Identity) (key : MemberKey) : Option String :=
  b.names.bind fun names => names.members.get? (owner, key)

/-- What a later assembly sees of a type. -/
def entryOf (b : Build) (id : Identity) (name : String) : TypeEntry :=
  ⟨name, (b.outputName? id).getD name, b.options.assemblyName⟩

/-- What later assemblies see of this one. -/
def snapshot (b : Build) : Snapshot where
  assemblies := [b.options.assemblyName]
  classes := ({} : Table _ _).insertAll (b.classes.values.map fun c => (c.id, b.entryOf c.id c.name))
  interfaces :=
    ({} : Table _ _).insertAll (b.interfaces.values.map fun i => (i.id, b.entryOf i.id i.name))
  proxies := b.proxies
  resources := b.resources.map Prod.fst
  graph := b.graph

end Build

end Memberwise
