import Memberwise.Build.Basic
import Memberwise.Emit.Member
import Memberwise.Emit.Record
import Memberwise.Emit.Startup

/-!
# Walking an assembly

One walk over the declarations fills a build. Nothing stops it: a member that
cannot be emitted leaves an error and a placeholder, and a type that is declared
twice is skipped with all that is nested in it.
-/

namespace Memberwise

/-- How much a walk has done. -/
structure Tally where
  types : Nat := 0
  resources : Nat := 0
  members : Nat := 0
  failed : Nat := 0
  startupTypes : Nat := 0
deriving DecidableEq, Repr, Inhabited

/-- A build with the startup type of the file at hand. -/
structure Walk where
  build : Build
  startup : Startup
  tally : Tally := {}
deriving Inhabited

namespace Walk

/-- Reports an error. -/
def error (w : Walk) (e : CompileError) : Walk := { w with build := w.build.error e }

/-- Counts a declaration that could not be emitted, and reports why. -/
def fail (w : Walk) (e : CompileError) : Walk :=
  { w.error e with tally := { w.tally with failed := w.tally.failed + 1 } }

end Walk

/-! ## Members -/

/-- The marking of the last getter of a property among some members. -/
def getterMarking? (type : Marking) (members : List MemberDecl) (property : String) :
    Option Marking :=
  (members.reverse.find? fun d => d.form = .getter property).map fun d => type.within d.attributes

/-- The marking of a member in its type; setters look at their getters. -/
def memberMarking (type : Marking) (members : List MemberDecl) (d : MemberDecl) : Marking :=
  let own := type.within d.attributes
  match d.form with
  | .setter property =>
    match getterMarking? type members property with
    | some getter => own.followGetter getter
    | none => own
  | _ => own

/-- The handle that a member has if it is remote. -/
def Member.remoteHandle? (m : Member) : Option RemoteHandle :=
  match m.method? with
  | some { kind := .remote _ handle, .. } => some handle
  | _ => none

namespace Build

/-- Makes a member the entry point, which only a static method can be. -/
def registerEntryPoint (b : Build) (owner : Identity) (d : MemberDecl) : Build :=
  if d.form = .method && d.isStatic then
    (b.setEntryPoint (.expr (.call none ⟨owner, d.signature⟩ []))).mapGraph
      fun g => g.addEntryPoint owner (d.signature.identity owner)
  else
    b.error (.illegalTreatment "EntryPoint" d.name "entry point must be a static method" d.span)

/-- Records the handle of a member that is remote. -/
def registerRemote (b : Build) (owner : Identity) (d : MemberDecl) (member : Member) : Build :=
  match member.remoteHandle? with
  | some handle => b.addRemote ⟨owner, d.signature⟩ handle
  | none => b

/-- Enters what a member requires into the dependency graph. -/
def registerRequired (b : Build) (owner : Identity) (d : MemberDecl) (m : Marking) : Build :=
  if m.requires.isEmpty then b
  else b.mapGraph fun g =>
    g.addMethod owner (d.signature.identity owner) (m.requires.map Ty.identity)

/-- Enters a member that was added to its class into the tables beside the classes. -/
def register (b : Build) (owner : Identity) (d : MemberDecl) (m : Marking) (member : Member) :
    Build :=
  let b := (b.registerRemote owner d member).registerRequired owner d m
  if m.isEntryPoint then b.registerEntryPoint owner d else b

end Build

namespace Walk

/-- Adds an emitted member to its class and registers it, unless its key is taken. -/
def addMember (w : Walk) (c : ClassRecord) (d : MemberDecl) (m : Marking) (member : Member) :
    Walk × ClassRecord :=
  match c.add member d.span with
  | .error e => (w.error e, c)
  | .ok next => ({ w with build := w.build.register c.id d m member }, next)

/-- Emits a member into its class. -/
def member (w : Walk) (owner : Owner) (type : Marking) (members : List MemberDecl)
    (c : ClassRecord) (d : MemberDecl) : Walk × ClassRecord :=
  let m := memberMarking type members d
  match d.emit w.build.options owner m with
  | .ok none => (w, c)
  | .ok (some member) =>
    let w := { w with tally := { w.tally with members := w.tally.members + 1 } }
    w.addMember c d m member
  | .error e => (w.fail e).addMember c d m (d.placeholder e)

/-- Emits the members of a type into its class. -/
def members (w : Walk) (owner : Owner) (type : Marking) (ds : List MemberDecl)
    (c : ClassRecord) : Walk × ClassRecord :=
  ds.foldl (fun (w, c) d => w.member owner type ds c d) (w, c)

/-- Adds a top-level value to the startup type of the file. -/
def binding (type : Marking) (w : Walk) (b : Binding) : Walk :=
  let (startup, result) := w.startup.add b (type.within b.attributes)
  let w := { w with startup }
  match result with
  | .ok () => w
  | .error e => w.fail e

end Walk

/-! ## Types -/

namespace TypeHead

def id (h : TypeHead) : Identity := Identity.ofName h.name

/-- What the class of a type is. -/
def classKind (h : TypeHead) : ClassKind :=
  match h.form with
  | .module => .module
  | .union _ | .record _ => .algebraic
  | .ordinary | .interface => .ordinary

/-- The class of a type before its members are emitted. -/
def newClass (h : TypeHead) (m : Marking) : ClassRecord where
  name := h.name
  id := h.id
  kind := h.classKind
  span := h.span
  base := h.base.map Ty.identity
  strongName := m.name
  isProxy := m.proxyOf.isSome
  requires := m.requires.map Ty.identity

/-- The owner of the members of a type. -/
def owner (h : TypeHead) (m : Marking) : Owner := ⟨h.id, h.name, m.name.getD h.name⟩

/-- The class with the members that its form brings, if the type is compiled. -/
def augment (h : TypeHead) (o : Options) (m : Marking) (c : ClassRecord) : ClassRecord :=
  if m.isCompiled then
    match h.form with
    | .union cases =>
      { c.addFree (UnionCase.members o m (Ty.named h.name) cases) with
        shape := some (.union (UnionCase.shapes o m cases)) }
    | .record fields =>
      let slots := fields.map (RecordField.slot m)
      { c.addFree (RecordSlot.members o slots) with shape := some (.record slots) }
    | _ => c
  else c

/-- The interface that a type declares. -/
def newInterface (h : TypeHead) (m : Marking) : InterfaceRecord where
  name := h.name
  id := h.id
  span := h.span
  strongName := m.name
  parents := h.interfaces.map Ty.identity
  methods := h.members.map fun d => ⟨d.signature, (m.within d.attributes).name⟩

end TypeHead

namespace Walk

/-- Enters a proxy; it should not be visible everywhere. -/
def proxy (w : Walk) (h : TypeHead) (m : Marking) : Walk :=
  match m.proxyOf with
  | none => w
  | some target =>
    let build := w.build.addProxy h.id target.identity
    let build :=
      if h.visibility = .exported then build.warning (.publicProxy h.name h.span) else build
    { w with build }

/-- Compiles the members of a type into its class and its values into the startup type. -/
def contents (w : Walk) (h : TypeHead) (m : Marking) : Walk × ClassRecord :=
  let (w, c) := (w.proxy h m).members (h.owner m) m h.members (h.newClass m)
  (h.bindings.foldl (binding m) w, c)

/-- Compiles a class. The flag tells whether it was registered. -/
def classType (w : Walk) (h : TypeHead) (m : Marking) : Walk × Bool :=
  let (w, c) := w.contents h m
  let (build, added) := w.build.attempt (w.build.addClass (h.augment w.build.options m c))
  ({ w with build }, added)

/-- Compiles an interface. The flag tells whether it was registered. -/
def interfaceType (w : Walk) (h : TypeHead) (m : Marking) : Walk × Bool :=
  let (build, added) := w.build.attempt (w.build.addInterface (h.newInterface m))
  ({ w with build }, added)

/-- Compiles a class or an interface. The flag tells whether it was registered. -/
def classOrInterface (w : Walk) (h : TypeHead) (m : Marking) : Walk × Bool :=
  match h.form with
  | .interface => w.interfaceType h m
  | _ => w.classType h m

/-- Compiles a type that is no resource. The flag tells whether it was registered. -/
def plainType (w : Walk) (h : TypeHead) (m : Marking) : Walk × Bool :=
  let (w, added) := w.classOrInterface h m
  if added then
    ({ w with
        build := w.build.mapGraph fun g =>
          g.addRequiring (.type h.id) (m.requires.map Ty.identity)
        tally := { w.tally with types := w.tally.types + 1 } }, true)
  else (w, false)

/-- Registers a resource. The flag tells whether it was registered. -/
def resourceType (w : Walk) (h : TypeHead) (m : Marking) : Walk × Bool :=
  let (build, added) := w.build.attempt (w.build.addResource h.id h.name h.span)
  let w := { w with build }
  if added then
    ({ w with
        build := w.build.mapGraph fun g =>
          g.addRequiring (.resource h.id) (m.requires.map Ty.identity)
        tally := { w.tally with resources := w.tally.resources + 1 } }, true)
  else (w, false)

/-- Warns of a type that was recovered from compiled code. -/
def reflected (w : Walk) (h : TypeHead) : Walk :=
  if h.isReflected then
    { w with build := w.build.warning (.reflectedDefinition h.name h.span) }
  else w

/-- Compiles a type without what is nested in it. The flag tells whether it was registered. -/
def typeHead (w : Walk) (h : TypeHead) (m : Marking) : Walk × Bool :=
  if w.build.declares h.id then (w.error (.duplicateType h.name h.span), false)
  else if h.isResource then (w.reflected h).resourceType h m
  else (w.reflected h).plainType h m

mutual

/-- Compiles a type and then the types nested in it. -/
def typeDecl (enclosing : Marking) (w : Walk) : TypeDecl → Walk
  | ⟨h, nested⟩ =>
    let m := enclosing.within h.attributes
    let (w, added) := w.typeHead h m
    if added then typeDecls m w nested else w
termination_by structural t => t

/-- Compiles types in order. -/
def typeDecls (enclosing : Marking) (w : Walk) : List TypeDecl → Walk
  | [] => w
  | t :: ts => typeDecls enclosing (typeDecl enclosing w t) ts
termination_by structural ts => ts

end

end Walk

/-! ## Files -/

namespace Build

/-- Registers the startup type of a file, if there is one. -/
def addStartup (b : Build) (tally : Tally) (startup : Startup) : Build × Tally :=
  match startup.finish with
  | none => (b, tally)
  | some type =>
    match b.addClass type with
    | .ok b =>
      (b.mapGraph fun g => g.addRequiring (.type type.id) [],
        { tally with startupTypes := tally.startupTypes + 1 })
    | .error e => (b.error e, tally)

/-- Compiles a file. -/
def compileFile (b : Build) (tally : Tally) (file : SourceFile) : Build × Tally :=
  let w : Walk := {
    build := { b with file := some file.path }
    startup := .new b.options.assemblyName file.path
    tally }
  let w := Walk.typeDecls {} w file.types
  w.build.addStartup w.tally w.startup

/-- Compiles the files of an assembly in order. -/
def compileFiles (b : Build) (assembly : Assembly) : Build × Tally :=
  let (b, tally) := assembly.files.foldl (fun (b, tally) file => b.compileFile tally file) (b, {})
  ({ b with file := none }, tally)

end Build

end Memberwise
