import Memberwise.Build.Basic

/-!
# Output names

After an assembly has been compiled, its types and members get their output
names. In each scope the names that were asked for come first, in order; the
others follow, each derived from the source name. A derived name that is taken
gets the first numbered suffix that makes it free.
-/

namespace Memberwise

/-- A source name without the characters that no output name may have. -/
def mangle (name : String) : String :=
  String.ofList (name.toList.map fun c =>
    if c = '+' || c = '\x60' || c = '<' || c = '>' then '_' else c)

/-- Something that needs a name in a scope. -/
structure Nameable (κ : Type) where
  key : κ
  source : String
  /-- The name that was asked for. -/
  explicit : Option String
  span : Span

namespace Scope

/-- A base name with a numbered suffix. -/
def suffixed (base : String) (n : Nat) : String := base ++ "$" ++ Nat.repr n

/--
The first free name among the base and its suffixed forms. Of one more suffixed
forms than there are taken names at least one is free.
-/
def derive (taken : List String) (base : String) : String :=
  if base ∈ taken then
    let n := (List.range' 1 taken.length).find? fun n => suffixed base n ∉ taken
    suffixed base (n.getD (taken.length + 1))
  else base

/-- The names of a scope while they are being assigned. -/
structure State (κ : Type) where
  taken : List String
  names : Table κ String := {}
  /-- The requests that came too late. -/
  collisions : List CompileError := []

variable {κ : Type} [DecidableEq κ]

/-- Grants the name that was asked for, if it is free. -/
def claimExplicit (scope : String) (s : State κ) (entry : Nameable κ) : State κ :=
  match entry.explicit with
  | none => s
  | some name =>
    if name ∈ s.taken then
      { s with collisions := s.collisions ++ [.nameCollision name scope entry.span] }
    else { s with taken := name :: s.taken, names := s.names.insert entry.key name }

/-- Derives a name for what has none yet. -/
def claimDerived (s : State κ) (entry : Nameable κ) : State κ :=
  if s.names.contains entry.key then s
  else
    let name := derive s.taken (mangle entry.source)
    { s with taken := name :: s.taken, names := s.names.insert entry.key name }

/-- Assigns names to all entries of a scope in which some names are taken. -/
def assign (scope : String) (taken : List String) (entries : List (Nameable κ)) : State κ :=
  entries.foldl claimDerived (entries.foldl (claimExplicit scope) { taken })

end Scope

/-- The name that a member needs. Members that replace their calls need none. -/
def Member.nameable? (m : Member) : Option (Nameable MemberKey) :=
  let ofMethod (source : String) (r : Method) : Option (Nameable MemberKey) :=
    if r.kind.isInline then none else some ⟨m.key, source, r.name, r.span⟩
  match m with
  | .method signature r => ofMethod signature.name r
  | .constructor _ r => ofMethod "New" r
  | .field f => some ⟨m.key, f.name, none, {}⟩
  | .initializer _ => none

/-- The names that the members of a class need. -/
def ClassRecord.nameables (c : ClassRecord) : List (Nameable MemberKey) :=
  c.members.filterMap Member.nameable?

/-- The names that the methods of an interface need. -/
def InterfaceRecord.nameables (i : InterfaceRecord) : List (Nameable MemberKey) :=
  i.methods.map fun m => ⟨.method m.signature, m.signature.name, m.name, i.span⟩

namespace Build

/-- The names that the types of a build need, classes first. -/
def nameables (b : Build) : List (Nameable Identity) :=
  (b.classes.values.map fun c => ⟨c.id, c.name, c.strongName, c.span⟩) ++
    b.interfaces.values.map fun i => ⟨i.id, i.name, i.strongName, i.span⟩

/-- The scopes of the members of each type, classes first. -/
def memberScopes (b : Build) : List (Identity × String × List (Nameable MemberKey)) :=
  (b.classes.values.map fun c => (c.id, c.name, c.nameables)) ++
    b.interfaces.values.map fun i => (i.id, i.name, i.nameables)

/-- The names of types; those of earlier assemblies are taken. -/
def typeNames (b : Build) : Scope.State Identity :=
  Scope.assign "assembly" b.prior.outputNames b.nameables

/-- The names of the members of a type. -/
def memberNames (typeName : String) (entries : List (Nameable MemberKey)) :
    Scope.State MemberKey :=
  Scope.assign s!"type '{typeName}'" [] entries

/-- Assigns all output names and reports collisions. A build that has names keeps them. -/
def resolve (b : Build) : Build :=
  if b.isResolved then b
  else
    let types := b.typeNames
    let scopes := b.memberScopes.map fun (id, name, entries) => (id, memberNames name entries)
    let members := scopes.flatMap fun (id, scope) =>
      scope.names.entries.map fun (key, name) => ((id, key), name)
    let collisions := types.collisions ++ scopes.flatMap fun (_, scope) => scope.collisions
    let names : Names := { types := types.names, members := ({} : Table _ _).insertAll members }
    { collisions.foldl error b with names := some names }

end Build

end Memberwise
