import Memberwise.Source.Expr
import Memberwise.Source.Span

/-!
# Declarations

An assembly is a list of source files, and a file a list of type declarations.
Attributes on types, members and top-level values say how they are emitted.
-/

namespace Memberwise

/-- An attribute of a declaration. -/
inductive Attribute where
  /-- Asks for a declaration to be compiled from its source, or excludes it. -/
  | javaScript (enabled : Bool)
  /-- Replaces calls by a template, or by the compiled body if there is none. -/
  | inline (code : Option String)
  /-- A callable whose body is a template. -/
  | direct (code : String)
  | constant (value : Literal)
  /-- Forwards to a function of the same name in the outside world. -/
  | stub
  /-- Must not be called. -/
  | noFallback
  /-- A property whose slot is left out while it has no value. -/
  | optionalField
  /-- Runs on a server, under an access policy if one is given. -/
  | remote (policy : Option String)
  /-- The body comes from a generator. -/
  | generated (generator : Ty) (parameter : Option Literal)
  | name (name : String)
  | require (resource : Ty)
  /-- Calls are expanded by a type of the compiler's user. -/
  | expand (expander : Ty) (parameter : Option Literal)
  | pure
  | entryPoint
  /-- The type stands in for another one. -/
  | proxy (target : Ty)
  | dateFormat (field format : String)
  /-- An attribute without a meaning here. -/
  | other (name : String)
deriving Inhabited

/-- A named parameter. -/
structure Param where
  name : String
  type : Ty
deriving DecidableEq, Repr, Inhabited

/-- What a declared member is. -/
inductive MemberForm where
  | method
  | constructor
  | getter (property : String)
  | setter (property : String)
deriving DecidableEq, Repr, Inhabited

/-- The modifiers of a declared member. -/
structure Modifiers where
  isStatic : Bool := false
  isAbstract : Bool := false
  isOverride : Bool := false
  /-- The member implements one of an interface. -/
  implements : Bool := false
deriving DecidableEq, Repr, Inhabited

/-- A declared member. -/
structure MemberDecl where
  name : String
  form : MemberForm
  params : List Param
  result : Ty
  arity : Nat := 0
  modifiers : Modifiers := {}
  attributes : List Attribute := []
  body : Option Expr := none
  /-- The type whose member is overridden. -/
  overrides : Option Ty := none
  span : Span := {}
deriving Inhabited

namespace MemberDecl

/-- A method. -/
def method (name : String) (params : List Param) (result : Ty) : MemberDecl :=
  { name, form := .method, params, result }

/-- A constructor. -/
def constructor (params : List Param) : MemberDecl :=
  { name := Signature.constructorName, form := .constructor, params, result := Ty.void }

/-- The getter of a property. -/
def getter (property : String) (type : Ty) : MemberDecl :=
  { name := "get_" ++ property, form := .getter property, params := [], result := type }

/-- The setter of a property. -/
def setter (property : String) (type : Ty) : MemberDecl :=
  { name := "set_" ++ property, form := .setter property, params := [⟨"value", type⟩],
    result := Ty.void }

def isStatic (d : MemberDecl) : Bool := d.modifiers.isStatic

/-- The signature of the member. -/
def signature (d : MemberDecl) : Signature :=
  ⟨d.name, d.params.map Param.type, d.result, d.arity⟩

/-- The names of the parameters. -/
def paramNames (d : MemberDecl) : List String := d.params.map Param.name

/-- Whether calls bring a receiver; those of static members and constructors do not. -/
def hasReceiver (d : MemberDecl) : Bool := !d.isStatic && d.form != .constructor

end MemberDecl

/-- A case of a union. -/
structure UnionCase where
  name : String
  fields : List Param
  attributes : List Attribute := []
deriving Inhabited

/-- A field of a record. -/
structure RecordField where
  name : String
  type : Ty
  isMutable : Bool := false
  attributes : List Attribute := []
deriving Inhabited

/-- A top-level value. -/
structure Binding where
  name : String
  type : Ty
  value : Expr
  isMutable : Bool := false
  attributes : List Attribute := []
  span : Span := {}
deriving Inhabited

/-- What a declared type is. -/
inductive TypeForm where
  | ordinary
  | interface
  | module
  | union (cases : List UnionCase)
  | record (fields : List RecordField)
deriving Inhabited

/-- Who may use a type. -/
inductive Visibility where
  | exported
  | internal
  | hidden
deriving DecidableEq, Repr, Inhabited

/-- A type declaration without the types nested in it. -/
structure TypeHead where
  name : String
  form : TypeForm
  attributes : List Attribute := []
  base : Option Ty := none
  interfaces : List Ty := []
  members : List MemberDecl := []
  bindings : List Binding := []
  visibility : Visibility := .exported
  /-- The type stands for something to be loaded, such as a script. -/
  isResource : Bool := false
  /-- The declaration was recovered from compiled code. -/
  isReflected : Bool := false
  span : Span := {}
deriving Inhabited

/-- A type declaration. -/
structure TypeDecl where
  head : TypeHead
  nested : List TypeDecl
deriving Inhabited

/-- A source file. -/
structure SourceFile where
  path : String
  types : List TypeDecl
deriving Inhabited

/-- A unit of compilation. -/
structure Assembly where
  name : String
  files : List SourceFile
deriving Inhabited

end Memberwise
