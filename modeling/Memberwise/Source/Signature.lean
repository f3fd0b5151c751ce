import Memberwise.Source.Ty

/-!
# Signatures

The signature of a method or constructor is its name, its parameter types, its
result and its number of type parameters. Overloads are apart by signature. The
identity of a member leaves the result out.
-/

namespace Memberwise

/-- The structural identity of a method or constructor within its type. -/
structure Signature where
  name : String
  params : List Ty
  result : Ty
  arity : Nat := 0
deriving DecidableEq, Repr, Inhabited

namespace Signature

/-- The name all constructors have. -/
def constructorName : String := ".ctor"

/-- The signature of a constructor. -/
def constructor (params : List Ty) : Signature := ⟨constructorName, params, Ty.void, 0⟩

/-- The signature of a property's getter. -/
def getter (property : String) (type : Ty) : Signature := ⟨"get_" ++ property, [], type, 0⟩

/-- The signature of a property's setter. -/
def setter (property : String) (type : Ty) : Signature := ⟨"set_" ++ property, [type], Ty.void, 0⟩

def isConstructor (s : Signature) : Bool := s.name == constructorName

/-- The identity of the member with this signature in a type. -/
def identity (s : Signature) (owner : Identity) : Identity :=
  Identity.ofMember owner s.name (s.params.map Ty.identity) s.arity

/-- A signature as text, with the number of type parameters only if there are any. -/
def text (s : Signature) : String :=
  let arity := if s.arity = 0 then "" else "`" ++ Nat.repr s.arity
  s.name ++ arity ++ "(" ++ ", ".intercalate (s.params.map Ty.text) ++ "): " ++ s.result.text

/-- Signatures are ordered by name, parameters, result and arity. -/
def compare (a b : Signature) : Ordering :=
  (Ord.compare a.name b.name).then <| (Ty.compareAll a.params b.params).then <|
    (a.result.compare b.result).then <| Ord.compare a.arity b.arity

end Signature

/-- A member of a type, named by the type's identity and the member's signature. -/
structure MethodRef where
  owner : Identity
  signature : Signature
deriving DecidableEq, Repr, Inhabited

/-- Members are ordered by owner, then by signature. -/
def MethodRef.compare (a b : MethodRef) : Ordering :=
  (a.owner.compare b.owner).then (a.signature.compare b.signature)

end Memberwise
