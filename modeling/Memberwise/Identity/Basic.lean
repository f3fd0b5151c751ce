import Memberwise.Identity.Digest
import Memberwise.Text.Quoted

/-!
# Identities

Types, members and remote handles are known by a 64-bit identity. It is made
from the digest of a name and from the identities of the parts, each mixed with
a marker of its position, so that the order of the parts counts. Each kind of
thing brings its own salt.
-/

namespace Memberwise

/-- The identity of a type, a member or a remote handle. -/
structure Identity where
  bits : UInt64
deriving DecidableEq, Repr, Inhabited

namespace Identity

/-- The odd multiplier between two positions. -/
def separator : UInt64 := 0x4bc94d6bd06053ad

def typeSalt : UInt64 := 0x2fac10b63a6cc57c
def memberSalt : UInt64 := 0x7d3c8b4a92e15f6d
def instanceSalt : UInt64 := 0x3e9f5d2a8c7b1403
def remoteSalt : UInt64 := 0x9a7f3d5e2b8c4601

/-- The markers of the first sixteen positions. -/
def markers : List UInt64 := [
  0x9e3779b97f4a7c15, 0xbf58476d1ce4e5b9, 0x94d049bb133111eb, 0xd6e8feb86659fd93,
  0xe7037ed1a0b428db, 0xc6a4a7935bd1e995, 0x8648dbbc94d49b8d, 0xa2b48b2c69e0d657,
  0x7c3e9f2a5b8d1403, 0x5d8c7b4a3e9f2106, 0x3f1e9d8c7b5a4203, 0x1a2b3c4d5e6f7089,
  0x9f8e7d6c5b4a3210, 0x2468ace013579bdf, 0xfdb97531eca86420, 0x123456789abcdef0]

/-- The marker of a position; later ones count on from the first. -/
def marker (position : Nat) : UInt64 :=
  markers.getD position (0x9e3779b97f4a7c15 + UInt64.ofNat position)

/-- Mixes the parts into a state, the first of them at the given position. -/
def mixFrom (position : Nat) (state : UInt64) : List Identity → UInt64
  | [] => state
  | part :: parts =>
    mixFrom (position + 1) (state * separator + (marker position ^^^ part.bits)) parts

/-- Mixes parts into a state, in order. -/
def mix (state : UInt64) (parts : List Identity) : UInt64 := mixFrom 0 state parts

/-- The identity of the type with a qualified name. -/
def ofName (name : String) : Identity := ⟨typeSalt ^^^ Digest.ofText name 0⟩

/-- The identity of a generic definition applied to arguments; without any it is the definition's. -/
def ofInstance (definition : Identity) (args : List Identity) : Identity :=
  if args.isEmpty then definition else ⟨mix (definition.bits ^^^ instanceSalt) args⟩

/-- The identity of a member by owner, name, parameter types and number of type parameters. -/
def ofMember (owner : Identity) (name : String) (params : List Identity) (arity : Nat) : Identity :=
  ⟨mix (memberSalt ^^^ owner.bits ^^^ Digest.ofText name (UInt64.ofNat arity)) params⟩

/-- The identity that an assembly answers remote calls of a member under. -/
def ofRemote (assembly : String) (member : Identity) : Identity :=
  ⟨mix (remoteSalt ^^^ Digest.ofText assembly 0) [member]⟩

/-- The sixteen hexadecimal digits. -/
def digits (i : Identity) : String := Text.hex16 i.bits

/-- The identity as a hexadecimal number. -/
def text (i : Identity) : String := "0x" ++ i.digits

/-- The identity with the name of its kind, for inspection. -/
def inspect (i : Identity) : String := "TypeHash(" ++ i.text ++ ")"

/-- Whether this is the identity of nothing. -/
def isEmpty (i : Identity) : Bool := i.bits == 0

/-- Identities are ordered as numbers. -/
def compare (a b : Identity) : Ordering := compareOfLessAndEq a.bits b.bits

end Identity

end Memberwise
