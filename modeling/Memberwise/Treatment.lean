import Memberwise.Source.Declaration

/-!
# Treatments

A treatment is one way to emit a member. Attributes ask for treatments; asking
for two different ones is a conflict, which is a treatment of its own so that
the other members of the type can still be looked at.
-/

namespace Memberwise

/-- How a member is emitted. -/
inductive Treatment where
  /-- Nothing to fall back on when it is called. -/
  | noFallback
  /-- A template that replaces calls. -/
  | inline (code : String)
  /-- A template that is the body of a callable. -/
  | direct (code : String)
  | constant (value : Literal)
  /-- A callable compiled from the source body. -/
  | compiled
  /-- The compiled source body replaces calls. -/
  | compiledInline
  /-- A property accessor over a slot that may be absent. -/
  | optionalSlot
  | stub
  | remote (policy : Option String)
  | generated (generator : Ty) (parameter : Option Literal)
  /-- Two treatments were asked for, known here by their names. -/
  | conflict (first second : String)
deriving Inhabited

namespace Treatment

/-- The attribute that asks for the treatment. -/
def name : Treatment → String
  | noFallback => "NoFallback"
  | inline _ => "Inline"
  | direct _ => "Direct"
  | constant _ => "Constant"
  | compiled => "JavaScript"
  | compiledInline => "Inline"
  | optionalSlot => "OptionalField"
  | stub => "Stub"
  | remote _ => "Remote"
  | generated .. => "Generated"
  | conflict .. => "conflict"

/-- What is said about two treatments that exclude each other. -/
def conflictMessage (first second : String) : String :=
  s!"'{first}' cannot be combined with '{second}'"

/-- Whether a setter takes the treatment over from its getter. -/
def passesToSetter : Treatment → Bool
  | compiledInline | optionalSlot => true
  | _ => false

/--
Whether callers must know the member itself. Such a member cannot stand where
calls go through a slot of an abstract type or an interface.
-/
def needsKnownTarget : Treatment → Bool
  | inline _ | direct _ | constant _ | noFallback | compiledInline => true
  | _ => false

/-- Whether the declaration is compiled from its source. -/
def isCompiled : Treatment → Bool
  | compiled | compiledInline => true
  | _ => false

/-- The treatment that members get from a type that has this one. -/
def memberDefault : Treatment → Option Treatment
  | compiled | compiledInline => some compiled
  | stub => some stub
  | _ => none

/-- Equality of optional constants. -/
def sameParameter : Option Literal → Option Literal → Bool
  | none, none => true
  | some a, some b => a.same b
  | _, _ => false

/-- Whether two treatments are the same, with constants compared by what they show. -/
def same : Treatment → Treatment → Bool
  | noFallback, noFallback => true
  | inline a, inline b => a == b
  | direct a, direct b => a == b
  | constant a, constant b => a.same b
  | compiled, compiled => true
  | compiledInline, compiledInline => true
  | optionalSlot, optionalSlot => true
  | stub, stub => true
  | remote a, remote b => a == b
  | generated g p, generated g' p' => g == g' && sameParameter p p'
  | conflict a b, conflict a' b' => a == a' && b == b'
  | _, _ => false

/-- The treatment that an attribute asks for by itself. -/
def ofAttribute? : Attribute → Option Treatment
  | .inline none => some compiledInline
  | .inline (some code) => some (inline code)
  | .direct code => some (direct code)
  | .constant value => some (constant value)
  | .stub => some stub
  | .noFallback => some noFallback
  | .optionalField => some optionalSlot
  | .remote policy => some (remote policy)
  | .generated generator parameter => some (generated generator parameter)
  | _ => none

/--
The treatment that a list of requests comes to. Repeating a request changes
nothing; the first request and the first that differs from it make a conflict.
-/
def settle? : List Treatment → Option Treatment
  | [] => none
  | first :: rest =>
    match rest.find? fun other => !first.same other with
    | none => some first
    | some second => some (conflict first.name second.name)

end Treatment

end Memberwise
