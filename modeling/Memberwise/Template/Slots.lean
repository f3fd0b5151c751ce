import Memberwise.Template.Error

/-!
# Slots

The slots of a template are the arguments it is filled with: the receiver first
if there is one, then the parameters. A hole names a slot by position, by
parameter name or as the receiver.
-/

namespace Memberwise.Template

/-- What the holes of a template may refer to. -/
structure Slots where
  hasReceiver : Bool
  params : List String
deriving DecidableEq, Repr, Inhabited

namespace Slots

/-- The position of the first parameter. -/
def offset (s : Slots) : Nat := if s.hasReceiver then 1 else 0

/-- The number of slots. -/
def arity (s : Slots) : Nat := s.params.length + s.offset

/-- The number that a list of decimal digits spells. -/
def decimal (digits : List Char) : Nat :=
  digits.foldl (fun n c => 10 * n + (c.toNat - '0'.toNat)) 0

/-- The slot that a hole refers to. -/
def resolve (s : Slots) (name : String) : Except Cause Nat :=
  if name = "this" then
    if s.hasReceiver then .ok 0 else .error .noReceiver
  else if name.toList.all Char.isDigit then
    let index := decimal name.toList
    if name.isEmpty || UInt64.size ≤ index then .error (.holeTooLarge name)
    else if s.arity ≤ index then .error (.holeOutOfRange index s.arity)
    else .ok index
  else
    match s.params.findIdx? (· = name) with
    | some i => .ok (i + s.offset)
    | none => .error (.unknownParameter name)

end Slots

end Memberwise.Template
