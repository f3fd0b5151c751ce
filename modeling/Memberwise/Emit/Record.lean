import Memberwise.Emit.Union

/-!
# Records

A record value is an object with one slot per field. The slot of an optional
field is left out while it has no value. A compiled record gets a constructor
that takes the fields in order, a getter for each field and a setter for each
mutable one.
-/

namespace Memberwise

/-- How a field is stored: only fields of an option type can be optional. -/
def RecordField.slot (m : Marking) (f : RecordField) : RecordSlot :=
  let own := Marking.ofAttributes f.attributes
  let marked := match own.treatment with
    | some .optionalSlot => true
    | _ => false
  { name := f.name
    type := f.type
    isOptional := marked && f.type.isOption
    isMutable := f.isMutable
    dateFormat := (own.dateFormat? f.name).or (m.dateFormat? f.name) }

namespace RecordSlot

/-- The slots with their positions. -/
def numbered (slots : List RecordSlot) : List (RecordSlot × Nat) := slots.zipIdx

/-- The object of the required fields, each from the hole of its position. -/
def requiredObject (slots : List RecordSlot) : Expr :=
  .object ((numbered slots).filterMap fun (slot, i) =>
    if slot.isOptional then none else some (slot.name, .hole i))

/-- The variable that holds the object while optional fields are added. -/
def objectVar : String := "r"

/-- The writes of the optional fields to the object at hand. -/
def optionalWrites (o : Options) (slots : List RecordSlot) : List Expr :=
  (numbered slots).filterMap fun (slot, i) =>
    if slot.isOptional then
      some (.apply (.global o.setOptional) [.var objectVar, .string slot.name, .hole i])
    else none

/-- Makes a record: the required fields first, then the optional ones that have a value. -/
def constructorBody (o : Options) (slots : List RecordSlot) : Expr :=
  if slots.any RecordSlot.isOptional then
    .letIn objectVar (requiredObject slots) (.seq (optionalWrites o slots ++ [.var objectVar]))
  else requiredObject slots

/-- The constructor, which takes the fields in order. -/
def constructor (o : Options) (slots : List RecordSlot) : Member :=
  .constructor (.constructor (slots.map RecordSlot.type)) {
    kind := .inline
    body := constructorBody o slots
    params := slots.map RecordSlot.name
    isStatic := true }

/-- Reads the slot. -/
def getter (o : Options) (s : RecordSlot) : Member :=
  let body := if s.isOptional then
      .apply (.global o.getOptional) [.hole 0, .string s.name]
    else .field (.hole 0) s.name
  .synthesized (.getter s.name s.type) body [] false

/-- Writes the slot. -/
def setter (o : Options) (s : RecordSlot) : Member :=
  let body := if s.isOptional then
      .apply (.global o.setOptional) [.hole 0, .string s.name, .hole 1]
    else .setField (.hole 0) s.name (.hole 1)
  .synthesized (.setter s.name s.type) body ["value"] false

/-- The members that a record gets besides its declared ones. -/
def members (o : Options) (slots : List RecordSlot) : List Member :=
  constructor o slots :: slots.flatMap fun s =>
    s.getter o :: if s.isMutable then [s.setter o] else []

end RecordSlot

end Memberwise
