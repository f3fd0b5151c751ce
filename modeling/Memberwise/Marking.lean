import Memberwise.Treatment

/-!
# Markings

The marking of a declaration is what its attributes come to. A declaration
without a treatment of its own takes the one that the nearest enclosing
declaration passes on, unless it opts out.
-/

namespace Memberwise

/-- An expansion that was asked for, with its parameter. -/
structure Expansion where
  expander : Ty
  parameter : Option Literal
deriving Inhabited

/-- What the attributes of a declaration come to. -/
structure Marking where
  /-- How the declaration is emitted, by its own wish or an inherited one. -/
  treatment : Option Treatment := none
  /-- The treatment is the declaration's own wish. -/
  hasOwn : Bool := false
  /-- The declaration asks not to be compiled. -/
  optedOut : Bool := false
  name : Option String := none
  requires : List Ty := []
  expansions : List Expansion := []
  isPure : Bool := false
  isEntryPoint : Bool := false
  proxyOf : Option Ty := none
  /-- Formats of date fields, by field. -/
  dateFormats : List (String × String) := []
deriving Inhabited

namespace Marking

/-- Whether some attribute asks for compilation from source. -/
def asksForSource (attributes : List Attribute) : Bool :=
  attributes.any fun
    | .javaScript true => true
    | _ => false

/-- Whether some attribute asks for exclusion. -/
def asksForExclusion (attributes : List Attribute) : Bool :=
  attributes.any fun
    | .javaScript false => true
    | _ => false

/--
The treatment that a declaration's own attributes come to. A plain request for
compilation counts only if there is no other one.
-/
def ownTreatment (attributes : List Attribute) : Option Treatment :=
  (Treatment.settle? (attributes.filterMap Treatment.ofAttribute?)).or
    (if asksForSource attributes then some .compiled else none)

/-- The marking that a declaration's own attributes come to. -/
def ofAttributes (attributes : List Attribute) : Marking where
  treatment := ownTreatment attributes
  hasOwn := (ownTreatment attributes).isSome
  optedOut := asksForExclusion attributes && (ownTreatment attributes).isNone
  name := (attributes.filterMap fun
    | .name name => some name
    | _ => none).getLast?
  requires := attributes.filterMap fun
    | .require resource => some resource
    | _ => none
  expansions := attributes.filterMap fun
    | .expand expander parameter => some ⟨expander, parameter⟩
    | _ => none
  isPure := attributes.any fun
    | .pure => true
    | _ => false
  isEntryPoint := attributes.any fun
    | .entryPoint => true
    | _ => false
  proxyOf := (attributes.filterMap fun
    | .proxy target => some target
    | _ => none).getLast?
  dateFormats := attributes.filterMap fun
    | .dateFormat field format => some (field, format)
    | _ => none

/-- The treatment that the members of a declaration get if they do not ask for one. -/
def memberDefault (m : Marking) : Option Treatment := m.treatment.bind Treatment.memberDefault

/-- The marking of a declaration inside another one. -/
def within (enclosing : Marking) (attributes : List Attribute) : Marking :=
  let own := ofAttributes attributes
  if own.treatment.isNone && !own.optedOut then
    { own with treatment := enclosing.memberDefault }
  else own

/-- Whether the declaration is compiled from its source. -/
def isCompiled (m : Marking) : Bool := m.treatment.any Treatment.isCompiled

/-- The format of a date field; a later attribute overrides an earlier one. -/
def dateFormat? (m : Marking) (field : String) : Option String :=
  (m.dateFormats.reverse.find? fun entry => entry.1 = field).map Prod.snd

/--
The marking of a setter, given that of its getter. A setter without a wish of
its own takes over a treatment that concerns both accessors, and with it the
getter's name.
-/
def followGetter (setter getter : Marking) : Marking :=
  if setter.hasOwn || setter.optedOut then setter
  else
    match getter.treatment with
    | some treatment =>
      if treatment.passesToSetter then
        { setter with treatment := some treatment, name := setter.name.or getter.name }
      else setter
    | none => setter

end Marking

end Memberwise
