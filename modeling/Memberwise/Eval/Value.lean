import Memberwise.Source.Expr
import Memberwise.Table

/-!
# Values

What expressions evaluate to. Objects, arrays and functions have an identity, so
a value only refers to them, and a store holds what they are. A store grows at
its end. Only objects change later; arrays and functions stay as they were made.
-/

namespace Memberwise

/-- A value of an expression. -/
inductive Value where
  | undefined
  | null
  | bool (value : Bool)
  | int (value : Int64)
  | float (value : Float)
  | string (value : String)
  | object (ref : Nat)
  | array (ref : Nat)
  | closure (ref : Nat)
  /-- A function of the outside world. -/
  | host (name : String)
deriving DecidableEq, Inhabited

namespace Value

/-- The value of a literal. -/
def ofLiteral : Literal → Value
  | .null => null
  | .bool b => bool b
  | .int i => int i
  | .float x => float x
  | .string s => string s

/-- Whether a value stands for the lack of one. -/
def isNullish : Value → Bool
  | undefined | null => true
  | _ => false

/-- Whether a value counts as true in a condition. -/
def truthy : Value → Bool
  | undefined | null => false
  | bool b => b
  | int i => i != 0
  | float x => x != 0 && !x.isNaN
  | string s => !s.isEmpty
  | object _ | array _ | closure _ | host _ => true

/-- The number that a value is. -/
def number? : Value → Option Float
  | int i => some (Float.ofInt i.toInt)
  | float x => some x
  | _ => none

end Value

/-- What is bound while a body runs. -/
structure Frame where
  receiver : Option Value := none
  /-- The receiver and the arguments of a template. -/
  holes : List Value := []
  /-- The variables, the innermost first. -/
  vars : List (String × Value) := []
deriving DecidableEq, Inhabited

namespace Frame

/-- The value of the innermost variable with a name. -/
def var? (f : Frame) (name : String) : Option Value := Table.lookupIn name f.vars

/-- Binds one more variable. -/
def bind (f : Frame) (name : String) (value : Value) : Frame :=
  { f with vars := (name, value) :: f.vars }

/-- Binds parameters to arguments in order; what has no partner is left out. -/
def bindAll (f : Frame) (params : List String) (args : List Value) : Frame :=
  { f with vars := (params.zip args).reverse ++ f.vars }

end Frame

/-- A function made by a lambda, with the frame it was made in. -/
structure Closure where
  params : List String
  body : Expr
  frame : Frame
deriving Inhabited

/-- The objects, arrays and functions that values refer to. -/
structure Store where
  objects : Array (Table String Value) := #[]
  arrays : Array (List Value) := #[]
  closures : Array Closure := #[]
deriving Inhabited

namespace Store

/-- The fields of an object. -/
def fields (s : Store) (ref : Nat) : Table String Value := s.objects[ref]?.getD {}

/-- The items of an array. -/
def items (s : Store) (ref : Nat) : List Value := s.arrays[ref]?.getD []

/-- Makes an object. A key may occur twice; then the first is the one that is read. -/
def newObject (s : Store) (fields : List (String × Value)) : Value × Store :=
  (.object s.objects.size, { s with objects := s.objects.push ⟨fields⟩ })

/-- Makes an array. -/
def newArray (s : Store) (items : List Value) : Value × Store :=
  (.array s.arrays.size, { s with arrays := s.arrays.push items })

/-- Makes a function. -/
def newClosure (s : Store) (closure : Closure) : Value × Store :=
  (.closure s.closures.size, { s with closures := s.closures.push closure })

/-- Changes the fields of an object. -/
def mapFields (s : Store) (ref : Nat) (f : Table String Value → Table String Value) : Store :=
  { s with objects := s.objects.modify ref f }

/-- A field of a value, which only an object has. -/
def field? (s : Store) : Value → String → Option Value
  | .object ref, name => (s.fields ref).get? name
  | _, _ => none

/-- The keys of a value, which only an object has. -/
def keys (s : Store) : Value → List String
  | .object ref => (s.fields ref).keys
  | _ => []

/-- A value as text, with arrays nested at most so deep. -/
def textWithin (s : Store) : Nat → Value → String
  | _, .undefined => "undefined"
  | _, .null => "null"
  | _, .bool b => if b then "true" else "false"
  | _, .int i => toString i.toInt
  | _, .float x => Number.text x
  | _, .string text => text
  | _, .object _ => "[object Object]"
  | 0, .array _ => ""
  | nesting + 1, .array ref =>
    ",".intercalate ((s.items ref).map fun item => textWithin s nesting item)
  | _, .closure _ => "function"
  | _, .host name => "function " ++ name

/--
A value as text. An array is made after its items, so the arrays of a store are
nested less deep than their number.
-/
def text (s : Store) (v : Value) : String := s.textWithin s.arrays.size v

end Store

end Memberwise
