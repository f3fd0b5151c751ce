import Memberwise.Eval.Fault
import Memberwise.Eval.Value

/-!
# Operators on values

Integers have 64 bits and wrap around. A quotient of integers is an integer only
if it is exact; all other mixed arithmetic is done with floats. A sum with a
string joins the texts of both sides.
-/

namespace Memberwise

namespace Value

/-- Whether two values are the same: numbers by value, references by identity. -/
def strictEq : Value → Value → Bool
  | undefined, undefined => true
  | null, null => true
  | bool a, bool b => a == b
  | int a, int b => a == b
  | float a, float b => a == b
  | int a, float b => Float.ofInt a.toInt == b
  | float a, int b => a == Float.ofInt b.toInt
  | string a, string b => a == b
  | object a, object b => a == b
  | array a, array b => a == b
  | closure a, closure b => a == b
  | host a, host b => a == b
  | _, _ => false

/-- Like the strict comparison, but null and undefined are the same. -/
def looseEq (a b : Value) : Bool := (a.isNullish && b.isNullish) || a.strictEq b

/-- An operation on floats, if both values are numbers. -/
def arithmetic? (f : Float → Float → Float) (a b : Value) : Option Value := do
  return float (f (← a.number?) (← b.number?))

/-- The sum of numbers. -/
def add? : Value → Value → Option Value
  | int a, int b => some (int (a + b))
  | a, b => arithmetic? (· + ·) a b

/-- The difference of numbers. -/
def sub? : Value → Value → Option Value
  | int a, int b => some (int (a - b))
  | a, b => arithmetic? (· - ·) a b

/-- The product of numbers. -/
def mul? : Value → Value → Option Value
  | int a, int b => some (int (a * b))
  | a, b => arithmetic? (· * ·) a b

/-- The quotient of numbers, an integer if it is one. -/
def div? : Value → Value → Option Value
  | int a, int b =>
    if b ≠ 0 && a % b = 0 then some (int (a / b)) else arithmetic? (· / ·) (int a) (int b)
  | a, b => arithmetic? (· / ·) a b

/-- The remainder of numbers, with the sign of the dividend. -/
def mod? : Value → Value → Option Value
  | int a, int b =>
    if b ≠ 0 then some (int (a % b)) else arithmetic? Number.remainder (int a) (int b)
  | a, b => arithmetic? Number.remainder a b

/-- A comparison of strings, which go by their code points, or of numbers. -/
def compare? (strings : String → String → Bool) (floats : Float → Float → Bool) :
    Value → Value → Option Value
  | string a, string b => some (bool (strings a b))
  | a, b => do return bool (floats (← a.number?) (← b.number?))

end Value

namespace Store

/-- The joined texts of two values, if one of them is a string. -/
def join? (s : Store) : Value → Value → Option Value
  | .string a, b => some (.string (a ++ s.text b))
  | a, .string b => some (.string (s.text a ++ b))
  | _, _ => none

/-- The value of an operator on two values, if it has one there. -/
def binary? (s : Store) (op : BinaryOp) (a b : Value) : Option Value :=
  match op with
  | .add => (s.join? a b).or (a.add? b)
  | .sub => a.sub? b
  | .mul => a.mul? b
  | .div => a.div? b
  | .mod => a.mod? b
  | .eq => some (.bool (a.looseEq b))
  | .ne => some (.bool !(a.looseEq b))
  | .strictEq => some (.bool (a.strictEq b))
  | .strictNe => some (.bool !(a.strictEq b))
  | .lt => Value.compare? (· < ·) (· < ·) a b
  | .le => Value.compare? (· ≤ ·) (· ≤ ·) a b
  | .gt => Value.compare? (· > ·) (· > ·) a b
  | .ge => Value.compare? (· ≥ ·) (· ≥ ·) a b
  | .and | .or => none

/-- The value of an operator on two values. -/
def binary (s : Store) (op : BinaryOp) (a b : Value) : Except Fault Value :=
  match s.binary? op a b with
  | some v => .ok v
  | none => .error (.typeError (.operate op.spelling (s.text a) (s.text b)))

/-- The value of an operator on one value. -/
def unary (s : Store) : UnaryOp → Value → Except Fault Value
  | .not, a => .ok (.bool !a.truthy)
  | .neg, .int i => .ok (.int (-i))
  | .neg, .float x => .ok (.float (-x))
  | .neg, a => .error (.typeError (.negate (s.text a)))

/-- Reads a field; of an array or a string only the length can be read. -/
def read (s : Store) (v : Value) (name : String) : Except Fault Value :=
  match v with
  | .object _ => .ok ((s.field? v name).getD .undefined)
  | .array ref =>
    if name = "length" then .ok (.int (Int64.ofNat (s.items ref).length)) else refused
  | .string text => if name = "length" then .ok (.int (Int64.ofNat text.length)) else refused
  | _ => refused
where
  refused : Except Fault Value := .error (.typeError (.read name (s.text v)))

/-- Sets a field of an object. -/
def write (s : Store) (v : Value) (name : String) (value : Value) : Except Fault Store :=
  match v with
  | .object ref => .ok (s.mapFields ref fun fields => fields.insert name value)
  | _ => .error (.typeError (.set name (s.text v)))

/-- Removes a field of an object, if it is there. -/
def remove (s : Store) (v : Value) (name : String) : Except Fault Store :=
  match v with
  | .object ref => .ok (s.mapFields ref fun fields => fields.erase name)
  | _ => .error (.typeError (.remove name (s.text v)))

/-- Reads an item of an array by position or a field of an object by name. -/
def index (s : Store) (v key : Value) : Except Fault Value :=
  match v, key with
  | .array ref, .int i =>
    .ok (if i < 0 then .undefined else (s.items ref)[i.toInt.toNat]?.getD .undefined)
  | .object _, .string name => .ok ((s.field? v name).getD .undefined)
  | _, _ => .error (.typeError (.index (s.text v) (s.text key)))

end Store

end Memberwise
