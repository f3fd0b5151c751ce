import Memberwise.Number.Decimal
import Memberwise.Text.Quoted

/-!
# Literals

The constants that attributes and bodies may hold. Two literals are the same
constant if they show the same number: the zeros of both signs agree, and a
float that is no number agrees with itself.
-/

namespace Memberwise

/-- A constant. -/
inductive Literal where
  | null
  | bool (value : Bool)
  | int (value : Int64)
  | float (value : Float)
  | string (value : String)
deriving Inhabited

namespace Literal

/-- Whether two literals are the same constant. -/
def same : Literal → Literal → Bool
  | null, null => true
  | bool a, bool b => a == b
  | int a, int b => a == b
  | float a, float b => Number.same a b
  | string a, string b => a == b
  | _, _ => false

theorem same_refl (a : Literal) : a.same a = true := by
  cases a <;> simp [same, Number.same_refl]

/-- A literal as text, strings in quotes. -/
def text : Literal → String
  | null => "null"
  | bool b => if b then "true" else "false"
  | int i => toString i.toInt
  | float x => Number.text x
  | string s => Text.quote s

end Literal

end Memberwise
