import Memberwise.Identity.Basic

/-!
# Types

A type is a qualified name applied to arguments. A handful of names have a
meaning of their own: they decide how a remote call returns and which fields
may be left out.
-/

namespace Memberwise

/-- A qualified name applied to type arguments. -/
structure Ty where
  name : String
  args : List Ty
deriving Repr, Inhabited

namespace Ty

mutual

/-- Decides equality of types. -/
def decEq : (a b : Ty) → Decidable (a = b)
  | ⟨n, as⟩, ⟨m, bs⟩ =>
    if hn : n = m then
      match decEqList as bs with
      | isTrue h => isTrue (by rw [hn, h])
      | isFalse h => isFalse (by intro e; injection e; contradiction)
    else isFalse (by intro e; injection e; contradiction)

/-- Decides equality of lists of types. -/
def decEqList : (as bs : List Ty) → Decidable (as = bs)
  | [], [] => isTrue rfl
  | [], _ :: _ => isFalse (by intro e; injection e)
  | _ :: _, [] => isFalse (by intro e; injection e)
  | a :: as, b :: bs =>
    match decEq a b, decEqList as bs with
    | isTrue h, isTrue hs => isTrue (by rw [h, hs])
    | isFalse h, _ => isFalse (by intro e; injection e; contradiction)
    | _, isFalse hs => isFalse (by intro e; injection e; contradiction)

end

instance : DecidableEq Ty := decEq

/-- A type without arguments. -/
def named (name : String) : Ty := ⟨name, []⟩

def voidName : String := "System.Void"
def unitName : String := "Microsoft.FSharp.Core.Unit"
def asyncNames : List String :=
  ["Microsoft.FSharp.Control.FSharpAsync", "Microsoft.FSharp.Control.FSharpAsync`1"]
def taskNames : List String := ["System.Threading.Tasks.Task", "System.Threading.Tasks.Task`1"]
def optionName : String := "Microsoft.FSharp.Core.FSharpOption`1"
def valueOptionName : String := "Microsoft.FSharp.Core.FSharpValueOption`1"
def objectName : String := "System.Object"
def int32Name : String := "System.Int32"

/-- The type of members that return nothing. -/
def void : Ty := named voidName

/-- The type of 32-bit integers. -/
def int32 : Ty := named int32Name

/-- The option type over an element type. -/
def option (element : Ty) : Ty := ⟨optionName, [element]⟩

/-- Nothing comes back: void or unit. -/
def isVoid (t : Ty) : Bool := t.name == voidName || t.name == unitName

/-- An asynchronous computation. -/
def isAsync (t : Ty) : Bool := asyncNames.contains t.name

/-- A task, with or without a result. -/
def isTask (t : Ty) : Bool := taskNames.contains t.name

/-- A value that may be absent. -/
def isOption (t : Ty) : Bool := t.name == optionName || t.name == valueOptionName

/-- The name without its namespace, its enclosing types and its arity suffix. -/
def simpleName (t : Ty) : String :=
  let last := t.name.toList.reverse.takeWhile fun c => c ≠ '.' && c ≠ '+'
  String.ofList (last.reverse.takeWhile (· ≠ '\x60'))

mutual

/-- A type as text: `Name<First, Second>`. -/
def text : Ty → String
  | ⟨name, []⟩ => name
  | ⟨name, args⟩ => name ++ "<" ++ ", ".intercalate (texts args) ++ ">"

/-- The texts of several types. -/
def texts : List Ty → List String
  | [] => []
  | t :: ts => t.text :: texts ts

end

mutual

/-- The identity of a type, its arguments included. -/
def identity : Ty → Identity
  | ⟨name, args⟩ => Identity.ofInstance (Identity.ofName name) (identities args)

/-- The identities of several types. -/
def identities : List Ty → List Identity
  | [] => []
  | t :: ts => t.identity :: identities ts

end

theorem identities_eq_map (ts : List Ty) : identities ts = ts.map identity := by
  induction ts with
  | nil => rfl
  | cons t ts ih => simp [identities, ih]

mutual

/-- Types are ordered by name, then by their arguments from the left. -/
def compare : Ty → Ty → Ordering
  | ⟨n, as⟩, ⟨m, bs⟩ => (Ord.compare n m).then (compareAll as bs)

/-- Lists of types in dictionary order. -/
def compareAll : List Ty → List Ty → Ordering
  | [], [] => .eq
  | [], _ :: _ => .lt
  | _ :: _, [] => .gt
  | a :: as, b :: bs => (compare a b).then (compareAll as bs)

end

end Ty

end Memberwise
