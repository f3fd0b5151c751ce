/-!
# Faults

Why an evaluation stops without a value.
-/

namespace Memberwise

/-- What a value was to be used for, when it is not of the right kind. -/
inductive Misuse where
  | read (field value : String)
  | set (field value : String)
  | remove (field value : String)
  | index (value key : String)
  | negate (value : String)
  | operate (op left right : String)
  /-- The entry point is a statement that belongs into a static initializer. -/
  | initializeAtEntry (field : String)
deriving DecidableEq, Repr, Inhabited

def Misuse.text : Misuse → String
  | read field value => s!"cannot read '{field}' of {value}"
  | set field value => s!"cannot set '{field}' on {value}"
  | remove field value => s!"cannot remove '{field}' from {value}"
  | index value key => s!"cannot index {value} with {key}"
  | negate value => s!"cannot negate {value}"
  | operate op left right => s!"cannot apply '{op}' to {left} and {right}"
  | initializeAtEntry field => s!"entry point cannot initialize field '{field}'"

/-- The cause of a failed evaluation. -/
inductive Fault where
  | unboundVariable (name : String)
  | unknownGlobal (path : String)
  | missingHole (index : Nat)
  | noReceiver
  | unknownMethod (member : String)
  | notCallable (target : String)
  | typeError (misuse : Misuse)
  /-- A body that could not be produced was evaluated. -/
  | placeholder (message : String)
  /-- Too many calls are in progress. -/
  | callDepth
  | host (name message : String)
deriving DecidableEq, Repr, Inhabited

def Fault.message : Fault → String
  | unboundVariable name => s!"unbound variable '{name}'"
  | unknownGlobal path => s!"unknown global '{path}'"
  | missingHole index => "hole $" ++ Nat.repr index ++ " has no argument"
  | noReceiver => "'this' used without a receiver"
  | unknownMethod member => s!"no member {member}"
  | notCallable target => s!"{target} cannot be invoked"
  | typeError misuse => "type error: " ++ misuse.text
  | placeholder message => s!"evaluated an error placeholder: {message}"
  | callDepth => "call depth exceeded"
  | host name message => s!"host function '{name}' failed: {message}"

end Memberwise
