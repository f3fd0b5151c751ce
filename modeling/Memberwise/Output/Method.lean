import Memberwise.Marking

/-!
# Emitted methods

What is known of a method once its declaration has been compiled: how it is
invoked and what its body is.
-/

namespace Memberwise

/-- How a remote call returns. -/
inductive RemoteStyle where
  | send | async | task | sync
deriving DecidableEq, Repr, Inhabited

namespace RemoteStyle

/-- The style of a method by its result. -/
def ofResult (result : Ty) : RemoteStyle :=
  if result.isVoid then send
  else if result.isAsync then async
  else if result.isTask then task
  else sync

/-- The primitive that performs calls in this style. -/
def primitive : RemoteStyle → String
  | send => "Send"
  | async => "Async"
  | task => "Task"
  | sync => "Call"

end RemoteStyle

/-- The name that a server knows a method by. -/
structure RemoteHandle where
  assembly : String
  id : Identity
deriving DecidableEq, Repr, Inhabited

namespace RemoteHandle

/-- The handle of a member of an assembly. -/
def ofMember (assembly : String) (member : Identity) : RemoteHandle :=
  ⟨assembly, Identity.ofRemote assembly member⟩

def text (h : RemoteHandle) : String := h.assembly ++ ":" ++ h.id.digits

end RemoteHandle

/-- How an emitted method is invoked. -/
inductive MethodKind where
  /-- A function whose body names its parameters. -/
  | callable
  /-- A template put in place of calls. -/
  | inline
  /-- A function whose body is a template. -/
  | direct
  | abstract
  | noFallback
  | stub
  | remote (style : RemoteStyle) (handle : RemoteHandle)
  | generated (generator : Ty) (parameter : Option Literal)
deriving Inhabited

/-- Whether a method leaves no function behind that would need a name. -/
def MethodKind.isInline : MethodKind → Bool
  | inline => true
  | _ => false

/-- An emitted method. -/
structure Method where
  kind : MethodKind
  body : Expr
  params : List String := []
  isStatic : Bool := false
  isPure : Bool := false
  /-- The output name that was asked for. -/
  name : Option String := none
  expansions : List Expansion := []
  span : Span := {}
deriving Inhabited

end Memberwise
