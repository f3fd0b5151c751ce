import Memberwise.Source.Ty

/-!
# Options

What can be set for the compilation of an assembly.
-/

namespace Memberwise

/-- The options of one compilation. -/
structure Options where
  /-- Names the assembly in remote handles and startup types. -/
  assemblyName : String := "Assembly"
  /-- Unions with fewer cases than this may represent one case by null. -/
  caseLimit : Nat := 4
  /-- The type all classes derive from. -/
  universalBase : String := Ty.objectName
  /-- Where the primitives of optional slots are found. -/
  runtimeNamespace : String := "Runtime"
  /-- Where the primitives of remote calls are found. -/
  remotingNamespace : String := "Remoting"
deriving DecidableEq, Repr, Inhabited

namespace Options

/-- The primitive that reads an optional slot. -/
def getOptional (o : Options) : String := o.runtimeNamespace ++ ".GetOptional"

/-- The primitive that writes an optional slot. -/
def setOptional (o : Options) : String := o.runtimeNamespace ++ ".SetOptional"

/-- A primitive of remote calls. -/
def remotePrimitive (o : Options) (name : String) : String := o.remotingNamespace ++ "." ++ name

end Options

end Memberwise
