import Memberwise.Build.Naming
import Memberwise.Build.Walk

/-!
# Compiling assemblies

An assembly is compiled against a snapshot of those before it and then gets its
output names. A chain of assemblies is compiled in order, each against the
merged snapshots of the earlier ones.
-/

namespace Memberwise

/-- Why assemblies could not be compiled. -/
inductive BuildFailure where
  /-- Errors were reported for an assembly. -/
  | failed (assembly : String) (report : Report)
  /-- Two assemblies define one type. -/
  | conflict (conflict : MergeConflict)
deriving DecidableEq, Repr, Inhabited

def BuildFailure.message : BuildFailure → String
  | failed assembly report =>
    s!"translation of '{assembly}' failed with {report.errorCount} error(s)"
  | conflict c => c.message

namespace Assembly

/-- The build of an assembly, with all errors reported and all names assigned. -/
def build (a : Assembly) (prior : Snapshot) (options : Options) : Build :=
  ((Build.new prior options).compileFiles a).1.resolve

/-- The build of an assembly, unless errors were reported. -/
def compile (a : Assembly) (prior : Snapshot) (options : Options) : Except BuildFailure Build :=
  let b := a.build prior options
  if b.hasErrors then .error (.failed a.name b.report) else .ok b

/-- Compiles an assembly under its own name and adds what it defines to what is known. -/
def compileNext (options : Options) (known : Snapshot) (a : Assembly) :
    Except BuildFailure Snapshot :=
  match a.compile known { options with assemblyName := a.name } with
  | .error e => .error e
  | .ok b =>
    match Snapshot.merge [known, b.snapshot] with
    | .error e => .error (.conflict e)
    | .ok merged => .ok merged

/-- Compiles assemblies in order and gives what they define together. -/
def compileAll (assemblies : List Assembly) (options : Options) : Except BuildFailure Snapshot :=
  assemblies.foldlM (compileNext options) {}

end Assembly

end Memberwise
