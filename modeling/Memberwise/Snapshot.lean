import Memberwise.Graph
import Memberwise.Table

/-!
# Snapshots

What later compilations may know of assemblies that were compiled before: their
types with the output names these got, their proxies and resources, and what
requires what. Snapshots are combined before the next compilation starts.
-/

namespace Memberwise

/-- What is known of a type of another assembly. -/
structure TypeEntry where
  name : String
  outputName : String
  assembly : String
deriving DecidableEq, Repr, Inhabited

/-- What one or more assemblies define. -/
structure Snapshot where
  assemblies : List String := []
  classes : Table Identity TypeEntry := {}
  interfaces : Table Identity TypeEntry := {}
  proxies : Table Identity Identity := {}
  resources : List Identity := []
  graph : Graph := {}
deriving Inhabited

/-- A type that two assemblies define. -/
structure MergeConflict where
  name : String
  first : String
  second : String
deriving DecidableEq, Repr, Inhabited

def MergeConflict.message (c : MergeConflict) : String :=
  s!"type '{c.name}' is defined by both '{c.first}' and '{c.second}'"

namespace Snapshot

/-- The snapshot of one assembly before anything is known of it. -/
def ofAssembly (name : String) : Snapshot := { assemblies := [name] }

def addClass (s : Snapshot) (id : Identity) (entry : TypeEntry) : Snapshot :=
  { s with classes := s.classes.insert id entry }

def addInterface (s : Snapshot) (id : Identity) (entry : TypeEntry) : Snapshot :=
  { s with interfaces := s.interfaces.insert id entry }

def addProxy (s : Snapshot) (proxy target : Identity) : Snapshot :=
  { s with proxies := s.proxies.insert proxy target }

def addResource (s : Snapshot) (id : Identity) : Snapshot :=
  if id ∈ s.resources then s else { s with resources := s.resources ++ [id] }

/-- Whether a class or interface with an identity is known. -/
def containsType (s : Snapshot) (id : Identity) : Bool :=
  s.classes.contains id || s.interfaces.contains id

def isResource (s : Snapshot) (id : Identity) : Bool := s.resources.contains id

/-- The output names that are taken, of classes first. -/
def outputNames (s : Snapshot) : List String :=
  (s.classes.values ++ s.interfaces.values).map TypeEntry.outputName

/--
Adds the entries of one table to another. A type that is already there must come
from the same assembly and stays as it is.
-/
def mergeTypes (known : Table Identity TypeEntry) :
    List (Identity × TypeEntry) → Except MergeConflict (Table Identity TypeEntry)
  | [] => .ok known
  | (id, entry) :: rest =>
    match known.get? id with
    | some first =>
      if first.assembly = entry.assembly then mergeTypes known rest
      else .error ⟨entry.name, first.assembly, entry.assembly⟩
    | none => mergeTypes (known.insert id entry) rest

/-- Whether all assemblies of a snapshot are known; one without assemblies is always new. -/
def isKnown (known s : Snapshot) : Bool :=
  !s.assemblies.isEmpty && s.assemblies.all known.assemblies.contains

/-- Adds a snapshot to what is known, unless it brings no new assembly. -/
def absorb (known s : Snapshot) : Except MergeConflict Snapshot :=
  if known.isKnown s then .ok known
  else do
    let classes ← mergeTypes known.classes s.classes.entries
    let interfaces ← mergeTypes known.interfaces s.interfaces.entries
    return {
      assemblies := known.assemblies ++ s.assemblies
      classes, interfaces
      proxies := known.proxies.insertAll s.proxies.entries
      resources := s.resources.foldl
        (fun known id => if id ∈ known then known else known ++ [id]) known.resources
      graph := known.graph.merge s.graph }

/-- What several snapshots know together. -/
def merge (snapshots : List Snapshot) : Except MergeConflict Snapshot :=
  snapshots.foldlM absorb {}

end Snapshot

end Memberwise
