import Memberwise.Identity.Basic
import Memberwise.Search
import Memberwise.Table

/-!
# Dependency graphs

A graph keeps its nodes in the order they were first added, with an index from
nodes to positions beside them, so that no list is searched for a node. An edge
leads from what requires to what is required and is kept twice: as a pair of
positions, in the order the edges were first added, and with the node it starts
at, the latest first. Cycles are allowed. What a node requires, directly or
not, is listed in depth-first order.

Nodes, index and edges belong together. A graph carries the proof that they do.
-/

namespace Memberwise

/-- What takes part in dependencies. -/
inductive Node where
  | type (id : Identity)
  /-- Something to be loaded, such as a script. -/
  | resource (id : Identity)
  | method (owner member : Identity)
  | entryPoint
deriving DecidableEq, Repr, Inhabited

/-- The resource that a node is. -/
def Node.resource? : Node → Option Identity
  | resource id => some id
  | _ => none

/-- The parts of a directed graph that remembers the order of its nodes and edges. -/
structure IndexedGraph where
  nodes : List Node := []
  /-- The positions of the nodes. -/
  index : Table Node Nat := {}
  /-- The edges as positions of their ends. -/
  links : List (Nat × Nat) := []
  /-- For each position where the edges from it lead, the latest first. -/
  outgoing : List (List Nat) := []

namespace IndexedGraph

/-! ## Asking -/

def contains (g : IndexedGraph) (n : Node) : Bool := g.index.contains n

/-- The position of a node. -/
def index? (g : IndexedGraph) (n : Node) : Option Nat := g.index.get? n

/-- Where the edges from a position lead, in the order they were added. -/
def next (g : IndexedGraph) (i : Nat) : List Nat := (g.outgoing[i]?.getD []).reverse

/-- The nodes at some positions. -/
def nodesAt (g : IndexedGraph) (positions : List Nat) : List Node :=
  positions.filterMap fun i => g.nodes[i]?

/-- The ends of an edge. -/
def ends? (g : IndexedGraph) (link : Nat × Nat) : Option (Node × Node) := do
  return (← g.nodes[link.1]?, ← g.nodes[link.2]?)

/-- The edges, in the order they were added. -/
def edges (g : IndexedGraph) : List (Node × Node) := g.links.filterMap g.ends?

/-- What a node requires directly, in the order it was added. -/
def direct (g : IndexedGraph) (n : Node) : List Node :=
  match g.index? n with
  | none => []
  | some i => g.nodesAt (g.next i)

/-- The edges as steps between positions. -/
def steps (g : IndexedGraph) : Steps Nat where
  next := g.next
  sources := List.range g.outgoing.length
  mem_sources i h := by
    rw [List.mem_range]
    refine Nat.lt_of_not_le fun hi => h ?_
    rw [next, List.getElem?_eq_none hi]
    rfl

/-- Everything that a node leads to but the node itself, in depth-first order. -/
def closure (g : IndexedGraph) (n : Node) : List Node :=
  match g.index? n with
  | none => []
  | some i => g.nodesAt (g.steps.visit [i] (g.next i))

/-- The resources that a node leads to, in depth-first order. -/
def resources (g : IndexedGraph) (n : Node) : List Identity :=
  (g.closure n).filterMap Node.resource?

/-! ## Adding -/

/-- Adds a node unless it is there; the answer has its position. -/
def locate (g : IndexedGraph) (n : Node) : IndexedGraph × Nat :=
  match g.index? n with
  | some i => (g, i)
  | none =>
    let position := g.nodes.length
    ({ g with
        nodes := g.nodes ++ [n]
        index := g.index.insert n position
        outgoing := g.outgoing ++ [[]] }, position)

def addNode (g : IndexedGraph) (n : Node) : IndexedGraph := (g.locate n).1

/-- Adds an edge between two positions unless it is there. -/
def link (g : IndexedGraph) (i j : Nat) : IndexedGraph :=
  if j ∈ g.next i then g
  else { g with links := g.links ++ [(i, j)], outgoing := g.outgoing.modify i (j :: ·) }

/-- Adds an edge with its ends. -/
def addEdge (g : IndexedGraph) (source target : Node) : IndexedGraph :=
  let (g, i) := g.locate source
  let (g, j) := g.locate target
  g.link i j

/-- The union of two graphs; what is new in the second follows the first. -/
def merge (g h : IndexedGraph) : IndexedGraph :=
  h.edges.foldl (fun g edge => g.addEdge edge.1 edge.2) (h.nodes.foldl addNode g)

/-! ## What belongs together -/

/-- Where the edges from a place lead. -/
def targets {α : Type} [DecidableEq α] (source : α) (edges : List (α × α)) : List α :=
  edges.filterMap fun edge => if edge.1 = source then some edge.2 else none

/-- Nodes and edges occur once, and index and outgoing edges say the same as they do. -/
structure Sound (g : IndexedGraph) : Prop where
  nodup_nodes : g.nodes.Nodup
  index : g.index.entries = g.nodes.zipIdx
  nodup_links : g.links.Nodup
  links_lt : ∀ link ∈ g.links, link.1 < g.nodes.length ∧ link.2 < g.nodes.length
  outgoing : g.outgoing =
    (List.range g.nodes.length).map fun i => (targets i g.links).reverse

theorem mem_targets {α : Type} [DecidableEq α] {a b : α} {edges : List (α × α)} :
    b ∈ targets a edges ↔ (a, b) ∈ edges := by
  simp only [targets, List.mem_filterMap]
  constructor
  · intro ⟨edge, hedge, hb⟩
    by_cases ha : edge.1 = a
    · rw [if_pos ha] at hb
      obtain rfl := Option.some.inj hb
      rwa [← ha]
    · rw [if_neg ha] at hb
      cases hb
  · exact fun h => ⟨(a, b), h, if_pos rfl⟩

theorem targets_append {α : Type} [DecidableEq α] (a : α) (edges more : List (α × α)) :
    targets a (edges ++ more) = targets a edges ++ targets a more :=
  List.filterMap_append

theorem nodup_concat {α : Type} {l : List α} {a : α} (h : l.Nodup) (ha : a ∉ l) :
    (l ++ [a]).Nodup := by
  refine List.nodup_append.mpr ⟨h, by simp, fun b hb c hc heq => ?_⟩
  obtain rfl := List.mem_singleton.mp hc
  exact ha (heq ▸ hb)

theorem sound_empty : Sound {} :=
  ⟨List.nodup_nil, rfl, List.nodup_nil, fun _ h => absurd h List.not_mem_nil, rfl⟩

namespace Sound

variable {g : IndexedGraph}

theorem keys_index (h : g.Sound) : g.index.keys = g.nodes := by
  rw [Table.keys, h.index]
  exact List.zipIdx_map_fst 0 g.nodes

/-- A node is found at the only position where it stands. -/
theorem index?_eq_some_iff (h : g.Sound) {n : Node} {i : Nat} :
    g.index? n = some i ↔ g.nodes[i]? = some n := by
  have hnodup : g.index.keys.Nodup := h.keys_index ▸ h.nodup_nodes
  rw [index?, Table.get?_eq_some_iff hnodup, h.index]
  exact List.mk_mem_zipIdx_iff_getElem?

theorem index?_eq_none_iff (h : g.Sound) {n : Node} : g.index? n = none ↔ n ∉ g.nodes := by
  rw [index?, Table.get?, Table.lookupIn_eq_none]
  exact not_congr (h.keys_index ▸ Iff.rfl)

/-- The edges from a node are those from its position, in the order they were added. -/
theorem next_eq (h : g.Sound) {i : Nat} (hi : i < g.nodes.length) :
    g.next i = targets i g.links := by
  rw [next, h.outgoing, List.getElem?_map, List.getElem?_range hi]
  exact List.reverse_reverse _

/-- A node that is added is found, and nothing else about the graph changes. -/
theorem locate (h : g.Sound) (n : Node) :
    (g.locate n).1.Sound ∧ (g.locate n).1.nodes[(g.locate n).2]? = some n ∧
      g.nodes <+: (g.locate n).1.nodes := by
  unfold IndexedGraph.locate
  cases hfound : g.index? n with
  | some i => exact ⟨h, h.index?_eq_some_iff.mp hfound, List.prefix_rfl⟩
  | none =>
    have hnew : n ∉ g.nodes := h.index?_eq_none_iff.mp hfound
    have hkeys : n ∉ g.index.keys := h.keys_index ▸ hnew
    refine ⟨⟨?_, ?_, h.nodup_links, ?_, ?_⟩, by simp, List.prefix_append _ _⟩
    · exact nodup_concat h.nodup_nodes hnew
    · simp [Table.insert_of_not_mem hkeys, h.index, List.zipIdx_append]
    · intro link hlink
      have hlt := h.links_lt link hlink
      simp only [List.length_append, List.length_singleton]
      omega
    -- No edge starts at the new position.
    · have hnone : targets g.nodes.length g.links = [] := by
        refine List.eq_nil_iff_forall_not_mem.mpr fun j hj => ?_
        exact absurd (h.links_lt _ (mem_targets.mp hj)).1 (Nat.lt_irrefl _)
      simp [h.outgoing, List.range_succ, hnone]

theorem addNode (h : g.Sound) (n : Node) : (g.addNode n).Sound := (h.locate n).1

theorem link (h : g.Sound) {i j : Nat} (hi : i < g.nodes.length) (hj : j < g.nodes.length) :
    (g.link i j).Sound := by
  unfold IndexedGraph.link
  split
  · exact h
  · next hnew =>
    rw [h.next_eq hi, mem_targets] at hnew
    refine ⟨h.nodup_nodes, h.index, ?_, ?_, ?_⟩
    · exact nodup_concat h.nodup_links hnew
    · intro link hlink
      rcases List.mem_append.mp hlink with hlink | hlink
      · exact h.links_lt link hlink
      · obtain rfl := List.mem_singleton.mp hlink
        exact ⟨hi, hj⟩
    · apply List.ext_getElem?
      intro k
      rw [List.getElem?_modify, h.outgoing, List.getElem?_map, List.getElem?_map]
      by_cases hk : k < g.nodes.length
      · rw [List.getElem?_range hk]
        by_cases hik : i = k <;> simp [hik, targets]
      · rw [List.getElem?_eq_none (by simpa using hk)]
        rfl

theorem addEdge (h : g.Sound) (source target : Node) : (g.addEdge source target).Sound := by
  obtain ⟨hsource, hi, -⟩ := h.locate source
  obtain ⟨htarget, hj, hprefix⟩ := hsource.locate target
  have hi' := (List.getElem?_eq_some_iff.mp hi).1
  exact htarget.link (Nat.lt_of_lt_of_le hi' hprefix.length_le) (List.getElem?_eq_some_iff.mp hj).1

theorem foldl_addNode (h : g.Sound) (nodes : List Node) :
    (nodes.foldl IndexedGraph.addNode g).Sound := by
  induction nodes generalizing g with
  | nil => exact h
  | cons n nodes ih => exact ih (h.addNode n)

theorem foldl_addEdge (h : g.Sound) (edges : List (Node × Node)) :
    (edges.foldl (fun g edge => g.addEdge edge.1 edge.2) g).Sound := by
  induction edges generalizing g with
  | nil => exact h
  | cons edge edges ih => exact ih (h.addEdge edge.1 edge.2)

theorem merge (h : g.Sound) (g' : IndexedGraph) : (g.merge g').Sound :=
  (h.foldl_addNode g'.nodes).foldl_addEdge g'.edges

end Sound

end IndexedGraph

/-! ## Graphs -/

/-- A directed graph that remembers the order of its nodes and edges. -/
structure Graph extends IndexedGraph where
  sound : toIndexedGraph.Sound := by exact IndexedGraph.sound_empty

namespace Graph

instance : Inhabited Graph := ⟨{}⟩

/-- Adds a node unless it is there. -/
def addNode (g : Graph) (n : Node) : Graph := ⟨g.toIndexedGraph.addNode n, g.sound.addNode n⟩

/-- Adds an edge, with its ends, unless it is there. -/
def addEdge (g : Graph) (source target : Node) : Graph :=
  ⟨g.toIndexedGraph.addEdge source target, g.sound.addEdge source target⟩

/-- The union of two graphs; what is new in the second follows the first. -/
def merge (g h : Graph) : Graph :=
  ⟨g.toIndexedGraph.merge h.toIndexedGraph, g.sound.merge h.toIndexedGraph⟩

/-- Adds a node with the resources it requires. -/
def addRequiring (g : Graph) (n : Node) (resources : List Identity) : Graph :=
  resources.foldl (fun g r => g.addEdge n (.resource r)) (g.addNode n)

/-- Adds a method that requires its type and some resources. -/
def addMethod (g : Graph) (owner member : Identity) (resources : List Identity) : Graph :=
  (g.addEdge (.method owner member) (.type owner)).addRequiring (.method owner member) resources

/-- Adds a method that the entry point calls. -/
def addEntryPoint (g : Graph) (owner member : Identity) : Graph :=
  (g.addEdge .entryPoint (.method owner member)).addEdge (.method owner member) (.type owner)

end Graph

end Memberwise
