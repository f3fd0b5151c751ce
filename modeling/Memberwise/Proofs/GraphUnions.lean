import Mathlib
import Memberwise.Proofs.IndexedGraphs

/-!
# Unions of dependency graphs

Nodes and edges are appended where they are new, so the union of two graphs is read
off their lists.  Uniting several graphs one by one is the same as uniting them in
groups first, and a graph that is part of another adds nothing to it.
-/

namespace Memberwise

namespace Graph

variable {g h k : Graph}

/-! ## The union of two graphs -/

/-- Graphs with the same nodes and edges are the same. -/
theorem ext_of_lists (hnodes : g.nodes = h.nodes) (hedges : g.edges = h.edges) : g = h := by
  have hsame := g.sound.ext h.sound hnodes hedges
  cases g
  cases h
  cases hsame
  rfl

theorem nodes_addNode (g : Graph) (n : Node) : (g.addNode n).nodes = pushAll g.nodes [n] :=
  g.sound.nodes_locate n

theorem edges_addNode (g : Graph) (n : Node) : (g.addNode n).edges = g.edges :=
  g.sound.edges_locate n

theorem nodes_addEdge (g : Graph) (source target : Node) :
    (g.addEdge source target).nodes = pushAll g.nodes [source, target] :=
  g.sound.nodes_addEdge source target

theorem edges_addEdge (g : Graph) (source target : Node) :
    (g.addEdge source target).edges = pushAll g.edges [(source, target)] :=
  g.sound.edges_addEdge source target

theorem nodes_merge (g h : Graph) : (g.merge h).nodes = pushAll g.nodes h.nodes :=
  g.sound.nodes_merge h.toIndexedGraph

theorem edges_merge (g h : Graph) : (g.merge h).edges = pushAll g.edges h.edges :=
  g.sound.edges_merge h.toIndexedGraph

/-- A graph that has the nodes and edges of another one. -/
structure Includes (g h : Graph) : Prop where
  nodes : ∀ n ∈ h.nodes, n ∈ g.nodes
  edges : ∀ edge ∈ h.edges, edge ∈ g.edges

theorem includes_refl (g : Graph) : g.Includes g := ⟨fun _ hn => hn, fun _ hedge => hedge⟩

/-- A graph adds nothing to one that includes it. -/
theorem merge_of_includes (hincludes : g.Includes h) : g.merge h = g := by
  apply ext_of_lists
  · rw [nodes_merge, pushAll_of_subset hincludes.nodes]
  · rw [edges_merge, pushAll_of_subset hincludes.edges]

theorem includes_merge (g h : Graph) : (g.merge h).Includes h := by
  refine ⟨fun n hn => ?_, fun edge hedge => ?_⟩
  · rw [nodes_merge]
    exact mem_pushAll.mpr (.inr hn)
  · rw [edges_merge]
    exact mem_pushAll.mpr (.inr hedge)

theorem Includes.merge (hincludes : g.Includes h) (k : Graph) : (g.merge k).Includes h := by
  refine ⟨fun n hn => ?_, fun edge hedge => ?_⟩
  · rw [nodes_merge]
    exact mem_pushAll.mpr (.inl (hincludes.nodes n hn))
  · rw [edges_merge]
    exact mem_pushAll.mpr (.inl (hincludes.edges edge hedge))

/-- The last two of three graphs may be united first. -/
theorem merge_merge (g h k : Graph) : g.merge (h.merge k) = (g.merge h).merge k := by
  apply ext_of_lists
  · rw [nodes_merge g, nodes_merge h, nodes_merge _ k, nodes_merge g, pushAll_pushAll]
  · rw [edges_merge g, edges_merge h, edges_merge _ k, edges_merge g, pushAll_pushAll]

/-! ## Several graphs -/

/-- Some graphs united one after the other. -/
def mergeAll (graphs : List Graph) : Graph := graphs.foldl merge {}

theorem mergeAll_append (graphs more : List Graph) :
    mergeAll (graphs ++ more) = more.foldl merge (mergeAll graphs) :=
  List.foldl_append

theorem mergeAll_concat (graphs : List Graph) (g : Graph) :
    mergeAll (graphs ++ [g]) = (mergeAll graphs).merge g :=
  mergeAll_append graphs [g]

/-- Uniting graphs with another one may be done in one go. -/
theorem merge_mergeAll (g : Graph) (graphs : List Graph) :
    g.merge (mergeAll graphs) = graphs.foldl merge g := by
  induction graphs using List.reverseRecOn with
  | nil => rfl
  | append_singleton graphs h ih =>
    rw [mergeAll_concat, merge_merge, ih, List.foldl_append]
    rfl

theorem includes_mergeAll {graphs : List Graph} (hg : g ∈ graphs) :
    (mergeAll graphs).Includes g := by
  induction graphs using List.reverseRecOn with
  | nil => exact absurd hg List.not_mem_nil
  | append_singleton graphs h ih =>
    rw [mergeAll_concat]
    rcases List.mem_append.mp hg with hg | hg
    · exact (ih hg).merge h
    · obtain rfl := List.mem_singleton.mp hg
      exact includes_merge _ g

/-- Graphs that were united before add nothing. -/
theorem foldl_merge_of_subset {graphs more : List Graph} (hmore : ∀ g ∈ more, g ∈ graphs) :
    more.foldl merge (mergeAll graphs) = mergeAll graphs := by
  induction more with
  | nil => rfl
  | cons g more ih =>
    obtain ⟨hg, hmore⟩ := List.forall_mem_cons.mp hmore
    rw [List.foldl_cons, merge_of_includes (includes_mergeAll hg)]
    exact ih hmore

end Graph

end Memberwise
