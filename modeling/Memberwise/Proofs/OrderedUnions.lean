import Mathlib
import Memberwise.Proofs.DepthFirst
import Memberwise.Proofs.GraphUnions

/-!
# Graphs as ordered unions

Merging replays the nodes and the list of all edges of a graph, while what a node requires is read
from the edges kept with it, the latest first.  Both views agree in every graph that was built by
adding nodes, edges and other graphs.  So a merge is an ordered union: of the nodes, and of what
each node requires.
-/

namespace Memberwise

namespace IndexedGraph.Sound

variable {g h : IndexedGraph}

theorem nodes_merge_of_sound (hg : g.Sound) (hh : h.Sound) :
    (g.merge h).nodes = g.nodes ++ h.nodes.filter (· ∉ g.nodes) := by
  rw [hg.nodes_merge]
  exact pushAll_of_nodup_right hh.nodup_nodes g.nodes

theorem direct_merge_of_sound (hg : g.Sound) (hh : h.Sound) (n : Node) :
    (g.merge h).direct n = g.direct n ++ (h.direct n).filter (· ∉ g.direct n) := by
  have hdirect : (g.merge h).direct n = pushAll (g.direct n) (h.direct n) := by
    rw [(hg.merge h).direct_eq, hg.direct_eq, hh.direct_eq, hg.edges_merge, targets_pushAll]
  rw [hdirect, pushAll_of_nodup_right (hh.nodup_direct n)]

end IndexedGraph.Sound

/--
In graphs that were built by adding nodes, edges and other graphs no node is repeated, and the index
has every node at the position where it stands.  A node requires the targets of its edges in the
list of all edges.  The nodes of a merged graph are those of the first graph and then the new ones
of the second, in its order; so is what each node requires directly.  Merging a graph again changes
nothing, nor does merging a graph into itself, and of three graphs either two neighbours may be
merged first.
-/
theorem merge_is_ordered_union {history history' : List (Node × Node)} {g h : IndexedGraph}
    (hg : IndexedGraph.Built history g) (hh : IndexedGraph.Built history' h) :
    g.nodes.Nodup ∧ (∀ n i, g.index.get? n = some i ↔ g.nodes[i]? = some n) ∧
      (∀ n, g.contains n = true ↔ n ∈ g.nodes) ∧
      (∀ n, g.direct n = IndexedGraph.targets n g.edges) ∧
      (g.merge h).nodes = g.nodes ++ h.nodes.filter (· ∉ g.nodes) ∧
      (∀ n, (g.merge h).direct n = g.direct n ++ (h.direct n).filter (· ∉ g.direct n)) ∧
      (g.merge h).merge h = g.merge h ∧ g.merge g = g ∧
      ∀ history'' k, IndexedGraph.Built history'' k →
        (g.merge h).merge k = g.merge (h.merge k) := by
  refine ⟨hg.sound.nodup_nodes, fun n i => hg.sound.index?_eq_some_iff,
    fun n => hg.sound.contains_iff, hg.sound.direct_eq, hg.sound.nodes_merge_of_sound hh.sound,
    hg.sound.direct_merge_of_sound hh.sound, ?_, ?_, ?_⟩
  · have hincludes := Graph.includes_merge ⟨g, hg.sound⟩ ⟨h, hh.sound⟩
    exact congrArg Graph.toIndexedGraph (Graph.merge_of_includes hincludes)
  · have hincludes := Graph.includes_refl ⟨g, hg.sound⟩
    exact congrArg Graph.toIndexedGraph (Graph.merge_of_includes hincludes)
  · intro history'' k hk
    have hassoc := Graph.merge_merge ⟨g, hg.sound⟩ ⟨h, hh.sound⟩ ⟨k, hk.sound⟩
    exact congrArg Graph.toIndexedGraph hassoc.symm

/-- The same page and form, each with a script of its own, but with the edges in another order. -/
def formGraph : IndexedGraph :=
  ((({} : IndexedGraph).addEdge (.type ⟨2⟩) (.resource ⟨4⟩)).addEdge (.type ⟨1⟩)
    (.resource ⟨5⟩)).addEdge (.type ⟨1⟩) (.type ⟨2⟩)

theorem pageGraph_merge_formGraph :
    let history : List (Node × Node) := [
      (.type ⟨1⟩, .type ⟨2⟩), (.type ⟨1⟩, .resource ⟨3⟩), (.type ⟨2⟩, .type ⟨1⟩),
      (.type ⟨2⟩, .resource ⟨3⟩), (.resource ⟨3⟩, .resource ⟨3⟩)]
    let history' : List (Node × Node) := [
      (.type ⟨2⟩, .resource ⟨4⟩), (.type ⟨1⟩, .resource ⟨5⟩), (.type ⟨1⟩, .type ⟨2⟩)]
    IndexedGraph.Built history pageGraph ∧ IndexedGraph.Built history' formGraph ∧
      pageGraph.index.get? (.resource ⟨3⟩) = some 2 ∧
      pageGraph.outgoing = [[2, 1], [2, 0], [2]] ∧
      pageGraph.direct (.type ⟨1⟩) = [.type ⟨2⟩, .resource ⟨3⟩] ∧
      (pageGraph.merge formGraph).nodes =
        [.type ⟨1⟩, .type ⟨2⟩, .resource ⟨3⟩, .resource ⟨4⟩, .resource ⟨5⟩] ∧
      (pageGraph.merge formGraph).direct (.type ⟨1⟩) =
        [.type ⟨2⟩, .resource ⟨3⟩, .resource ⟨5⟩] ∧
      (pageGraph.merge formGraph).merge pageGraph =
        pageGraph.merge (formGraph.merge pageGraph) := by
  intro history history'
  have hpage : IndexedGraph.Built history pageGraph :=
    .edge (.merge (.edge (.edge .empty _ _) _ _) (.edge (.edge .empty _ _) _ _)) _ _
  have hform : IndexedGraph.Built history' formGraph := .edge (.edge (.edge .empty _ _) _ _) _ _
  obtain ⟨-, hindex, -, hdirect, hnodes, hmerged, -, -, hassoc⟩ :=
    merge_is_ordered_union hpage hform
  exact ⟨hpage, hform, (hindex _ 2).mpr rfl, rfl, hdirect _, hnodes, hmerged _, hassoc _ _ hpage⟩

end Memberwise
