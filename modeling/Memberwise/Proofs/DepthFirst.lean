import Mathlib
import Memberwise.Proofs.IndexedGraphs

/-!
# Depth-first order

What a node requires is listed by working off a stack.  A node may stand on the stack several
times, and it is marked as seen only when it is taken off, so the order is that of the recursion:
each node is followed by all it leads to, and then comes the next one beside it.

The stack holds nothing but nodes that are reachable, and what is listed or seen in the end is
closed under edges.  Hence exactly the reachable nodes are listed.  The search itself runs over
positions; read through the nodes it is the same search over nodes.
-/

namespace Memberwise

namespace Steps

variable {α : Type} [DecidableEq α] {steps : Steps α}

/-! ## The recursion -/

theorem pending_append_le (steps : Steps α) (more seen : List α) :
    steps.pending (more ++ seen) ≤ steps.pending seen := by
  refine (List.Sublist.flatMap ?_ steps.next).length_le
  refine List.monotone_filter_right steps.sources fun a ha => ?_
  have hnot : a ∉ more ++ seen := by simpa using ha
  simpa using fun hmem => hnot (List.mem_append_right _ hmem)

/--
Lists some elements, each followed by all it leads to, leaving out those seen before, of which the
latest comes first.
-/
def preorder (steps : Steps α) (seen : List α) : List α → List α
  | [] => []
  | a :: rest =>
    if _h : a ∈ seen then steps.preorder seen rest
    else
      let below := steps.preorder (a :: seen) (steps.next a)
      a :: below ++ steps.preorder (below.reverse ++ a :: seen) rest
termination_by l => steps.pending seen + l.length
decreasing_by
  · exact Nat.lt_succ_self _
  · have hfewer := steps.pending_cons_le _h
    rw [List.length_cons]
    omega
  · have hfewer := steps.pending_cons_le _h
    refine lt_of_le_of_lt (Nat.add_le_add_right (steps.pending_append_le _ (a :: seen)) _) ?_
    rw [List.length_cons]
    omega

theorem preorder_of_mem {a : α} {seen : List α} (h : a ∈ seen) (rest : List α) :
    steps.preorder seen (a :: rest) = steps.preorder seen rest := by
  rw [preorder, dif_pos h]

theorem preorder_of_not_mem {a : α} {seen : List α} (h : a ∉ seen) (rest : List α) :
    steps.preorder seen (a :: rest) =
      a :: steps.preorder (a :: seen) (steps.next a) ++
        steps.preorder ((steps.preorder (a :: seen) (steps.next a)).reverse ++ a :: seen) rest := by
  rw [preorder, dif_neg h]

theorem visit_of_mem {a : α} {seen : List α} (h : a ∈ seen) (stack : List α) :
    steps.visit seen (a :: stack) = steps.visit seen stack := by
  rw [visit, dif_pos h]

theorem visit_of_not_mem {a : α} {seen : List α} (h : a ∉ seen) (stack : List α) :
    steps.visit seen (a :: stack) = a :: steps.visit (a :: seen) (steps.next a ++ stack) := by
  rw [visit, dif_neg h]

/-- The upper part of a stack is worked off as the recursion lists it, before the lower part. -/
theorem visit_append (seen l stack : List α) :
    steps.visit seen (l ++ stack) =
      steps.preorder seen l ++ steps.visit ((steps.preorder seen l).reverse ++ seen) stack := by
  induction seen, l using preorder.induct steps generalizing stack with
  | case1 seen =>
    rw [preorder]
    rfl
  | case2 seen a rest h ih =>
    rw [preorder_of_mem h, List.cons_append, visit_of_mem h, ih]
  | case3 seen a rest h below ihbelow ihrest =>
    rw [preorder_of_not_mem h, List.cons_append, visit_of_not_mem h, ihbelow, ihrest]
    simp [below]

/-- The search from an element is what the recursion lists after the element itself. -/
theorem preorder_singleton (steps : Steps α) (a : α) :
    steps.preorder [] [a] = a :: steps.visit [a] (steps.next a) := by
  have hvisit : steps.visit [a] (steps.next a) = steps.preorder [a] (steps.next a) := by
    have happend := steps.visit_append [a] (steps.next a) []
    rw [List.append_nil, visit, List.append_nil] at happend
    exact happend
  rw [preorder_of_not_mem List.not_mem_nil, preorder, List.append_nil, hvisit]

/-! ## What is listed -/

theorem not_mem_seen_of_mem_visit {seen stack : List α} {b : α}
    (h : b ∈ steps.visit seen stack) : b ∉ seen := by
  induction seen, stack using visit.induct steps with
  | case1 seen =>
    rw [visit] at h
    exact absurd h List.not_mem_nil
  | case2 seen a stack ha ih =>
    rw [visit_of_mem ha] at h
    exact ih h
  | case3 seen a stack ha _ ih =>
    rw [visit_of_not_mem ha] at h
    rcases List.mem_cons.mp h with rfl | h
    · exact ha
    · exact fun hb => ih h (List.mem_cons_of_mem a hb)

theorem nodup_visit (steps : Steps α) (seen stack : List α) : (steps.visit seen stack).Nodup := by
  induction seen, stack using visit.induct steps with
  | case1 seen =>
    rw [visit]
    exact List.nodup_nil
  | case2 seen a stack ha ih =>
    rw [visit_of_mem ha]
    exact ih
  | case3 seen a stack ha _ ih =>
    rw [visit_of_not_mem ha]
    exact List.nodup_cons.mpr ⟨fun h => not_mem_seen_of_mem_visit h List.mem_cons_self, ih⟩

/-- All of the stack is listed unless it was seen, and so is all that is next to what is listed. -/
theorem mem_visit_of_mem {seen stack : List α} {b : α}
    (h : b ∈ stack ∨ ∃ a ∈ steps.visit seen stack, b ∈ steps.next a) :
    b ∈ seen ∨ b ∈ steps.visit seen stack := by
  induction seen, stack using visit.induct steps with
  | case1 seen =>
    rw [visit] at h
    rcases h with h | ⟨a, h, -⟩
    · exact absurd h List.not_mem_nil
    · exact absurd h List.not_mem_nil
  | case2 seen a stack ha ih =>
    rw [visit_of_mem ha] at h ⊢
    rcases h with h | h
    · rcases List.mem_cons.mp h with rfl | h
      · exact .inl ha
      · exact ih (.inl h)
    · exact ih (.inr h)
  | case3 seen a stack ha _ ih =>
    rw [visit_of_not_mem ha] at h ⊢
    -- The element itself is listed now; all else is on the stack that comes next.
    have hnext : b = a ∨ b ∈ steps.next a ++ stack ∨
        ∃ a' ∈ steps.visit (a :: seen) (steps.next a ++ stack), b ∈ steps.next a' := by
      rcases h with h | ⟨a', ha', hb⟩
      · rcases List.mem_cons.mp h with rfl | h
        · exact .inl rfl
        · exact .inr (.inl (List.mem_append_right _ h))
      · rcases List.mem_cons.mp ha' with rfl | ha'
        · exact .inr (.inl (List.mem_append_left _ hb))
        · exact .inr (.inr ⟨a', ha', hb⟩)
    rcases hnext with rfl | hnext
    · exact .inr List.mem_cons_self
    · rcases ih hnext with hseen | hlisted
      · rcases List.mem_cons.mp hseen with rfl | hseen
        · exact .inr List.mem_cons_self
        · exact .inl hseen
      · exact .inr (List.mem_cons_of_mem a hlisted)

/-- Whether there is a step from one element to another. -/
def Leads (steps : Steps α) (a b : α) : Prop := b ∈ steps.next a

/-- Nothing is listed but what the stack leads to. -/
theorem exists_reaches_of_mem_visit {seen stack : List α} {b : α}
    (h : b ∈ steps.visit seen stack) : ∃ a ∈ stack, Relation.ReflTransGen steps.Leads a b := by
  induction seen, stack using visit.induct steps with
  | case1 seen =>
    rw [visit] at h
    exact absurd h List.not_mem_nil
  | case2 seen a stack ha ih =>
    rw [visit_of_mem ha] at h
    obtain ⟨a', ha', hreach⟩ := ih h
    exact ⟨a', List.mem_cons_of_mem a ha', hreach⟩
  | case3 seen a stack ha _ ih =>
    rw [visit_of_not_mem ha] at h
    rcases List.mem_cons.mp h with rfl | h
    · exact ⟨b, List.mem_cons_self, .refl⟩
    · obtain ⟨a', ha', hreach⟩ := ih h
      rcases List.mem_append.mp ha' with ha' | ha'
      · exact ⟨a, List.mem_cons_self, .head ha' hreach⟩
      · exact ⟨a', List.mem_cons_of_mem a ha', hreach⟩

/-- The search from an element lists the others that it leads to. -/
theorem mem_visit_singleton_iff (steps : Steps α) (a b : α) :
    b ∈ steps.visit [a] (steps.next a) ↔ b ≠ a ∧ Relation.ReflTransGen steps.Leads a b := by
  constructor
  · intro h
    have hne : b ≠ a := fun heq =>
      not_mem_seen_of_mem_visit h (List.mem_singleton.mpr heq)
    obtain ⟨a', ha', hreach⟩ := exists_reaches_of_mem_visit h
    exact ⟨hne, .head ha' hreach⟩
  · rintro ⟨hne, hreach⟩
    -- The element and what is listed are together closed under steps.
    have hall : b = a ∨ b ∈ steps.visit [a] (steps.next a) := by
      induction hreach with
      | refl => exact .inl rfl
      | @tail c b hc hb ih =>
        have hstep : b ∈ [a] ∨ b ∈ steps.visit [a] (steps.next a) := by
          apply mem_visit_of_mem
          rcases eq_or_ne c a with rfl | hca
          · exact .inl hb
          · exact .inr ⟨c, (ih hca).resolve_left hca, hb⟩
        exact hstep.imp_left List.mem_singleton.mp
    exact hall.resolve_left hne

end Steps

namespace IndexedGraph

variable {g : IndexedGraph}

/-! ## From positions to nodes -/

/-- The edges as steps between nodes. -/
def requirements (g : IndexedGraph) : Steps Node where
  next := g.direct
  sources := g.index.keys
  mem_sources n h := by
    rw [← Table.contains_iff, Table.contains]
    by_contra hnone
    have hnone : g.index? n = none := by simpa [index?] using hnone
    exact h (by rw [direct, hnone])

/-- Lists some nodes, each followed by all it requires, leaving out those seen before. -/
def preorder (g : IndexedGraph) (seen : List Node) : List Node → List Node :=
  g.requirements.preorder seen

theorem nodesAt_cons {i : Nat} {n : Node} (h : g.nodes[i]? = some n) (positions : List Nat) :
    g.nodesAt (i :: positions) = n :: g.nodesAt positions :=
  List.filterMap_cons_some h

theorem nodesAt_append (g : IndexedGraph) (positions more : List Nat) :
    g.nodesAt (positions ++ more) = g.nodesAt positions ++ g.nodesAt more :=
  List.filterMap_append

namespace Sound

theorem mem_nodesAt_iff (hg : g.Sound) {i : Nat} {n : Node} (hi : g.nodes[i]? = some n)
    {positions : List Nat} : n ∈ g.nodesAt positions ↔ i ∈ positions := by
  simp only [nodesAt, List.mem_filterMap]
  constructor
  · rintro ⟨j, hj, hn⟩
    rwa [hg.position_inj hi hn]
  · exact fun hmem => ⟨i, hmem, hi⟩

theorem direct_of_position (hg : g.Sound) {i : Nat} {n : Node} (hi : g.nodes[i]? = some n) :
    g.direct n = g.nodesAt (g.next i) := by
  rw [direct, hg.index?_eq_some_iff.mpr hi]

theorem lt_of_mem_next (hg : g.Sound) {i j : Nat} (hi : i < g.nodes.length)
    (hj : j ∈ g.next i) : j < g.nodes.length := by
  rw [hg.next_eq hi, mem_targets] at hj
  exact (hg.links_lt _ hj).2

/-- Searching over positions comes to searching over the nodes that stand there. -/
theorem nodesAt_visit (hg : g.Sound) {seen stack : List Nat}
    (hstack : ∀ i ∈ stack, i < g.nodes.length) :
    g.nodesAt (g.steps.visit seen stack) =
      g.requirements.visit (g.nodesAt seen) (g.nodesAt stack) := by
  induction seen, stack using Steps.visit.induct g.steps with
  | case1 seen =>
    rw [Steps.visit]
    exact (Steps.visit.eq_1 g.requirements _).symm
  | case2 seen i stack hi ih =>
    obtain ⟨hlt, hstack⟩ := List.forall_mem_cons.mp hstack
    have hnode := List.getElem?_eq_getElem hlt
    rw [Steps.visit_of_mem hi, ih hstack, nodesAt_cons hnode,
      Steps.visit_of_mem ((hg.mem_nodesAt_iff hnode).mpr hi)]
  | case3 seen i stack hi _ ih =>
    obtain ⟨hlt, hstack⟩ := List.forall_mem_cons.mp hstack
    have hnode := List.getElem?_eq_getElem hlt
    have hnext : ∀ j ∈ g.steps.next i ++ stack, j < g.nodes.length := fun j hj =>
      (List.mem_append.mp hj).elim (hg.lt_of_mem_next hlt) (hstack j)
    have hdirect : g.requirements.next g.nodes[i] = g.nodesAt (g.steps.next i) :=
      hg.direct_of_position hnode
    rw [Steps.visit_of_not_mem hi, nodesAt_cons hnode, ih hnext, nodesAt_cons hnode seen,
      nodesAt_cons hnode stack, Steps.visit_of_not_mem (mt (hg.mem_nodesAt_iff hnode).mp hi),
      nodesAt_append, hdirect]

/-- The closure of a node is what the search over nodes lists. -/
theorem closure_eq (hg : g.Sound) (n : Node) :
    g.closure n = g.requirements.visit [n] (g.direct n) := by
  unfold closure
  cases hfound : g.index? n with
  | none =>
    rw [direct, hfound]
    exact (Steps.visit.eq_1 g.requirements _).symm
  | some i =>
    have hi := hg.index?_eq_some_iff.mp hfound
    have hlt : i < g.nodes.length := (List.getElem?_eq_some_iff.mp hi).1
    have hseen : g.nodesAt [i] = [n] := nodesAt_cons hi []
    rw [hg.direct_of_position hi, ← hseen]
    exact hg.nodesAt_visit fun j hj => hg.lt_of_mem_next hlt hj

theorem preorder_singleton (hg : g.Sound) (n : Node) :
    g.preorder [] [n] = n :: g.closure n := by
  rw [hg.closure_eq]
  exact g.requirements.preorder_singleton n

theorem mem_closure_iff (hg : g.Sound) (n m : Node) :
    m ∈ g.closure n ↔ m ≠ n ∧ Relation.ReflTransGen g.requirements.Leads n m := by
  rw [hg.closure_eq]
  exact g.requirements.mem_visit_singleton_iff n m

theorem nodup_cons_closure (hg : g.Sound) (n : Node) : (n :: g.closure n).Nodup := by
  refine List.nodup_cons.mpr ⟨fun hmem => ((hg.mem_closure_iff n n).mp hmem).1 rfl, ?_⟩
  rw [hg.closure_eq]
  exact g.requirements.nodup_visit _ _

end Sound

/-- The resources are the nodes of this kind, in the order of the closure. -/
theorem map_resource_resources (g : IndexedGraph) (n : Node) :
    (g.resources n).map Node.resource = (g.closure n).filter (·.resource?.isSome) := by
  unfold resources
  induction g.closure n with
  | nil => rfl
  | cons m nodes ih =>
    cases hm : m.resource? with
    | none => rw [List.filterMap_cons_none hm, List.filter_cons_of_neg (by simp [hm]), ih]
    | some id =>
      obtain rfl : m = .resource id := by
        cases m <;> cases hm
        rfl
      rw [List.filterMap_cons_some hm, List.filter_cons_of_pos (by simp [hm]), List.map_cons, ih]

/-! ## Graphs by their history -/

/-- A graph that was built by adding nodes, edges and other graphs, with the edges in the order
they were added. -/
inductive Built : List (Node × Node) → IndexedGraph → Prop
  | empty : Built [] {}
  | node {history : List (Node × Node)} {g : IndexedGraph} (h : Built history g) (n : Node) :
      Built history (g.addNode n)
  | edge {history : List (Node × Node)} {g : IndexedGraph} (h : Built history g)
      (source target : Node) : Built (history ++ [(source, target)]) (g.addEdge source target)
  | merge {history history' : List (Node × Node)} {g g' : IndexedGraph} (h : Built history g)
      (h' : Built history' g') : Built (history ++ history') (g.merge g')

namespace Built

variable {history : List (Node × Node)}

/-- Whatever is added, the index and both forms of the edges stay in step with the nodes. -/
theorem sound (h : Built history g) : g.Sound := by
  induction h with
  | empty => exact sound_empty
  | node _ n ih => exact ih.addNode n
  | edge _ source target ih => exact ih.addEdge source target
  | merge _ _ ih _ => exact ih.merge _

/-- The edges are those that were added, in the order of their first additions. -/
theorem edges (h : Built history g) : g.edges = pushAll [] history := by
  induction h with
  | empty => rfl
  | node h n ih => exact (h.sound.edges_locate n).trans ih
  | edge h source target ih => rw [h.sound.edges_addEdge, ih, ← pushAll_append]
  | merge h _ ih ih' =>
    rw [h.sound.edges_merge, ih, ih', pushAll_pushAll, pushAll_append]
    rfl

theorem direct (h : Built history g) (n : Node) :
    g.direct n = (targets n history).eraseDups := by
  rw [h.sound.direct_eq, h.edges, targets_pushAll, ← pushAll_nil]
  rfl

theorem leads_iff (h : Built history g) (n m : Node) :
    g.requirements.Leads n m ↔ (n, m) ∈ history := by
  show m ∈ g.direct n ↔ _
  rw [h.direct, List.mem_eraseDups, mem_targets]

end Built

end IndexedGraph

/--
In a graph that was built by adding nodes, edges and other graphs, with or without cycles, a node
requires the targets of its edges in the order these were first added.  What it requires directly
or not is listed in the order of the depth-first recursion from the node, without the node itself
and without repetitions.  Exactly the other nodes that are reachable over the edges are listed, and
the resources are those of them that are resources.
-/
theorem closure_is_depth_first_reachability {history : List (Node × Node)} {g : IndexedGraph}
    (h : IndexedGraph.Built history g) (n : Node) :
    (∀ m, g.direct m = (IndexedGraph.targets m history).eraseDups) ∧
      g.preorder [] [n] = n :: g.closure n ∧
      (n :: g.closure n).Nodup ∧
      (∀ m, m ∈ g.closure n ↔
        m ≠ n ∧ Relation.ReflTransGen (fun source target => (source, target) ∈ history) n m) ∧
      (g.resources n).map Node.resource = (g.closure n).filter (·.resource?.isSome) := by
  have hleads : g.requirements.Leads = fun source target => (source, target) ∈ history := by
    funext source target
    exact propext (h.leads_iff source target)
  refine ⟨h.direct, h.sound.preorder_singleton n, h.sound.nodup_cons_closure n, fun m => ?_,
    g.map_resource_resources n⟩
  rw [h.sound.mem_closure_iff, hleads]

/-- A page and a form that require each other; both require a script, which requires itself. -/
def pageGraph : IndexedGraph :=
  (((({} : IndexedGraph).addEdge (.type ⟨1⟩) (.type ⟨2⟩)).addEdge (.type ⟨1⟩) (.resource ⟨3⟩)).merge
    ((({} : IndexedGraph).addEdge (.type ⟨2⟩) (.type ⟨1⟩)).addEdge (.type ⟨2⟩)
      (.resource ⟨3⟩))).addEdge (.resource ⟨3⟩) (.resource ⟨3⟩)

theorem pageGraph_closure :
    let history : List (Node × Node) := [
      (.type ⟨1⟩, .type ⟨2⟩), (.type ⟨1⟩, .resource ⟨3⟩), (.type ⟨2⟩, .type ⟨1⟩),
      (.type ⟨2⟩, .resource ⟨3⟩), (.resource ⟨3⟩, .resource ⟨3⟩)]
    IndexedGraph.Built history pageGraph ∧
      pageGraph.closure (.type ⟨1⟩) = [.type ⟨2⟩, .resource ⟨3⟩] ∧
      (pageGraph.resources (.type ⟨1⟩)).map Node.resource = [.resource ⟨3⟩] := by
  intro history
  have hbuilt : IndexedGraph.Built history pageGraph :=
    .edge (.merge (.edge (.edge .empty _ _) _ _) (.edge (.edge .empty _ _) _ _)) _ _
  obtain ⟨-, hpreorder, -, -, hresources⟩ := closure_is_depth_first_reachability hbuilt (.type ⟨1⟩)
  have hclosure : pageGraph.closure (.type ⟨1⟩) = [.type ⟨2⟩, .resource ⟨3⟩] := by
    have hlisted : pageGraph.preorder [] [.type ⟨1⟩] = [.type ⟨1⟩, .type ⟨2⟩, .resource ⟨3⟩] := by
      cbv
    rw [hlisted] at hpreorder
    exact (List.cons.inj hpreorder).2.symm
  refine ⟨hbuilt, hclosure, ?_⟩
  rw [hresources, hclosure]
  decide

end Memberwise
