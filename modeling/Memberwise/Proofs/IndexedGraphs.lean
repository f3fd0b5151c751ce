import Mathlib
import Memberwise.Graph

/-!
# Graphs as lists of nodes and edges

A graph finds nodes through its index and follows edges through the positions kept with each
node.  Nodes, index and both forms of the edges stay in step, so the graph can be read as two
lists: adding a node or an edge appends it where it is new, and a node requires the targets of its
edges in the order of the list.  These two lists determine the graph.
-/

namespace Memberwise

/-! ## Appending what is new -/

/-- Appends what is not there yet, one after the other. -/
def pushAll {α : Type} [DecidableEq α] (l new : List α) : List α :=
  new.foldl (fun l a => if a ∈ l then l else l ++ [a]) l

section PushAll

variable {α : Type} [DecidableEq α]

theorem pushAll_append (l new new' : List α) :
    pushAll l (new ++ new') = pushAll (pushAll l new) new' :=
  List.foldl_append

theorem pushAll_cons (l : List α) (a : α) (new : List α) :
    pushAll l (a :: new) = pushAll (pushAll l [a]) new := rfl

theorem pushAll_singleton_of_mem {l : List α} {a : α} (h : a ∈ l) : pushAll l [a] = l := if_pos h

theorem pushAll_singleton_of_not_mem {l : List α} {a : α} (h : a ∉ l) :
    pushAll l [a] = l ++ [a] := if_neg h

/-- What is appended to nothing is the list without repetitions. -/
theorem pushAll_eq (l new : List α) :
    pushAll l new = l ++ (new.filter (· ∉ l)).eraseDups := by
  induction new generalizing l with
  | nil => simp [pushAll]
  | cons a new ih =>
    rw [← List.singleton_append, pushAll_append, ih]
    by_cases hmem : a ∈ l
    · simp [pushAll, hmem]
    · have hrest : new.filter (· ∉ l ++ [a]) =
          (new.filter (· ∉ l)).filter (fun b => !b == a) := by
        rw [List.filter_filter]
        refine List.filter_congr fun b _ => ?_
        by_cases hb : b ∈ l <;> by_cases hba : b = a <;> simp [hb, hba]
      simp only [pushAll, List.foldl_cons, List.foldl_nil, if_neg hmem, List.cons_append,
        List.nil_append]
      rw [hrest, List.filter_cons_of_pos (by simpa using hmem), List.eraseDups_cons,
        List.append_assoc, List.singleton_append]

theorem pushAll_nil (l : List α) : pushAll [] l = l.eraseDups := by
  simp [pushAll_eq]

theorem mem_pushAll {l new : List α} {a : α} : a ∈ pushAll l new ↔ a ∈ l ∨ a ∈ new := by
  by_cases ha : a ∈ l <;> simp [pushAll_eq, ha]

theorem pushAll_of_subset {l new : List α} (h : ∀ a ∈ new, a ∈ l) : pushAll l new = l := by
  have hnone : new.filter (· ∉ l) = [] := by simpa using h
  rw [pushAll_eq, hnone]
  simp

theorem pushAll_of_nodup {l new : List α} (h : (l ++ new).Nodup) : pushAll l new = l ++ new := by
  induction new generalizing l with
  | nil => simp [pushAll]
  | cons a new ih =>
    have ha : a ∉ l := fun ha => (List.nodup_append.mp h).2.2 a ha a List.mem_cons_self rfl
    rw [List.append_cons] at h ⊢
    rw [pushAll_cons l a new, pushAll_singleton_of_not_mem ha, ih h]

theorem pushAll_of_nodup_right {new : List α} (h : new.Nodup) (l : List α) :
    pushAll l new = l ++ new.filter (· ∉ l) := by
  have hkept : (new.filter (· ∉ l)).Nodup := h.filter _
  rw [pushAll_eq, ← pushAll_nil, pushAll_of_nodup (by simpa using hkept), List.nil_append]

theorem nodup_pushAll {l : List α} (h : l.Nodup) (new : List α) : (pushAll l new).Nodup := by
  induction new generalizing l with
  | nil => exact h
  | cons a new ih =>
    rw [pushAll_cons l a new]
    apply ih
    by_cases ha : a ∈ l
    · rwa [pushAll_singleton_of_mem ha]
    · rw [pushAll_singleton_of_not_mem ha]
      exact IndexedGraph.nodup_concat h ha

/-- What is new to one list may first be appended to another. -/
theorem pushAll_pushAll (l l' new : List α) :
    pushAll l (pushAll l' new) = pushAll (pushAll l l') new := by
  induction new generalizing l' with
  | nil => rfl
  | cons a new ih =>
    rw [pushAll_cons l' a new, ih, pushAll_cons (pushAll l l') a new]
    refine congrArg (pushAll · new) ?_
    by_cases ha : a ∈ l'
    · rw [pushAll_singleton_of_mem ha, pushAll_singleton_of_mem (mem_pushAll.mpr (.inr ha))]
    · rw [pushAll_singleton_of_not_mem ha, pushAll_append]

end PushAll

namespace IndexedGraph

/-! ## Edges -/

theorem targets_map {α β : Type} [DecidableEq α] (a : α) (l : List β) (f : β → α) :
    targets a (l.map fun b => (a, f b)) = l.map f := by
  simp [targets]

/-- Edges that are appended where they are new append their targets where these are new. -/
theorem targets_pushAll {α : Type} [DecidableEq α] (a : α) (edges new : List (α × α)) :
    targets a (pushAll edges new) = pushAll (targets a edges) (targets a new) := by
  induction new generalizing edges with
  | nil => rfl
  | cons edge new ih =>
    rw [← List.singleton_append, pushAll_append, ih, targets_append, pushAll_append]
    refine congrArg (pushAll · _) ?_
    obtain ⟨source, target⟩ := edge
    by_cases ha : source = a
    · subst ha
      by_cases hold : (source, target) ∈ edges <;> simp [pushAll, targets, hold]
    · by_cases hold : (source, target) ∈ edges <;> simp [pushAll, targets, ha, hold]

theorem nodup_targets {α : Type} [DecidableEq α] {edges : List (α × α)} (h : edges.Nodup) (a : α) :
    (targets a edges).Nodup := by
  refine h.filterMap fun edge edge' b hb hb' => ?_
  obtain ⟨hsource, htarget⟩ := Option.ite_none_right_eq_some.mp hb
  obtain ⟨hsource', htarget'⟩ := Option.ite_none_right_eq_some.mp hb'
  exact Prod.ext (hsource.trans hsource'.symm)
    ((Option.some.inj htarget).trans (Option.some.inj htarget').symm)

/-- The ends of some edges. -/
def ends (edges : List (Node × Node)) : List Node := edges.flatMap fun edge => [edge.1, edge.2]

/-! ## Reading -/

theorem ends?_eq_some_iff {g : IndexedGraph} {link : Nat × Nat} {source target : Node} :
    g.ends? link = some (source, target) ↔
      g.nodes[link.1]? = some source ∧ g.nodes[link.2]? = some target := by
  unfold ends?
  cases g.nodes[link.1]? <;> cases g.nodes[link.2]? <;> simp

theorem mem_edges_iff {g : IndexedGraph} {source target : Node} :
    (source, target) ∈ g.edges ↔
      ∃ i j, (i, j) ∈ g.links ∧ g.nodes[i]? = some source ∧ g.nodes[j]? = some target := by
  simp only [edges, List.mem_filterMap, ends?_eq_some_iff, Prod.exists]

/-- Edges end at nodes. -/
theorem mem_nodes_of_mem_ends {g : IndexedGraph} {n : Node} (hn : n ∈ ends g.edges) :
    n ∈ g.nodes := by
  obtain ⟨⟨source, target⟩, hedge, hn⟩ := List.mem_flatMap.mp hn
  obtain ⟨i, j, -, hsource, htarget⟩ := mem_edges_iff.mp hedge
  simp only [List.mem_cons, List.not_mem_nil, or_false] at hn
  rcases hn with rfl | rfl
  · exact List.mem_of_getElem? hsource
  · exact List.mem_of_getElem? htarget

namespace Sound

variable {g h : IndexedGraph}

theorem contains_iff (hg : g.Sound) {n : Node} : g.contains n = true ↔ n ∈ g.nodes := by
  rw [contains, Table.contains_iff, hg.keys_index]

/-- Both ends of an edge are nodes. -/
theorem exists_ends (hg : g.Sound) {link : Nat × Nat} (hlink : link ∈ g.links) :
    ∃ source target, g.nodes[link.1]? = some source ∧ g.nodes[link.2]? = some target := by
  obtain ⟨hsource, htarget⟩ := hg.links_lt link hlink
  exact ⟨g.nodes[link.1], g.nodes[link.2], List.getElem?_eq_getElem hsource,
    List.getElem?_eq_getElem htarget⟩

/-- A node stands at one position only. -/
theorem position_inj (hg : g.Sound) {i j : Nat} {n : Node} (hi : g.nodes[i]? = some n)
    (hj : g.nodes[j]? = some n) : i = j :=
  Option.some.inj ((hg.index?_eq_some_iff.mpr hi).symm.trans (hg.index?_eq_some_iff.mpr hj))

/-- An edge between nodes is one between their positions. -/
theorem mem_edges_iff_mem_links (hg : g.Sound) {i j : Nat} {source target : Node}
    (hi : g.nodes[i]? = some source) (hj : g.nodes[j]? = some target) :
    (source, target) ∈ g.edges ↔ (i, j) ∈ g.links := by
  rw [mem_edges_iff]
  constructor
  · rintro ⟨i', j', hlink, hi', hj'⟩
    rwa [hg.position_inj hi hi', hg.position_inj hj hj']
  · exact fun hlink => ⟨i, j, hlink, hi, hj⟩

/-- Positions can be told from the nodes that stand there. -/
theorem ends?_inj (hg : g.Sound) {link link' : Nat × Nat} {edge : Node × Node}
    (h : g.ends? link = some edge) (h' : g.ends? link' = some edge) : link = link' := by
  obtain ⟨source, target⟩ := edge
  obtain ⟨hi, hj⟩ := ends?_eq_some_iff.mp h
  obtain ⟨hi', hj'⟩ := ends?_eq_some_iff.mp h'
  exact Prod.ext (hg.position_inj hi hi') (hg.position_inj hj hj')

theorem nodup_edges (hg : g.Sound) : g.edges.Nodup :=
  hg.nodup_links.filterMap fun _ _ _ h h' => hg.ends?_inj h h'

/-- A node requires the targets of its edges. -/
theorem direct_eq (hg : g.Sound) (n : Node) : g.direct n = targets n g.edges := by
  unfold direct
  cases hfound : g.index? n with
  | none =>
    have hnot := hg.index?_eq_none_iff.mp hfound
    refine (List.eq_nil_iff_forall_not_mem.mpr fun m hm => hnot ?_).symm
    obtain ⟨i, j, -, hi, -⟩ := mem_edges_iff.mp (mem_targets.mp hm)
    exact List.mem_of_getElem? hi
  | some i =>
    have hi := hg.index?_eq_some_iff.mp hfound
    have hlt : i < g.nodes.length := (List.getElem?_eq_some_iff.mp hi).1
    simp only [nodesAt, hg.next_eq hlt, targets, edges, List.filterMap_filterMap]
    refine List.filterMap_congr fun link hlink => ?_
    obtain ⟨source, target, hsource, htarget⟩ := hg.exists_ends hlink
    rw [ends?_eq_some_iff.mpr ⟨hsource, htarget⟩]
    -- the edge starts at the position exactly if it starts at the node
    by_cases hstart : link.1 = i
    · have hnode : source = n := by
        rw [hstart, hi] at hsource
        exact (Option.some.inj hsource).symm
      simp [hstart, hnode, htarget]
    · have hnode : source ≠ n := fun heq => hstart (hg.position_inj (heq ▸ hsource) hi)
      simp [hstart, hnode]

theorem nodup_direct (hg : g.Sound) (n : Node) : (g.direct n).Nodup := by
  rw [hg.direct_eq]
  exact nodup_targets hg.nodup_edges n

theorem map_ends? (hg : g.Sound) : g.links.map g.ends? = g.edges.map some := by
  have hall : ∀ links : List (Nat × Nat), (∀ link ∈ links, link ∈ g.links) →
      links.map g.ends? = (links.filterMap g.ends?).map some := by
    intro links hlinks
    induction links with
    | nil => rfl
    | cons link links ih =>
      obtain ⟨hlink, hlinks⟩ := List.forall_mem_cons.mp hlinks
      obtain ⟨source, target, hsource, htarget⟩ := hg.exists_ends hlink
      have hends := ends?_eq_some_iff.mpr ⟨hsource, htarget⟩
      rw [List.map_cons, List.filterMap_cons_some hends, List.map_cons, hends, ih hlinks]
  exact hall g.links fun _ hlink => hlink

/-- A graph is determined by its nodes and edges. -/
theorem ext (hg : g.Sound) (hh : h.Sound) (hnodes : g.nodes = h.nodes)
    (hedges : g.edges = h.edges) : g = h := by
  have hindex : g.index = h.index :=
    congrArg Table.mk (by rw [hg.index, hh.index, hnodes])
  have hlinks : g.links = h.links := by
    have hends : h.ends? = g.ends? := by
      unfold ends?
      rw [hnodes]
    have hmap : g.links.map g.ends? = h.links.map g.ends? := by
      rw [hg.map_ends?, hedges, ← hh.map_ends?, hends]
    refine List.ext_getElem? fun k => ?_
    have hk := congrArg (·[k]?) hmap
    simp only [List.getElem?_map] at hk
    cases hleft : g.links[k]? with
    | none =>
      rw [hleft] at hk
      exact (Option.map_eq_none_iff.mp hk.symm).symm
    | some link =>
      rw [hleft, Option.map_some] at hk
      obtain ⟨link', hright, heq⟩ := Option.map_eq_some_iff.mp hk.symm
      obtain ⟨source, target, hsource, htarget⟩ := hg.exists_ends (List.mem_of_getElem? hleft)
      have hends := ends?_eq_some_iff.mpr ⟨hsource, htarget⟩
      rw [hright, hg.ends?_inj hends (heq.trans hends)]
  have houtgoing : g.outgoing = h.outgoing := by
    rw [hg.outgoing, hh.outgoing, hnodes, hlinks]
  cases g
  cases h
  simp_all

/-! ## Adding -/

theorem nodes_locate (hg : g.Sound) (n : Node) : (g.locate n).1.nodes = pushAll g.nodes [n] := by
  unfold IndexedGraph.locate
  cases hfound : g.index? n with
  | some i =>
    have hmem := List.mem_of_getElem? (hg.index?_eq_some_iff.mp hfound)
    exact (pushAll_singleton_of_mem hmem).symm
  | none => exact (pushAll_singleton_of_not_mem (hg.index?_eq_none_iff.mp hfound)).symm

/-- Nodes that are appended leave the edges. -/
theorem edges_of_prefix (hg : g.Sound) (hnodes : g.nodes <+: h.nodes)
    (hlinks : h.links = g.links) : h.edges = g.edges := by
  unfold edges
  rw [hlinks]
  refine List.filterMap_congr fun link hlink => ?_
  obtain ⟨source, target, hsource, htarget⟩ := hg.exists_ends hlink
  obtain ⟨more, hmore⟩ := hnodes
  have hkeep {i : Nat} {n : Node} (hi : g.nodes[i]? = some n) : h.nodes[i]? = some n := by
    rw [← hmore, List.getElem?_append_left (List.getElem?_eq_some_iff.mp hi).1, hi]
  rw [ends?_eq_some_iff.mpr ⟨hsource, htarget⟩,
    ends?_eq_some_iff.mpr ⟨hkeep hsource, hkeep htarget⟩]

theorem edges_locate (hg : g.Sound) (n : Node) : (g.locate n).1.edges = g.edges := by
  refine hg.edges_of_prefix (hg.locate n).2.2 ?_
  unfold IndexedGraph.locate
  cases g.index? n <;> rfl

theorem edges_link (hg : g.Sound) {i j : Nat} {source target : Node}
    (hi : g.nodes[i]? = some source) (hj : g.nodes[j]? = some target) :
    (g.link i j).edges = pushAll g.edges [(source, target)] := by
  have hlt : i < g.nodes.length := (List.getElem?_eq_some_iff.mp hi).1
  have hedge := hg.mem_edges_iff_mem_links hi hj
  unfold IndexedGraph.link
  rw [hg.next_eq hlt]
  by_cases hold : (i, j) ∈ g.links
  · rw [if_pos (mem_targets.mpr hold), pushAll_singleton_of_mem (hedge.mpr hold)]
  · rw [if_neg (mt mem_targets.mp hold), pushAll_singleton_of_not_mem (mt hedge.mp hold)]
    have hends : g.ends? (i, j) = some (source, target) := ends?_eq_some_iff.mpr ⟨hi, hj⟩
    show (g.links ++ [(i, j)]).filterMap g.ends? = _
    rw [List.filterMap_append, List.filterMap_cons_some hends]
    rfl

theorem nodes_addEdge (hg : g.Sound) (source target : Node) :
    (g.addEdge source target).nodes = pushAll g.nodes [source, target] := by
  have hlink (g : IndexedGraph) (i j : Nat) : (g.link i j).nodes = g.nodes := by
    unfold IndexedGraph.link
    split_ifs <;> rfl
  unfold IndexedGraph.addEdge
  rw [hlink, (hg.locate source).1.nodes_locate, hg.nodes_locate]
  rfl

theorem edges_addEdge (hg : g.Sound) (source target : Node) :
    (g.addEdge source target).edges = pushAll g.edges [(source, target)] := by
  obtain ⟨hsource, hi, -⟩ := hg.locate source
  obtain ⟨htarget, hj, more, hmore⟩ := hsource.locate target
  have hi' : ((g.locate source).1.locate target).1.nodes[(g.locate source).2]? = some source := by
    rw [← hmore, List.getElem?_append_left (List.getElem?_eq_some_iff.mp hi).1, hi]
  unfold IndexedGraph.addEdge
  rw [htarget.edges_link hi' hj, hsource.edges_locate, hg.edges_locate]

theorem nodes_foldl_addNode (hg : g.Sound) (nodes : List Node) :
    (nodes.foldl IndexedGraph.addNode g).nodes = pushAll g.nodes nodes ∧
      (nodes.foldl IndexedGraph.addNode g).edges = g.edges := by
  induction nodes generalizing g with
  | nil => exact ⟨rfl, rfl⟩
  | cons n nodes ih =>
    obtain ⟨hnodes, hedges⟩ := ih (hg.addNode n)
    rw [List.foldl_cons, hnodes, hedges]
    exact ⟨congrArg (pushAll · nodes) (hg.nodes_locate n), hg.edges_locate n⟩

theorem nodes_foldl_addEdge (hg : g.Sound) (edges : List (Node × Node)) :
    (edges.foldl (fun g edge => g.addEdge edge.1 edge.2) g).nodes = pushAll g.nodes (ends edges) ∧
      (edges.foldl (fun g edge => g.addEdge edge.1 edge.2) g).edges =
        pushAll g.edges edges := by
  induction edges generalizing g with
  | nil => exact ⟨rfl, rfl⟩
  | cons edge edges ih =>
    obtain ⟨hnodes, hedges⟩ := ih (hg.addEdge edge.1 edge.2)
    rw [List.foldl_cons, hnodes, hedges, hg.nodes_addEdge, hg.edges_addEdge, ← pushAll_append,
      ← pushAll_append]
    exact ⟨rfl, rfl⟩

theorem nodes_merge (hg : g.Sound) (h : IndexedGraph) :
    (g.merge h).nodes = pushAll g.nodes h.nodes := by
  obtain ⟨hnodes, -⟩ := hg.nodes_foldl_addNode h.nodes
  rw [IndexedGraph.merge, ((hg.foldl_addNode h.nodes).nodes_foldl_addEdge h.edges).1, hnodes]
  exact pushAll_of_subset fun n hn => mem_pushAll.mpr (.inr (mem_nodes_of_mem_ends hn))

theorem edges_merge (hg : g.Sound) (h : IndexedGraph) :
    (g.merge h).edges = pushAll g.edges h.edges := by
  obtain ⟨-, hedges⟩ := hg.nodes_foldl_addNode h.nodes
  rw [IndexedGraph.merge, ((hg.foldl_addNode h.nodes).nodes_foldl_addEdge h.edges).2, hedges]

end Sound

end IndexedGraph

end Memberwise
