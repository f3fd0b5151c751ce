import Mathlib
import Memberwise.Proofs.GraphUnions
import Memberwise.Proofs.TypeTables

/-!
# What is written beside the types

A build keeps the handles of remote methods, the targets of proxies, the entry point and the
dependency graph beside its types.  What a registered type writes to them is its footprint, which
can be read off the declaration.  Whatever errors are reported, the tables of a build are what the
footprints of its registered types make of them, one after the other.
-/

namespace Memberwise

/-! ## Growing graphs -/

namespace Graph

/-- A graph that grew by some nodes and some edges with their ends. -/
structure Adds (g g' : Graph) (nodes : List Node) (edges : List (Node × Node)) : Prop where
  nodes : ∀ n, n ∈ g'.nodes ↔ n ∈ g.nodes ∨ n ∈ nodes ∨ n ∈ IndexedGraph.ends edges
  edges : g'.edges = pushAll g.edges edges

variable {g g₁ g₂ : Graph}

theorem Adds.refl (g : Graph) : g.Adds g [] [] := ⟨by simp [IndexedGraph.ends], rfl⟩

theorem Adds.trans {ns ns' : List Node} {es es' : List (Node × Node)} (h : g.Adds g₁ ns es)
    (h' : g₁.Adds g₂ ns' es') : g.Adds g₂ (ns ++ ns') (es ++ es') := by
  refine ⟨fun n => ?_, ?_⟩
  · rw [h'.nodes, h.nodes]
    simp only [List.mem_append, IndexedGraph.ends, List.flatMap_append]
    tauto
  · rw [h'.edges, h.edges, pushAll_append]

theorem adds_addNode (g : Graph) (n : Node) : g.Adds (g.addNode n) [n] [] := by
  refine ⟨fun n' => ?_, edges_addNode g n⟩
  simp [nodes_addNode, mem_pushAll, IndexedGraph.ends]

theorem adds_addEdge (g : Graph) (source target : Node) :
    g.Adds (g.addEdge source target) [] [(source, target)] := by
  refine ⟨fun n => ?_, edges_addEdge g source target⟩
  simp [nodes_addEdge, mem_pushAll, IndexedGraph.ends]

theorem adds_addEntryPoint (g : Graph) (owner member : Identity) :
    g.Adds (g.addEntryPoint owner member) []
      [(.entryPoint, .method owner member), (.method owner member, .type owner)] :=
  (g.adds_addEdge .entryPoint (.method owner member)).trans (adds_addEdge _ _ _)

theorem adds_addRequiring (g : Graph) (n : Node) (resources : List Identity) :
    g.Adds (g.addRequiring n resources) [n] (resources.map fun r => (n, .resource r)) := by
  have hedges (resources : List Identity) (g : Graph) :
      g.Adds (resources.foldl (fun g r => g.addEdge n (.resource r)) g) []
        (resources.map fun r => (n, .resource r)) := by
    induction resources generalizing g with
    | nil => exact .refl g
    | cons r resources ih => exact (adds_addEdge g n (.resource r)).trans (ih _)
  exact (adds_addNode g n).trans (hedges resources _)

/-- What a node requires once a graph has grown. -/
theorem Adds.direct {ns : List Node} {es : List (Node × Node)} (h : g.Adds g₁ ns es) (n : Node) :
    g₁.direct n = pushAll (g.direct n) (IndexedGraph.targets n es) := by
  rw [g₁.sound.direct_eq, g.sound.direct_eq, h.edges]
  exact IndexedGraph.targets_pushAll n g.edges es

end Graph

/-! ## What is written beside the types -/

/-- The node of a method. -/
def MethodRef.node (ref : MethodRef) : Node := .method ref.owner (ref.signature.identity ref.owner)

/-- The statement that makes a method the entry point. -/
def MethodRef.start (ref : MethodRef) : Statement := .expr (.call none ref [])

/-- What is written beside the types of a build, each table in order. -/
structure Footprint where
  remotes : List (MethodRef × RemoteHandle) := []
  proxies : List (Identity × Identity) := []
  entries : List MethodRef := []
  nodes : List Node := []
  edges : List (Node × Node) := []

namespace Footprint

instance : Append Footprint where
  append f f' := ⟨f.remotes ++ f'.remotes, f.proxies ++ f'.proxies, f.entries ++ f'.entries,
    f.nodes ++ f'.nodes, f.edges ++ f'.edges⟩

variable (f f' : Footprint)

@[simp]
theorem remotes_append : (f ++ f').remotes = f.remotes ++ f'.remotes := rfl

@[simp]
theorem proxies_append : (f ++ f').proxies = f.proxies ++ f'.proxies := rfl

@[simp]
theorem entries_append : (f ++ f').entries = f.entries ++ f'.entries := rfl

@[simp]
theorem nodes_append : (f ++ f').nodes = f.nodes ++ f'.nodes := rfl

@[simp]
theorem edges_append : (f ++ f').edges = f.edges ++ f'.edges := rfl

/-- Several footprints one after the other. -/
def join (l : List Footprint) : Footprint where
  remotes := l.flatMap remotes
  proxies := l.flatMap proxies
  entries := l.flatMap entries
  nodes := l.flatMap nodes
  edges := l.flatMap edges

/-- A node is written by itself or as an end of an edge. -/
def Mentions (n : Node) : Prop := n ∈ f.nodes ∨ n ∈ IndexedGraph.ends f.edges

theorem mentions_append {n : Node} : (f ++ f').Mentions n ↔ f.Mentions n ∨ f'.Mentions n := by
  simp only [Mentions, nodes_append, edges_append, IndexedGraph.ends, List.flatMap_append,
    List.mem_append]
  tauto

end Footprint

/-- A static method with the attribute of an entry point. -/
def MemberDecl.isEntry (d : MemberDecl) : Bool :=
  (d.attributes.any fun
    | .entryPoint => true
    | _ => false) && d.form = .method && d.isStatic

namespace MethodRef

/-- What a remote method writes beside the types. -/
def remoteFootprint (ref : MethodRef) (handle : Option RemoteHandle) : Footprint :=
  { remotes := handle.toList.map fun handle => (ref, handle) }

/-- What a method that requires resources writes beside the types. -/
def requiringFootprint (ref : MethodRef) (requires : List Ty) : Footprint :=
  if requires.isEmpty then {} else {
    nodes := [ref.node]
    edges := (ref.node, .type ref.owner) :: requires.map fun t => (ref.node, .resource t.identity) }

/-- What an entry point writes beside the types. -/
def entryFootprint (ref : MethodRef) : Footprint where
  entries := [ref]
  edges := [(.entryPoint, ref.node), (ref.node, .type ref.owner)]

end MethodRef

/-- What a member writes beside the types when it is added to its class. -/
def MemberDecl.footprint (owner : Identity) (requires : List Ty) (d : MemberDecl)
    (member : Member) : Footprint :=
  let ref : MethodRef := ⟨owner, d.signature⟩
  ref.remoteFootprint member.remoteHandle? ++ ref.requiringFootprint requires ++
    if d.isEntry then ref.entryFootprint else {}

namespace TypeHead

/-- What the members of a class write beside the types. -/
def memberFootprint (h : TypeHead) (o : Options) (m : Marking) : Footprint :=
  .join ((h.added o m).map fun (d, member) =>
    d.footprint h.id (memberMarking m h.members d).requires member)

/-- The node of a type. -/
def node (h : TypeHead) : Node := if h.isResource then .resource h.id else .type h.id

/-- What a type writes for the resources that it requires. -/
def requiringFootprint (h : TypeHead) (m : Marking) : Footprint where
  nodes := [h.node]
  edges := m.requires.map fun t => (h.node, .resource t.identity)

/-- What a type writes if it becomes a class. -/
def classFootprint (h : TypeHead) (o : Options) (m : Marking) : Footprint :=
  { proxies := m.proxyOf.toList.map fun target => (h.id, target.identity) : Footprint } ++
    h.memberFootprint o m

/-- What a type writes beside the types when it is registered. -/
def footprint (h : TypeHead) (o : Options) (m : Marking) : Footprint :=
  (if h.isClass then h.classFootprint o m else {}) ++ h.requiringFootprint m

end TypeHead

/-- What is written beside the types when something is registered. -/
def Registrant.footprint (o : Options) : Registrant → Footprint
  | type h m => h.footprint o m
  | startup c => { nodes := [.type c.id] }

/-- A build that wrote a footprint beside its types. -/
structure Build.Records (b b₁ : Build) (f : Footprint) : Prop where
  remotes : b₁.remotes = b.remotes.insertAll f.remotes
  proxies : b₁.proxies = b.proxies.insertAll f.proxies
  entryPoint : b₁.entryPoint = (f.entries.getLast?.map MethodRef.start).or b.entryPoint
  graph : b.graph.Adds b₁.graph f.nodes f.edges

namespace Build

variable {b b₁ b₂ : Build}

theorem Records.refl (b : Build) : b.Records b {} := ⟨rfl, rfl, rfl, .refl _⟩

theorem Records.trans {f f' : Footprint} (h : b.Records b₁ f) (h' : b₁.Records b₂ f') :
    b.Records b₂ (f ++ f') := by
  refine ⟨?_, ?_, ?_, h.graph.trans h'.graph⟩
  · rw [h'.remotes, h.remotes]
    exact List.foldl_append.symm
  · rw [h'.proxies, h.proxies]
    exact List.foldl_append.symm
  · have hlast : (f ++ f').entries.getLast? = f'.entries.getLast?.or f.entries.getLast? :=
      List.getLast?_append
    rw [h'.entryPoint, h.entryPoint, hlast, Option.map_or, Option.or_assoc]

end Build

theorem memberMarking_isEntryPoint (type : Marking) (ds : List MemberDecl) (d : MemberDecl) :
    (memberMarking type ds d).isEntryPoint = d.attributes.any fun
      | .entryPoint => true
      | _ => false := by
  have hwithin : (type.within d.attributes).isEntryPoint = d.attributes.any fun
      | .entryPoint => true
      | _ => false := by
    unfold Marking.within
    dsimp only
    split_ifs <;> rfl
  unfold memberMarking
  dsimp only
  split
  · split
    · unfold Marking.followGetter
      split_ifs
      · exact hwithin
      · split
        · split_ifs <;> exact hwithin
        · exact hwithin
    · exact hwithin
  · exact hwithin

namespace Build

variable (b : Build) (owner : Identity) (d : MemberDecl)

/-- What is written into the dependency graph. -/
theorem records_mapGraph {f : Graph → Graph} {ns : List Node} {es : List (Node × Node)}
    (hadds : b.graph.Adds (f b.graph) ns es) :
    b.Records (b.mapGraph f) { nodes := ns, edges := es } :=
  ⟨rfl, rfl, rfl, hadds⟩

theorem records_registerRemote (member : Member) :
    b.Records (b.registerRemote owner d member)
      (MethodRef.remoteFootprint ⟨owner, d.signature⟩ member.remoteHandle?) := by
  unfold registerRemote
  cases member.remoteHandle? with
  | none => exact .refl b
  | some handle => exact ⟨rfl, rfl, rfl, .refl _⟩

theorem records_registerRequired (m : Marking) :
    b.Records (b.registerRequired owner d m)
      (MethodRef.requiringFootprint ⟨owner, d.signature⟩ m.requires) := by
  unfold registerRequired MethodRef.requiringFootprint
  split_ifs
  · exact .refl b
  · have hedge := b.graph.adds_addEdge (MethodRef.node ⟨owner, d.signature⟩) (.type owner)
    have hrequiring := hedge.trans
      (Graph.adds_addRequiring _ (MethodRef.node ⟨owner, d.signature⟩) (m.requires.map Ty.identity))
    rw [List.map_map] at hrequiring
    exact b.records_mapGraph hrequiring

theorem records_entryPoint (ref : MethodRef) :
    b.Records ((b.setEntryPoint ref.start).mapGraph fun g =>
      g.addEntryPoint ref.owner (ref.signature.identity ref.owner)) ref.entryFootprint := by
  have hset : b.Records (b.setEntryPoint ref.start) { entries := [ref] } :=
    ⟨rfl, rfl, rfl, .refl _⟩
  have hgraph := (b.setEntryPoint ref.start).records_mapGraph
    (f := fun g => g.addEntryPoint ref.owner (ref.signature.identity ref.owner))
    (Graph.adds_addEntryPoint ..)
  exact hset.trans hgraph

theorem records_registerEntryPoint (type : Marking) (ds : List MemberDecl) :
    b.Records
      (if (memberMarking type ds d).isEntryPoint then b.registerEntryPoint owner d else b)
      (if d.isEntry then MethodRef.entryFootprint ⟨owner, d.signature⟩ else {}) := by
  unfold MemberDecl.isEntry registerEntryPoint
  rw [memberMarking_isEntryPoint]
  by_cases hmark : (d.attributes.any fun
      | .entryPoint => true
      | _ => false) = true
  · rw [if_pos hmark, hmark, Bool.true_and]
    split_ifs
    · exact b.records_entryPoint ⟨owner, d.signature⟩
    · exact ⟨rfl, rfl, rfl, .refl _⟩
  · rw [if_neg hmark]
    simp only [hmark, Bool.false_and]
    exact .refl b

theorem records_register (type : Marking) (ds : List MemberDecl) (member : Member) :
    b.Records (b.register owner d (memberMarking type ds d) member)
      (d.footprint owner (memberMarking type ds d).requires member) := by
  have hremote := b.records_registerRemote owner d member
  have hrequired := hremote.trans (records_registerRequired _ owner d (memberMarking type ds d))
  exact hrequired.trans (records_registerEntryPoint _ owner d type ds)

theorem records_registerAll (type : Marking) (ds : List MemberDecl)
    (added : List (MemberDecl × Member)) :
    b.Records (b.registerAll owner type ds added)
      (.join (added.map fun (d, member) =>
        d.footprint owner (memberMarking type ds d).requires member)) := by
  induction added generalizing b with
  | nil => exact .refl b
  | cons p added ih => exact (b.records_register owner p.1 type ds p.2).trans (ih _)

variable (o : Options)

theorem records_enterMembers (h : TypeHead) (m : Marking) :
    b.Records (h.enterMembers o m b) (h.classFootprint o m) := by
  unfold TypeHead.enterMembers
  refine Records.trans ?_ (records_registerAll _ h.id m h.members (h.added o m))
  cases m.proxyOf with
  | none => exact .refl b
  | some target => exact ⟨rfl, rfl, rfl, .refl _⟩

theorem adds_required (g : Graph) (n : Node) (requires : List Ty) :
    g.Adds (g.addRequiring n (requires.map Ty.identity)) [n]
      (requires.map fun t => (n, .resource t.identity)) := by
  have hadds := g.adds_addRequiring n (requires.map Ty.identity)
  rw [List.map_map] at hadds
  exact hadds

theorem records_enter (r : Registrant) : b.Records (r.enter o b) (r.footprint o) := by
  cases r with
  | startup c => exact ⟨rfl, rfl, rfl, b.graph.adds_addRequiring (.type c.id) []⟩
  | type h m =>
    rw [Registrant.enter, TypeHead.enter, Registrant.footprint, TypeHead.footprint,
      TypeHead.requiringFootprint, TypeHead.node]
    split_ifs with hresource hclass hclass
    · simp [TypeHead.isClass, hresource] at hclass
    · exact ⟨rfl, rfl, rfl, adds_required _ _ _⟩
    · refine (b.records_enterMembers o h m).trans ⟨rfl, rfl, rfl, ?_⟩
      rw [← h.emittedClass_id o m]
      exact adds_required _ _ _
    · exact ⟨rfl, rfl, rfl, adds_required _ _ _⟩

theorem records_enterAll (items : List Registrant) :
    b.Records (b.enterAll o items) (.join (items.map (Registrant.footprint o))) := by
  induction items generalizing b with
  | nil => exact .refl b
  | cons r items ih => exact (b.records_enter o r).trans (ih _)

/-- Assigning names changes nothing but the report and the names. -/
theorem resolve_eq : ∃ report names, b.resolve = { b with report, names } := by
  have herrors (errors : List CompileError) (b : Build) :
      ∃ report, errors.foldl error b = { b with report } := by
    induction errors generalizing b with
    | nil => exact ⟨b.report, rfl⟩
    | cons e errors ih => exact ih (b.error e)
  unfold resolve
  split
  · exact ⟨b.report, b.names, rfl⟩
  · dsimp only
    generalize b.typeNames.collisions ++ _ = collisions
    obtain ⟨report, hreport⟩ := herrors collisions b
    exact ⟨report, _, by rw [hreport]⟩

end Build

/-- What an assembly writes beside its types. -/
def Assembly.footprint (a : Assembly) (o : Options) : Footprint :=
  .join ((a.registrants o).map (Registrant.footprint o))

theorem Assembly.records_draft (a : Assembly) (prior : Snapshot) (o : Options) :
    (Build.new prior o).Records (a.draft prior o) (a.footprint o) := by
  have hall := (Build.new prior o).records_enterAll o (a.registrants o)
  have halike := a.alike_draft prior o
  have hremotes := halike.same (f := Build.remotes) fun _ => rfl
  have hproxies := halike.same (f := Build.proxies) fun _ => rfl
  have hentry := halike.same (f := Build.entryPoint) fun _ => rfl
  have hgraph := halike.same (f := Build.graph) fun _ => rfl
  exact ⟨hremotes.trans hall.remotes, hproxies.trans hall.proxies, hentry.trans hall.entryPoint,
    hgraph.symm ▸ hall.graph⟩

theorem Assembly.records_build (a : Assembly) (prior : Snapshot) (o : Options) :
    (Build.new prior o).Records (a.build prior o) (a.footprint o) := by
  have hdraft := a.records_draft prior o
  obtain ⟨report, names, hresolve⟩ := (a.draft prior o).resolve_eq
  have hbuild : a.build prior o = { a.draft prior o with report, names } := hresolve
  rw [hbuild]
  exact ⟨hdraft.remotes, hdraft.proxies, hdraft.entryPoint, hdraft.graph⟩

end Memberwise
