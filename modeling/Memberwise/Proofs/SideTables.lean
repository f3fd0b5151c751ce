import Mathlib
import Memberwise.Proofs.Footprints

/-!
# The tables beside the types mirror the types

A remote handle belongs to a remote method of a class, a proxy is a class that is marked as one,
and the dependency graph has a node for each class and interface with edges from a class to the
resources that it requires.  The entry point calls the last of the static methods that ask for it.

A type that is declared twice, a member whose key is taken and a member that cannot be emitted
write nothing, or nothing that the class does not show as well.
-/

namespace Memberwise

/-! ## Members of registered classes -/

theorem mem_of_mem_firstOfKey {taken : List MemberKey} {ps : List (MemberDecl × Member)}
    {p : MemberDecl × Member} (h : p ∈ firstOfKey taken ps) : p ∈ ps := by
  induction ps generalizing taken with
  | nil => exact h
  | cons q ps ih =>
    rw [firstOfKey] at h
    split_ifs at h
    · exact List.mem_cons_of_mem q (ih h)
    · rcases List.mem_cons.mp h with rfl | h
      · exact List.mem_cons_self
      · exact List.mem_cons_of_mem q (ih h)

/-- A member becomes a method or constructor of its own signature; only methods can be remote. -/
theorem MemberDecl.outcome_cases {o : Options} {owner : Owner} {d : MemberDecl} {m : Marking}
    {member : Member} (h : d.outcome o owner m = some member) :
    ∃ method, member = d.emitted method ∧ method.isStatic = d.isStatic ∧
      (member.remoteHandle?.isSome → d.form = .method) := by
  unfold outcome at h
  split at h
  · next hemit =>
    obtain rfl := h
    obtain ⟨kind, body, rfl, hkind⟩ := emit_cases hemit
    refine ⟨_, rfl, rfl, fun hremote => ?_⟩
    obtain ⟨handle, hhandle⟩ := Option.isSome_iff_exists.mp hremote
    obtain ⟨style, rfl⟩ := remoteHandle?_emittedAs hhandle
    rcases hkind with ⟨habstract, -⟩ | ⟨treatment, hbody⟩
    · cases habstract
    · exact (remote_of_kindAndBody hbody).1
  · next e _ =>
    obtain rfl := Option.some.inj h
    exact ⟨_, rfl, rfl, by simp⟩

theorem Member.remoteHandle?_eq_some {member : Member} {handle : RemoteHandle} :
    member.remoteHandle? = some handle ↔
      ∃ method style, member.method? = some method ∧ method.kind = .remote style handle := by
  unfold remoteHandle?
  constructor
  · intro h
    split at h
    · next heq =>
      obtain rfl := Option.some.inj h
      exact ⟨_, _, heq, rfl⟩
    · cases h
  · rintro ⟨method, style, hmethod, hkind⟩
    rw [hmethod]
    obtain ⟨kind, _⟩ := method
    obtain rfl : kind = .remote style handle := hkind
    rfl

namespace MemberDecl

variable (owner : Identity) (requires : List Ty) (d : MemberDecl) (member : Member)

theorem remotes_footprint : (d.footprint owner requires member).remotes =
    member.remoteHandle?.toList.map fun handle => (⟨owner, d.signature⟩, handle) := by
  by_cases hentry : d.isEntry = true <;> by_cases hnone : requires.isEmpty = true <;>
    simp [footprint, MethodRef.remoteFootprint, MethodRef.requiringFootprint,
      MethodRef.entryFootprint, hentry, hnone]

theorem proxies_footprint : (d.footprint owner requires member).proxies = [] := by
  by_cases hentry : d.isEntry = true <;> by_cases hnone : requires.isEmpty = true <;>
    simp [footprint, MethodRef.remoteFootprint, MethodRef.requiringFootprint,
      MethodRef.entryFootprint, hentry, hnone]

theorem entries_footprint : (d.footprint owner requires member).entries =
    if d.isEntry then [⟨owner, d.signature⟩] else [] := by
  by_cases hentry : d.isEntry = true <;> by_cases hnone : requires.isEmpty = true <;>
    simp [footprint, MethodRef.remoteFootprint, MethodRef.requiringFootprint,
      MethodRef.entryFootprint, hentry, hnone]

/-- The edges of a member lead from its method to its type or a resource, or from the entry point
to its method. -/
theorem edges_footprint {e : Node × Node} (h : e ∈ (d.footprint owner requires member).edges) :
    d.isEntry = true ∧ e = (.entryPoint, MethodRef.node ⟨owner, d.signature⟩) ∨
      e.1 = MethodRef.node ⟨owner, d.signature⟩ ∧
        (e.2 = .type owner ∨ ∃ id, e.2 = .resource id) := by
  rw [footprint, Footprint.edges_append, Footprint.edges_append] at h
  rcases List.mem_append.mp h with h | h
  · rcases List.mem_append.mp h with h | h
    · cases h
    · unfold MethodRef.requiringFootprint at h
      split_ifs at h
      · cases h
      · rcases List.mem_cons.mp h with rfl | h
        · exact .inr ⟨rfl, .inl rfl⟩
        · obtain ⟨t, -, rfl⟩ := List.mem_map.mp h
          exact .inr ⟨rfl, .inr ⟨_, rfl⟩⟩
  · split_ifs at h with hentry
    · rcases List.mem_cons.mp h with rfl | h
      · exact .inl ⟨hentry, rfl⟩
      · rw [List.mem_singleton.mp h]
        exact .inr ⟨rfl, .inl rfl⟩
    · cases h

theorem type_not_mem_nodes_footprint (id : Identity) :
    .type id ∉ (d.footprint owner requires member).nodes := by
  by_cases hentry : d.isEntry = true <;> by_cases hnone : requires.isEmpty = true <;>
    simp [footprint, MethodRef.remoteFootprint, MethodRef.requiringFootprint,
      MethodRef.entryFootprint, hentry, hnone, MethodRef.node]

/-- The edges of a member from the entry point. -/
theorem targets_entryPoint_footprint :
    IndexedGraph.targets .entryPoint (d.footprint owner requires member).edges =
      if d.isEntry then [MethodRef.node ⟨owner, d.signature⟩] else [] := by
  by_cases hentry : d.isEntry = true <;> by_cases hnone : requires.isEmpty = true <;>
    simp [footprint, MethodRef.remoteFootprint, MethodRef.requiringFootprint,
      MethodRef.entryFootprint, hentry, hnone, IndexedGraph.targets, MethodRef.node]

end MemberDecl

namespace TypeHead

variable {h : TypeHead} {o : Options} {m : Marking}

theorem outcome_of_mem_added {p : MemberDecl × Member} (hp : p ∈ h.added o m) :
    p.1.outcome o (h.owner m) (memberMarking m h.members p.1) = some p.2 := by
  obtain ⟨d, -, hd⟩ := List.mem_filterMap.mp (mem_of_mem_firstOfKey hp)
  obtain ⟨member, houtcome, rfl⟩ := Option.map_eq_some_iff.mp hd
  exact houtcome

theorem nodup_keys_added (h : TypeHead) (o : Options) (m : Marking) :
    ((h.added o m).map (·.2.key)).Nodup := by
  obtain ⟨extra, shape, heq, -⟩ := h.emittedClass_eq o m
  have hkeys := h.nodup_keys_emittedClass o m
  rw [heq, ClassRecord.keys, List.map_append, List.map_map] at hkeys
  exact (List.nodup_append.mp hkeys).1

/-- A method that was added is found in the class under its signature. -/
theorem method?_of_mem_added {d : MemberDecl} {method : Method}
    (hp : (d, .method d.signature method) ∈ h.added o m) :
    (h.emittedClass o m).method? d.signature = some method := by
  obtain ⟨extra, shape, heq, -⟩ := h.emittedClass_eq o m
  have hkeys := h.nodup_keys_added o m
  rw [← Function.comp_def Member.key Prod.snd, ← List.map_map] at hkeys
  rw [heq]
  exact ClassRecord.method?_of_mem rfl hkeys (List.mem_map_of_mem hp)

/-- What is remote is a method under the signature of its declaration. -/
theorem method_of_remoteHandle {p : MemberDecl × Member} (hp : p ∈ h.added o m)
    {handle : RemoteHandle} (hremote : p.2.remoteHandle? = some handle) :
    ∃ method style, p.2 = .method p.1.signature method ∧ method.kind = .remote style handle := by
  obtain ⟨method, hmember, -, hform⟩ := MemberDecl.outcome_cases (outcome_of_mem_added hp)
  have hform := hform (by rw [hremote]; rfl)
  rw [MemberDecl.emitted, hform] at hmember
  obtain ⟨method', style, hmethod, hkind⟩ := Member.remoteHandle?_eq_some.mp hremote
  rw [hmember] at hmethod
  obtain rfl := Option.some.inj hmethod
  exact ⟨method, style, hmember, hkind⟩

theorem mem_remotes_memberFootprint {ref : MethodRef} {handle : RemoteHandle} :
    (ref, handle) ∈ (h.memberFootprint o m).remotes ↔
      ∃ p ∈ h.added o m, p.2.remoteHandle? = some handle ∧ ref = ⟨h.id, p.1.signature⟩ := by
  simp only [memberFootprint, Footprint.join, List.flatMap_map, List.mem_flatMap,
    MemberDecl.remotes_footprint, List.mem_map, Option.mem_toList, Prod.mk.injEq]
  constructor
  · rintro ⟨p, hp, handle', hhandle, rfl, rfl⟩
    exact ⟨p, hp, hhandle, rfl⟩
  · rintro ⟨p, hp, hhandle, rfl⟩
    exact ⟨p, hp, handle, hhandle, rfl, rfl⟩

/-- The remote methods of a class are those that its members are entered as. -/
theorem mem_remotes_iff {ref : MethodRef} {handle : RemoteHandle} :
    (ref, handle) ∈ (h.memberFootprint o m).remotes ↔
      ref.owner = h.id ∧ ∃ method style,
        (h.emittedClass o m).method? ref.signature = some method ∧
          method.kind = .remote style handle := by
  rw [mem_remotes_memberFootprint]
  constructor
  · rintro ⟨⟨d, member⟩, hp, hremote, rfl⟩
    obtain ⟨method, style, hmember, hkind⟩ := method_of_remoteHandle hp hremote
    obtain rfl : member = .method d.signature method := hmember
    exact ⟨rfl, method, style, method?_of_mem_added hp, hkind⟩
  · rintro ⟨howner, method, style, hmethod, hkind⟩
    have hremote : (Member.method ref.signature method).remoteHandle? = some handle :=
      Member.remoteHandle?_eq_some.mpr ⟨method, style, rfl, hkind⟩
    obtain ⟨extra, shape, heq, hextra⟩ := h.emittedClass_eq o m
    have hmem := ClassRecord.mem_of_method? hmethod
    rw [heq] at hmem
    rcases List.mem_append.mp hmem with hadded | hmem
    · obtain ⟨⟨d, member⟩, hp, hmember⟩ := List.mem_map.mp hadded
      obtain rfl : member = .method ref.signature method := hmember
      obtain ⟨method', -, hsame, -⟩ := method_of_remoteHandle hp hremote
      obtain ⟨hsignature, -⟩ := Member.method.inj hsame
      exact ⟨_, hp, hremote, by rw [← howner, ← hsignature]⟩
    · rw [hextra _ hmem] at hremote
      cases hremote

theorem nodup_remotes (h : TypeHead) (o : Options) (m : Marking) :
    ((h.memberFootprint o m).remotes.map Prod.fst).Nodup := by
  have hlist : (h.memberFootprint o m).remotes.map Prod.fst =
      (h.added o m).flatMap fun p =>
        p.2.remoteHandle?.toList.map fun _ => (⟨h.id, p.1.signature⟩ : MethodRef) := by
    simp [memberFootprint, Footprint.join, List.flatMap_map, MemberDecl.remotes_footprint,
      List.map_flatMap, Function.comp_def]
  rw [hlist, List.nodup_flatMap]
  refine ⟨fun p _ => ?_, ?_⟩
  · cases p.2.remoteHandle? <;> simp
  · have hkeys := List.pairwise_map.mp (h.nodup_keys_added o m)
    refine hkeys.imp_of_mem fun {p q} hp hq hne ref hrefp hrefq => hne ?_
    obtain ⟨handle, hhandle, rfl⟩ := List.mem_map.mp hrefp
    obtain ⟨handle', hhandle', heq⟩ := List.mem_map.mp hrefq
    obtain ⟨method, -, hmember, -⟩ := method_of_remoteHandle hp (Option.mem_toList.mp hhandle)
    obtain ⟨method', -, hmember', -⟩ := method_of_remoteHandle hq (Option.mem_toList.mp hhandle')
    obtain ⟨-, hsignature⟩ := MethodRef.mk.inj heq
    rw [hmember, hmember', Member.key, Member.key, hsignature]

theorem not_resource_of_class (hclass : h.isClass = true) : h.isResource = false := by
  unfold isClass at hclass
  simp_all

theorem node_of_class (hclass : h.isClass = true) : h.node = .type h.id := by
  rw [node, not_resource_of_class hclass]
  rfl

theorem mentions_requiringFootprint {id : Identity} :
    (h.requiringFootprint m).Mentions (.type id) ↔ h.isResource = false ∧ id = h.id := by
  unfold Footprint.Mentions requiringFootprint node IndexedGraph.ends
  cases h.isResource <;> simp

theorem id_of_mentions_memberFootprint {id : Identity}
    (hid : (h.memberFootprint o m).Mentions (.type id)) : id = h.id := by
  rcases hid with hnode | hend
  · obtain ⟨f, hf, hnode⟩ := List.mem_flatMap.mp hnode
    obtain ⟨p, -, rfl⟩ := List.mem_map.mp hf
    exact absurd hnode (p.1.type_not_mem_nodes_footprint _ _ p.2 id)
  · obtain ⟨e, he, hend⟩ := List.mem_flatMap.mp hend
    obtain ⟨f, hf, he⟩ := List.mem_flatMap.mp he
    obtain ⟨p, -, rfl⟩ := List.mem_map.mp hf
    obtain ⟨source, target⟩ := e
    rcases p.1.edges_footprint _ _ _ he with ⟨-, heq⟩ | ⟨rfl, htarget⟩
    · obtain ⟨rfl, rfl⟩ := Prod.mk.inj heq
      simp [MethodRef.node] at hend
    · rcases htarget with rfl | ⟨r, rfl⟩
      · simpa [MethodRef.node] using hend
      · simp [MethodRef.node] at hend

theorem targets_type_memberFootprint {id : Identity} :
    IndexedGraph.targets (.type id) (h.memberFootprint o m).edges = [] := by
  refine List.filterMap_eq_nil_iff.mpr fun e he => if_neg ?_
  obtain ⟨f, hf, he⟩ := List.mem_flatMap.mp he
  obtain ⟨p, -, rfl⟩ := List.mem_map.mp hf
  rcases p.1.edges_footprint _ _ _ he with ⟨-, rfl⟩ | ⟨hsource, -⟩
  · nofun
  · rw [hsource]
    nofun

theorem targets_entryPoint_memberFootprint :
    IndexedGraph.targets .entryPoint (h.memberFootprint o m).edges =
      (h.memberFootprint o m).entries.map MethodRef.node := by
  have hmember (p : MemberDecl × Member) :
      IndexedGraph.targets .entryPoint
          (p.1.footprint h.id (memberMarking m h.members p.1).requires p.2).edges =
        (p.1.footprint h.id (memberMarking m h.members p.1).requires p.2).entries.map
          MethodRef.node := by
    rw [MemberDecl.targets_entryPoint_footprint, MemberDecl.entries_footprint]
    split_ifs <;> rfl
  unfold IndexedGraph.targets at hmember ⊢
  simp only [memberFootprint, Footprint.join, List.flatMap_map, List.filterMap_flatMap,
    List.map_flatMap, hmember]

/-- A class writes the proxy that its marking asks for, and no other. -/
theorem proxies_footprint (h : TypeHead) (o : Options) (m : Marking) :
    (h.footprint o m).proxies =
      if h.isClass then m.proxyOf.toList.map fun target => (h.id, target.identity) else [] := by
  have hmembers : (h.memberFootprint o m).proxies = [] := by
    simp [memberFootprint, Footprint.join, List.flatMap_map, MemberDecl.proxies_footprint]
  rw [footprint, Footprint.proxies_append]
  split_ifs
  · rw [classFootprint, Footprint.proxies_append, hmembers]
    exact (List.append_nil _).trans (List.append_nil _)
  · rfl

end TypeHead

/-! ## What each registered type writes -/

namespace Registrant

variable {o : Options} {r : Registrant}

/-- A type that becomes no class writes nothing but its node with its edges. -/
theorem footprint_of_not_class {h : TypeHead} (hclass : h.isClass = false) (o : Options)
    (m : Marking) : (type h m).footprint o = h.requiringFootprint m := by
  rw [footprint, TypeHead.footprint, hclass]
  rfl

theorem remotes_of_not_class {h : TypeHead} (hclass : h.isClass = false) (o : Options)
    (m : Marking) : ((type h m).footprint o).remotes = [] := by
  rw [footprint_of_not_class hclass]
  rfl

theorem footprint_of_class {h : TypeHead} (hclass : h.isClass = true) (o : Options)
    (m : Marking) :
    (type h m).footprint o = h.classFootprint o m ++ h.requiringFootprint m := by
  rw [footprint, TypeHead.footprint, if_pos hclass]

theorem remotes_of_class {h : TypeHead} (hclass : h.isClass = true) (o : Options) (m : Marking) :
    ((type h m).footprint o).remotes = (h.memberFootprint o m).remotes := by
  rw [footprint_of_class hclass]
  exact List.append_nil _

/-- A remote handle is written exactly for the remote methods of the class. -/
theorem Proper.mem_remotes_iff (hr : r.Proper) {ref : MethodRef} {handle : RemoteHandle} :
    (ref, handle) ∈ (r.footprint o).remotes ↔
      ∃ c method style, (ref.owner, c) ∈ r.classes o ∧ c.method? ref.signature = some method ∧
        method.kind = .remote style handle := by
  cases r with
  | startup c =>
    refine ⟨nofun, ?_⟩
    rintro ⟨c', method, style, hc, hmethod, hkind⟩
    obtain ⟨-, rfl⟩ := Prod.mk.inj (List.mem_singleton.mp hc)
    have hremote : (Member.method ref.signature method).remoteHandle? = some handle :=
      Member.remoteHandle?_eq_some.mpr ⟨method, style, rfl, hkind⟩
    rw [hr.2.members _ (ClassRecord.mem_of_method? hmethod)] at hremote
    cases hremote
  | type h m =>
    cases hclass : h.isClass with
    | false =>
      rw [remotes_of_not_class hclass, classes_of_not_class hclass]
      simp
    | true =>
      rw [remotes_of_class hclass, classes_of_class hclass, TypeHead.mem_remotes_iff]
      constructor
      · rintro ⟨howner, method, style, hmethod, hkind⟩
        exact ⟨_, method, style, List.mem_singleton.mpr (by rw [howner]), hmethod, hkind⟩
      · rintro ⟨c, method, style, hc, hmethod, hkind⟩
        obtain ⟨howner, rfl⟩ := Prod.mk.inj (List.mem_singleton.mp hc)
        exact ⟨howner, method, style, hmethod, hkind⟩

theorem owner_of_mem_remotes {entry : MethodRef × RemoteHandle}
    (hentry : entry ∈ (r.footprint o).remotes) : entry.1.owner = r.id := by
  cases r with
  | startup c => cases hentry
  | type h m =>
    cases hclass : h.isClass with
    | false =>
      rw [remotes_of_not_class hclass] at hentry
      cases hentry
    | true =>
      rw [remotes_of_class hclass] at hentry
      exact (TypeHead.mem_remotes_iff.mp hentry).1

theorem nodup_remotes (o : Options) (r : Registrant) :
    ((r.footprint o).remotes.map Prod.fst).Nodup := by
  cases r with
  | startup c => exact List.nodup_nil
  | type h m =>
    cases hclass : h.isClass with
    | false =>
      rw [remotes_of_not_class hclass]
      exact List.nodup_nil
    | true =>
      rw [remotes_of_class hclass]
      exact h.nodup_remotes o m

/-- A proxy is written exactly for a class that is marked as one, and only once. -/
theorem proxies_footprint (hr : r.Proper) :
    (r.footprint o).proxies.map Prod.fst =
      ((r.classes o).filter fun entry => entry.2.isProxy).map Prod.fst := by
  cases r with
  | startup c => simp [footprint, classes, hr.2.isProxy]
  | type h m =>
    cases hclass : h.isClass with
    | false =>
      rw [footprint_of_not_class hclass, classes_of_not_class hclass]
      rfl
    | true =>
      obtain ⟨extra, shape, heq, -⟩ := h.emittedClass_eq o m
      have hproxy : (h.emittedClass o m).isProxy = m.proxyOf.isSome := by
        rw [heq]
        rfl
      rw [footprint, h.proxies_footprint, if_pos hclass, classes_of_class hclass]
      cases htarget : m.proxyOf <;> simp [hproxy, htarget]

theorem type_mem_footprint_of_class {h : TypeHead} (hclass : h.isClass = true) (o : Options)
    (m : Marking) {id : Identity} :
    ((type h m).footprint o).Mentions (.type id) ↔ id = h.id := by
  have hplain := TypeHead.not_resource_of_class hclass
  rw [footprint_of_class hclass, TypeHead.classFootprint, Footprint.mentions_append,
    Footprint.mentions_append, TypeHead.mentions_requiringFootprint]
  constructor
  · rintro ((hproxy | hmembers) | ⟨-, rfl⟩)
    · simp [Footprint.Mentions, IndexedGraph.ends] at hproxy
    · exact TypeHead.id_of_mentions_memberFootprint hmembers
    · rfl
  · rintro rfl
    exact .inr ⟨hplain, rfl⟩

/-- The only node of a type that is mentioned is that of the class or interface. -/
theorem mentions_type_iff {id : Identity} :
    (r.footprint o).Mentions (.type id) ↔
      id ∈ (r.classes o).map Prod.fst ∨ id ∈ r.interfaces.map Prod.fst := by
  cases r with
  | startup c => simp [footprint, Footprint.Mentions, IndexedGraph.ends, classes, interfaces]
  | type h m =>
    cases hclass : h.isClass with
    | true =>
      rw [type_mem_footprint_of_class hclass, classes_of_class hclass]
      simp [interfaces, hclass]
    | false =>
      rw [footprint_of_not_class hclass, classes_of_not_class hclass,
        TypeHead.mentions_requiringFootprint]
      cases hresource : h.isResource <;> simp [interfaces, hclass, hresource]

/-- The resources that a class requires are the ends of the edges from its node. -/
theorem Proper.targets_type (hr : r.Proper) {id : Identity} {c : ClassRecord}
    (hc : (id, c) ∈ r.classes o) :
    IndexedGraph.targets (.type id) (r.footprint o).edges = c.requires.map .resource := by
  cases r with
  | startup c' =>
    obtain ⟨-, rfl⟩ := Prod.mk.inj (List.mem_singleton.mp hc)
    rw [hr.2.requires]
    rfl
  | type h m =>
    cases hclass : h.isClass with
    | false =>
      rw [classes_of_not_class hclass] at hc
      cases hc
    | true =>
      have hnode : h.node = .type h.id := TypeHead.node_of_class hclass
      rw [classes_of_class hclass] at hc
      obtain ⟨rfl, rfl⟩ := Prod.mk.inj (List.mem_singleton.mp hc)
      obtain ⟨extra, shape, heq, -⟩ := h.emittedClass_eq o m
      have hrequires : (h.emittedClass o m).requires = m.requires.map Ty.identity := by
        rw [heq]
        rfl
      rw [footprint_of_class hclass, TypeHead.classFootprint, Footprint.edges_append,
        Footprint.edges_append, List.nil_append, IndexedGraph.targets_append,
        TypeHead.targets_type_memberFootprint, hrequires, TypeHead.requiringFootprint, hnode,
        IndexedGraph.targets_map, List.map_map, List.nil_append]
      rfl

theorem targets_type_of_ne {id : Identity} (hid : r.id ≠ id) :
    IndexedGraph.targets (.type id) (r.footprint o).edges = [] := by
  cases r with
  | startup c => rfl
  | type h m =>
    have hne : h.node ≠ .type id := by
      unfold TypeHead.node
      split_ifs
      · nofun
      · exact fun heq => hid (Node.type.inj heq)
    have hrequiring : IndexedGraph.targets (.type id) (h.requiringFootprint m).edges = [] := by
      simp [IndexedGraph.targets, TypeHead.requiringFootprint, hne]
    cases hclass : h.isClass with
    | false => rw [footprint_of_not_class hclass, hrequiring]
    | true =>
      rw [footprint_of_class hclass, TypeHead.classFootprint, Footprint.edges_append,
        Footprint.edges_append, List.nil_append, IndexedGraph.targets_append,
        TypeHead.targets_type_memberFootprint, hrequiring]
      rfl

/-- The methods that are written as entry points are those that the entry point requires. -/
theorem targets_entryPoint_footprint (o : Options) (r : Registrant) :
    IndexedGraph.targets .entryPoint (r.footprint o).edges =
      (r.footprint o).entries.map MethodRef.node := by
  cases r with
  | startup c => rfl
  | type h m =>
    have hne : h.node ≠ .entryPoint := by
      unfold TypeHead.node
      split_ifs <;> simp
    have hrequiring : IndexedGraph.targets .entryPoint (h.requiringFootprint m).edges = [] := by
      simp [IndexedGraph.targets, TypeHead.requiringFootprint, hne]
    cases hclass : h.isClass with
    | false =>
      rw [footprint_of_not_class hclass, hrequiring]
      simp [TypeHead.requiringFootprint]
    | true =>
      rw [footprint_of_class hclass, TypeHead.classFootprint, Footprint.edges_append,
        Footprint.edges_append, List.nil_append, IndexedGraph.targets_append, hrequiring,
        TypeHead.targets_entryPoint_memberFootprint, List.append_nil]
      simp [TypeHead.requiringFootprint]

theorem mentions_resource {entry : Identity × String} (hentry : entry ∈ r.resources) :
    (r.footprint o).Mentions (.resource entry.1) := by
  cases r with
  | startup c => cases hentry
  | type h m =>
    rw [resources] at hentry
    split_ifs at hentry with hresource
    · rw [List.mem_singleton.mp hentry]
      have hnode : .resource h.id ∈ (h.requiringFootprint m).nodes := by
        rw [TypeHead.requiringFootprint, TypeHead.node, if_pos hresource]
        exact List.mem_singleton_self _
      rw [footprint, TypeHead.footprint, Footprint.mentions_append]
      exact .inr (.inl hnode)
    · cases hentry

theorem id_of_mem_classes {id : Identity} {c : ClassRecord} (hc : (id, c) ∈ r.classes o) :
    id = r.id := by
  cases r with
  | startup c' => exact (Prod.mk.inj (List.mem_singleton.mp hc)).1
  | type h m =>
    rw [classes, TypeHead.classEntry] at hc
    split_ifs at hc
    · exact (Prod.mk.inj (List.mem_singleton.mp hc)).1
    · cases hc

/-- The static methods with the attribute of an entry point that were added to the class. -/
def entryMethods (o : Options) : Registrant → List MethodRef
  | type h m =>
    if h.isClass then ((h.added o m).filter fun p => p.1.isEntry).map fun p => ⟨h.id, p.1.signature⟩
    else []
  | startup _ => []

theorem entries_footprint (o : Options) (r : Registrant) :
    (r.footprint o).entries = r.entryMethods o := by
  cases r with
  | startup c => rfl
  | type h m =>
    have hmembers (l : List (MemberDecl × Member)) :
        (l.flatMap fun p => if p.1.isEntry then [(⟨h.id, p.1.signature⟩ : MethodRef)] else []) =
          (l.filter fun p => p.1.isEntry).map fun p => ⟨h.id, p.1.signature⟩ := by
      induction l with
      | nil => rfl
      | cons p l ih => by_cases hp : p.1.isEntry = true <;> simp [hp, ih]
    cases hclass : h.isClass with
    | false =>
      rw [footprint_of_not_class hclass, entryMethods, hclass]
      rfl
    | true =>
      rw [footprint_of_class hclass, entryMethods, if_pos hclass, ← hmembers]
      simp [TypeHead.classFootprint, TypeHead.memberFootprint, TypeHead.requiringFootprint,
        Footprint.join, List.flatMap_map, MemberDecl.entries_footprint]

theorem method_of_mem_entryMethods {ref : MethodRef} (href : ref ∈ r.entryMethods o) :
    ∃ c method, (ref.owner, c) ∈ r.classes o ∧ c.method? ref.signature = some method ∧
      method.isStatic = true := by
  cases r with
  | startup c => cases href
  | type h m =>
    rw [entryMethods] at href
    split_ifs at href with hclass
    · obtain ⟨⟨d, member⟩, hp, rfl⟩ := List.mem_map.mp href
      obtain ⟨hadded, hentry⟩ := List.mem_filter.mp hp
      obtain ⟨method, hmember, hstatic, -⟩ :=
        MemberDecl.outcome_cases (TypeHead.outcome_of_mem_added hadded)
      obtain ⟨hform, hdeclared⟩ : d.form = .method ∧ d.isStatic = true := by
        simp only [MemberDecl.isEntry, Bool.and_eq_true, decide_eq_true_eq] at hentry
        exact ⟨hentry.1.2, hentry.2⟩
      rw [MemberDecl.emitted, hform] at hmember
      obtain rfl : member = .method d.signature method := hmember
      refine ⟨_, method, ?_, TypeHead.method?_of_mem_added hadded, hstatic.trans hdeclared⟩
      rw [classes_of_class hclass]
      exact List.mem_singleton_self _
    · cases href

end Registrant

/-! ## The tables of a build -/

section

variable {items : List Registrant} {β : Type} {f : Registrant → List β}

/-- What different registrants write under their own identities is different. -/
theorem nodup_flatMap_of_owner (owner : β → Identity) (hids : (items.map Registrant.id).Nodup)
    (hparts : ∀ r, (f r).Nodup) (howner : ∀ r, ∀ x ∈ f r, owner x = r.id) :
    (items.flatMap f).Nodup := by
  refine List.nodup_flatMap.mpr ⟨fun r _ => hparts r, ?_⟩
  refine (List.pairwise_map.mp hids).imp fun {r r'} hne x hx hx' => hne ?_
  rw [← howner r x hx, howner r' x hx']

/-- Where only one of several registrants writes anything, that is what is written. -/
theorem flatMap_eq_of_mem {r : Registrant} (hids : (items.map Registrant.id).Nodup)
    (hr : r ∈ items) (hnil : ∀ r', r'.id ≠ r.id → f r' = []) : items.flatMap f = f r := by
  obtain ⟨before, after, rfl⟩ := List.append_of_mem hr
  rw [List.map_append, List.map_cons] at hids
  obtain ⟨-, hafter, hdisjoint⟩ := List.nodup_append.mp hids
  have hbefore : before.flatMap f = [] := by
    refine List.flatMap_eq_nil_iff.mpr fun r' hr' => hnil r' fun heq => ?_
    exact hdisjoint _ (List.mem_map_of_mem hr') _ List.mem_cons_self heq
  have hrest : after.flatMap f = [] := by
    refine List.flatMap_eq_nil_iff.mpr fun r' hr' => hnil r' fun heq => ?_
    exact (List.nodup_cons.mp hafter).1 (heq ▸ List.mem_map_of_mem hr')
  rw [List.flatMap_append, List.flatMap_cons, hbefore, hrest, List.append_nil, List.nil_append]

end

/-- The tables of a build beside its types say the same as its types. -/
structure Build.Mirrors (b : Build) : Prop where
  remotes : ∀ ref handle, b.remotes.get? ref = some handle ↔
    ∃ c method style, b.classes.get? ref.owner = some c ∧
      c.method? ref.signature = some method ∧ method.kind = .remote style handle
  proxies : ∀ id, b.proxies.contains id = true ↔
    ∃ c, b.classes.get? id = some c ∧ c.isProxy = true
  types : ∀ id, .type id ∈ b.graph.nodes ↔ id ∈ b.classes.keys ∨ id ∈ b.interfaces.keys
  resources : ∀ entry ∈ b.resources, .resource entry.1 ∈ b.graph.nodes
  requires : ∀ id c, b.classes.get? id = some c →
    b.graph.direct (.type id) = (c.requires.map .resource).eraseDups

namespace Assembly

variable (a : Assembly) (prior : Snapshot) (o : Options)

theorem nodup_remotes :
    (((a.registrants o).flatMap fun r => (r.footprint o).remotes).map Prod.fst).Nodup := by
  rw [List.map_flatMap]
  refine nodup_flatMap_of_owner MethodRef.owner (a.fresh_registrants o).1
    (Registrant.nodup_remotes o) fun r ref href => ?_
  obtain ⟨entry, hentry, rfl⟩ := List.mem_map.mp href
  exact Registrant.owner_of_mem_remotes hentry

theorem get?_remotes_iff {ref : MethodRef} {handle : RemoteHandle} :
    (a.build prior o).remotes.get? ref = some handle ↔
      ∃ r ∈ a.registrants o, (ref, handle) ∈ (r.footprint o).remotes := by
  have hnodup := a.nodup_remotes o
  have hlist : (a.footprint o).remotes =
      (a.registrants o).flatMap fun r => (r.footprint o).remotes := by
    simp [footprint, Footprint.join, List.flatMap_map]
  have hentries : (a.build prior o).remotes =
      ⟨(a.registrants o).flatMap fun r => (r.footprint o).remotes⟩ := by
    rw [(a.records_build prior o).remotes, hlist]
    exact Table.insertAll_of_nodup hnodup
  rw [hentries]
  exact (Table.lookupIn_eq_some_iff hnodup ref handle).trans List.mem_flatMap

theorem mem_proxies_build {id : Identity} :
    id ∈ (a.build prior o).proxies.keys ↔
      ∃ r ∈ a.registrants o, id ∈ (r.footprint o).proxies.map Prod.fst := by
  rw [(a.records_build prior o).proxies, Table.mem_keys_insertAll]
  simp only [footprint, Footprint.join, List.flatMap_map, List.map_flatMap, List.mem_flatMap]
  exact or_iff_right List.not_mem_nil

theorem mem_nodes_build {n : Node} :
    n ∈ (a.build prior o).graph.nodes ↔ ∃ r ∈ a.registrants o, (r.footprint o).Mentions n := by
  rw [(a.records_build prior o).graph.nodes]
  simp only [footprint, Footprint.join, Footprint.Mentions, IndexedGraph.ends, List.flatMap_map,
    List.flatMap_assoc, List.mem_flatMap (f := fun r => (Registrant.footprint o r).nodes),
    List.mem_flatMap (l := a.registrants o), and_or_left, exists_or]
  exact or_iff_right List.not_mem_nil

theorem direct_build (n : Node) :
    (a.build prior o).graph.direct n =
      ((a.registrants o).flatMap fun r =>
        IndexedGraph.targets n (r.footprint o).edges).eraseDups := by
  have hlist : IndexedGraph.targets n (a.footprint o).edges =
      (a.registrants o).flatMap fun r => IndexedGraph.targets n (r.footprint o).edges := by
    simp [footprint, Footprint.join, IndexedGraph.targets, List.flatMap_map, List.filterMap_flatMap]
  rw [(a.records_build prior o).graph.direct, hlist]
  exact pushAll_nil _

theorem mirrors_build : (a.build prior o).Mirrors := by
  have hids := (a.fresh_registrants o).1
  have hgrows := a.grows_build prior o
  refine ⟨fun ref handle => ?_, fun id => ?_, fun id => ?_, fun entry hentry => ?_,
    fun id c hc => ?_⟩
  · rw [get?_remotes_iff]
    simp only [get?_classes_iff]
    constructor
    · rintro ⟨r, hr, hentry⟩
      obtain ⟨c, method, style, hc, hmethod⟩ :=
        (a.proper_registrants o hr).mem_remotes_iff.mp hentry
      exact ⟨c, method, style, ⟨r, hr, hc⟩, hmethod⟩
    · rintro ⟨c, method, style, ⟨r, hr, hc⟩, hmethod⟩
      exact ⟨r, hr, (a.proper_registrants o hr).mem_remotes_iff.mpr
        ⟨c, method, style, hc, hmethod⟩⟩
  · rw [Table.contains_iff, mem_proxies_build]
    simp only [get?_classes_iff]
    constructor
    · rintro ⟨r, hr, hid⟩
      rw [Registrant.proxies_footprint (a.proper_registrants o hr)] at hid
      obtain ⟨⟨_, c⟩, hentry, rfl⟩ := List.mem_map.mp hid
      obtain ⟨hc, hproxy⟩ := List.mem_filter.mp hentry
      exact ⟨c, ⟨r, hr, hc⟩, hproxy⟩
    · rintro ⟨c, ⟨r, hr, hc⟩, hproxy⟩
      refine ⟨r, hr, ?_⟩
      rw [Registrant.proxies_footprint (a.proper_registrants o hr)]
      exact List.mem_map_of_mem (List.mem_filter.mpr ⟨hc, hproxy⟩)
  · have hclasses : (a.build prior o).classes.keys =
        (a.registrants o).flatMap fun r => (r.classes o).map Prod.fst := by
      rw [Table.keys, hgrows.classes]
      exact List.map_flatMap
    have hinterfaces : (a.build prior o).interfaces.keys =
        (a.registrants o).flatMap fun r => r.interfaces.map Prod.fst := by
      rw [Table.keys, hgrows.interfaces]
      exact List.map_flatMap
    rw [mem_nodes_build, hclasses, hinterfaces, List.mem_flatMap, List.mem_flatMap]
    simp only [Registrant.mentions_type_iff, and_or_left, exists_or]
  · rw [hgrows.resources] at hentry
    obtain ⟨r, hr, hentry⟩ := List.mem_flatMap.mp hentry
    exact (a.mem_nodes_build prior o).mpr ⟨r, hr, Registrant.mentions_resource hentry⟩
  · obtain ⟨r, hr, hc⟩ := (a.get?_classes_iff prior o).mp hc
    have hproper := a.proper_registrants o hr
    have hid : id = r.id := Registrant.id_of_mem_classes hc
    rw [direct_build, flatMap_eq_of_mem hids hr, hproper.targets_type hc]
    intro r' hne
    exact Registrant.targets_type_of_ne (hid ▸ hne)

/-- The static methods that carry the attribute of an entry point and were added to their classes,
in the order of the walk. -/
def entryMethods : List MethodRef :=
  (a.registrants o).flatMap (Registrant.entryMethods o)

theorem entries_footprint : (a.footprint o).entries = a.entryMethods o := by
  simp [footprint, Footprint.join, entryMethods, List.flatMap_map, Registrant.entries_footprint]

end Assembly

/-- The tables beside the types of a build mirror its classes.  The entry point calls the last of
the static methods that carry its attribute, and all of them are what it requires. -/
theorem side_tables_mirror_classes (a : Assembly) (prior : Snapshot) (o : Options) :
    (a.build prior o).Mirrors ∧
      (a.build prior o).entryPoint = (a.entryMethods o).getLast?.map MethodRef.start ∧
      (∀ ref ∈ a.entryMethods o, ∃ c method, (a.build prior o).classes.get? ref.owner = some c ∧
        c.method? ref.signature = some method ∧ method.isStatic = true) ∧
      (a.build prior o).graph.direct .entryPoint =
        ((a.entryMethods o).map MethodRef.node).eraseDups := by
  refine ⟨a.mirrors_build prior o, ?_, ?_, ?_⟩
  · rw [(a.records_build prior o).entryPoint, a.entries_footprint]
    exact Option.or_none
  · intro ref href
    obtain ⟨r, hr, href⟩ := List.mem_flatMap.mp href
    obtain ⟨c, method, hc, hmethod⟩ := Registrant.method_of_mem_entryMethods href
    exact ⟨c, method, (a.get?_classes_iff prior o).mpr ⟨r, hr, hc⟩, hmethod⟩
  · simp only [Assembly.direct_build, Registrant.targets_entryPoint_footprint,
      Registrant.entries_footprint, Assembly.entryMethods, List.map_flatMap]

/-- A static method that asks to be the entry point. -/
def dockStart : MemberDecl :=
  { MemberDecl.method "Start" [] Ty.void with
    modifiers := { isStatic := true }
    attributes := [.entryPoint, .javaScript true]
    body := some (.seq []) }

/-- A class that stands in for another one, requires a script twice and declares its entry point
twice, and a class nested in it with an entry point of its own. -/
def dockAssembly : Assembly where
  name := "Dock"
  files := [{
    path := "dock"
    types := [{
      head := {
        name := "Dock", form := .ordinary, visibility := .internal
        attributes := [.proxy (.named "Harbor"), .require (.named "Dock.Script"),
          .require (.named "Dock.Script")]
        members := [dockStart, dockStart,
          { MemberDecl.method "Ping" [] Ty.void with attributes := [.remote none] }] }
      nested := [
        { head := { name := "Dock.Script", form := .ordinary, isResource := true }, nested := [] },
        { head := { name := "Dock.Crane", form := .ordinary, members := [dockStart] }
          nested := [] }] }] }]

theorem dockAssembly_tables_mirror :
    let b := dockAssembly.build {} {}
    let first : MethodRef := ⟨.ofName "Dock", dockStart.signature⟩
    let last : MethodRef := ⟨.ofName "Dock.Crane", dockStart.signature⟩
    dockAssembly.entryMethods {} = [first, last] ∧ b.entryPoint = some last.start ∧
      b.graph.direct .entryPoint = [first.node, last.node] ∧
      b.graph.direct (.type (.ofName "Dock")) = [.resource (.ofName "Dock.Script")] ∧
      b.proxies.contains (.ofName "Dock") = true ∧ b.remotes.size = 1 := by
  intro b first last
  have hentries : dockAssembly.entryMethods {} = [first, last] := by decide +kernel
  obtain ⟨hmirrors, hentry, -, hdirect⟩ := side_tables_mirror_classes dockAssembly {} {}
  have hbuild : dockAssembly.build {} {} = b := rfl
  rw [hbuild] at hmirrors hentry hdirect
  rw [hentries] at hentry hdirect
  have hclass : (b.classes.get? (.ofName "Dock")).map ClassRecord.requires =
      some [.ofName "Dock.Script", .ofName "Dock.Script"] := by decide +kernel
  obtain ⟨c, hc, hrequires⟩ := Option.map_eq_some_iff.mp hclass
  have hresources := hmirrors.requires _ c hc
  rw [hrequires] at hresources
  exact ⟨hentries, hentry, hdirect.trans (by decide +kernel), hresources.trans (by decide +kernel),
    by decide +kernel, by decide +kernel⟩

end Memberwise
