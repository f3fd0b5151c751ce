import Mathlib
import Memberwise.Proofs.CleanWalk

/-!
# Registered types

A build registers each type under its own identity and no identity twice, be it as
a class, as an interface or as a resource.  What has been registered stays as it is.

While a walk compiles the contents of a type, nothing is registered.  So a type whose
identity is free when the walk comes to it is registered with all of its members,
whatever errors were reported before or are reported for its members.
-/

namespace Memberwise

namespace Build

/-- The identities under which types are registered. -/
def declared (b : Build) : List Identity :=
  b.classes.keys ++ b.interfaces.keys ++ b.resources.map Prod.fst

/-- Each type is registered under its own identity, and no identity is used twice. -/
structure WellKeyed (b : Build) : Prop where
  classes : ∀ entry ∈ b.classes.entries, entry.1 = entry.2.id
  interfaces : ∀ entry ∈ b.interfaces.entries, entry.1 = entry.2.id
  nodup : b.declared.Nodup

variable {b b₁ : Build}

theorem declares_iff (b : Build) (id : Identity) :
    b.declares id = true ↔ id ∈ b.declared := by
  have hresources :
      (b.resources.any fun resource => resource.1 = id) = true ↔
        id ∈ b.resources.map Prod.fst := by
    simp [List.any_eq_true]
  rw [declares, Bool.or_eq_true, Bool.or_eq_true, Table.contains_iff, Table.contains_iff,
    hresources, declared, List.mem_append, List.mem_append]

theorem not_declared_of_checkNew {id : Identity} {name : String} {span : Span} {u : Unit}
    (h : b.checkNew id name span = .ok u) : id ∉ b.declared := by
  intro hmem
  have hdeclares := (declares_iff b id).mpr hmem
  simp [checkNew, hdeclares] at h

theorem nodup_declared_insert {front back : List Identity} {id : Identity}
    (hnodup : (front ++ back).Nodup) (hfree : id ∉ front ++ back) :
    (front ++ [id] ++ back).Nodup := by
  have hperm : (front ++ [id] ++ back).Perm (id :: (front ++ back)) := by
    rw [List.append_assoc]
    exact List.perm_middle
  exact hperm.nodup_iff.mpr (List.nodup_cons.mpr ⟨hfree, hnodup⟩)

theorem WellKeyed.addClass {c : ClassRecord} (hb : b.WellKeyed) (h : b.addClass c = .ok b₁) :
    b₁.WellKeyed := by
  obtain ⟨_, hcheck, -⟩ := exists_of_bind_eq_ok h
  have hfree := not_declared_of_checkNew hcheck
  have hnodup := hb.nodup
  rw [(addClass_ok h).2]
  rw [declared, List.append_assoc] at hfree hnodup
  refine ⟨fun entry hentry => ?_, hb.interfaces, ?_⟩
  · rcases List.mem_append.mp hentry with hold | hnew
    · exact hb.classes entry hold
    · rw [List.mem_singleton.mp hnew]
  · have hinsert := nodup_declared_insert hnodup hfree
    simpa [declared, Table.keys] using hinsert

theorem WellKeyed.addInterface {i : InterfaceRecord} (hb : b.WellKeyed)
    (h : b.addInterface i = .ok b₁) : b₁.WellKeyed := by
  obtain ⟨_, hcheck, -⟩ := exists_of_bind_eq_ok h
  have hfree := not_declared_of_checkNew hcheck
  have hnew : i.id ∉ b.interfaces.keys := by
    intro hmem
    exact hfree (List.mem_append_left _ (List.mem_append_right _ hmem))
  rw [addInterface_ok h, Table.insert_of_not_mem hnew]
  refine ⟨hb.classes, fun entry hentry => ?_, ?_⟩
  · rcases List.mem_append.mp hentry with hold | hadded
    · exact hb.interfaces entry hold
    · rw [List.mem_singleton.mp hadded]
  · have hinsert := nodup_declared_insert hb.nodup hfree
    simpa [declared, Table.keys] using hinsert

theorem WellKeyed.addResource {id : Identity} {name : String} {span : Span} (hb : b.WellKeyed)
    (h : b.addResource id name span = .ok b₁) : b₁.WellKeyed := by
  obtain ⟨_, hcheck, -⟩ := exists_of_bind_eq_ok h
  have hfree := not_declared_of_checkNew hcheck
  have hnodup := hb.nodup
  rw [addResource_ok h]
  refine ⟨hb.classes, hb.interfaces, ?_⟩
  rw [← List.append_nil b.declared] at hfree hnodup
  have hinsert := nodup_declared_insert hnodup hfree
  simpa [declared] using hinsert

theorem SideStep.wellKeyed (h : b.SideStep b₁) (hb : b.WellKeyed) : b₁.WellKeyed := by
  cases h with
  | interface h => exact hb.addInterface h
  | resource h => exact hb.addResource h
  | error | warning | proxy | entryPoint | remote | graph | file =>
    exact ⟨hb.classes, hb.interfaces, hb.nodup⟩

theorem Step.wellKeyed (h : b.Step b₁) (hb : b.WellKeyed) : b₁.WellKeyed := by
  cases h with
  | side h => exact h.wellKeyed hb
  | addClass h => exact hb.addClass h

theorem Steps.wellKeyed (h : b.Steps b₁) (hb : b.WellKeyed) : b₁.WellKeyed := by
  induction h with
  | refl => exact hb
  | tail _ hstep ih => exact hstep.wellKeyed ih

theorem wellKeyed_new (prior : Snapshot) (o : Options) : (Build.new prior o).WellKeyed := by
  refine ⟨?_, ?_, List.nodup_nil⟩
  · intro entry hentry
    exact absurd hentry List.not_mem_nil
  · intro entry hentry
    exact absurd hentry List.not_mem_nil

theorem WellKeyed.nodup_types (hb : b.WellKeyed) : (b.classes.keys ++ b.interfaces.keys).Nodup :=
  (List.nodup_append.mp hb.nodup).1

/-! ## The contents of a type register nothing -/

/-- Two builds with the same types. -/
structure SameTypes (b b₁ : Build) : Prop where
  classes : b₁.classes = b.classes
  interfaces : b₁.interfaces = b.interfaces
  resources : b₁.resources = b.resources

theorem SameTypes.refl (b : Build) : b.SameTypes b := ⟨rfl, rfl, rfl⟩

theorem SameTypes.trans {b₂ : Build} (h : b.SameTypes b₁) (h' : b₁.SameTypes b₂) :
    b.SameTypes b₂ :=
  ⟨h'.classes.trans h.classes, h'.interfaces.trans h.interfaces,
    h'.resources.trans h.resources⟩

theorem SameTypes.declares (h : b.SameTypes b₁) (id : Identity) :
    b₁.declares id = b.declares id := by
  rw [Build.declares, h.classes, h.interfaces, h.resources, Build.declares]

theorem SameTypes.wellKeyed (h : b.SameTypes b₁) (hb : b.WellKeyed) : b₁.WellKeyed := by
  refine ⟨?_, ?_, ?_⟩
  · rw [h.classes]
    exact hb.classes
  · rw [h.interfaces]
    exact hb.interfaces
  · rw [declared, h.classes, h.interfaces, h.resources]
    exact hb.nodup

theorem sameTypes_error (b : Build) (e : CompileError) : b.SameTypes (b.error e) :=
  ⟨rfl, rfl, rfl⟩

theorem sameTypes_errors (errors : List CompileError) (b : Build) :
    b.SameTypes (errors.foldl error b) := by
  induction errors generalizing b with
  | nil => exact .refl b
  | cons e errors ih => exact (sameTypes_error b e).trans (ih _)

theorem sameTypes_resolve (b : Build) : b.SameTypes b.resolve := by
  unfold resolve
  split
  · exact .refl b
  · exact ⟨(sameTypes_errors _ b).classes, (sameTypes_errors _ b).interfaces,
      (sameTypes_errors _ b).resources⟩

theorem sameTypes_mapGraph (b : Build) (f : Graph → Graph) : b.SameTypes (b.mapGraph f) :=
  ⟨rfl, rfl, rfl⟩

theorem sameTypes_register (b : Build) (owner : Identity) (d : MemberDecl) (m : Marking)
    (member : Member) : b.SameTypes (b.register owner d m member) := by
  have hremote : b.SameTypes (b.registerRemote owner d member) := by
    unfold registerRemote
    split
    · exact ⟨rfl, rfl, rfl⟩
    · exact .refl b
  have hrequired (b : Build) : b.SameTypes (b.registerRequired owner d m) := by
    unfold registerRequired
    split
    · exact .refl b
    · exact sameTypes_mapGraph b _
  have hentry (b : Build) : b.SameTypes (b.registerEntryPoint owner d) := by
    unfold registerEntryPoint
    split
    · have hset (statement : Statement) : b.SameTypes (b.setEntryPoint statement) :=
        ⟨rfl, rfl, rfl⟩
      exact (hset _).trans (sameTypes_mapGraph _ _)
    · exact sameTypes_error b _
  have htables := hremote.trans (hrequired _)
  unfold register
  dsimp only
  split
  · exact htables.trans (hentry _)
  · exact htables

end Build

namespace Walk

variable (w : Walk) (h : TypeHead) (m : Marking)

theorem sameTypes_addMember (c : ClassRecord) (d : MemberDecl) (member : Member) :
    w.build.SameTypes (w.addMember c d m member).1.build := by
  unfold addMember
  split
  · exact Build.sameTypes_error _ _
  · exact Build.sameTypes_register w.build c.id d m member

theorem sameTypes_member (owner : Owner) (ds : List MemberDecl) (c : ClassRecord)
    (d : MemberDecl) : w.build.SameTypes (w.member owner m ds c d).1.build := by
  unfold member
  dsimp only
  split
  · exact .refl _
  · let counted : Walk := { w with tally := { w.tally with members := w.tally.members + 1 } }
    exact sameTypes_addMember counted _ c d _
  · next e _ =>
    exact (Build.sameTypes_error w.build e).trans (sameTypes_addMember (w.fail e) _ c d _)

theorem sameTypes_members_foldl (owner : Owner) (ds l : List MemberDecl) (c : ClassRecord) :
    w.build.SameTypes (l.foldl (fun (w, c) d => w.member owner m ds c d) (w, c)).1.build := by
  induction l generalizing w c with
  | nil => exact .refl _
  | cons d l ih => exact (sameTypes_member w m owner ds c d).trans (ih _ _)

theorem sameTypes_bindings (bs : List Binding) :
    w.build.SameTypes (bs.foldl (binding m) w).build := by
  induction bs generalizing w with
  | nil => exact .refl _
  | cons b bs ih =>
    have hfirst : w.build.SameTypes (binding m w b).build := by
      unfold binding
      dsimp only
      split
      · exact .refl _
      · exact Build.sameTypes_error _ _
    exact hfirst.trans (ih _)

theorem sameTypes_contents : w.build.SameTypes (w.contents h m).1.build := by
  have hproxy : w.build.SameTypes (w.proxy h m).build := by
    unfold proxy
    split
    · exact .refl _
    · dsimp only
      split
      · exact ⟨rfl, rfl, rfl⟩
      · exact ⟨rfl, rfl, rfl⟩
  have hmembers :=
    sameTypes_members_foldl (w.proxy h m) m (h.owner m) h.members h.members (h.newClass m)
  exact (hproxy.trans hmembers).trans (sameTypes_bindings _ m h.bindings)

end Walk

end Memberwise
