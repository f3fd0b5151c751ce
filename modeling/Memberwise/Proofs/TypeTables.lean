import Mathlib
import Memberwise.Proofs.Registrants

/-!
# The tables of types

Whatever an assembly declares, the classes, interfaces and resources of its build are
those that were registered, each under the identity of its own name and none twice.
The members of a class have pairwise different keys.

Nothing between the check that an identity is free and the registration of the type
registers anything, so a type that passed the check is always registered.
-/

namespace Memberwise

/-! ## Classes of declared types -/

namespace ClassRecord

/-- Adding members changes the members only. -/
theorem addFree_eq (c : ClassRecord) (l : List Member) :
    ∃ extra, c.addFree l = { c with members := c.members ++ extra } ∧ ∀ x ∈ extra, x ∈ l := by
  induction l generalizing c with
  | nil => exact ⟨[], by simp [addFree], by simp⟩
  | cons first l ih =>
    by_cases htaken : c.contains first.key = true
    · obtain ⟨extra, heq, hmem⟩ := ih c
      refine ⟨extra, ?_, fun x hx => List.mem_cons_of_mem first (hmem x hx)⟩
      rw [addFree, List.foldl_cons, if_pos htaken]
      exact heq
    · obtain ⟨extra, heq, hmem⟩ := ih { c with members := c.members ++ [first] }
      refine ⟨first :: extra, ?_, ?_⟩
      · rw [addFree, List.foldl_cons, if_neg htaken]
        refine heq.trans ?_
        simp
      · intro x hx
        rcases List.mem_cons.mp hx with rfl | hx
        · exact List.mem_cons_self
        · exact List.mem_cons_of_mem first (hmem x hx)

theorem nodup_keys_append {c : ClassRecord} {member : Member} (hc : c.keys.Nodup)
    (hfree : member.key ∉ c.keys) : (c.keys ++ [member.key]).Nodup :=
  List.nodup_append.mpr ⟨hc, List.nodup_singleton _, by
    rintro key hkey _ hsingle rfl
    exact hfree (List.mem_singleton.mp hsingle ▸ hkey)⟩

theorem nodup_keys_addFree {c : ClassRecord} (hc : c.keys.Nodup) (l : List Member) :
    (c.addFree l).keys.Nodup := by
  induction l generalizing c with
  | nil => exact hc
  | cons first l ih =>
    rw [addFree, List.foldl_cons]
    by_cases htaken : c.contains first.key = true
    · rw [if_pos htaken]
      exact ih hc
    · rw [if_neg htaken]
      refine ih ?_
      have hfree : first.key ∉ c.keys := by simpa [contains] using htaken
      simpa [keys] using nodup_keys_append hc hfree

end ClassRecord

theorem UnionCase.remoteHandle?_members {o : Options} {m : Marking} {type : Ty}
    {cases : List UnionCase} {member : Member} (h : member ∈ UnionCase.members o m type cases) :
    member.remoteHandle? = none := by
  rcases List.mem_cons.mp h with rfl | h
  · rfl
  · obtain ⟨⟨c, shape⟩, -, h⟩ := List.mem_flatMap.mp h
    rcases List.mem_cons.mp h with rfl | h
    · rfl
    · unfold CaseShape.getters at h
      split at h
      · obtain ⟨field, -, rfl⟩ := List.mem_map.mp h
        rfl
      · cases h

theorem RecordSlot.remoteHandle?_members {o : Options} {slots : List RecordSlot} {member : Member}
    (h : member ∈ RecordSlot.members o slots) : member.remoteHandle? = none := by
  rcases List.mem_cons.mp h with rfl | h
  · rfl
  · obtain ⟨slot, -, h⟩ := List.mem_flatMap.mp h
    rcases List.mem_cons.mp h with rfl | h
    · rfl
    · split at h
      · rw [List.mem_singleton.mp h]
        rfl
      · cases h

namespace TypeHead

/-- The class of a type has the declared members that were added, then those of its form. -/
theorem emittedClass_eq (h : TypeHead) (o : Options) (m : Marking) :
    ∃ extra shape, h.emittedClass o m =
        { h.newClass m with members := (h.added o m).map Prod.snd ++ extra, shape } ∧
      ∀ member ∈ extra, member.remoteHandle? = none := by
  have hdeclared : (h.newClass m).addFree (h.declaredMembers o m) =
      { h.newClass m with members := (h.added o m).map Prod.snd } := by
    obtain ⟨extra, heq, -⟩ := (h.newClass m).addFree_eq (h.declaredMembers o m)
    have hmembers := (h.newClass m).members_addFree
      (MemberDecl.outcomes o (h.owner m) m h.members h.members)
    rw [MemberDecl.map_snd_outcomes] at hmembers
    have hextra : extra = (h.added o m).map Prod.snd := by
      have hlists := congrArg ClassRecord.members heq
      exact hlists.symm.trans hmembers
    rw [heq, hextra]
    rfl
  rw [emittedClass, hdeclared, augment]
  split
  · split
    · next cases _ =>
      obtain ⟨extra, heq, hmem⟩ := ClassRecord.addFree_eq _
        (UnionCase.members o m (Ty.named h.name) cases)
      exact ⟨extra, _, by rw [heq], fun member hmember =>
        UnionCase.remoteHandle?_members (hmem member hmember)⟩
    · next fields _ =>
      obtain ⟨extra, heq, hmem⟩ := ClassRecord.addFree_eq _
        (RecordSlot.members o (fields.map (RecordField.slot m)))
      refine ⟨extra, some (.record (fields.map (RecordField.slot m))), ?_, fun member hmember =>
        RecordSlot.remoteHandle?_members (hmem member hmember)⟩
      dsimp only
      rw [heq]
    · exact ⟨[], _, by rw [List.append_nil], by simp⟩
  · exact ⟨[], _, by rw [List.append_nil], by simp⟩

theorem nodup_keys_emittedClass (h : TypeHead) (o : Options) (m : Marking) :
    (h.emittedClass o m).keys.Nodup := by
  have hempty : (h.newClass m).keys.Nodup := List.nodup_nil
  have hdeclared := ClassRecord.nodup_keys_addFree hempty (h.declaredMembers o m)
  unfold emittedClass augment
  split
  · split
    · exact ClassRecord.nodup_keys_addFree hdeclared _
    · exact ClassRecord.nodup_keys_addFree hdeclared _
    · exact hdeclared
  · exact hdeclared

end TypeHead

/-! ## Startup types -/

/-- A startup type while the values of its file are being collected. -/
structure ClassRecord.IsStartup (called : String) (c : ClassRecord) : Prop where
  name : c.name = called
  id : c.id = Identity.ofName called
  isProxy : c.isProxy = false
  requires : c.requires = []
  nodup : c.keys.Nodup
  members : ∀ member ∈ c.members, member.key ≠ .initializer ∧ member.remoteHandle? = none

namespace Startup

/-- What has been collected is a startup type of the right name. -/
def Tidy (s : Startup) : Prop := ∀ c, s.type = some c → c.IsStartup s.name

variable {s : Startup}

theorem isStartup_addMembers {name : String} {c : ClassRecord} (hc : c.IsStartup name)
    (span : Span) {l : List Member}
    (hl : ∀ member ∈ l, member.key ≠ .initializer ∧ member.remoteHandle? = none) :
    (addMembers c span l).1.IsStartup name := by
  induction l generalizing c with
  | nil => exact hc
  | cons member l ih =>
    obtain ⟨hmember, hrest⟩ := List.forall_mem_cons.mp hl
    unfold addMembers
    cases hadd : c.add member span with
    | error e => exact hc
    | ok next =>
      obtain ⟨hfree, rfl⟩ := ClassRecord.add_ok hadd
      refine ih ⟨hc.name, hc.id, hc.isProxy, hc.requires, ?_, ?_⟩ hrest
      · simpa [ClassRecord.keys] using ClassRecord.nodup_keys_append hc.nodup hfree
      · intro member' hmem
        rcases List.mem_append.mp hmem with hmem | hmem
        · exact hc.members member' hmem
        · rw [List.mem_singleton.mp hmem]
          exact hmember

theorem Tidy.typeAt (hs : s.Tidy) (span : Span) : (s.typeAt span).IsStartup s.name := by
  unfold Startup.typeAt
  cases htype : s.type with
  | some c => exact hs c htype
  | none => exact ⟨rfl, rfl, rfl, rfl, List.nodup_nil, by simp⟩

theorem mem_fieldMembers {owner : Identity} {b : Binding} {m : Marking} {member : Member}
    (h : member ∈ fieldMembers owner b m) :
    member.key ≠ .initializer ∧ member.remoteHandle? = none := by
  rcases List.mem_cons.mp h with rfl | h
  · exact ⟨nofun, rfl⟩
  rcases List.mem_cons.mp h with rfl | h
  · exact ⟨nofun, rfl⟩
  split at h
  · rw [List.mem_singleton.mp h]
    exact ⟨nofun, rfl⟩
  · cases h

/-- A value adds some members of its own, also when it is refused halfway, or nothing. -/
theorem take_cases (s : Startup) (entry : Binding × Marking) :
    s.take entry = s ∨
      ∃ span l statements,
        (∀ member ∈ l, member.key ≠ .initializer ∧ member.remoteHandle? = none) ∧
        s.take entry =
          { s with type := some (addMembers (s.typeAt span) span l).1, statements } := by
  obtain ⟨b, m⟩ := entry
  unfold take add
  dsimp only
  split
  · exact .inl rfl
  · unfold addField
    split
    · exact .inl rfl
    · refine .inr ⟨b.span, fieldMembers s.id b m, ?_⟩
      split
      · next hadd => exact ⟨_, fun _ => mem_fieldMembers, by rw [hadd]⟩
      · next hadd => exact ⟨_, fun _ => mem_fieldMembers, by rw [hadd]⟩
  · next value _ =>
    refine .inr ⟨b.span, [getter b m (.literal value)], s.statements, ?_, rfl⟩
    intro member hmember
    rw [List.mem_singleton.mp hmember]
    exact ⟨nofun, rfl⟩
  · exact .inl rfl
  · exact .inl rfl

theorem Tidy.take (hs : s.Tidy) (entry : Binding × Marking) :
    (s.take entry).Tidy ∧ (s.take entry).name = s.name := by
  rcases s.take_cases entry with hsame | ⟨span, l, statements, hl, htake⟩
  · rw [hsame]
    exact ⟨hs, rfl⟩
  · rw [htake]
    refine ⟨fun c hc => ?_, rfl⟩
    rw [← Option.some.inj hc]
    exact isStartup_addMembers (hs.typeAt span) span hl

theorem Tidy.foldl_take (hs : s.Tidy) (entries : List (Binding × Marking)) :
    (entries.foldl Startup.take s).Tidy := by
  induction entries generalizing s with
  | nil => exact hs
  | cons entry entries ih => exact ih (hs.take entry).1

theorem tidy_new (assembly path : String) : (new assembly path).Tidy := nofun

end Startup

/-! ## Classes that are registered -/

/-- A class under the identity of its name whose members have different keys. -/
structure ClassRecord.WellFormed (c : ClassRecord) : Prop where
  id : c.id = Identity.ofName c.name
  nodup : c.keys.Nodup

/-- A class that has nothing to do with proxies, resources and remote calls. -/
structure ClassRecord.Inner (c : ClassRecord) : Prop where
  isProxy : c.isProxy = false
  requires : c.requires = []
  members : ∀ member ∈ c.members, member.remoteHandle? = none

theorem TypeHead.wellFormed_emittedClass (h : TypeHead) (o : Options) (m : Marking) :
    (h.emittedClass o m).WellFormed := by
  obtain ⟨extra, shape, heq, -⟩ := h.emittedClass_eq o m
  refine ⟨?_, h.nodup_keys_emittedClass o m⟩
  rw [heq]
  rfl

/-- The static initializer comes after all members and is the only one. -/
theorem Startup.Tidy.finish {s : Startup} (hs : s.Tidy) {c : ClassRecord}
    (hc : s.finish = some c) : c.WellFormed ∧ c.Inner := by
  obtain ⟨type, htype, hfinish⟩ := Option.map_eq_some_iff.mp hc
  have hstartup := hs type htype
  have hid : type.id = Identity.ofName type.name := by rw [hstartup.id, hstartup.name]
  have hremote (member : Member) (hmem : member ∈ type.members) : member.remoteHandle? = none :=
    (hstartup.members member hmem).2
  split at hfinish
  · subst hfinish
    exact ⟨⟨hid, hstartup.nodup⟩, hstartup.isProxy, hstartup.requires, hremote⟩
  · subst hfinish
    have hfree : (Member.initializer s.statements).key ∉ type.keys := by
      intro hmem
      obtain ⟨member, hmember, hkey⟩ := List.mem_map.mp hmem
      exact (hstartup.members member hmember).1 hkey
    refine ⟨⟨hid, ?_⟩, hstartup.isProxy, hstartup.requires, ?_⟩
    · simpa [ClassRecord.keys] using ClassRecord.nodup_keys_append hstartup.nodup hfree
    · intro member hmem
      rcases List.mem_append.mp hmem with hmem | hmem
      · exact hremote member hmem
      · rw [List.mem_singleton.mp hmem]
        rfl

/-- A startup type that is registered is one that was collected. -/
def Registrant.Proper : Registrant → Prop
  | type _ _ => True
  | startup c => c.WellFormed ∧ c.Inner

/-! ## No identity is registered twice -/

/-- Different identities, none of them taken. -/
def Fresh (taken : Finset Identity) (ids : List Identity) : Prop :=
  ids.Nodup ∧ ∀ id ∈ ids, id ∉ taken

section

variable {taken : Finset Identity} {ids ids' : List Identity}

theorem fresh_nil : Fresh taken [] := ⟨List.nodup_nil, by simp⟩

theorem Fresh.cons {id : Identity} (hid : id ∉ taken) (h : Fresh (insert id taken) ids) :
    Fresh taken (id :: ids) := by
  refine ⟨List.nodup_cons.mpr ⟨fun hmem => ?_, h.1⟩, ?_⟩
  · exact h.2 id hmem (Finset.mem_insert_self id taken)
  · intro id' hmem
    rcases List.mem_cons.mp hmem with rfl | hmem
    · exact hid
    · exact fun htaken => h.2 id' hmem (Finset.mem_insert_of_mem htaken)

theorem Fresh.append (h : Fresh taken ids) (h' : Fresh (taken ∪ ids.toFinset) ids') :
    Fresh taken (ids ++ ids') := by
  refine ⟨List.nodup_append.mpr ⟨h.1, h'.1, ?_⟩, ?_⟩
  · rintro id hid _ hid' rfl
    exact h'.2 id hid' (Finset.mem_union_right _ (List.mem_toFinset.mpr hid))
  · intro id hmem
    rcases List.mem_append.mp hmem with hid | hid
    · exact h.2 id hid
    · exact fun htaken => h'.2 id hid (Finset.mem_union_left _ htaken)

theorem Fresh.tail {id : Identity} (h : Fresh taken (id :: ids)) : Fresh (insert id taken) ids := by
  obtain ⟨hnot, hnodup⟩ := List.nodup_cons.mp h.1
  refine ⟨hnodup, fun id' hmem htaken => ?_⟩
  rcases Finset.mem_insert.mp htaken with rfl | htaken
  · exact hnot hmem
  · exact h.2 id' (List.mem_cons_of_mem _ hmem) htaken

end

mutual

theorem TypeDecl.fresh_registered (taken : Finset Identity) (enclosing : Marking) (t : TypeDecl) :
    Fresh taken ((t.registered taken enclosing).map (·.1.id)) := by
  obtain ⟨h, nested⟩ := t
  rw [TypeDecl.registered]
  split_ifs with hid
  · exact fresh_nil
  · exact .cons hid (TypeDecl.fresh_registeredAll _ _ nested)
termination_by structural t

theorem TypeDecl.fresh_registeredAll (taken : Finset Identity) (enclosing : Marking)
    (ts : List TypeDecl) :
    Fresh taken ((TypeDecl.registeredAll taken enclosing ts).map (·.1.id)) := by
  cases ts with
  | nil => exact fresh_nil
  | cons t ts =>
    rw [TypeDecl.registeredAll, List.map_append]
    exact (TypeDecl.fresh_registered taken enclosing t).append
      (TypeDecl.fresh_registeredAll _ enclosing ts)
termination_by structural ts

end

namespace SourceFile

variable (o : Options)

theorem fresh_registrants (taken : Finset Identity) (file : SourceFile) :
    Fresh taken ((file.registrants o taken).map Registrant.id) := by
  rw [registrants, List.map_append, Registrant.map_id_types]
  refine (TypeDecl.fresh_registeredAll taken {} file.types).append ?_
  unfold Startup.registrants
  split
  · split_ifs with hid
    · exact fresh_nil
    · exact .cons hid fresh_nil
  · exact fresh_nil

theorem fresh_registrantsAll (taken : Finset Identity) (files : List SourceFile) :
    Fresh taken ((registrantsAll o taken files).map Registrant.id) := by
  induction files generalizing taken with
  | nil => exact fresh_nil
  | cons file files ih =>
    rw [registrantsAll, List.map_append]
    exact (fresh_registrants o taken file).append (ih _)

theorem proper_registrants {taken : Finset Identity} {file : SourceFile} {r : Registrant}
    (h : r ∈ file.registrants o taken) : r.Proper := by
  rcases List.mem_append.mp h with htype | hstartup
  · obtain ⟨hm, -, rfl⟩ := List.mem_map.mp htype
    trivial
  · unfold Startup.registrants at hstartup
    split at hstartup
    · next c hfinish =>
      split_ifs at hstartup
      · cases hstartup
      · rw [List.mem_singleton.mp hstartup]
        exact ((Startup.tidy_new o.assemblyName file.path).foldl_take _).finish hfinish
    · cases hstartup

theorem proper_registrantsAll {taken : Finset Identity} {files : List SourceFile} {r : Registrant}
    (h : r ∈ registrantsAll o taken files) : r.Proper := by
  induction files generalizing taken with
  | nil => cases h
  | cons file files ih =>
    rcases List.mem_append.mp h with hfirst | hrest
    · exact proper_registrants o hfirst
    · exact ih hrest

end SourceFile

/-! ## The tables -/

namespace Registrant

/-- The class that is registered, if any, under its identity. -/
def classes (o : Options) : Registrant → List (Identity × ClassRecord)
  | type h m => h.classEntry o m
  | startup c => [(c.id, c)]

/-- The interface that is registered, if any, under its identity. -/
def interfaces : Registrant → List (Identity × InterfaceRecord)
  | type h m => if h.isResource || h.isClass then [] else [(h.id, h.newInterface m)]
  | startup _ => []

/-- The resource that is registered, if any, under its identity. -/
def resources : Registrant → List (Identity × String)
  | type h _ => if h.isResource then [(h.id, h.name)] else []
  | startup _ => []

theorem classes_of_class {h : TypeHead} (hclass : h.isClass = true) (o : Options) (m : Marking) :
    (type h m).classes o = [(h.id, h.emittedClass o m)] := by
  rw [Registrant.classes, TypeHead.classEntry, if_pos hclass]

theorem classes_of_not_class {h : TypeHead} (hclass : h.isClass = false) (o : Options)
    (m : Marking) : (type h m).classes o = [] := by
  rw [Registrant.classes, TypeHead.classEntry, hclass]
  rfl

end Registrant

/-- The types of a later build are those of an earlier one and some more, in order. -/
structure Build.Grows (b b₁ : Build) (o : Options) (items : List Registrant) : Prop where
  classes : b₁.classes.entries = b.classes.entries ++ items.flatMap (Registrant.classes o)
  interfaces : b₁.interfaces.entries = b.interfaces.entries ++ items.flatMap Registrant.interfaces
  resources : b₁.resources = b.resources ++ items.flatMap Registrant.resources

namespace Build

variable {b b₁ b₂ : Build} {o : Options}

theorem Grows.trans {items items' : List Registrant} (h : b.Grows b₁ o items)
    (h' : b₁.Grows b₂ o items') : b.Grows b₂ o (items ++ items') := by
  refine ⟨?_, ?_, ?_⟩
  · rw [h'.classes, h.classes, List.flatMap_append, List.append_assoc]
  · rw [h'.interfaces, h.interfaces, List.flatMap_append, List.append_assoc]
  · rw [h'.resources, h.resources, List.flatMap_append, List.append_assoc]

theorem entries_enterClass {c : ClassRecord} (hfree : c.id ∉ b.declared)
    (required : List Identity) :
    (b.enterClass required c).classes.entries = b.classes.entries ++ [(c.id, c)] := by
  have hnew : c.id ∉ b.classes.keys := fun hmem =>
    hfree (List.mem_append_left _ (List.mem_append_left _ hmem))
  exact congrArg Table.entries (Table.insert_of_not_mem hnew c)

theorem entries_enterInterface {i : InterfaceRecord} (hfree : i.id ∉ b.declared)
    (required : List Identity) :
    (b.enterInterface required i).interfaces.entries = b.interfaces.entries ++ [(i.id, i)] := by
  have hnew : i.id ∉ b.interfaces.keys := fun hmem =>
    hfree (List.mem_append_left _ (List.mem_append_right _ hmem))
  exact congrArg Table.entries (Table.insert_of_not_mem hnew i)

theorem grows_enter {r : Registrant} (hfree : r.id ∉ b.declared) :
    b.Grows (r.enter o b) o [r] := by
  cases r with
  | startup c =>
    refine ⟨?_, (List.append_nil _).symm, (List.append_nil _).symm⟩
    exact entries_enterClass hfree []
  | type h m =>
    rw [Registrant.enter, TypeHead.enter]
    simp only [Registrant.id] at hfree
    split_ifs with hresource hclass
    · have hno : h.isClass = false := by simp [TypeHead.isClass, hresource]
      refine ⟨?_, ?_, ?_⟩
      · simp [Registrant.classes, TypeHead.classEntry, hno, enterResource, mapGraph]
      · simp [Registrant.interfaces, hresource, enterResource, mapGraph]
      · simp [Registrant.resources, hresource, enterResource, mapGraph]
    · have hsame := h.sameTypes_enterMembers o m b
      have hfree' : (h.emittedClass o m).id ∉ (h.enterMembers o m b).declared := by
        rw [h.emittedClass_id, hsame.declared]
        exact hfree
      refine ⟨?_, ?_, ?_⟩
      · rw [entries_enterClass hfree', hsame.classes, h.emittedClass_id]
        simp [Registrant.classes, TypeHead.classEntry, hclass]
      · refine (congrArg Table.entries hsame.interfaces).trans ?_
        simp [Registrant.interfaces, hclass]
      · refine hsame.resources.trans ?_
        simp [Registrant.resources, hresource]
    · refine ⟨?_, ?_, ?_⟩
      · simp [Registrant.classes, TypeHead.classEntry, hclass, enterInterface, withInterface,
          mapGraph]
      · rw [entries_enterInterface hfree]
        simp [Registrant.interfaces, hresource, hclass, TypeHead.newInterface]
      · simp [Registrant.resources, hresource, enterInterface, withInterface, mapGraph]

theorem grows_enterAll {items : List Registrant}
    (hfresh : Fresh b.declared.toFinset (items.map Registrant.id)) :
    b.Grows (b.enterAll o items) o items := by
  induction items generalizing b with
  | nil => exact ⟨by simp [enterAll], by simp [enterAll], by simp [enterAll]⟩
  | cons r items ih =>
    have hfree : r.id ∉ b.declared := fun hmem =>
      hfresh.2 r.id List.mem_cons_self (List.mem_toFinset.mpr hmem)
    have htaken : (r.enter o b).declared.toFinset = insert r.id b.declared.toFinset := by
      ext id
      simp [Registrant.mem_declared_enter]
    have hrest := ih (b := r.enter o b) (htaken ▸ hfresh.tail)
    exact (grows_enter hfree).trans hrest

end Build

namespace Assembly

variable (a : Assembly) (prior : Snapshot) (o : Options)

theorem fresh_registrants : Fresh ∅ ((a.registrants o).map Registrant.id) :=
  SourceFile.fresh_registrantsAll o ∅ a.files

theorem proper_registrants {r : Registrant} (h : r ∈ a.registrants o) : r.Proper :=
  SourceFile.proper_registrantsAll o h

/-- The types of a build are exactly those that are registered, in order. -/
theorem grows_draft : (Build.new prior o).Grows (a.draft prior o) o (a.registrants o) := by
  have hall := Build.grows_enterAll (b := Build.new prior o) (o := o) (a.fresh_registrants o)
  have halike := a.alike_draft prior o
  have hclasses := halike.same (f := Build.classes) fun _ => rfl
  have hinterfaces := halike.same (f := Build.interfaces) fun _ => rfl
  have hresources := halike.same (f := Build.resources) fun _ => rfl
  refine ⟨?_, ?_, ?_⟩
  · rw [hclasses, hall.classes]
  · rw [hinterfaces, hall.interfaces]
  · rw [hresources, hall.resources]

theorem grows_build : (Build.new prior o).Grows (a.build prior o) o (a.registrants o) := by
  have hdraft := a.grows_draft prior o
  have hresolve := (a.draft prior o).sameTypes_resolve
  refine ⟨?_, ?_, ?_⟩
  · rw [← hdraft.classes, ← hresolve.classes]
    rfl
  · rw [← hdraft.interfaces, ← hresolve.interfaces]
    rfl
  · rw [← hdraft.resources, ← hresolve.resources]
    rfl

end Assembly

/-! ## Consistency -/

/-- Each type stands under the identity of its name, no identity is used twice, and the members of
a class have different keys. -/
structure Build.Consistent (b : Build) : Prop where
  nodup : b.declared.Nodup
  class_id : ∀ entry ∈ b.classes.entries, entry.1 = Identity.ofName entry.2.name
  interface_id : ∀ entry ∈ b.interfaces.entries, entry.1 = Identity.ofName entry.2.name
  resource_id : ∀ entry ∈ b.resources, entry.1 = Identity.ofName entry.2
  class_keys : ∀ entry ∈ b.classes.entries, entry.2.keys.Nodup
  class_initializer : ∀ entry ∈ b.classes.entries, entry.2.keys.count .initializer ≤ 1

namespace Registrant

variable {o : Options} {r : Registrant}

theorem Proper.classes (hr : r.Proper) {entry : Identity × ClassRecord}
    (h : entry ∈ r.classes o) : entry.1 = entry.2.id ∧ entry.2.WellFormed := by
  cases r with
  | startup c =>
    rw [List.mem_singleton.mp h]
    exact ⟨rfl, hr.1⟩
  | type head m =>
    rw [Registrant.classes, TypeHead.classEntry] at h
    split_ifs at h
    · rw [List.mem_singleton.mp h]
      exact ⟨(head.emittedClass_id o m).symm, head.wellFormed_emittedClass o m⟩
    · cases h

theorem id_of_mem_interfaces {entry : Identity × InterfaceRecord} (h : entry ∈ r.interfaces) :
    entry.1 = Identity.ofName entry.2.name := by
  cases r with
  | startup c => cases h
  | type head m =>
    rw [interfaces] at h
    split_ifs at h
    · cases h
    · rw [List.mem_singleton.mp h]
      rfl

theorem id_of_mem_resources {entry : Identity × String} (h : entry ∈ r.resources) :
    entry.1 = Identity.ofName entry.2 := by
  cases r with
  | startup c => cases h
  | type head m =>
    rw [resources] at h
    split_ifs at h
    · rw [List.mem_singleton.mp h]
      rfl
    · cases h

end Registrant

namespace Assembly

variable (a : Assembly) (prior : Snapshot) (o : Options)

theorem consistent_build : (a.build prior o).Consistent := by
  have hgrows := a.grows_build prior o
  have hclass {entry : Identity × ClassRecord}
      (h : entry ∈ (a.build prior o).classes.entries) :
      entry.1 = entry.2.id ∧ entry.2.WellFormed := by
    rw [hgrows.classes] at h
    obtain ⟨r, hr, hentry⟩ := List.mem_flatMap.mp h
    exact (a.proper_registrants o hr).classes hentry
  refine ⟨?_, ?_, ?_, ?_, ?_, ?_⟩
  · have hcompiled := (Build.steps_compileFiles (Build.new prior o) a).wellKeyed
      (Build.wellKeyed_new prior o)
    exact ((Build.sameTypes_resolve _).wellKeyed hcompiled).nodup
  · intro entry hentry
    obtain ⟨hkey, hwell⟩ := hclass hentry
    rw [hkey, hwell.id]
  · intro entry hentry
    rw [hgrows.interfaces] at hentry
    obtain ⟨r, -, hentry⟩ := List.mem_flatMap.mp hentry
    exact Registrant.id_of_mem_interfaces hentry
  · intro entry hentry
    rw [hgrows.resources] at hentry
    obtain ⟨r, -, hentry⟩ := List.mem_flatMap.mp hentry
    exact Registrant.id_of_mem_resources hentry
  · intro entry hentry
    exact (hclass hentry).2.nodup
  · intro entry hentry
    exact List.nodup_iff_count_le_one.mp (hclass hentry).2.nodup .initializer

theorem get?_classes_iff {id : Identity} {c : ClassRecord} :
    (a.build prior o).classes.get? id = some c ↔
      ∃ r ∈ a.registrants o, (id, c) ∈ r.classes o := by
  have hnodup := (List.nodup_append.mp (List.nodup_append.mp
    (a.consistent_build prior o).nodup).1).1
  rw [Table.get?_eq_some_iff hnodup, (a.grows_build prior o).classes]
  exact List.mem_flatMap

end Assembly

end Memberwise
