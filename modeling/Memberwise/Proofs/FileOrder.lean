import Mathlib
import Memberwise.Proofs.SideTables
import Memberwise.Proofs.WalkReports

/-!
# The order of files

All files of an assembly write into one build, yet a file sees of the others only which identities
are taken.  Where no type is declared twice this never matters: each file registers all of its
types and its startup type and reports what it would report by itself.  In another order the files
then register and report the same, and so the tables of the build hold the same.
-/

namespace Memberwise

/-! ## Files by themselves -/

/-- All that a file can register: its types, and its startup type if it has any values. -/
def SourceFile.ownRegistrants (o : Options) (file : SourceFile) : List Registrant :=
  Registrant.types file.marked ++
    (file.startupOf o.assemblyName file.marked).finish.toList.map .startup

/-- Nothing was declared twice as far as some diagnostics tell. -/
def NoDuplicates (ds : List Diagnostic) : Prop := ∀ d ∈ ds, d.kind ≠ .duplicateType

theorem noDuplicates_append {ds ds' : List Diagnostic} :
    NoDuplicates (ds ++ ds') ↔ NoDuplicates ds ∧ NoDuplicates ds' :=
  List.forall_mem_append

theorem Fresh.of_append_left {taken : Finset Identity} {ids ids' : List Identity}
    (h : Fresh taken (ids ++ ids')) : Fresh taken ids :=
  ⟨(List.nodup_append.mp h.1).1, fun id hid => h.2 id (List.mem_append_left _ hid)⟩

theorem Fresh.of_append_right {taken : Finset Identity} {ids ids' : List Identity}
    (h : Fresh taken (ids ++ ids')) : Fresh (taken ∪ ids.toFinset) ids' := by
  obtain ⟨-, hnodup, hdisjoint⟩ := List.nodup_append.mp h.1
  refine ⟨hnodup, fun id hid htaken => ?_⟩
  rcases Finset.mem_union.mp htaken with hold | hearlier
  · exact h.2 id (List.mem_append_right _ hid) hold
  · exact hdisjoint id (List.mem_toFinset.mp hearlier) id hid rfl

/-! ### Types -/

mutual

/-- Types with different identities that are all free are all registered. -/
theorem TypeDecl.registered_of_fresh {taken : Finset Identity} {enclosing : Marking} (t : TypeDecl)
    (h : Fresh taken ((t.marked enclosing).map (·.1.id))) :
    t.registered taken enclosing = t.marked enclosing := by
  obtain ⟨head, nested⟩ := t
  rw [TypeDecl.marked, List.map_cons] at h
  rw [TypeDecl.registered, TypeDecl.marked, if_neg (h.2 _ List.mem_cons_self),
    TypeDecl.registeredAll_of_fresh nested h.tail]
termination_by structural t

theorem TypeDecl.registeredAll_of_fresh {taken : Finset Identity} {enclosing : Marking}
    (ts : List TypeDecl) (h : Fresh taken ((TypeDecl.markedAll enclosing ts).map (·.1.id))) :
    TypeDecl.registeredAll taken enclosing ts = TypeDecl.markedAll enclosing ts := by
  cases ts with
  | nil => rfl
  | cons t ts =>
    rw [TypeDecl.markedAll, List.map_append] at h
    rw [TypeDecl.registeredAll, TypeDecl.markedAll,
      TypeDecl.registered_of_fresh t h.of_append_left,
      TypeDecl.registeredAll_of_fresh ts h.of_append_right]
termination_by structural ts

end

mutual

/-- A type that is not registered is reported. -/
theorem TypeDecl.registered_of_noDuplicates {o : Options} {file : Option String}
    {taken : Finset Identity} {enclosing : Marking} {s : Startup} (t : TypeDecl)
    (h : NoDuplicates (t.diagnostics o file taken enclosing s)) :
    t.registered taken enclosing = t.marked enclosing := by
  obtain ⟨head, nested⟩ := t
  rw [TypeDecl.diagnostics] at h
  rw [TypeDecl.registered, TypeDecl.marked]
  split_ifs at h ⊢ with hold
  · exact absurd rfl (h _ (List.mem_singleton_self _))
  · obtain ⟨-, hnested⟩ := noDuplicates_append.mp h
    rw [TypeDecl.registeredAll_of_noDuplicates nested hnested]
termination_by structural t

theorem TypeDecl.registeredAll_of_noDuplicates {o : Options} {file : Option String}
    {taken : Finset Identity} {enclosing : Marking} {s : Startup} (ts : List TypeDecl)
    (h : NoDuplicates (TypeDecl.diagnosticsAll o file taken enclosing s ts)) :
    TypeDecl.registeredAll taken enclosing ts = TypeDecl.markedAll enclosing ts := by
  cases ts with
  | nil => rfl
  | cons t ts =>
    rw [TypeDecl.diagnosticsAll] at h
    obtain ⟨hfirst, hrest⟩ := noDuplicates_append.mp h
    rw [TypeDecl.registeredAll, TypeDecl.markedAll,
      TypeDecl.registeredAll_of_noDuplicates ts hrest,
      TypeDecl.registered_of_noDuplicates t hfirst]
termination_by structural ts

end

mutual

/-- What is reported for types whose identities are all free does not depend on what is taken. -/
theorem TypeDecl.diagnostics_of_fresh {o : Options} {file : Option String}
    {taken taken' : Finset Identity} {enclosing : Marking} {s : Startup} (t : TypeDecl)
    (h : Fresh taken ((t.marked enclosing).map (·.1.id)))
    (h' : Fresh taken' ((t.marked enclosing).map (·.1.id))) :
    t.diagnostics o file taken enclosing s = t.diagnostics o file taken' enclosing s := by
  obtain ⟨head, nested⟩ := t
  rw [TypeDecl.marked, List.map_cons] at h h'
  rw [TypeDecl.diagnostics, TypeDecl.diagnostics, if_neg (h.2 _ List.mem_cons_self),
    if_neg (h'.2 _ List.mem_cons_self), TypeDecl.diagnosticsAll_of_fresh nested h.tail h'.tail]
termination_by structural t

theorem TypeDecl.diagnosticsAll_of_fresh {o : Options} {file : Option String}
    {taken taken' : Finset Identity} {enclosing : Marking} {s : Startup} (ts : List TypeDecl)
    (h : Fresh taken ((TypeDecl.markedAll enclosing ts).map (·.1.id)))
    (h' : Fresh taken' ((TypeDecl.markedAll enclosing ts).map (·.1.id))) :
    TypeDecl.diagnosticsAll o file taken enclosing s ts =
      TypeDecl.diagnosticsAll o file taken' enclosing s ts := by
  cases ts with
  | nil => rfl
  | cons t ts =>
    rw [TypeDecl.markedAll, List.map_append] at h h'
    rw [TypeDecl.diagnosticsAll, TypeDecl.diagnosticsAll,
      TypeDecl.registered_of_fresh t h.of_append_left,
      TypeDecl.registered_of_fresh t h'.of_append_left,
      TypeDecl.diagnostics_of_fresh t h.of_append_left h'.of_append_left,
      TypeDecl.diagnosticsAll_of_fresh ts h.of_append_right h'.of_append_right]
termination_by structural ts

end

/-! ### Files -/

theorem Fresh.anywhere {taken : Finset Identity} {ids : List Identity} (h : Fresh taken ids) :
    Fresh ∅ ids :=
  ⟨h.1, fun _ _ => Finset.notMem_empty _⟩

namespace Startup

variable {taken : Finset Identity} {s : Startup}

/-- A startup type at a free identity is registered, and nothing is reported. -/
theorem registrants_of_fresh
    (h : Fresh taken ((s.finish.toList.map Registrant.startup).map Registrant.id)) :
    s.registrants taken = s.finish.toList.map .startup ∧ s.refusal taken = [] := by
  rw [registrants, refusal]
  cases hfinish : s.finish with
  | none => exact ⟨rfl, rfl⟩
  | some c =>
    have hfree : c.id ∉ taken := by
      apply h.2
      rw [hfinish]
      exact List.mem_singleton_self _
    exact ⟨if_neg hfree, if_neg hfree⟩

/-- A startup type that is not registered is reported. -/
theorem registrants_of_noDuplicates {file : Option String}
    (h : NoDuplicates ((s.refusal taken).map (.ofError · file))) :
    s.registrants taken = s.finish.toList.map .startup := by
  rw [refusal] at h
  rw [registrants]
  cases hfinish : s.finish with
  | none => rfl
  | some c =>
    rw [hfinish] at h
    dsimp only at h ⊢
    split_ifs at h ⊢ with hold
    · exact absurd rfl (h _ (List.mem_singleton_self _))
    · rfl

end Startup

namespace SourceFile

variable {o : Options} {taken taken' : Finset Identity}

theorem map_id_ownRegistrants (o : Options) (file : SourceFile) :
    (file.ownRegistrants o).map Registrant.id = file.marked.map (·.1.id) ++
      ((file.startupOf o.assemblyName file.marked).finish.toList.map Registrant.startup).map
        Registrant.id := by
  rw [ownRegistrants, List.map_append, Registrant.map_id_types]

theorem registrants_of_fresh {file : SourceFile}
    (h : Fresh taken ((file.ownRegistrants o).map Registrant.id)) :
    file.registrants o taken = file.ownRegistrants o := by
  rw [map_id_ownRegistrants] at h
  have htypes := TypeDecl.registeredAll_of_fresh file.types h.of_append_left
  rw [registrants, htypes]
  exact congrArg _ (Startup.registrants_of_fresh h.of_append_right).1

theorem registrants_of_noDuplicates {file : SourceFile}
    (h : NoDuplicates (file.diagnostics o taken)) :
    file.registrants o taken = file.ownRegistrants o := by
  obtain ⟨hdecls, hstartup⟩ := noDuplicates_append.mp h
  have htypes := TypeDecl.registeredAll_of_noDuplicates file.types hdecls
  rw [htypes] at hstartup
  rw [registrants, htypes]
  exact congrArg _ (Startup.registrants_of_noDuplicates hstartup)

theorem diagnostics_of_fresh {file : SourceFile}
    (h : Fresh taken ((file.ownRegistrants o).map Registrant.id))
    (h' : Fresh taken' ((file.ownRegistrants o).map Registrant.id)) :
    file.diagnostics o taken = file.diagnostics o taken' := by
  rw [map_id_ownRegistrants] at h h'
  rw [diagnostics, diagnostics, TypeDecl.registeredAll_of_fresh file.types h.of_append_left,
    TypeDecl.registeredAll_of_fresh file.types h'.of_append_left,
    TypeDecl.diagnosticsAll_of_fresh file.types h.of_append_left h'.of_append_left]
  have hquiet := (Startup.registrants_of_fresh h.of_append_right).2
  have hquiet' := (Startup.registrants_of_fresh h'.of_append_right).2
  exact congrArg _ (congrArg (List.map _) (hquiet.trans hquiet'.symm))

theorem registrantsAll_of_fresh {files : List SourceFile}
    (h : Fresh taken ((files.flatMap (ownRegistrants o)).map Registrant.id)) :
    registrantsAll o taken files = files.flatMap (ownRegistrants o) := by
  induction files generalizing taken with
  | nil => rfl
  | cons file files ih =>
    rw [List.flatMap_cons, List.map_append] at h
    rw [registrantsAll, registrants_of_fresh h.of_append_left, ih h.of_append_right,
      List.flatMap_cons]

theorem registrantsAll_of_noDuplicates {files : List SourceFile}
    (h : NoDuplicates (diagnosticsAll o taken files)) :
    registrantsAll o taken files = files.flatMap (ownRegistrants o) := by
  induction files generalizing taken with
  | nil => rfl
  | cons file files ih =>
    obtain ⟨hfirst, hrest⟩ := noDuplicates_append.mp h
    rw [registrantsAll, ih hrest, registrants_of_noDuplicates hfirst, List.flatMap_cons]

/-- Files without duplicates report what each reports by itself. -/
theorem diagnosticsAll_of_fresh {files : List SourceFile}
    (h : Fresh taken ((files.flatMap (ownRegistrants o)).map Registrant.id)) :
    diagnosticsAll o taken files = files.flatMap (diagnostics o ∅) := by
  induction files generalizing taken with
  | nil => rfl
  | cons file files ih =>
    rw [List.flatMap_cons, List.map_append] at h
    rw [diagnosticsAll, registrants_of_fresh h.of_append_left, ih h.of_append_right,
      diagnostics_of_fresh h.of_append_left h.of_append_left.anywhere, List.flatMap_cons]

end SourceFile

/-! ## Builds -/

/-- Tables with the same entries under different keys read the same. -/
theorem Table.get?_of_perm {κ α : Type} [DecidableEq κ] {t t' : Table κ α}
    (hperm : t'.entries.Perm t.entries) (hnodup : t.keys.Nodup) (k : κ) : t'.get? k = t.get? k := by
  have hnodup' : t'.keys.Nodup := (hperm.map Prod.fst).nodup_iff.mpr hnodup
  apply Option.ext
  intro a
  rw [get?_eq_some_iff hnodup', get?_eq_some_iff hnodup, hperm.mem_iff]

/-- Builds that hold the same, up to the order in which it was entered and the choice of the entry
point. -/
structure Build.SameUpToOrder (b b' : Build) : Prop where
  options : b'.options = b.options
  prior : b'.prior = b.prior
  classes : ∀ id, b'.classes.get? id = b.classes.get? id
  interfaces : ∀ id, b'.interfaces.get? id = b.interfaces.get? id
  resources : b'.resources.Perm b.resources
  proxies : ∀ id, b'.proxies.get? id = b.proxies.get? id
  remotes : ∀ ref, b'.remotes.get? ref = b.remotes.get? ref
  nodes : ∀ n, n ∈ b'.graph.nodes ↔ n ∈ b.graph.nodes
  edges : ∀ e, e ∈ b'.graph.edges ↔ e ∈ b.graph.edges
  entryPoint : b'.entryPoint.isSome = b.entryPoint.isSome
  report : b'.report.items.Perm b.report.items

theorem Registrant.nodup_proxies (o : Options) (r : Registrant) :
    ((r.footprint o).proxies.map Prod.fst).Nodup := by
  cases r with
  | startup c => exact List.nodup_nil
  | type h m =>
    rw [footprint, h.proxies_footprint]
    cases h.isClass <;> cases m.proxyOf <;> simp

theorem Registrant.id_of_mem_proxies {o : Options} {r : Registrant} {entry : Identity × Identity}
    (hentry : entry ∈ (r.footprint o).proxies) : entry.1 = r.id := by
  cases r with
  | startup c => exact absurd hentry List.not_mem_nil
  | type h m =>
    rw [footprint, h.proxies_footprint] at hentry
    split_ifs at hentry
    · obtain ⟨target, -, rfl⟩ := List.mem_map.mp hentry
      rfl
    · exact absurd hentry List.not_mem_nil

namespace Assembly

variable (a : Assembly) (prior : Snapshot) (o : Options)

theorem wellKeyed_draft : (a.draft prior o).WellKeyed :=
  (Build.steps_compileFiles (Build.new prior o) a).wellKeyed (Build.wellKeyed_new prior o)

theorem proxies_draft :
    (a.draft prior o).proxies = ⟨(a.footprint o).proxies⟩ ∧
      ((a.footprint o).proxies.map Prod.fst).Nodup := by
  have hnodup : ((a.footprint o).proxies.map Prod.fst).Nodup := by
    simp only [footprint, Footprint.join, List.flatMap_map, List.map_flatMap]
    refine nodup_flatMap_of_owner id (a.fresh_registrants o).1 (Registrant.nodup_proxies o) ?_
    intro r key hkey
    obtain ⟨entry, hentry, rfl⟩ := List.mem_map.mp hkey
    exact Registrant.id_of_mem_proxies hentry
  refine ⟨?_, hnodup⟩
  rw [(a.records_draft prior o).proxies]
  exact Table.insertAll_of_nodup hnodup

theorem remotes_draft :
    (a.draft prior o).remotes = ⟨(a.footprint o).remotes⟩ ∧
      ((a.footprint o).remotes.map Prod.fst).Nodup := by
  have hnodup : ((a.footprint o).remotes.map Prod.fst).Nodup := by
    simpa only [footprint, Footprint.join, List.flatMap_map] using a.nodup_remotes o
  refine ⟨?_, hnodup⟩
  rw [(a.records_draft prior o).remotes]
  exact Table.insertAll_of_nodup hnodup

theorem isSome_entryPoint_draft :
    (a.draft prior o).entryPoint.isSome = !(a.footprint o).entries.isEmpty := by
  rw [(a.records_draft prior o).entryPoint, Bool.eq_iff_iff]
  simp [Build.new]

/-! ### Permutations -/

variable {a o} {a' : Assembly}

/-- Files without duplicates register, in any order, what each registers by itself. -/
theorem registrants_of_perm (hfiles : a'.files.Perm a.files)
    (hunique : NoDuplicates (a.diagnostics o)) :
    a'.registrants o = a'.files.flatMap (SourceFile.ownRegistrants o) ∧
      (a'.registrants o).Perm (a.registrants o) := by
  have hown : a.registrants o = a.files.flatMap (SourceFile.ownRegistrants o) :=
    SourceFile.registrantsAll_of_noDuplicates hunique
  have hperm := hfiles.flatMap_right (SourceFile.ownRegistrants o)
  have hfresh := a.fresh_registrants o
  rw [hown] at hfresh
  have hfresh' : Fresh ∅ ((a'.files.flatMap (SourceFile.ownRegistrants o)).map Registrant.id) :=
    ⟨(hperm.map Registrant.id).nodup_iff.mpr hfresh.1, fun _ _ => Finset.notMem_empty _⟩
  have hown' : a'.registrants o = a'.files.flatMap (SourceFile.ownRegistrants o) :=
    SourceFile.registrantsAll_of_fresh hfresh'
  exact ⟨hown', by rwa [hown', hown]⟩

/-- Files without duplicates report, in any order, what each reports by itself. -/
theorem diagnostics_perm (hfiles : a'.files.Perm a.files)
    (hunique : NoDuplicates (a.diagnostics o)) : (a'.diagnostics o).Perm (a.diagnostics o) := by
  have hreports {a₁ : Assembly} (hown : a₁.registrants o =
      a₁.files.flatMap (SourceFile.ownRegistrants o)) :
      a₁.diagnostics o = a₁.files.flatMap (SourceFile.diagnostics o ∅) := by
    have hfresh := a₁.fresh_registrants o
    rw [hown] at hfresh
    exact SourceFile.diagnosticsAll_of_fresh hfresh
  rw [hreports (registrants_of_perm hfiles hunique).1,
    hreports (registrants_of_perm (.refl _) hunique).1]
  exact hfiles.flatMap_right _

/-- What is registered in another order writes the same beside the types, in another order. -/
theorem footprint_perm {β : Type} (hperm : (a'.registrants o).Perm (a.registrants o))
    (f : Footprint → List β) :
    (((a'.registrants o).map (Registrant.footprint o)).flatMap f).Perm
      (((a.registrants o).map (Registrant.footprint o)).flatMap f) :=
  (hperm.map _).flatMap_right f

theorem sameUpToOrder_draft (prior : Snapshot) (hperm : (a'.registrants o).Perm (a.registrants o))
    (hreport : (a'.diagnostics o).Perm (a.diagnostics o)) :
    (a.draft prior o).SameUpToOrder (a'.draft prior o) := by
  have hgrows := a.grows_draft prior o
  have hgrows' := a'.grows_draft prior o
  have hgraph := (a.records_draft prior o).graph
  have hgraph' := (a'.records_draft prior o).graph
  obtain ⟨hproxies, hproxyKeys⟩ := a.proxies_draft prior o
  obtain ⟨hremotes, hremoteKeys⟩ := a.remotes_draft prior o
  obtain ⟨hclassKeys, hinterfaceKeys, -⟩ :=
    List.nodup_append.mp (a.wellKeyed_draft prior o).nodup_types
  have hsteps := Build.steps_compileFiles (Build.new prior o) a
  have hsteps' := Build.steps_compileFiles (Build.new prior o) a'
  refine ⟨?_, ?_, ?_, ?_, ?_, ?_, ?_, ?_, ?_, ?_, ?_⟩
  · exact hsteps'.options.trans hsteps.options.symm
  · exact hsteps'.names_prior.2.trans hsteps.names_prior.2.symm
  · apply Table.get?_of_perm _ hclassKeys
    rw [hgrows'.classes, hgrows.classes]
    exact (hperm.flatMap_right _).append_left _
  · apply Table.get?_of_perm _ hinterfaceKeys
    rw [hgrows'.interfaces, hgrows.interfaces]
    exact (hperm.flatMap_right _).append_left _
  · rw [hgrows'.resources, hgrows.resources]
    exact (hperm.flatMap_right _).append_left _
  · rw [hproxies, (a'.proxies_draft prior o).1]
    exact Table.get?_of_perm (footprint_perm hperm Footprint.proxies) hproxyKeys
  · rw [hremotes, (a'.remotes_draft prior o).1]
    exact Table.get?_of_perm (footprint_perm hperm Footprint.remotes) hremoteKeys
  · intro n
    have hnodes := footprint_perm hperm Footprint.nodes
    have hedges := footprint_perm hperm Footprint.edges
    rw [hgraph'.nodes, hgraph.nodes]
    exact or_congr_right (or_congr hnodes.mem_iff (hedges.flatMap_right _).mem_iff)
  · intro e
    rw [hgraph'.edges, hgraph.edges, mem_pushAll, mem_pushAll]
    exact or_congr_right (footprint_perm hperm Footprint.edges).mem_iff
  · rw [isSome_entryPoint_draft, isSome_entryPoint_draft]
    exact congrArg _ (footprint_perm hperm Footprint.entries).isEmpty_eq
  · rw [report_draft, report_draft]
    exact hreport

end Assembly

/--
In another order, the files of an assembly in which no type is declared twice give a build with the
same types under all identities, the same resources, proxies, remote handles and dependencies, and
the same diagnostics.  Only orders may differ, and which of several entry points is the last.
-/
theorem file_order_keeps_contents {a a' : Assembly} (hfiles : a'.files.Perm a.files)
    (prior : Snapshot) (o : Options)
    (hunique : (a.draft prior o).report.ofKind .duplicateType = []) :
    (a.draft prior o).SameUpToOrder (a'.draft prior o) := by
  have hnone : NoDuplicates (a.diagnostics o) := by
    intro d hd
    rw [← a.report_draft prior o] at hd
    simpa using List.filter_eq_nil_iff.mp hunique d hd
  exact Assembly.sameUpToOrder_draft prior (Assembly.registrants_of_perm hfiles hnone).2
    (Assembly.diagnostics_perm hfiles hnone)

/-- A file with an entry point, a method whose attributes conflict, and a value. -/
def quayFile : SourceFile where
  path := "quay"
  types := [{
    head := {
      name := "Quay", form := .module, attributes := [.javaScript true]
      members := [dockStart,
        { MemberDecl.method "Moor" [] Ty.void with attributes := [.stub, .inline none] }]
      bindings := [{ name := "depth", type := Ty.int32, value := .literal (.int 7) }] }
    nested := [] }]

theorem dock_and_quay_in_either_order :
    let b := (Assembly.mk "Harbor" (dockAssembly.files ++ [quayFile])).draft {} {}
    let b' := (Assembly.mk "Harbor" (quayFile :: dockAssembly.files)).draft {} {}
    b.report.ofKind .duplicateType = [] ∧ b.report.items.length = 2 ∧ b.classes.size = 4 ∧
      b.SameUpToOrder b' := by
  intro b b'
  have hunique : b.report.ofKind .duplicateType = [] := by decide +kernel
  have hsame : b.SameUpToOrder b' :=
    file_order_keeps_contents (List.perm_append_singleton _ _).symm {} {} hunique
  exact ⟨hunique, by decide +kernel, by decide +kernel, hsame⟩

end Memberwise
