import Mathlib
import Memberwise.Proofs.Conflicts
import Memberwise.Proofs.FileOrder
import Memberwise.Proofs.StartupTypes

/-!
# Identities of startup types

The startup type of a file is named after the assembly and the path, and the name is registered
like that of a declared type.  So files keep their values exactly if no two of all these types,
declared or made up for a file, have the same identity.

That paths differ is not enough.  A name keeps only the letters, digits and underscores of the path
without its extension, and among files whose names agree the first one takes the identity: the
values of the others are lost, and a duplicate type is reported.
-/

namespace Memberwise

/-! ## The values that a startup type carries -/

namespace Startup

/-- Whether a value that comes next is emitted: it is asked for and accepted. -/
def emits (s : Startup) (entry : Binding × Marking) : Bool :=
  entry.2.treatment.isSome && (s.add entry.1 entry.2).2.isOk

/-- Of some values, those that are emitted, each after those before it. -/
def emitted : Startup → List (Binding × Marking) → List (Binding × Marking)
  | _, [] => []
  | s, entry :: rest =>
    if s.emits entry then entry :: (s.take entry).emitted rest else (s.take entry).emitted rest

/-- A startup type that has the members of some values, maybe among others, and fills exactly their
fields.  It exists as soon as there is one value. -/
structure Carries (s : Startup) (bs : List (Binding × Marking)) : Prop where
  type_eq_none : s.type = none ↔ bs = []
  members : ∀ span, ∀ bm ∈ bs, ∀ member ∈ bindingMembers s.id bm,
    member ∈ (s.typeAt span).members
  statements : s.statements = bs.flatMap bindingStatements

theorem carries_new (assembly path : String) : (new assembly path).Carries [] where
  type_eq_none := ⟨fun _ => rfl, fun _ => rfl⟩
  members := by simp
  statements := rfl

theorem nodup_bindingMembers (owner : Identity) (bm : Binding × Marking) :
    ((bindingMembers owner bm).map Member.key).Nodup := by
  obtain ⟨b, m⟩ := bm
  rw [bindingMembers]
  split
  · rw [fieldMembers]
    split_ifs <;> simp [Member.key, getter, setter, Signature.getter, Signature.setter]
  · exact List.nodup_singleton _
  · exact List.nodup_nil

theorem subset_addMembers (span : Span) (l : List Member) (c : ClassRecord) :
    c.members ⊆ (addMembers c span l).1.members := by
  induction l generalizing c with
  | nil => exact List.Subset.refl _
  | cons member l ih =>
    rw [addMembers]
    split
    · exact List.Subset.refl _
    · next next hadd =>
      obtain ⟨-, rfl⟩ := ClassRecord.add_ok hadd
      intro x hx
      exact ih _ (List.mem_append_left _ hx)

/-- Members with different free keys are all added. -/
theorem addMembers_of_nodup (span : Span) {l : List Member} {c : ClassRecord}
    (h : (c.keys ++ l.map Member.key).Nodup) : (addMembers c span l).2 = .ok () := by
  induction l generalizing c with
  | nil => rfl
  | cons member l ih =>
    have hfree : member.key ∉ c.keys := fun hmem =>
      (List.nodup_append.mp h).2.2 _ hmem _ List.mem_cons_self rfl
    have hadd : c.add member span = .ok { c with members := c.members ++ [member] } := by
      simp [ClassRecord.add, ClassRecord.contains, hfree]
    rw [addMembers, hadd]
    apply ih
    simpa [ClassRecord.keys] using h

section Carries

variable {s : Startup} {bs : List (Binding × Marking)}

/-- The first value finds all keys free. -/
theorem Carries.ne_nil_of_refused (hs : s.Carries bs) {bm : Binding × Marking} {span : Span}
    {type : ClassRecord} {e : CompileError}
    (hadd : addMembers (s.typeAt span) span (bindingMembers s.id bm) = (type, .error e)) :
    bs ≠ [] := by
  intro hempty
  have hkeys : (s.typeAt span).keys = [] := by
    rw [typeAt, hs.type_eq_none.mpr hempty]
    rfl
  have hnodup : ((s.typeAt span).keys ++ (bindingMembers s.id bm).map Member.key).Nodup := by
    rw [hkeys]
    exact nodup_bindingMembers s.id bm
  have hok := addMembers_of_nodup span hnodup
  rw [hadd] at hok
  cases hok

/-- Some members of a value that is refused halfway may stay. -/
theorem Carries.refuse (hs : s.Carries bs) {bm : Binding × Marking} {span : Span}
    {type : ClassRecord} {e : CompileError}
    (hadd : addMembers (s.typeAt span) span (bindingMembers s.id bm) = (type, .error e)) :
    { s with type := some type }.Carries bs where
  type_eq_none := iff_of_false (Option.some_ne_none _) (hs.ne_nil_of_refused hadd)
  members _ bm' hbm' member hmember := by
    have hgrown := subset_addMembers span (bindingMembers s.id bm) (s.typeAt span)
    rw [hadd] at hgrown
    exact hgrown (hs.members span bm' hbm' member hmember)
  statements := hs.statements

theorem Carries.accept (hs : s.Carries bs) {bm : Binding × Marking} {span : Span}
    {type : ClassRecord} {statements : List Statement}
    (hadd : addMembers (s.typeAt span) span (bindingMembers s.id bm) = (type, .ok ()))
    (hstatements : statements = s.statements ++ bindingStatements bm) :
    { s with type := some type, statements }.Carries (bs ++ [bm]) := by
  obtain ⟨rfl, -⟩ := addMembers_ok hadd
  refine ⟨iff_of_false (Option.some_ne_none _) (by simp), fun _ bm' hbm' member hmember => ?_, ?_⟩
  · rcases List.mem_append.mp hbm' with hold | hnew
    · exact List.mem_append_left _ (hs.members span bm' hold member hmember)
    · rw [List.mem_singleton.mp hnew] at hmember
      exact List.mem_append_right _ hmember
  · rw [hstatements, hs.statements, List.flatMap_append, List.flatMap_singleton]

theorem Carries.take (hs : s.Carries bs) (entry : Binding × Marking) :
    (s.take entry).Carries (if s.emits entry then bs ++ [entry] else bs) := by
  obtain ⟨b, m⟩ := entry
  have hemits : s.emits (b, m) = (m.treatment.isSome && (s.add b m).2.isOk) := rfl
  rw [hemits, Startup.take]
  cases htreatment : m.treatment with
  | none => simpa [Startup.add, htreatment] using hs
  | some treatment =>
    cases treatment with
    | compiled =>
      have hmembers : bindingMembers s.id (b, m) = fieldMembers s.id b m := by
        simp [bindingMembers, htreatment]
      simp only [Startup.add, htreatment, addField]
      cases checkBody b.name b.value b.span with
      | error e => exact hs
      | ok _ =>
        rcases hadd : addMembers (s.typeAt b.span) b.span (fieldMembers s.id b m)
          with ⟨type, _ | _⟩
        · exact hs.refuse (hmembers ▸ hadd)
        · exact hs.accept (hmembers ▸ hadd) (by simp [bindingStatements, htreatment])
    | constant value =>
      have hmembers : bindingMembers s.id (b, m) = [getter b m (.literal value)] := by
        simp [bindingMembers, htreatment]
      simp only [Startup.add, htreatment, addConstant]
      rcases hadd : addMembers (s.typeAt b.span) b.span [getter b m (.literal value)]
        with ⟨type, _ | _⟩
      · exact hs.refuse (hmembers ▸ hadd)
      · exact hs.accept (hmembers ▸ hadd) (by simp [bindingStatements, htreatment])
    | _ => simpa [Startup.add, htreatment, Except.isOk, Except.toBool] using hs

theorem Carries.foldl_take (hs : s.Carries bs) (entries : List (Binding × Marking)) :
    (entries.foldl Startup.take s).Carries (bs ++ s.emitted entries) := by
  induction entries generalizing s bs with
  | nil => simpa [emitted] using hs
  | cons entry entries ih =>
    have hrest := ih (hs.take entry)
    rw [emitted]
    split_ifs at hrest ⊢
    · simpa using hrest
    · exact hrest

theorem Tidy.name_foldl_take (hs : s.Tidy) (entries : List (Binding × Marking)) :
    (entries.foldl Startup.take s).name = s.name := by
  induction entries generalizing s with
  | nil => rfl
  | cons entry entries ih =>
    obtain ⟨hnext, hname⟩ := hs.take entry
    exact (ih hnext).trans hname

end Carries

end Startup

/-- A class that has the members of some values, found by their keys, and fills exactly their
fields, in order. -/
structure ClassRecord.HoldsValues (c : ClassRecord) (bs : List (Binding × Marking)) : Prop where
  members : ∀ bm ∈ bs, ∀ member ∈ Startup.bindingMembers c.id bm, member ∈ c.members
  nodup : c.keys.Nodup
  initializer : c.initializer?.getD [] = bs.flatMap Startup.bindingStatements

namespace Startup

variable {s : Startup} {bs : List (Binding × Marking)}

theorem Carries.finish_eq_none (hs : s.Carries bs) : s.finish = none ↔ bs = [] := by
  rw [finish, Option.map_eq_none_iff, hs.type_eq_none]

theorem Carries.finish (hs : s.Carries bs) (htidy : s.Tidy) {c : ClassRecord}
    (hc : s.finish = some c) : c.name = s.name ∧ c.id = s.id ∧ c.HoldsValues bs := by
  obtain ⟨hformed, -⟩ := htidy.finish hc
  obtain ⟨type, htype, rfl⟩ := Option.map_eq_some_iff.mp hc
  have hstartup := htidy type htype
  have hmembers := hs.members {}
  rw [typeAt, htype, Option.getD_some] at hmembers
  have hfirst : ∀ member ∈ type.members, member.key ≠ .initializer :=
    fun member hmem => (hstartup.members member hmem).1
  split at hformed
  · next hempty =>
    rw [if_pos hempty]
    refine ⟨hstartup.name, hstartup.id, fun bm hbm member hmember => ?_, hformed.nodup, ?_⟩
    · rw [hstartup.id] at hmember
      exact hmembers bm hbm member hmember
    · rw [ClassRecord.initializer?_append (List.append_nil _).symm hfirst, ← hs.statements,
        List.isEmpty_iff.mp hempty]
      rfl
  · next hfilled =>
    rw [if_neg hfilled]
    refine ⟨hstartup.name, hstartup.id, fun bm hbm member hmember => ?_, hformed.nodup, ?_⟩
    · simp only [hstartup.id] at hmember
      exact List.mem_append_left _ (hmembers bm hbm member hmember)
    · rw [ClassRecord.initializer?_append rfl hfirst, ← hs.statements]
      rfl

end Startup

/-! ## The identities of a file -/

namespace SourceFile

/-- The top-level values of a file that are emitted, in source order. -/
def values (o : Options) (file : SourceFile) : List (Binding × Marking) :=
  (Startup.new o.assemblyName file.path).emitted file.markedBindings

/-- The identities that a file asks for: those of its types, and one more if it has any values. -/
def identities (o : Options) (file : SourceFile) : List Identity :=
  file.marked.map (·.1.id) ++
    if (file.values o).isEmpty then [] else [file.startupId o.assemblyName]

variable (o : Options) (file : SourceFile)

theorem carries_startupOf :
    (file.startupOf o.assemblyName file.marked).Carries (file.values o) :=
  (Startup.carries_new o.assemblyName file.path).foldl_take file.markedBindings

theorem tidy_startupOf : (file.startupOf o.assemblyName file.marked).Tidy :=
  (Startup.tidy_new o.assemblyName file.path).foldl_take file.markedBindings

theorem name_startupOf :
    (file.startupOf o.assemblyName file.marked).name =
      Startup.typeName o.assemblyName file.path :=
  (Startup.tidy_new o.assemblyName file.path).name_foldl_take file.markedBindings

variable {o file}

/-- The startup type that a file asks for. -/
theorem finish_startupOf {c : ClassRecord}
    (hc : (file.startupOf o.assemblyName file.marked).finish = some c) :
    c.name = Startup.typeName o.assemblyName file.path ∧
      c.id = file.startupId o.assemblyName ∧ c.HoldsValues (file.values o) := by
  obtain ⟨hname, hid, hvalues⟩ := (carries_startupOf o file).finish (tidy_startupOf o file) hc
  rw [Startup.id, name_startupOf] at hid
  exact ⟨hname.trans (name_startupOf o file), hid, hvalues⟩

variable (o file)

theorem map_id_ownRegistrants_eq_identities :
    (file.ownRegistrants o).map Registrant.id = file.identities o := by
  rw [map_id_ownRegistrants, identities]
  congr 1
  have hnone := (carries_startupOf o file).finish_eq_none
  cases hfinish : (file.startupOf o.assemblyName file.marked).finish with
  | none =>
    rw [hnone.mp hfinish]
    rfl
  | some c =>
    have hvalues : (file.values o).isEmpty = false := by
      rw [List.isEmpty_eq_false_iff]
      intro hempty
      rw [hnone.mpr hempty] at hfinish
      cases hfinish
    rw [hvalues]
    exact congrArg (fun id => [id]) (finish_startupOf hfinish).2.1

theorem map_id_flatMap_ownRegistrants (files : List SourceFile) :
    (files.flatMap (ownRegistrants o)).map Registrant.id = files.flatMap (identities o) := by
  rw [List.map_flatMap]
  exact List.flatMap_congr fun file _ => map_id_ownRegistrants_eq_identities o file

end SourceFile

/-! ## Contents report no duplicate types -/

theorem noDuplicates_errors {es : List CompileError} {file : Option String} :
    NoDuplicates (es.map (.ofError · file)) ↔ ∀ e ∈ es, e.kind ≠ .duplicateType :=
  List.forall_mem_map

theorem noDuplicates_warnings (ws : List CompileWarning) (file : Option String) :
    NoDuplicates (ws.map (.ofWarning · file)) := by
  refine List.forall_mem_map.mpr fun w _ => ?_
  cases w <;> exact DiagnosticKind.noConfusion

theorem FailsPlainly.kind_ne {α : Type} {x : Except CompileError α} (h : FailsPlainly x) :
    ∀ e ∈ errorsOf x, e.kind ≠ .duplicateType := by
  cases x with
  | ok a => exact fun _ he => absurd he List.not_mem_nil
  | error e =>
    intro e' he' hkind
    obtain rfl := List.mem_singleton.mp he'
    have hplain := h e' rfl
    rw [hkind] at hplain
    exact Bool.false_ne_true hplain

namespace MemberDecl

variable (o : Options) (owner : Owner) (c : ClassRecord) (d : MemberDecl) (m : Marking)

theorem kind_ne_of_emit : ∀ e ∈ errorsOf (d.emit o owner m), e.kind ≠ .duplicateType := by
  by_cases hm : m.isConflict = true
  · obtain ⟨first, second, ht⟩ := Marking.exists_of_isConflict hm
    rw [emit, ht]
    refine List.forall_mem_singleton.mpr ?_
    exact DiagnosticKind.noConfusion
  · exact (d.failsPlainly_emit o owner (Bool.eq_false_of_not_eq_true hm)).kind_ne

theorem kind_ne_of_additionErrors (member : Member) :
    ∀ e ∈ d.additionErrors c m member, e.kind ≠ .duplicateType := by
  rw [additionErrors, ClassRecord.add, entryErrors]
  split_ifs <;> simp [CompileError.kind]

theorem kind_ne_of_complaintsAll (type : Marking) (ds l : List MemberDecl) :
    ∀ e ∈ complaintsAll o owner type ds c l, e.kind ≠ .duplicateType := by
  induction l generalizing c with
  | nil => exact fun _ he => absurd he List.not_mem_nil
  | cons d l ih =>
    refine List.forall_mem_append.mpr ⟨List.forall_mem_append.mpr ⟨?_, fun e he => ?_⟩, ih _⟩
    · exact d.kind_ne_of_emit o owner _
    · obtain ⟨member, -, he⟩ := List.mem_flatMap.mp he
      exact d.kind_ne_of_additionErrors c _ member e he

end MemberDecl

theorem Startup.kind_ne_of_complaints (entries : List (Binding × Marking)) (s : Startup) :
    ∀ e ∈ s.complaints entries, e.kind ≠ .duplicateType := by
  induction entries generalizing s with
  | nil => exact fun _ he => absurd he List.not_mem_nil
  | cons entry entries ih =>
    refine List.forall_mem_append.mpr ⟨?_, ih _⟩
    by_cases hm : entry.2.isConflict = true
    · obtain ⟨first, second, ht⟩ := Marking.exists_of_isConflict hm
      rw [add, ht]
      refine List.forall_mem_singleton.mpr ?_
      exact DiagnosticKind.noConfusion
    · exact (failsPlainly_add (Bool.eq_false_of_not_eq_true hm) s entry.1).kind_ne

theorem TypeHead.noDuplicates_diagnostics (h : TypeHead) (o : Options) (m : Marking) (s : Startup)
    (file : Option String) : NoDuplicates (h.diagnostics o m s file) := by
  refine noDuplicates_append.mpr ⟨noDuplicates_warnings _ file, ?_⟩
  rw [contentDiagnostics]
  split_ifs
  · refine noDuplicates_append.mpr ⟨noDuplicates_warnings _ file, noDuplicates_errors.mpr ?_⟩
    refine List.forall_mem_append.mpr ⟨?_, Startup.kind_ne_of_complaints _ s⟩
    exact MemberDecl.kind_ne_of_complaintsAll o (h.owner m) (h.newClass m) m h.members h.members
  · exact fun _ hd => absurd hd List.not_mem_nil

mutual

/-- Types with different identities that are all free are no duplicates. -/
theorem TypeDecl.noDuplicates_of_fresh {o : Options} {file : Option String}
    {taken : Finset Identity} {enclosing : Marking} {s : Startup} (t : TypeDecl)
    (h : Fresh taken ((t.marked enclosing).map (·.1.id))) :
    NoDuplicates (t.diagnostics o file taken enclosing s) := by
  obtain ⟨head, nested⟩ := t
  rw [TypeDecl.marked, List.map_cons] at h
  rw [TypeDecl.diagnostics, if_neg (h.2 _ List.mem_cons_self)]
  exact noDuplicates_append.mpr
    ⟨head.noDuplicates_diagnostics o _ s file, TypeDecl.noDuplicatesAll_of_fresh nested h.tail⟩
termination_by structural t

theorem TypeDecl.noDuplicatesAll_of_fresh {o : Options} {file : Option String}
    {taken : Finset Identity} {enclosing : Marking} {s : Startup} (ts : List TypeDecl)
    (h : Fresh taken ((TypeDecl.markedAll enclosing ts).map (·.1.id))) :
    NoDuplicates (TypeDecl.diagnosticsAll o file taken enclosing s ts) := by
  cases ts with
  | nil =>
    intro d hd
    cases hd
  | cons t ts =>
    rw [TypeDecl.markedAll, List.map_append] at h
    rw [TypeDecl.diagnosticsAll, TypeDecl.registered_of_fresh t h.of_append_left]
    exact noDuplicates_append.mpr
      ⟨TypeDecl.noDuplicates_of_fresh t h.of_append_left,
        TypeDecl.noDuplicatesAll_of_fresh ts h.of_append_right⟩
termination_by structural ts

end

theorem SourceFile.noDuplicates_of_fresh {o : Options} {taken : Finset Identity}
    {file : SourceFile} (h : Fresh taken ((file.ownRegistrants o).map Registrant.id)) :
    NoDuplicates (file.diagnostics o taken) := by
  rw [map_id_ownRegistrants] at h
  refine noDuplicates_append.mpr ⟨TypeDecl.noDuplicatesAll_of_fresh _ h.of_append_left, ?_⟩
  rw [TypeDecl.registeredAll_of_fresh file.types h.of_append_left]
  have hquiet := (Startup.registrants_of_fresh h.of_append_right).2
  exact noDuplicates_errors.mpr fun e he => absurd (hquiet ▸ he) List.not_mem_nil

theorem SourceFile.noDuplicatesAll_of_fresh {o : Options} {taken : Finset Identity}
    {files : List SourceFile}
    (h : Fresh taken ((files.flatMap (ownRegistrants o)).map Registrant.id)) :
    NoDuplicates (diagnosticsAll o taken files) := by
  rw [diagnosticsAll_of_fresh h]
  intro d hd
  obtain ⟨file, hfile, hd⟩ := List.mem_flatMap.mp hd
  rw [List.map_flatMap] at h
  have hown : ((file.ownRegistrants o).map Registrant.id).Nodup :=
    (List.nodup_flatMap.mp h.1).1 file hfile
  exact noDuplicates_of_fresh ⟨hown, fun _ _ => Finset.notMem_empty _⟩ d hd

/-! ## Assemblies -/

namespace Assembly

variable {a : Assembly} {o : Options}

theorem noDuplicates_iff :
    NoDuplicates (a.diagnostics o) ↔ (a.files.flatMap (SourceFile.identities o)).Nodup := by
  rw [← SourceFile.map_id_flatMap_ownRegistrants]
  constructor
  · intro hunique
    have hown : a.registrants o = a.files.flatMap (SourceFile.ownRegistrants o) :=
      SourceFile.registrantsAll_of_noDuplicates hunique
    rw [← hown]
    exact (a.fresh_registrants o).1
  · exact fun hnodup =>
      SourceFile.noDuplicatesAll_of_fresh ⟨hnodup, fun _ _ => Finset.notMem_empty _⟩

/-- Where no identity is asked for twice, each file with values has its startup type. -/
theorem exists_startup_draft (hnodup : (a.files.flatMap (SourceFile.identities o)).Nodup)
    (prior : Snapshot) {file : SourceFile} (hfile : file ∈ a.files) (hvalues : file.values o ≠ []) :
    ∃ c, (a.draft prior o).classes.get? (file.startupId o.assemblyName) = some c ∧
      c.name = Startup.typeName o.assemblyName file.path ∧ c.HoldsValues (file.values o) := by
  cases hfinish : (file.startupOf o.assemblyName file.marked).finish with
  | none =>
    exact absurd ((SourceFile.carries_startupOf o file).finish_eq_none.mp hfinish) hvalues
  | some c =>
    obtain ⟨hname, hid, hholds⟩ := SourceFile.finish_startupOf hfinish
    refine ⟨c, ?_, hname, hholds⟩
    have hown : a.registrants o = a.files.flatMap (SourceFile.ownRegistrants o) :=
      SourceFile.registrantsAll_of_noDuplicates (noDuplicates_iff.mpr hnodup)
    have hmem : Registrant.startup c ∈ a.registrants o := by
      rw [hown]
      refine List.mem_flatMap.mpr ⟨file, hfile, List.mem_append_right _ ?_⟩
      rw [hfinish]
      exact List.mem_singleton_self _
    obtain ⟨hkeys, -, -⟩ := List.nodup_append.mp (a.wellKeyed_draft prior o).nodup_types
    refine (Table.get?_eq_some_iff hkeys _ _).mpr ?_
    rw [(a.grows_draft prior o).classes, ← hid]
    refine List.mem_append_right _ (List.mem_flatMap.mpr ⟨_, hmem, ?_⟩)
    exact List.mem_singleton_self _

end Assembly

theorem Startup.typeName_inj (assembly path path' : String) :
    typeName assembly path = typeName assembly path' ↔
      foldName (stem path) = foldName (stem path') := by
  rw [typeName, typeName, String.append_right_inj]

/--
No type of an assembly is reported as a duplicate exactly if all identities that its files ask for
are different, those of the declared types and those of the startup types of the files with any
values.  Each of these files then has its own startup type, which holds the emitted values of the
file.  The startup types of two files have the same name exactly if their paths without extensions
agree in all letters, digits and underscores and in the places of all other characters.
-/
theorem startup_types_kept_iff_identities_distinct (a : Assembly) (prior : Snapshot) (o : Options) :
    ((a.draft prior o).report.ofKind .duplicateType = [] ↔
        (a.files.flatMap (SourceFile.identities o)).Nodup) ∧
      ((a.files.flatMap (SourceFile.identities o)).Nodup → ∀ file ∈ a.files, file.values o ≠ [] →
        ∃ c, (a.draft prior o).classes.get? (file.startupId o.assemblyName) = some c ∧
          c.name = Startup.typeName o.assemblyName file.path ∧ c.HoldsValues (file.values o)) ∧
      ∀ path path', Startup.typeName o.assemblyName path = Startup.typeName o.assemblyName path' ↔
        Startup.foldName (Startup.stem path) = Startup.foldName (Startup.stem path') := by
  refine ⟨?_, fun hnodup file hfile => a.exists_startup_draft hnodup prior hfile,
    Startup.typeName_inj o.assemblyName⟩
  rw [← Assembly.noDuplicates_iff, ← a.report_draft prior o, Report.ofKind,
    List.filter_eq_nil_iff, NoDuplicates]
  simp

/-- A file with one module, whose top-level values are compiled. -/
def valuesFile (path name : String) (bindings : List Binding) : SourceFile where
  path
  types := [⟨{ name, form := .module, attributes := [.javaScript true], bindings }, []⟩]

/-- Two files, the first of which gives a name to two values. -/
def mooringAssembly : Assembly where
  name := "Mooring"
  files := [
    valuesFile "quay/main.fs" "Quay" [
      { name := "depth", type := Ty.int32, value := .int 7 },
      { name := "depth", type := Ty.int32, value := .int 9 }],
    valuesFile "quay/side.fs" "Side" [{ name := "width", type := Ty.int32, value := .int 3 }]]

theorem mooring_values_kept :
    let b := mooringAssembly.draft {} {}
    b.hasErrors = true ∧ b.report.ofKind .duplicateType = [] ∧
      ∀ file ∈ mooringAssembly.files,
        ∃ c, b.classes.get? (file.startupId "Assembly") = some c ∧
          c.name = Startup.typeName "Assembly" file.path ∧ c.HoldsValues (file.values {}) ∧
          (file.values {}).length = 1 := by
  intro b
  obtain ⟨hduplicates, hstartup, -⟩ :=
    startup_types_kept_iff_identities_distinct mooringAssembly {} {}
  have hnodup : (mooringAssembly.files.flatMap (SourceFile.identities {})).Nodup := by
    decide +kernel
  have hsingle : ∀ file ∈ mooringAssembly.files, (file.values {}).length = 1 := by decide +kernel
  refine ⟨by decide +kernel, hduplicates.mpr hnodup, fun file hfile => ?_⟩
  have hvalues : file.values {} ≠ [] := by
    intro hempty
    have hlength := hsingle file hfile
    rw [hempty] at hlength
    cases hlength
  obtain ⟨c, hc, hname, hholds⟩ := hstartup hnodup file hfile hvalues
  exact ⟨c, hc, hname, hholds, hsingle file hfile⟩

/-- Two files at different paths that give startup types of one name. -/
def pierAssembly : Assembly where
  name := "Pier"
  files := [
    valuesFile "app/main.fs" "Pier" [{ name := "depth", type := Ty.int32, value := .int 7 }],
    valuesFile "app_main.fs" "Jetty" [{ name := "width", type := Ty.int32, value := .int 3 }]]

theorem pier_loses_width :
    let b := pierAssembly.draft {} {}
    (pierAssembly.files.map SourceFile.path).Nodup ∧
      (pierAssembly.files.flatMap fun file => file.marked.map (·.1.name)) = ["Pier", "Jetty"] ∧
      (∀ file ∈ pierAssembly.files, (file.values {}).length = 1) ∧
      b.report.ofKind .duplicateType ≠ [] ∧
      b.classes.values.map ClassRecord.name = ["Pier", "StartupCode$Assembly$app_main", "Jetty"] ∧
      ∀ c ∈ b.classes.values, c.contains (.field "width") = false := by
  decide +kernel

end Memberwise
