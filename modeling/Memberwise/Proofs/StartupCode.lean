import Mathlib
import Memberwise.Proofs.EmittedCode
import Memberwise.Proofs.Initializers

/-!
# The code of startup types

The static field of an immutable top-level value is filled by the initializer of
its startup type.  If no source body writes such a field, then no code of the build
does: what the compiler makes up writes static fields in setters only, and setters
belong to mutable values, whose fields are others.
-/

namespace Memberwise

/-- The static field of a value, if it has one and it is immutable. -/
def Startup.fixedField (owner : Identity) : Binding × Marking → List (Identity × String)
  | (b, m) =>
    match m.treatment with
    | some .compiled => if b.isMutable then [] else [(owner, b.name)]
    | _ => []

/-- The source bodies of a type: those of its members and its top-level values. -/
def TypeHead.sources (h : TypeHead) : List Expr :=
  h.members.filterMap MemberDecl.body ++ h.bindings.map Binding.value

namespace Assembly

/-- The static fields of the immutable top-level values of an assembly. -/
def fixedFields (a : Assembly) (o : Options) : List (Identity × String) :=
  a.files.flatMap fun file =>
    file.markedBindings.flatMap (Startup.fixedField (file.startupId o.assemblyName))

/-- All source bodies of an assembly. -/
def sources (a : Assembly) : List Expr :=
  a.files.flatMap fun file => file.marked.flatMap fun hm => hm.1.sources

end Assembly

theorem Startup.mem_fixedField {owner : Identity} {bm : Binding × Marking}
    {field : Identity × String} :
    field ∈ fixedField owner bm ↔
      bm.2.treatment = some .compiled ∧ bm.1.isMutable = false ∧ field = (owner, bm.1.name) := by
  obtain ⟨b, m⟩ := bm
  simp only [fixedField]
  split
  · next hcompiled => cases hmutable : b.isMutable <;> simp [hcompiled]
  · next hother =>
    constructor
    · intro h
      cases h
    · rintro ⟨hcompiled, -⟩
      exact absurd hcompiled hother

/-! ## Startup types of a build -/

namespace Assembly.Compiled

variable {a : Assembly} {o : Options} {b : Build}

/-- A file with an emitted value has a startup type in the build. -/
theorem startup (hb : a.Compiled o b) {file : SourceFile} (hfile : file ∈ a.files)
    {bm : Binding × Marking} (hbm : bm ∈ file.markedBindings) {member : Member}
    (hmember : member ∈ Startup.bindingMembers (file.startupId o.assemblyName) bm) :
    ∃ (s : Startup) (c : ClassRecord), s.id = file.startupId o.assemblyName ∧
      s.Holds file.markedBindings ∧ s.finish = some c ∧
      (file.startupId o.assemblyName, c) ∈ file.classEntries o := by
  obtain ⟨s, hs⟩ := hb.startups file hfile
  obtain ⟨hid, hholds⟩ := SourceFile.startup_holds hs
  obtain ⟨c, hc⟩ := hholds.exists_finish hbm (hid ▸ hmember)
  refine ⟨s, c, hid, hholds, hc, List.mem_append_right _ ?_⟩
  have hclass : c.id = file.startupId o.assemblyName := (hholds.finish hc).1.trans hid
  simp [hs, hc, hclass]

theorem get?_of_mem (hb : a.Compiled o b) {file : SourceFile} (hfile : file ∈ a.files)
    {owner : Identity} {c : ClassRecord} (h : (owner, c) ∈ file.classEntries o) :
    b.classes.get? owner = some c := by
  refine (Table.lookupIn_eq_some_iff hb.nodup owner c).mpr ?_
  rw [hb.classes]
  exact List.mem_flatMap.mpr ⟨file, hfile, h⟩

/-- A type belongs to one file. -/
theorem file_eq (hb : a.Compiled o b) {file file' : SourceFile} (hfile : file ∈ a.files)
    (hfile' : file' ∈ a.files) {owner : Identity} {c c' : ClassRecord}
    (h : (owner, c) ∈ file.classEntries o) (h' : (owner, c') ∈ file'.classEntries o) :
    file = file' := by
  have hnodup := hb.nodup
  rw [Table.keys, hb.classes, List.map_flatMap] at hnodup
  have hkey : owner ∈ (file.classEntries o).map Prod.fst := List.mem_map_of_mem h
  have hkey' : owner ∈ (file'.classEntries o).map Prod.fst := List.mem_map_of_mem h'
  exact eq_of_nodup_flatMap hnodup hfile hfile' hkey hkey'

/-- No two values have the same static field. -/
theorem eq_of_field_eq (hb : a.Compiled o b) {file file' : SourceFile} (hfile : file ∈ a.files)
    (hfile' : file' ∈ a.files) {bm bm' : Binding × Marking} (hbm : bm ∈ file.markedBindings)
    (hbm' : bm' ∈ file'.markedBindings) (hcompiled : bm.2.treatment = some .compiled)
    (hcompiled' : bm'.2.treatment = some .compiled)
    (h : (file.startupId o.assemblyName, bm.1.name) =
      (file'.startupId o.assemblyName, bm'.1.name)) : bm = bm' := by
  obtain ⟨howner, hname⟩ := Prod.mk.inj h
  obtain ⟨member, hmember, -⟩ := List.mem_map.mp
    (Startup.field_key_mem (file.startupId o.assemblyName) hcompiled)
  obtain ⟨member', hmember', -⟩ := List.mem_map.mp
    (Startup.field_key_mem (file'.startupId o.assemblyName) hcompiled')
  obtain ⟨s, c, hid, hholds, hc, hentry⟩ := hb.startup hfile hbm hmember
  obtain ⟨s', c', hid', hholds', hc', hentry'⟩ := hb.startup hfile' hbm' hmember'
  rw [← howner] at hentry'
  obtain rfl := hb.file_eq hfile hfile' hentry hentry'
  exact hholds.eq_of_name_eq hbm hbm' hcompiled hcompiled' hname

/-- The field of a mutable value is none of an immutable one. -/
theorem not_mem_fixedFields (hb : a.Compiled o b) {file : SourceFile} (hfile : file ∈ a.files)
    {bm : Binding × Marking} (hbm : bm ∈ file.markedBindings)
    (hcompiled : bm.2.treatment = some .compiled) (hmutable : bm.1.isMutable = true) :
    (file.startupId o.assemblyName, bm.1.name) ∉ a.fixedFields o := by
  intro hfixed
  obtain ⟨file', hfile', hfixed⟩ := List.mem_flatMap.mp hfixed
  obtain ⟨bm', hbm', hfixed⟩ := List.mem_flatMap.mp hfixed
  obtain ⟨hcompiled', himmutable, heq⟩ := Startup.mem_fixedField.mp hfixed
  obtain rfl := hb.eq_of_field_eq hfile hfile' hbm hbm' hcompiled hcompiled' heq
  rw [hmutable] at himmutable
  cases himmutable

end Assembly.Compiled

/-! ## Code that spares the fields -/

section Spares

variable {fields : List (Identity × String)}

theorem Expr.spares_of_inSynthesized {allowed : Nat → Prop} {e : Expr}
    (h : e.InSynthesized allowed) : e.Spares fields := by
  cases e <;> trivial

theorem Expr.every_spares_toTemplate (params : List String) (hasReceiver : Bool) {e : Expr}
    (he : e.Every (Spares fields)) (bound : List String) :
    (e.toTemplate params hasReceiver bound).Every (Spares fields) := by
  refine every_toTemplate (fun e bound hform => ?_) he bound
  cases e with
  | setStatic owner name value => exact hform
  | var name =>
    simp only [toTemplate]
    split
    · trivial
    · split <;> trivial
  | self => cases hasReceiver <;> trivial
  | call receiver method args => cases receiver <;> trivial
  | _ => trivial

theorem MemberDecl.body_of_sourceBody {d : MemberDecl} {body : Expr}
    (h : d.sourceBody = .ok body) : d.body = some body := by
  unfold sourceBody at h
  split at h
  · cases h
  · next source hsource =>
    split at h
    · cases h
    · rw [hsource, Except.ok.inj h]

theorem MemberDecl.spares_of_emit {o : Options} {owner : Owner} {d : MemberDecl} {m : Marking}
    {member : Member} (hbody : ∀ body, d.body = some body → body.Every (Expr.Spares fields))
    (h : d.emit o owner m = .ok (some member)) :
    ∀ e ∈ member.code, e.Every (Expr.Spares fields) := by
  intro e he
  cases origin_of_emit h e he with
  | source hsource => exact hbody e (body_of_sourceBody hsource)
  | template hsource _ =>
    exact Expr.every_spares_toTemplate _ _ (hbody _ (body_of_sourceBody hsource)) []
  | synthesized hforms => exact hforms.imp fun _ => Expr.spares_of_inSynthesized

theorem Member.IsSynthesized.spares {member : Member} (h : member.IsSynthesized) :
    ∀ e ∈ member.code, e.Every (Expr.Spares fields) := by
  intro e he
  exact (h e he).imp fun _ => Expr.spares_of_inSynthesized

/-- The members of a value write at most its own field, and only if it is mutable. -/
theorem Startup.spares_bindingMembers {owner : Identity} {bm : Binding × Marking}
    (hfield : bm.2.treatment = some .compiled → bm.1.isMutable = true →
      (owner, bm.1.name) ∉ fields)
    {member : Member} (hmember : member ∈ bindingMembers owner bm) :
    ∀ e ∈ member.code, e.Every (Expr.Spares fields) := by
  obtain ⟨b, m⟩ := bm
  simp only [bindingMembers] at hmember
  split at hmember
  · next hcompiled =>
    simp only [fieldMembers, List.mem_cons] at hmember
    rcases hmember with rfl | rfl | hmember
    · simp [Member.code]
    · simp [Member.code, getter, Expr.Spares]
    · split at hmember
      · next hmutable =>
        obtain rfl := List.mem_singleton.mp hmember
        simpa [Member.code, setter, Expr.Spares] using hfield hcompiled hmutable
      · cases hmember
  · obtain rfl := List.mem_singleton.mp hmember
    simp [Member.code, getter, Expr.Spares]
  · cases hmember

end Spares

theorem SourceFile.value_mem_sources {file : SourceFile} {bm : Binding × Marking}
    (h : bm ∈ file.markedBindings) : bm.1.value ∈ file.marked.flatMap fun hm => hm.1.sources := by
  obtain ⟨⟨head, m⟩, hhead, h⟩ := List.mem_flatMap.mp h
  simp only [TypeHead.markedBindings] at h
  split at h
  · obtain ⟨b, hb, rfl⟩ := List.mem_map.mp h
    refine List.mem_flatMap.mpr ⟨(head, m), hhead, List.mem_append_right _ ?_⟩
    exact List.mem_map_of_mem hb
  · cases h

namespace Assembly.Compiled

variable {a : Assembly} {o : Options} {b : Build}

/--
What no source body writes, no code of the build does, but for the members that the
top-level values bring.
-/
theorem spares_or_value (hb : a.Compiled o b) {fields : List (Identity × String)}
    (hsources : ∀ e ∈ a.sources, e.Every (Expr.Spares fields))
    {c : ClassRecord} (hc : c ∈ b.classes.values) {member : Member} (hmember : member ∈ c.members) :
    (∀ e ∈ member.code, e.Every (Expr.Spares fields)) ∨
      ∃ file ∈ a.files, ∃ bm ∈ file.markedBindings,
        member ∈ Startup.bindingMembers (file.startupId o.assemblyName) bm := by
  obtain ⟨file, hfile, hbrings⟩ := hb.exists_brings hc hmember
  have hfileSources : ∀ e ∈ file.marked.flatMap fun hm => hm.1.sources,
      e.Every (Expr.Spares fields) :=
    fun e he => hsources e (List.mem_flatMap.mpr ⟨file, hfile, he⟩)
  cases hbrings with
  | declared hhead hd hemit =>
    refine .inl (MemberDecl.spares_of_emit (fun body hbody => hfileSources body ?_) hemit)
    refine List.mem_flatMap.mpr ⟨_, hhead, List.mem_append_left _ ?_⟩
    exact List.mem_filterMap.mpr ⟨_, hd, hbody⟩
  | synthesized h => exact .inl h.spares
  | value hbm h => exact .inr ⟨file, hfile, _, hbm, h⟩
  | initializer h =>
    refine .inl fun e he => ?_
    obtain ⟨statement, hstatement, rfl⟩ := List.mem_map.mp he
    obtain ⟨bm, hbm, -, hstatement⟩ := h statement hstatement
    obtain ⟨-, rfl⟩ := Startup.mem_bindingStatements hstatement
    exact hfileSources _ (SourceFile.value_mem_sources hbm)

/-- If no source body writes a field of an immutable value, no code of the build does. -/
theorem spares (hb : a.Compiled o b)
    (hsources : ∀ e ∈ a.sources, e.Every (Expr.Spares (a.fixedFields o)))
    {c : ClassRecord} (hc : c ∈ b.classes.values) {member : Member} (hmember : member ∈ c.members) :
    ∀ e ∈ member.code, e.Every (Expr.Spares (a.fixedFields o)) := by
  rcases hb.spares_or_value hsources hc hmember with hspares | ⟨file, hfile, bm, hbm, hmember⟩
  · exact hspares
  · exact Startup.spares_bindingMembers (hb.not_mem_fixedFields hfile hbm) hmember

end Assembly.Compiled

/-! ## The machine of a build -/

namespace Machine

variable {m : Machine}

/-- The body of a method that is found is code of a class. -/
theorem exists_of_lookup {ref : MethodRef} {r : Method} (h : m.lookup ref = .ok r) :
    ∃ c ∈ m.build.classes.values, ∃ member ∈ c.members, r.body ∈ member.code := by
  unfold lookup at h
  split at h
  · cases h
  · next c hc =>
    have hvalue := Table.mem_values_of_get? hc
    dsimp only at h
    split at h
    · next found hfound =>
      obtain rfl := Except.ok.inj h
      split at hfound
      · exact ⟨c, hvalue, _, ClassRecord.mem_of_constructor? hfound, List.mem_singleton_self _⟩
      · exact ⟨c, hvalue, _, ClassRecord.mem_of_method? hfound, List.mem_singleton_self _⟩
    · cases h

theorem exists_of_initializer {owner : Identity} {statement : Statement}
    (h : statement ∈ m.initializer owner) :
    ∃ c ∈ m.build.classes.values, ∃ statements, .initializer statements ∈ c.members ∧
      statement ∈ statements := by
  unfold initializer at h
  cases hc : m.build.classes.get? owner with
  | none => simp [hc] at h
  | some c =>
    cases hinit : c.initializer? with
    | none => simp [hc, hinit] at h
    | some statements =>
      have hmem : statement ∈ statements := by simpa [hc, hinit] using h
      exact ⟨c, Table.mem_values_of_get? hc, statements,
        ClassRecord.mem_of_initializer? hinit, hmem⟩

end Machine

/-- The entry point of a build, if there is one, is a call. -/
def Build.EntersByCall (b : Build) : Prop :=
  ∀ statement, b.entryPoint = some statement → ∃ ref, statement = .expr (.call none ref [])

theorem Build.Step.entersByCall {b b' : Build} (h : b.Step b') (hb : b.EntersByCall) :
    b'.EntersByCall := by
  cases h with
  | addClass h =>
    rw [(addClass_ok h).2]
    exact hb
  | side h =>
    cases h with
    | entryPoint ref =>
      intro statement hstatement
      exact ⟨ref, (Option.some.inj hstatement).symm⟩
    | interface h =>
      rw [addInterface_ok h]
      exact hb
    | resource h =>
      rw [addResource_ok h]
      exact hb
    | error | warning | proxy | remote | graph | file => exact hb

theorem Build.Steps.entersByCall {b b' : Build} (h : b.Steps b') (hb : b.EntersByCall) :
    b'.EntersByCall := by
  induction h with
  | refl => exact hb
  | tail _ hstep ih => exact hstep.entersByCall ih

namespace Assembly

variable {a : Assembly} {prior : Snapshot} {o : Options} {b : Build} {m : Machine}

/-- What no source body writes, no expression of a static initializer does. -/
theorem Compiled.spares_initializer (hb : a.Compiled o m.build)
    {fields : List (Identity × String)} (hsources : ∀ e ∈ a.sources, e.Every (Expr.Spares fields))
    {owner : Identity} :
    ∀ statement ∈ m.initializer owner, statement.code.Every (Expr.Spares fields) := by
  intro statement hstatement
  obtain ⟨c, hc, statements, hmember, hmem⟩ := Machine.exists_of_initializer hstatement
  rcases hb.spares_or_value hsources hc hmember with hspares | ⟨file, -, bm, -, hvalue⟩
  · exact hspares _ (List.mem_map_of_mem hmem)
  · exact absurd rfl (Startup.key_ne_initializer hvalue)

/-- The entry point calls a method, and does nothing by itself. -/
theorem spares_entryPoint (h : a.compile prior o = .ok b) (hm : m.build = b)
    {fields : List (Identity × String)} {statement : Statement}
    (hentry : m.build.entryPoint = some statement) :
    statement.code.Every (Expr.Spares fields) := by
  have hsteps := (a.steps_build prior o).entersByCall (by simp [Build.EntersByCall, Build.new])
  rw [← a.build_of_compile h, ← hm] at hsteps
  obtain ⟨ref, rfl⟩ := hsteps statement hentry
  refine Expr.every_iff.mpr ⟨trivial, fun c hc => ?_⟩
  cases hc

/-- No code of a machine for a build writes a field of an immutable value. -/
theorem sparing_of_compile (h : a.compile prior o = .ok b)
    (hsources : ∀ e ∈ a.sources, e.Every (Expr.Spares (a.fixedFields o))) (hm : m.build = b)
    (hhosts : ∀ name host, m.hosts.get? name = some host → host.KeepsClosures) :
    m.Sparing (a.fixedFields o) := by
  have hb := a.compiled_of_compile h
  rw [← hm] at hb
  refine ⟨fun ref r hr => ?_, fun owner => hb.spares_initializer hsources,
    fun statement => spares_entryPoint h hm, hhosts⟩
  obtain ⟨c, hc, member, hmember, hbody⟩ := Machine.exists_of_lookup hr
  exact hb.spares hsources hc hmember r.body hbody

end Assembly

end Memberwise
