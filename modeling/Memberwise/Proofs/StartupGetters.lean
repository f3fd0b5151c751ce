import Mathlib
import Memberwise.Proofs.PassedStates
import Memberwise.Proofs.StartupOnce
import Memberwise.Proofs.StaticWrites

/-!
# What the getters of startup values return

The getter of a compiled top-level value starts the initializer of its file and reads
a static field.  In every session, it returns the last value stored in the field, by
the statement that computes the value or by the setter, if anything was stored there.

Nothing was stored if the initializer stopped with a fault at the statement of the
value or at an earlier one.  The type counts as started all the same, so the next call
of the getter does not fail: it returns what an empty field shows.
-/

namespace Memberwise

namespace Startup

/-- The static field of a value, if it has one. -/
def valueField (owner : Identity) : Binding × Marking → List (Identity × String)
  | (b, m) =>
    match m.treatment with
    | some .compiled => [(owner, b.name)]
    | _ => []

theorem init_mem_bindingStatements {bm : Binding × Marking}
    (h : bm.2.treatment = some .compiled) :
    .init bm.1.name bm.1.value ∈ bindingStatements bm := by
  simp [bindingStatements, h]

/-- The body of the setter of a value. -/
def setterBody (owner : Identity) (b : Binding) : Expr :=
  .seq [.start owner, .setStatic owner b.name (.hole 0)]

/-- Among the members of a value, only a setter assigns to a static field, which is its own. -/
theorem eq_setterBody_of_assigns {owner : Identity} {bm : Binding × Marking} {member : Member}
    (hmember : member ∈ bindingMembers owner bm) {body : Expr} (hbody : body ∈ member.code)
    {type : Identity} {name : String} {e : Expr} (h : .setStatic type name e ∈ body.subterms) :
    bm.2.treatment = some .compiled ∧ bm.1.isMutable = true ∧
      (type, name) = (owner, bm.1.name) ∧ body = setterBody owner bm.1 := by
  have hassigns : ¬ body.Every (Expr.Spares [(type, name)]) :=
    fun hspares => hspares _ h (List.mem_singleton_self _)
  obtain ⟨b, m⟩ := bm
  simp only [bindingMembers] at hmember
  split at hmember
  · next hcompiled =>
    simp only [fieldMembers, List.mem_cons] at hmember
    rcases hmember with rfl | rfl | hmember
    · cases hbody
    · obtain rfl := List.mem_singleton.mp hbody
      exact absurd (by simp [Expr.Spares]) hassigns
    · split at hmember
      · next hmutable =>
        obtain rfl := List.mem_singleton.mp hmember
        obtain rfl := List.mem_singleton.mp hbody
        refine ⟨hcompiled, hmutable, ?_, rfl⟩
        by_contra hfield
        exact hassigns (by simpa [Expr.Spares, eq_comm] using hfield)
      · cases hmember
  · obtain rfl := List.mem_singleton.mp hmember
    obtain rfl := List.mem_singleton.mp hbody
    exact absurd (by simp [Expr.Spares]) hassigns
  · cases hmember

end Startup

/-- The static fields of the top-level values of an assembly. -/
def Assembly.startupFields (a : Assembly) (o : Options) : List (Identity × String) :=
  a.files.flatMap fun file =>
    file.markedBindings.flatMap (Startup.valueField (file.startupId o.assemblyName))

/-- A method of the build has a body, and no other body assigns to a static field. -/
def Build.AssignedBy (b : Build) (field : Identity × String) (body : Expr) : Prop :=
  (∃ ref r, Machine.lookup { build := b } ref = .ok r ∧ r.body = body) ∧
    ∀ ref r e, Machine.lookup { build := b } ref = .ok r →
      .setStatic field.1 field.2 e ∈ r.body.subterms → r.body = body

namespace Assembly.Compiled

variable {a : Assembly} {o : Options} {b : Build} {file : SourceFile} {bm : Binding × Marking}

theorem mem_startupFields (hfile : file ∈ a.files) (hbm : bm ∈ file.markedBindings)
    (hcompiled : bm.2.treatment = some .compiled) :
    (file.startupId o.assemblyName, bm.1.name) ∈ a.startupFields o := by
  refine List.mem_flatMap.mpr ⟨file, hfile, List.mem_flatMap.mpr ⟨bm, hbm, ?_⟩⟩
  simp [Startup.valueField, hcompiled]

section Value

variable (hb : a.Compiled o b) (hfile : file ∈ a.files) (hbm : bm ∈ file.markedBindings)
  (hcompiled : bm.2.treatment = some .compiled)

include hb hfile hbm hcompiled

/-- If no source body assigns to the field of a value, then only its setter does. -/
theorem setter_of_assigns (hsources : ∀ e ∈ a.sources, e.Every (Expr.Spares (a.startupFields o)))
    {ref : MethodRef} {r : Method} (hr : Machine.lookup { build := b } ref = .ok r) {e : Expr}
    (h : .setStatic (file.startupId o.assemblyName) bm.1.name e ∈ r.body.subterms) :
    bm.1.isMutable = true ∧
      r.body = Startup.setterBody (file.startupId o.assemblyName) bm.1 := by
  obtain ⟨c, hc, member, hmember, hbody⟩ := Machine.exists_of_lookup hr
  rcases hb.spares_or_value hsources hc hmember with
    hspares | ⟨file', hfile', bm', hbm', hmember⟩
  · exact absurd (mem_startupFields hfile hbm hcompiled) (hspares _ hbody _ h)
  · obtain ⟨hcompiled', hmutable, hfield, hsetter⟩ :=
      Startup.eq_setterBody_of_assigns hmember hbody h
    have hsame := hb.eq_of_field_eq hfile hfile' hbm hbm' hcompiled hcompiled' hfield
    subst hsame
    obtain ⟨howner, -⟩ := Prod.mk.inj hfield
    rw [howner]
    exact ⟨hmutable, hsetter⟩

theorem assignedBy_setter (hsources : ∀ e ∈ a.sources, e.Every (Expr.Spares (a.startupFields o)))
    (h : b.Assigns (file.startupId o.assemblyName, bm.1.name)) :
    bm.1.isMutable = true ∧ b.AssignedBy (file.startupId o.assemblyName, bm.1.name)
      (Startup.setterBody (file.startupId o.assemblyName) bm.1) := by
  obtain ⟨ref, r, e, hr, hassign⟩ := h
  obtain ⟨hmutable, hbody⟩ := hb.setter_of_assigns hfile hbm hcompiled hsources hr hassign
  refine ⟨hmutable, ⟨ref, r, hr, hbody⟩, fun ref' r' e' hr' hassign' => ?_⟩
  exact (hb.setter_of_assigns hfile hbm hcompiled hsources hr' hassign').2

/-- The statement that fills the field of a value computes the value. -/
theorem value_of_init {e : Expr}
    (h : .init bm.1.name e ∈ file.markedBindings.flatMap Startup.bindingStatements) :
    e = bm.1.value := by
  obtain ⟨bm', hbm', hstatement⟩ := List.mem_flatMap.mp h
  obtain ⟨hcompiled', heq⟩ := Startup.mem_bindingStatements hstatement
  obtain ⟨hname, rfl⟩ := Statement.init.inj heq
  have hsame := hb.eq_of_field_eq hfile hfile hbm hbm' hcompiled hcompiled' (by rw [hname])
  rw [hsame]

/-- A value in the field was computed by its own statement or assigned by its setter. -/
theorem origin_of_account (hsources : ∀ e ∈ a.sources, e.Every (Expr.Spares (a.startupFields o)))
    {M : List Moment} {w : StaticWrite} {earlier : List StaticWrite}
    (hfield : w.field = (file.startupId o.assemblyName, bm.1.name))
    (h : Account b M (a.startupFields o) (w :: earlier)) :
    if w.fills then
      ∃ s', Statement.Ran M (file.startupId o.assemblyName) (.init bm.1.name bm.1.value)
        (.ok w.value s') ∧ s'.stored = earlier
    else
      bm.1.isMutable = true ∧ b.AssignedBy (file.startupId o.assemblyName, bm.1.name)
        (Startup.setterBody (file.startupId o.assemblyName) bm.1) := by
  cases h with
  | assign hassign hassigns _ =>
    rw [hfield] at hassigns
    rw [if_neg (Bool.eq_false_iff.mp hassign)]
    exact hb.assignedBy_setter hfile hbm hcompiled hsources
      (hassigns (mem_startupFields hfile hbm hcompiled))
  | fill hinit hran hstored _ =>
    obtain ⟨rfl, rfl⟩ := Prod.mk.inj hfield
    rw [(hb.initializer hfile hbm (by simp [hcompiled]) rfl).1] at hinit
    obtain rfl := hb.value_of_init hfile hbm hcompiled hinit
    exact ⟨_, hran, hstored⟩

end Value

end Assembly.Compiled

/-- What no source body writes, the code of a machine for the build writes in methods only. -/
theorem Assembly.confines_of_compile {a : Assembly} {prior : Snapshot} {o : Options} {b : Build}
    (h : a.compile prior o = .ok b) {fields : List (Identity × String)}
    (hsources : ∀ e ∈ a.sources, e.Every (Expr.Spares fields)) {m : Machine} (hm : m.Runs b) :
    m.Confines fields := by
  have hb := a.compiled_of_compile h
  rw [← hm.build] at hb
  exact ⟨fun _ => hb.spares_initializer hsources, fun _ => spares_entryPoint h hm.build, hm.host⟩

theorem Eval.mem_started_of_startWithin {m : Machine} {enter : Frame → Expr → Eval Value}
    (henter : ∀ frame body, Restores (enter frame body)) {bound : Nat} {owner : Identity}
    {s s' : Machine.State} (h : startWithin m enter bound owner s = .ok () s') :
    owner ∈ s'.started := by
  by_cases hstarted : owner ∈ s.started
  · rw [startWithin_of_mem bound hstarted] at h
    cases h
    exact hstarted
  cases bound with
  | zero =>
    change EStateM.map _ (markStarted owner) s = _ at h
    rw [EStateM.map, markStarted_of_not_mem hstarted] at h
    cases h
    exact List.mem_cons_self
  | succ bound =>
    rw [startWithin_of_not_mem hstarted] at h
    let around : Surroundings := ⟨enter, startWithin m enter bound⟩
    have henters (frame : Frame) (body : Expr) : Restores (around.enter frame body) :=
      henter frame body
    have hends := restores_statements (m := m) henters (restores_startWithin henter bound) owner
      (m.initializer owner) _ _ (.refl { s with started := owner :: s.started })
    rw [h] at hends
    cases hends with
    | value _ hreturns => exact hreturns.started.subset List.mem_cons_self

/-- A getter that returned has started its type and read the field. -/
theorem Startup.read_of_call {m : Machine} {owner : Identity} {bm : Binding × Marking}
    (hcompiled : bm.2.treatment = some .compiled) {ref : MethodRef} {r : Method}
    (hr : m.lookup ref = .ok r) (hkind : r.kind = .inline) (hbody : r.body = getterBody owner bm)
    {receiver : Option Value} {args : List Value} {s s' : Machine.State} {value : Value}
    (h : m.call ref receiver args s = .ok value s') :
    owner ∈ s'.started ∧ value = (s'.statics.get? (owner, bm.1.name)).getD .undefined := by
  obtain ⟨left, s'', hrun, rfl⟩ := Machine.exists_of_call hr hkind h
  rw [hbody, show getterBody owner bm = .seq [.start owner, .static owner bm.1.name] by
    simp [getterBody, hcompiled]] at hrun
  obtain ⟨hstart, hvalue⟩ := Eval.exists_of_read hrun
  have hstarted : owner ∈ s''.started :=
    Eval.mem_started_of_startWithin (Eval.restores_enterWithin left) hstart
  exact ⟨hstarted, hvalue⟩

/--
On a build that compiled without errors, let some operations be performed in any
order, and let no source body and no expression that is evaluated assign to the field of
a top-level value.  A call of the getter of a compiled value that then returns gives the
last value stored in its field.  This is what the expression of the value came to when the
session evaluated it, if the initializer stored it; otherwise the value is mutable, and no
code but its setter assigns to the field.  Only if nothing was stored, the getter returns
`undefined`, and then the initializer has stopped at the statement of the value or at an
earlier one, which ended with a fault when the session evaluated it.  Each of these evaluations
begins in a state that one of the operations goes through.
-/
theorem getter_shows_last_stored_or_stopped (a : Assembly) (prior : Snapshot) (o : Options)
    (b : Build) (hcompile : a.compile prior o = .ok b)
    (hsources : ∀ e ∈ a.sources, e.Every (Expr.Spares (a.startupFields o)))
    (ops : List Operation) (hops : ∀ op ∈ ops, op.Spares (a.startupFields o)) :
    ∀ file ∈ a.files, ∀ bm ∈ file.markedBindings, bm.2.treatment = some .compiled →
      ∀ receiver args value,
        let owner := file.startupId o.assemblyName
        let call : Operation := .call ⟨owner, .getter bm.1.name bm.1.type⟩ receiver args
        let moments := (Session.start b).moments (ops ++ [call])
        let result := ((Session.start b).after ops).perform call
        let s := result.2.state
        result.1 = .ok (some value) →
          (∀ t ∈ moments, ∃ before op, before ++ [op] <+: ops ++ [call] ∧
            ((Session.start b).after before).Passes op t.state) ∧
          ((∃ w earlier, s.Last w earlier ∧ w.field = (owner, bm.1.name) ∧ w.value = value ∧
            if w.fills then
              ∃ s', Statement.Ran moments owner (.init bm.1.name bm.1.value) (.ok value s') ∧
                s'.stored = earlier
            else
              bm.1.isMutable = true ∧
                b.AssignedBy (owner, bm.1.name) (Startup.setterBody owner bm.1)) ∨
          (value = .undefined ∧ (∀ w ∈ s.stored, w.field ≠ (owner, bm.1.name)) ∧
            ∃ done stopped rest fault s',
              file.markedBindings.flatMap Startup.bindingStatements = done ++ stopped :: rest ∧
              .init bm.1.name bm.1.value ∈ stopped :: rest ∧
              s.begunBy owner = done ++ [stopped] ∧
              s.filledBy owner = done.flatMap Statement.fields ∧
              stopped.Ran moments owner (.error fault s'))) := by
  intro file hfile bm hbm hcompiled receiver args value owner call moments result s hresult
  have hb := a.compiled_of_compile hcompile
  have hemitted : bm.2.treatment ≠ none := by simp [hcompiled]
  have hconfines (m : Machine) (hm : m.Runs b) : m.Confines (a.startupFields o) :=
    a.confines_of_compile hcompile hsources hm
  have hmoments : moments =
      (Session.start b).moments ops ++ (((Session.start b).after ops).momentsOf call ++ []) :=
    Session.moments_append _ ops [call]
  have hbefore : ((Session.start b).after ops).Records b moments (a.startupFields o) := by
    refine (Session.records_start b moments _).after hconfines (fun t ht => ?_) hops
    rw [hmoments]
    exact List.mem_append_left _ ht
  have hafter : result.2.Records b moments (a.startupFields o) := by
    refine hbefore.perform hconfines (fun t ht => ?_) trivial
    rw [hmoments, List.append_nil]
    exact List.mem_append_right _ ht
  obtain ⟨r, hkind, hbody, hlookup⟩ := hb.lookup_getter hfile hbm hemitted
  obtain ⟨state, hcall, hstate⟩ := Session.exists_of_run hresult
  obtain ⟨hstarted, hvalue⟩ := Startup.read_of_call hcompiled (hlookup _ hbefore.machine.build)
    hkind hbody hcall
  rw [← show s = state from hstate] at hstarted hvalue
  obtain ⟨hinitializer, -⟩ := hb.initializer hfile hbm hemitted hafter.machine.build
  have hinit : .init bm.1.name bm.1.value ∈ result.2.machine.initializer owner := by
    rw [hinitializer]
    exact List.mem_flatMap.mpr ⟨bm, hbm, Startup.init_mem_bindingStatements hcompiled⟩
  refine ⟨fun t ht => Session.exists_passes_of_mem_moments ht, ?_⟩
  rcases hafter.continues.shows_or_stopped hstarted hinit with
    ⟨w, earlier, hlast, hfield, hshown, haccount⟩ | ⟨hshown, hnone, hstopped⟩
  · have hw : value = w.value := by
      rw [hvalue, hshown]
      rfl
    subst hw
    rw [hafter.machine.build] at haccount
    exact .inl ⟨w, earlier, hlast, hfield, rfl,
      hb.origin_of_account hfile hbm hcompiled hsources hfield haccount⟩
  · rw [hshown] at hvalue
    rw [hinitializer] at hstopped
    exact .inr ⟨hvalue, hnone, hstopped⟩

/-- The getter of the last value. -/
def ratesScale : Operation :=
  .call ⟨ratesFile.startupId "Assembly", .getter "scale" Ty.int32⟩ none []

/-- There is a clock from the beginning, and the last value is set. -/
def clockOperations : List Operation := [
  .addHost "clock" fun _ _ store => (.ok (.int 5), store),
  .call ⟨ratesFile.startupId "Assembly", .setter "scale" Ty.int32⟩ none [.int 7]]

theorem ratesNow_shows_clock :
    let owner := ratesFile.startupId "Assembly"
    let session := Session.start (ratesAssembly.build {} {})
    let call : Operation := .call ⟨owner, .getter "now" Ty.int32⟩ none []
    let result := (session.after clockOperations).perform call
    ratesAssembly.compile {} {} = .ok (ratesAssembly.build {} {}) ∧
      result.1 = .ok (some (.int 5)) ∧
      ∃ w earlier s', result.2.state.Last w earlier ∧ w.field = (owner, "now") ∧
        w.value = .int 5 ∧ s'.stored = earlier ∧
        Statement.Ran (session.moments (clockOperations ++ [call])) owner
          (.init "now" (.apply (.global "clock") [])) (.ok (.int 5) s') := by
  dsimp only
  have hcompile := Assembly.compile_of_clean
    (show (ratesAssembly.build {} {}).hasErrors = false by decide +kernel)
  have hsources : ∀ e ∈ ratesAssembly.sources,
      e.Every (Expr.Spares (ratesAssembly.startupFields {})) := by
    have hall : ratesAssembly.sources = [.int 3, .apply (.global "clock") [], .int 2] := rfl
    simp [hall, Expr.int, Expr.Spares]
  have hops : ∀ op ∈ clockOperations, op.Spares (ratesAssembly.startupFields {}) := by
    simp [clockOperations, Operation.Spares, Host.KeepsClosures]
  have hresult : (((Session.start (ratesAssembly.build {} {})).after clockOperations).perform
      (.call ⟨ratesFile.startupId "Assembly", .getter "now" Ty.int32⟩ none [])).1 =
        .ok (some (.int 5)) := by decide +kernel
  refine ⟨hcompile, hresult, ?_⟩
  obtain ⟨-, hshown⟩ := getter_shows_last_stored_or_stopped ratesAssembly {} {} _ hcompile hsources
    clockOperations hops ratesFile (List.mem_singleton_self _)
    ({ name := "now", type := Ty.int32, value := .apply (.global "clock") [] }, _)
    (List.mem_cons_of_mem _ List.mem_cons_self) rfl none [] (.int 5) hresult
  rcases hshown with
    ⟨w, earlier, hlast, hfield, hvalue, hstored⟩ | ⟨hundefined, -⟩
  -- The value is immutable, so it was not assigned.
  · cases hfills : w.fills with
    | true =>
      rw [if_pos hfills] at hstored
      obtain ⟨s', hran, hearlier⟩ := hstored
      dsimp only at hlast
      exact ⟨w, earlier, s', hlast, hfield, hvalue, hearlier, hran⟩
    | false =>
      rw [if_neg (Bool.eq_false_iff.mp hfills)] at hstored
      exact absurd hstored.1 Bool.false_ne_true
  · cases hundefined

/-- Without a clock, the getter of the last value fails once and then finds nothing. -/
theorem ratesScale_empty_after_fault :
    let session := Session.start (ratesAssembly.build {} {})
    let failed := session.perform ratesScale
    let second := failed.2.perform ratesScale
    (ratesAssembly.build {} {}).hasErrors = false ∧
      failed.1 = .error (.unknownGlobal "clock") ∧ second.1 = .ok (some .undefined) ∧
      second.2.state.stored.map StaticWrite.field =
        [(ratesFile.startupId "Assembly", "base")] := by
  decide +kernel

end Memberwise
