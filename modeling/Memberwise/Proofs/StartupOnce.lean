import Mathlib
import Memberwise.Proofs.EvaluatedStatements
import Memberwise.Proofs.StartupCode

/-!
# Startup values are computed once

In every session on a build, the static initializer of a startup type begins its
statements in source order and none of them twice, whatever the operations are and
whether they fail.  The getter of an immutable value always returns the same.

The second part looks at the end of the session.  A getter that returned leaves its
type started, and from then on the field stays.  So all that the getter returned
is what it would read at the end.
-/

namespace Memberwise

/-! ## Calling a getter -/

section Calls

variable {m : Machine} {s s' : Machine.State} {value : Value}

/-- A template that returned a value was evaluated one call deeper. -/
theorem Machine.exists_of_call {ref : MethodRef} {r : Method} (hr : m.lookup ref = .ok r)
    (hkind : r.kind = .inline) {receiver : Option Value} {args : List Value}
    (h : m.call ref receiver args s = .ok value s') :
    ∃ left s'', Eval.expr m (Eval.surroundings m (Eval.enterWithin m left))
        { holes := receiver.toList ++ args } r.body { s with depth := s.depth + 1 } =
          .ok value s'' ∧ s' = { s'' with depth := s''.depth - 1 } := by
  rw [Machine.call_eq_enterWithin hr hkind] at h
  cases hleft : maxDepth - s.depth with
  | zero =>
    rw [hleft] at h
    cases h
  | succ left =>
    rw [hleft, Eval.enterWithin, Eval.nested] at h
    split at h
    · next s'' hrun =>
      cases h
      exact ⟨left, s'', hrun, rfl⟩
    · cases h

/-- A field that is read after its type was started. -/
theorem Eval.exists_of_read {around : Surroundings} {frame : Frame} {owner : Identity}
    {name : String}
    (h : expr m around frame (.seq [.start owner, .static owner name]) s = .ok value s') :
    around.start owner s = .ok () s' ∧ value = (s'.statics.get? (owner, name)).getD .undefined := by
  cases hstart : around.start owner s with
  | error fault s'' =>
    have hfault : expr m around frame (.seq [.start owner, .static owner name]) s =
        .error fault s'' := by
      simp only [expr, lastOf, bind, EStateM.bind, hstart]
    rw [hfault] at h
    cases h
  | ok _ s'' =>
    have hread : expr m around frame (.seq [.start owner, .static owner name]) s =
        .ok ((s''.statics.get? (owner, name)).getD .undefined) s'' := by
      simp only [expr, lastOf, bind, EStateM.bind, hstart]
      rfl
    rw [hread] at h
    cases h
    exact ⟨rfl, rfl⟩

end Calls

/-! ## What a getter reads -/

namespace Startup

/-- The body of the getter of a value. -/
def getterBody (owner : Identity) : Binding × Marking → Expr
  | (b, m) =>
    match m.treatment with
    | some (.constant value) => .literal value
    | _ => .seq [.start owner, .static owner b.name]

/-- What the getter of a value returns in a state in which it has nothing to start. -/
def shown (owner : Identity) (s : Machine.State) : Binding × Marking → Option Value
  | (b, m) =>
    match m.treatment with
    | some (.constant value) => some (.ofLiteral value)
    | _ =>
      if owner ∈ s.started then some ((s.statics.get? (owner, b.name)).getD .undefined) else none

variable {owner : Identity} {bm : Binding × Marking}

/-- A value that was asked for and accepted is compiled or a constant. -/
theorem Accepted.emitted (h : Accepted bm) (hemitted : bm.2.treatment ≠ none) :
    bm.2.treatment = some .compiled ∨ ∃ value, bm.2.treatment = some (.constant value) := by
  simp only [Accepted] at h
  split at h
  · next hnone => exact absurd hnone hemitted
  · next value hconstant => exact .inr ⟨value, hconstant⟩
  · next hcompiled => exact .inl hcompiled
  · cases h

theorem getter_mem (owner : Identity) (haccepted : Accepted bm) (hemitted : bm.2.treatment ≠ none) :
    getter bm.1 bm.2 (getterBody owner bm) ∈ bindingMembers owner bm := by
  rcases haccepted.emitted hemitted with hcompiled | ⟨value, hconstant⟩
  · simp [bindingMembers, getterBody, hcompiled, fieldMembers]
  · simp [bindingMembers, getterBody, hconstant]

variable {fields : List (Identity × String)} {s s' : Machine.State} {value : Value}

/-- What is shown once is shown from then on. -/
theorem shown_of_preserves (haccepted : Accepted bm) (hemitted : bm.2.treatment ≠ none)
    (hfield : bm.2.treatment = some .compiled → (owner, bm.1.name) ∈ fields)
    (hs : s.Preserves fields s') (h : shown owner s bm = some value) :
    shown owner s' bm = some value := by
  rcases haccepted.emitted hemitted with hcompiled | ⟨literal, hconstant⟩
  · by_cases hstarted : owner ∈ s.started
    · have hstatics := hs.statics owner hstarted bm.1.name (hfield hcompiled)
      simpa [shown, hcompiled, hstarted, hs.started owner hstarted, hstatics] using h
    · simp [shown, hcompiled, hstarted] at h
  · simpa [shown, hconstant] using h

/-- A getter that returns shows its value from then on. -/
theorem shown_of_call {m : Machine} (hm : m.Sparing fields) (hs : m.Orderly fields s)
    {ref : MethodRef} {r : Method} (hr : m.lookup ref = .ok r) (hkind : r.kind = .inline)
    (hbody : r.body = getterBody owner bm) {receiver : Option Value} {args : List Value}
    (h : m.call ref receiver args s = .ok value s') : shown owner s' bm = some value := by
  obtain ⟨left, s'', hrun, rfl⟩ := Machine.exists_of_call hr hkind h
  obtain ⟨b, marking⟩ := bm
  rw [hbody] at hrun
  simp only [getterBody] at hrun
  simp only [shown]
  split at hrun
  · cases hrun
    rfl
  · obtain ⟨hstart, hvalue⟩ := Eval.exists_of_read hrun
    have hdeeper : m.Orderly fields { s with depth := s.depth + 1 } :=
      ⟨hs.begun, hs.fresh, hs.closures⟩
    have hends := (Eval.enters_enterWithin hm left).marks hm m.build.classes.size owner
      ⟨hdeeper, .refl _⟩
    have hmarked : owner ∈ s''.started := by
      rw [show Eval.startWithin m _ m.build.classes.size owner _ = _ from hstart] at hends
      cases hends with
      | value _ h => exact h.2
    simp [hmarked, hvalue]

end Startup

namespace Session

variable {b : Build} {fields : List (Identity × String)} {session : Session} {owner : Identity}
  {bm : Binding × Marking} {ref : MethodRef} {r : Method} {value : Value}

variable (hsparing : ∀ m : Machine, m.Runs b → m.Sparing fields)
  (hlookup : ∀ m : Machine, m.Runs b → m.lookup ref = .ok r) (hkind : r.kind = .inline)
  (hbody : r.body = Startup.getterBody owner bm)

include hsparing hlookup hkind hbody

theorem Sound.shown_of_perform (hsound : session.Sound b fields) {receiver : Option Value}
    {args : List Value} (h : (session.perform (.call ref receiver args)).1 = .ok (some value)) :
    Startup.shown owner (session.perform (.call ref receiver args)).2.state bm = some value := by
  obtain ⟨state, hcall, hstate⟩ := exists_of_run h
  rw [show (session.perform (.call ref receiver args)).2.state = state from hstate]
  exact Startup.shown_of_call (hsparing _ hsound.machine) hsound.orderly
    (hlookup _ hsound.machine) hkind hbody hcall

/-- All that a getter returned is shown at the end. -/
theorem Sound.shown_of_mem_outcomes (hsound : session.Sound b fields)
    (hkept : ∀ s s' : Machine.State, s.Preserves fields s' → Startup.shown owner s bm = some value →
      Startup.shown owner s' bm = some value)
    {ops : List Operation} (hops : ∀ op ∈ ops, op.Spares fields) {receiver : Option Value}
    {args : List Value}
    (h : (.call ref receiver args, .ok (some value)) ∈ session.outcomes ops) :
    Startup.shown owner (session.after ops).state bm = some value := by
  induction ops generalizing session with
  | nil => cases h
  | cons op ops ih =>
    obtain ⟨hop, hlater⟩ := List.forall_mem_cons.mp hops
    have hnext := (hsound.perform hsparing hop).1
    rcases List.mem_cons.mp h with heq | hmem
    · obtain ⟨rfl, hresult⟩ := Prod.mk.inj heq
      have hshown := hsound.shown_of_perform hsparing hlookup hkind hbody hresult.symm
      exact hkept _ _ (hnext.after hsparing hlater).2 hshown
    · exact ih hnext hlater hmem

end Session

/-! ## Sessions on a build -/

namespace Assembly.Compiled

variable {a : Assembly} {o : Options} {b : Build} {file : SourceFile} {bm : Binding × Marking}

theorem accepted (hb : a.Compiled o b) (hfile : file ∈ a.files) (hbm : bm ∈ file.markedBindings) :
    Startup.Accepted bm := by
  obtain ⟨s, hs⟩ := hb.startups file hfile
  exact (SourceFile.startup_holds hs).2.accepted bm hbm

/-- The initializer of the startup type of a file fills the fields in source order. -/
theorem initializer (hb : a.Compiled o b) (hfile : file ∈ a.files)
    (hbm : bm ∈ file.markedBindings) (hemitted : bm.2.treatment ≠ none) {m : Machine}
    (hm : m.build = b) :
    m.initializer (file.startupId o.assemblyName) =
        file.markedBindings.flatMap Startup.bindingStatements ∧
      (file.markedBindings.flatMap Startup.bindingStatements).Nodup := by
  obtain ⟨s, c, -, hholds, hfinish, hentry⟩ :=
    hb.startup hfile hbm (Startup.getter_mem _ (hb.accepted hfile hbm) hemitted)
  refine ⟨?_, hholds.nodup_statements⟩
  rw [Machine.initializer, hm, hb.get?_of_mem hfile hentry]
  exact hholds.initializer hfinish

/-- The getter of a value that was asked for is found. -/
theorem lookup_getter (hb : a.Compiled o b) (hfile : file ∈ a.files)
    (hbm : bm ∈ file.markedBindings) (hemitted : bm.2.treatment ≠ none) :
    ∃ r : Method, r.kind = .inline ∧
      r.body = Startup.getterBody (file.startupId o.assemblyName) bm ∧
      ∀ m : Machine, m.build = b →
        m.lookup ⟨file.startupId o.assemblyName, .getter bm.1.name bm.1.type⟩ = .ok r := by
  have hmember := Startup.getter_mem (file.startupId o.assemblyName)
    (hb.accepted hfile hbm) hemitted
  obtain ⟨r, hkind, hbody, hr⟩ : ∃ r : Method, r.kind = .inline ∧
      r.body = Startup.getterBody (file.startupId o.assemblyName) bm ∧
      Startup.getter bm.1 bm.2 (Startup.getterBody (file.startupId o.assemblyName) bm) =
        .method (.getter bm.1.name bm.1.type) r := ⟨_, rfl, rfl, rfl⟩
  rw [hr] at hmember
  obtain ⟨s, c, hid, hholds, hfinish, hentry⟩ := hb.startup hfile hbm hmember
  rw [← hid] at hmember
  refine ⟨r, hkind, hbody, fun m hm => ?_⟩
  have hclass := hb.get?_of_mem hfile hentry
  exact Machine.lookup_method (hm ▸ hclass) (Signature.isConstructor_getter ..)
    (hholds.method? hfinish hbm hmember)

end Assembly.Compiled

/--
On a build that compiled without errors, let some operations be performed in any
order, and let no source body and no expression that is evaluated write the field of
an immutable top-level value.  Then for each file with an emitted value, the
statements that fill the fields of its values were begun in source order, as far as
they were begun at all, and none of them twice.  What was begun is what was evaluated: each
begun statement goes with exactly one evaluation of its expression.  All results of calls of
the getter of an immutable value are the same.
-/
theorem startup_values_computed_once (a : Assembly) (prior : Snapshot) (o : Options) (b : Build)
    (hcompile : a.compile prior o = .ok b)
    (hsources : ∀ e ∈ a.sources, e.Every (Expr.Spares (a.fixedFields o)))
    (ops : List Operation) (hops : ∀ op ∈ ops, op.Spares (a.fixedFields o)) :
    ∀ file ∈ a.files, ∀ bm ∈ file.markedBindings, bm.2.treatment ≠ none →
      let owner := file.startupId o.assemblyName
      let begun := ((Session.start b).after ops).state.begunBy owner
      begun <+: file.markedBindings.flatMap Startup.bindingStatements ∧ begun.Nodup ∧
        begun = (((Session.start b).moments ops).filter (·.owner = owner)).map Moment.statement ∧
        (bm.1.isMutable = false → ∀ receiver args value receiver' args' value',
          (.call ⟨owner, .getter bm.1.name bm.1.type⟩ receiver args, .ok (some value)) ∈
            (Session.start b).outcomes ops →
          (.call ⟨owner, .getter bm.1.name bm.1.type⟩ receiver' args', .ok (some value')) ∈
            (Session.start b).outcomes ops → value = value') := by
  intro file hfile bm hbm hemitted owner begun
  have hb := a.compiled_of_compile hcompile
  have hsparing (m : Machine) (hm : m.Runs b) : m.Sparing (a.fixedFields o) :=
    a.sparing_of_compile hcompile hsources hm.build hm.host
  have hsound := Session.sound_start b (a.fixedFields o)
  have hend := (hsound.after hsparing hops).1
  obtain ⟨hinitializer, hnodup⟩ := hb.initializer hfile hbm hemitted hend.machine.build
  have hbegun : begun <+: file.markedBindings.flatMap Startup.bindingStatements :=
    hinitializer ▸ hend.orderly.begun owner
  refine ⟨hbegun, hnodup.sublist hbegun.sublist, Session.begunBy_after_start b ops owner,
    fun himmutable => ?_⟩
  intro receiver args value receiver' args' value' hvalue hvalue'
  obtain ⟨r, hkind, hbody, hlookup⟩ := hb.lookup_getter hfile hbm hemitted
  have hfield (hcompiled : bm.2.treatment = some .compiled) :
      (owner, bm.1.name) ∈ a.fixedFields o := by
    refine List.mem_flatMap.mpr ⟨file, hfile, List.mem_flatMap.mpr ⟨bm, hbm, ?_⟩⟩
    exact Startup.mem_fixedField.mpr ⟨hcompiled, himmutable, rfl⟩
  -- Whatever the getter returned is what it shows at the end.
  have hshown {value : Value} {receiver : Option Value} {args : List Value}
      (h : (.call ⟨owner, .getter bm.1.name bm.1.type⟩ receiver args, .ok (some value)) ∈
        (Session.start b).outcomes ops) :
      Startup.shown owner ((Session.start b).after ops).state bm = some value := by
    refine hsound.shown_of_mem_outcomes hsparing (fun m hm => hlookup m hm.build) hkind hbody
      (fun s s' => ?_) hops h
    exact Startup.shown_of_preserves (hb.accepted hfile hbm) hemitted hfield
  exact Option.some.inj ((hshown hvalue).symm.trans (hshown hvalue'))

/-- A file with three values, the second of which needs the outside world. -/
def ratesFile : SourceFile where
  path := "rates"
  types := [{
    head := {
      name := "Rates", form := .ordinary, attributes := [.javaScript true]
      bindings := [
        { name := "base", type := Ty.int32, value := .int 3 },
        { name := "now", type := Ty.int32, value := .apply (.global "clock") [] },
        { name := "scale", type := Ty.int32, value := .int 2, isMutable := true }] }
    nested := [] }]

def ratesAssembly : Assembly where
  name := "Rates"
  files := [ratesFile]

/-- The getter of the first value. -/
def ratesBase : Operation :=
  .call ⟨ratesFile.startupId "Assembly", .getter "base" Ty.int32⟩ none []

/-- The first call fails, since there is no clock yet; the field of the last value is set. -/
def ratesOperations : List Operation := [
  ratesBase,
  .eval (.setStatic (ratesFile.startupId "Assembly") "scale" (.int 7)),
  ratesBase,
  .addHost "clock" fun _ _ store => (.ok (.int 1), store),
  .runEntryPoint,
  ratesBase]

theorem ratesBase_always_three :
    let session := Session.start (ratesAssembly.build {} {})
    let owner := ratesFile.startupId "Assembly"
    let begun := (session.after ratesOperations).state.begunBy owner
    ratesAssembly.compile {} {} = .ok (ratesAssembly.build {} {}) ∧
      begun <+: [.init "base" (.int 3), .init "now" (.apply (.global "clock") []),
        .init "scale" (.int 2)] ∧ begun.Nodup ∧
      begun = ((session.moments ratesOperations).filter (·.owner = owner)).map Moment.statement ∧
      ∀ value, (ratesBase, .ok (some value)) ∈ session.outcomes ratesOperations →
        value = .int 3 := by
  intro session owner begun
  have hcompile := Assembly.compile_of_clean
    (show (ratesAssembly.build {} {}).hasErrors = false by decide +kernel)
  have hfields : ratesAssembly.fixedFields {} =
    [(ratesFile.startupId "Assembly", "base"), (ratesFile.startupId "Assembly", "now")] := rfl
  have hsources : ∀ e ∈ ratesAssembly.sources,
      e.Every (Expr.Spares (ratesAssembly.fixedFields {})) := by
    have hall : ratesAssembly.sources = [.int 3, .apply (.global "clock") [], .int 2] := rfl
    simp [hall, Expr.int, Expr.Spares]
  have hops : ∀ op ∈ ratesOperations, op.Spares (ratesAssembly.fixedFields {}) := by
    simp [hfields, ratesOperations, ratesBase, Operation.Spares, Host.KeepsClosures, Expr.int,
      Expr.Spares]
  have hreturns : (ratesBase, .ok (some (.int 3))) ∈ session.outcomes ratesOperations := by
    have hthird : ((session.after (ratesOperations.take 2)).perform ratesBase).1 =
        .ok (some (.int 3)) := by decide +kernel
    exact .tail _ (.tail _ (List.mem_cons.mpr (.inl (congrArg (Prod.mk ratesBase) hthird.symm))))
  obtain ⟨hbegun, hnodup, hmoments, hagree⟩ := startup_values_computed_once ratesAssembly {} {} _
    hcompile hsources ratesOperations hops ratesFile (List.mem_singleton_self _)
    ({ name := "base", type := Ty.int32, value := .int 3 }, _) List.mem_cons_self (by decide)
  exact ⟨hcompile, hbegun, hnodup, hmoments,
    fun value hvalue => hagree rfl _ _ _ _ _ _ hvalue hreturns⟩

example : (((Session.start (ratesAssembly.build {} {})).after ratesOperations).state.begunBy
    (ratesFile.startupId "Assembly")).length = 2 := by decide +kernel

end Memberwise
