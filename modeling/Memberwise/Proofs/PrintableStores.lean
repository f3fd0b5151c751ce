import Mathlib
import Memberwise.Proofs.KnownValues
import Memberwise.Proofs.PassedStates

/-!
# Texts at every moment of a session

Texts are made on the way through an evaluation: where strings are joined, and where a fault
names a value.  If hosts and callers work with values that there are, all states that a session
goes through are tidy.  So arrays never come back to themselves, and every value has a text
whenever one is made.
-/

namespace Memberwise

namespace Eval

variable {m : Machine} {around : Surroundings} {frame : Frame} {e : Expr} {s s' : Machine.State}

theorem Leads.of_ok {α : Type} {P : Store → α → Prop} {r : EStateM.Result Fault Machine.State α}
    {a : α} (h : Leads s P r) (hr : r = .ok a s') :
    s'.Tidy ∧ s.store.Grows s'.store ∧ P s'.store a := by
  subst hr
  cases h with
  | value hs hgrows ha => exact ⟨hs, hgrows, ha⟩

theorem Opens.tidies (hm : m.Builds) {enter : Frame → Expr → Eval Value} {inner : Surroundings}
    (h : Opens m s enter inner) : inner.Tidies := by
  cases h with
  | within left => exact tidies_surroundings hm (entersTidily_enterWithin hm left)
  | outermost _ => exact tidies_surroundings hm (entersTidily_enterWithin hm _)

theorem tidy_of_expr (hm : m.Builds) (haround : around.Tidies) (hs : s.Tidy)
    (hframe : frame.Within s.store.Knows) {v : Value} (h : expr m around frame e s = .ok v s') :
    s'.Tidy ∧ s.store.Grows s'.store ∧ s'.store.Knows v :=
  (evaluatesTidily hm haround e frame s hs hframe).of_ok h

theorem tidy_of_exprs (hm : m.Builds) (haround : around.Tidies) (hs : s.Tidy)
    (hframe : frame.Within s.store.Knows) {es : List Expr} {values : List Value}
    (h : exprs m around frame es s = .ok values s') :
    s'.Tidy ∧ s.store.Grows s'.store ∧ ∀ v ∈ values, s'.store.Knows v :=
  (leads_exprs (fun e _ => evaluatesTidily hm haround e) hs hframe).of_ok h

/-- All states that an evaluation goes through are tidy. -/
theorem Passes.tidy (hm : m.Builds) (h : Passes m around frame e s s') (haround : around.Tidies)
    (hs : s.Tidy) (hframe : frame.Within s.store.Knows) : s'.Tidy := by
  -- Where the evaluation goes on, the values of the frame are still in the store.
  induction h with
  | parts _ hfront => exact (tidy_of_exprs hm haround hs hframe hfront).1
  | inPart _ hfront _ ih =>
    obtain ⟨hs₁, hgrows, -⟩ := tidy_of_exprs hm haround hs hframe hfront
    exact ih haround hs₁ (hframe.grows hgrows)
  | inBranch _ hcondition _ _ ih =>
    obtain ⟨hs₁, hgrows, -⟩ := tidy_of_expr hm haround hs hframe hcondition
    exact ih haround hs₁ (hframe.grows hgrows)
  | inLet hvalue _ ih =>
    obtain ⟨hs₁, hgrows, hv⟩ := tidy_of_expr hm haround hs hframe hvalue
    exact ih haround hs₁ ((hframe.grows hgrows).bind _ hv)
  | inClosure _ hparts hclosure henter _ ih =>
    obtain ⟨hs₁, -, hvalues⟩ := tidy_of_exprs hm haround hs hframe hparts
    have hcaptured := hs₁.store.captured _ (Array.mem_of_getElem? hclosure)
    refine ih (henter.tidies hm) (hs₁.of_eq rfl rfl rfl) (hcaptured.bindAll _ ?_)
    exact (List.forall_mem_cons.mp hvalues).2
  | inMethod _ hparts _ hentered henter _ ih =>
    obtain ⟨hs₁, -, hvalues⟩ := tidy_of_exprs hm haround hs hframe hparts
    obtain ⟨htarget, hargs⟩ := List.forall_mem_append.mp hvalues
    refine ih (henter.tidies hm) (hs₁.of_eq rfl rfl rfl) (Method.within_frame? ?_ hargs hentered)
    exact fun v hv => htarget v (Option.mem_toList.mpr hv)
  | @inInitializer around frame owner s s₁ s' bound statement front back _ _ _ hfront _ ih =>
    have hinner := tidies_startWithin hm haround.enter bound
    have hmarked : Machine.State.Tidy { s with started := owner :: s.started } :=
      hs.of_eq rfl rfl rfl
    obtain ⟨hs₁, -, -⟩ := (leads_statements hm hinner owner front hmarked).of_ok hfront
    exact ih hinner (hs₁.of_eq rfl rfl rfl) Frame.within_empty

end Eval

/-! ## Sessions -/

theorem Machine.Builds.addHost {m : Machine} (hm : m.Builds) {name : String} {host : Host}
    (hhost : host.Builds) : (m.addHost name host).Builds := by
  intro name' host' h
  rw [Machine.addHost, Table.get?_insert] at h
  split at h
  · obtain rfl := Option.some.inj h
    exact hhost
  · exact hm name' host' h

theorem Machine.builds_new (b : Build) : (Machine.new b).Builds := by
  have hempty : (Machine.mk b {}).Builds := by
    intro name host h
    cases h
  exact (hempty.addHost (Host.builds_getOptional _)).addHost (Host.builds_setOptional _)

/-- An operation that works with values of a store and what is built from them. -/
def Operation.Builds (store : Store) : Operation → Prop
  | addHost _ host => host.Builds
  | changeStore f =>
    ∃ given hand, (∀ v ∈ given, store.Knows v) ∧ store.Builds given hand (f store)
  | call _ receiver args => (∀ v ∈ receiver, store.Knows v) ∧ ∀ v ∈ args, store.Knows v
  | readStatic _ _ | eval _ | runEntryPoint => True

namespace Session

/-- Every operation works with values that there are when it is performed. -/
def Builds (session : Session) : List Operation → Prop
  | [] => True
  | op :: ops => op.Builds session.state.store ∧ (session.perform op).2.Builds ops

/-- The state is tidy, and hosts will keep it so. -/
structure Tidy (session : Session) : Prop where
  machine : session.machine.Builds
  state : session.state.Tidy

variable {session : Session} {op : Operation}

theorem tidy_start (b : Build) : (Session.start b).Tidy :=
  ⟨Machine.builds_new b, Machine.State.tidy_empty⟩

theorem Tidy.surroundings (h : session.Tidy) :
    (Eval.surroundings session.machine (Eval.enter session.machine)).Tidies :=
  Eval.tidies_surroundings h.machine (Eval.entersTidily_enter h.machine)

theorem Tidy.passes (h : session.Tidy) (hop : op.Builds session.state.store) {s : Machine.State}
    (hs : session.Passes op s) : s.Tidy := by
  cases hs with
  | eval hs => exact hs.tidy h.machine h.surroundings h.state Frame.within_empty
  | runEntryPoint _ hs => exact hs.tidy h.machine h.surroundings h.state Frame.within_empty
  | call _ hframe henter hs =>
    refine hs.tidy h.machine (henter.tidies h.machine) (h.state.of_eq rfl rfl rfl) ?_
    exact Method.within_frame? hop.1 hop.2 hframe

/-- The outcome of an operation: what there was is there, and so is what is returned. -/
structure Leads (session : Session) (outcome : Except Fault (Option Value) × Session) : Prop where
  tidy : outcome.2.Tidy
  grows : session.state.store.Grows outcome.2.state.store
  knows : ∀ v, outcome.1 = .ok (some v) → outcome.2.state.store.Knows v

theorem Tidy.run (h : session.Tidy) {x : Eval (Option Value)}
    (hx : Eval.Leads session.state (fun store result => ∀ v ∈ result, store.Knows v)
      (x session.state)) : session.Leads (session.run x) := by
  unfold Session.run
  generalize x session.state = r at hx ⊢
  cases hx with
  | value hs hgrows ha => exact ⟨⟨h.machine, hs⟩, hgrows, fun v hv => ha v (Except.ok.inj hv)⟩
  | fault hs hgrows => exact ⟨⟨h.machine, hs⟩, hgrows, fun v hv => by cases hv⟩

theorem Tidy.run_some (h : session.Tidy) {x : Eval Value}
    (hx : Eval.Leads session.state Store.Knows (x session.state)) :
    session.Leads (session.run (some <$> x)) := by
  refine h.run ?_
  rw [map_eq_pure_bind]
  refine hx.bind fun value s hs _ hvalue => Eval.leads_pure hs fun v hv => ?_
  exact Option.mem_some.mp hv ▸ hvalue

theorem Tidy.perform (h : session.Tidy) (hop : op.Builds session.state.store) :
    session.Leads (session.perform op) := by
  have heval (e : Expr) :
      Eval.Leads session.state Store.Knows (session.machine.eval e session.state) :=
    Eval.evaluatesTidily h.machine h.surroundings e {} _ h.state Frame.within_empty
  cases op with
  | addHost name host =>
    exact ⟨⟨h.machine.addHost hop, h.state⟩, .refl _, fun v hv => by cases hv⟩
  | changeStore f =>
    obtain ⟨given, hand, hgiven, hbuilds⟩ := hop
    obtain ⟨htidy, hgrows, -⟩ := hbuilds.tidy h.state.store hgiven
    exact ⟨⟨h.machine, h.state.withStore htidy hgrows⟩, hgrows, fun v hv => by cases hv⟩
  | readStatic owner name =>
    refine ⟨h, .refl _, fun v hv => h.state.statics v ?_⟩
    exact Table.mem_values_of_get? (Except.ok.inj hv)
  | eval e => exact h.run_some (heval e)
  | call method receiver args =>
    exact h.run_some (Eval.leads_callMethod (Eval.entersTidily_enter h.machine) h.state method
      hop.1 hop.2)
  | runEntryPoint =>
    unfold Session.perform Machine.runEntryPoint
    cases session.machine.build.entryPoint with
    | none => exact h.run (Eval.leads_pure h.state fun v hv => absurd hv (Option.not_mem_none v))
    | some entry =>
      cases entry with
      | expr e => exact h.run_some (heval e)
      | init field value => exact h.run (Eval.leads_throw h.state _)

theorem Tidy.after (h : session.Tidy) {ops : List Operation} (hops : session.Builds ops) :
    (session.after ops).Tidy := by
  induction ops generalizing session with
  | nil => exact h
  | cons op ops ih => exact ih (h.perform hops.1).tidy hops.2

end Session

/--
Let hosts and callers work with values that there are and what they build from them.
Then arrays never come back to themselves and every value has one text, the text that
is computed: after any operations, when a host was called, and in every state that a
further operation goes through.  The values that it returns and those that there were
are there afterwards, so callers may go on with them.
-/
theorem arrays_never_contain_themselves (b : Build) (ops : List Operation)
    (hops : (Session.start b).Builds ops) :
    let session := (Session.start b).after ops
    session.state.store.Printable ∧ (∀ call ∈ session.state.calls, call.store.Printable) ∧
      ∀ op : Operation, op.Builds session.state.store →
        (∀ s, session.Passes op s → s.store.Printable) ∧
        ∀ v, (session.perform op).1 = .ok (some v) ∨ session.state.store.Knows v →
          (session.perform op).2.state.store.Knows v := by
  intro session
  have hsession : session.Tidy := (Session.tidy_start b).after hops
  refine ⟨hsession.state.store.printable, fun call hcall => ?_, fun op hop => ⟨?_, ?_⟩⟩
  · exact (hsession.state.calls call hcall).printable
  · exact fun s hs => (hsession.passes hop hs).store.printable
  · have hleads := hsession.perform hop
    rintro v (hv | hv)
    · exact hleads.knows v hv
    · exact hv.mono hleads.grows

/-- A host that returns an array of its arguments. -/
def wrapHost : Host := fun _ args store =>
  (.ok (store.newArray args).1, (store.newArray args).2)

theorem Host.builds_wrapHost : Host.Builds wrapHost := by
  intro calls args store
  refine ⟨args, _, fun v hv => .inl hv, .array .start fun v hv => hv, fun v hv => ?_⟩
  cases hv
  exact List.mem_cons_self

/-- An object is made an item of an array, and the array a field of the object. -/
def knotOperations : List Operation := [
  .addHost "wrap" wrapHost,
  .eval (.letIn "o" (.object []) (.seq [
    .setField (.var "o") "self" (.apply (.global "wrap") [.var "o"]),
    .array [.var "o", .field (.var "o") "self"]]))]

/-- An array of the number 1 and an array of the numbers 2 and 3 is joined to a string. -/
def joinedItems : Expr :=
  .letIn "a" (.array [.int 1, .array [.int 2, .int 3]])
    (.binary .add (.literal (.string "items ")) (.var "a"))

/-- The object comes back to itself through the array; the arrays do not. -/
theorem knot_is_printable :
    let session := (Session.start (.new {} {})).after knotOperations
    let store := session.state.store
    (Session.start (.new {} {})).Builds knotOperations ∧
      store.field? (.object 0) "self" = some (.array 0) ∧ store.items 0 = [.object 0] ∧
      store.Contains 1 0 ∧ ¬ Relation.TransGen store.Contains 1 1 ∧
      store.Displays (.array 1) "[object Object],[object Object]" ∧
      ∃ s, session.Passes (.eval joinedItems) s ∧ s.store.Displays (.array 3) "1,2,3" := by
  intro session store
  have hops : (Session.start (.new {} {})).Builds knotOperations :=
    ⟨Host.builds_wrapHost, trivial, trivial⟩
  obtain ⟨hprintable, -, hfurther⟩ := arrays_never_contain_themselves (.new {} {}) _ hops
  have hpasses := (hfurther (.eval joinedItems) trivial).1
  have hcontains : store.items 1 = [.object 0, .array 0] := rfl
  refine ⟨hops, rfl, rfl, ?_, hprintable.acyclic 1, (hprintable.displays _ _).mpr ?_, ?_⟩
  · simp [Store.Contains, hcontains]
  · decide +kernel
  · -- Both sides of the sum have been evaluated, and the strings are not joined yet.
    have hs : session.Passes (.eval joinedItems) _ :=
      .eval (.inLet rfl (.parts (show _ = [_, _] ++ [] from rfl) rfl))
    exact ⟨_, hs, ((hpasses _ hs).displays _ _).mpr (by decide +kernel)⟩

end Memberwise
