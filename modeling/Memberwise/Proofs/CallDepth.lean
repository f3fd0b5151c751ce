import Mathlib
import Memberwise.Proofs.Sessions

/-!
# Calls in progress

Entering a body counts one more call in progress, and leaving it takes the call off
again, with a value as well as with a fault.  So every evaluation ends with as many
calls in progress as it began with, and types that were started before stay started.
-/

namespace Memberwise

/-! ## What evaluations restore -/

/-- As many calls are in progress as in an earlier state, and what was started has stayed so. -/
structure Machine.State.Returns (s₀ s : State) : Prop where
  depth : s.depth = s₀.depth
  started : s₀.started <:+ s.started

namespace Machine.State.Returns

variable {s s₁ s₂ : State}

theorem refl (s : State) : s.Returns s := ⟨rfl, List.suffix_rfl⟩

theorem trans (h : s.Returns s₁) (h' : s₁.Returns s₂) : s.Returns s₂ :=
  ⟨h'.depth.trans h.depth, h.started.trans h'.started⟩

/-- Only the number of calls and the started types matter. -/
theorem change (h : s.Returns s₁) (hdepth : s₂.depth = s₁.depth)
    (hstarted : s₂.started = s₁.started) : s.Returns s₂ :=
  ⟨hdepth.trans h.depth, hstarted ▸ h.started⟩

theorem mark (h : s.Returns s₁) (owner : Identity) :
    s.Returns { s₁ with started := owner :: s₁.started } :=
  ⟨h.depth, h.started.trans (List.suffix_cons owner s₁.started)⟩

end Machine.State.Returns

namespace Eval

variable {α β : Type} {m : Machine} {around : Surroundings}

/-- An evaluation returns to the number of calls it began with, and starts types only. -/
def Restores (x : Eval α) : Prop :=
  ∀ s₀ : Machine.State, Keeps s₀.Returns (fun _ => True) x

theorem restores_pure (a : α) : Restores (pure a) := fun _ => keeps_pure a

theorem restores_throw (fault : Fault) : Restores (throw fault : Eval α) :=
  fun _ => keeps_throw trivial

theorem Restores.bind {x : Eval α} {f : α → Eval β} (hx : Restores x)
    (hf : ∀ a, Restores (f a)) : Restores (x >>= f) :=
  fun s₀ => (hx s₀).bind fun a => hf a s₀

theorem restores_modify {f : Machine.State → Machine.State}
    (hdepth : ∀ s, (f s).depth = s.depth) (hstarted : ∀ s, (f s).started = s.started) :
    Restores (modify f) :=
  fun _ => keeps_modify fun s hs => hs.change (hdepth s) (hstarted s)

theorem restores_fillStatic (owner : Identity) (name : String) (value : Value) :
    Restores (fillStatic owner name value) :=
  restores_modify (fun _ => rfl) fun _ => rfl

theorem restores_beginStatement (owner : Identity) (statement : Statement) :
    Restores (beginStatement owner statement) :=
  restores_modify (fun _ => rfl) fun _ => rfl

theorem restores_markStarted (owner : Identity) : Restores (markStarted owner) := by
  intro s₀ s hs
  by_cases howner : owner ∈ s.started
  · rw [markStarted_of_mem howner]
    exact .value false hs
  · rw [markStarted_of_not_mem howner]
    exact .value true (hs.mark owner)

/-- The call that was counted is taken off again. -/
theorem Restores.nested {x : Eval α} (hx : Restores x) : Restores (nested x) := by
  intro s₀ s hs
  refine (hx { s with depth := s.depth + 1 } _ (.refl _)).nested fun t ht => ?_
  refine hs.trans ⟨?_, ht.started⟩
  simp [ht.depth]

theorem restores_callHost (name : String) (args : List Value) :
    Restores (callHost m name args) :=
  fun _ => keeps_callHost_of (fun _ => trivial) fun _ _ _ hs => hs.change rfl rfl

section Enter

variable {enter : Frame → Expr → Eval Value}

theorem restores_callMethod (henter : ∀ frame body, Restores (enter frame body))
    (method : MethodRef) (receiver : Option Value) (args : List Value) :
    Restores (callMethod m enter method receiver args) :=
  fun s₀ => keeps_callMethod_of (fun _ => trivial) fun r frame _ _ => henter frame r.body s₀

theorem restores_applyValue (henter : ∀ frame body, Restores (enter frame body))
    (function : Value) (args : List Value) : Restores (applyValue m enter function args) :=
  fun s₀ => keeps_applyValue_of (fun _ => trivial) (fun name => restores_callHost name args s₀)
    fun s frame closure _ hs => henter frame closure.body s₀ s hs

end Enter

theorem upkeep_returns (henter : ∀ frame body, Restores (around.enter frame body))
    (hstart : ∀ owner, Restores (around.start owner)) (s₀ : Machine.State) (holes : List Value) :
    Upkeep s₀.Returns (fun _ => True) m around holes (fun _ => True) where
  fault _ _ := trivial
  hole _ _ _ := trivial
  error _ _ := trivial
  store _ _ hs _ := hs.change rfl rfl
  lambda _ _ _ _ hs _ _ := hs.change rfl rfl
  static _ _ _ _ _ hs _ := hs.change rfl rfl
  start owner := hstart owner s₀
  call method receiver args := restores_callMethod henter method receiver args s₀
  apply function args := restores_applyValue henter function args s₀

theorem restores_expr (henter : ∀ frame body, Restores (around.enter frame body))
    (hstart : ∀ owner, Restores (around.start owner)) (frame : Frame) (e : Expr) :
    Restores (expr m around frame e) :=
  fun s₀ => (upkeep_returns henter hstart s₀ frame.holes).expr rfl fun _ _ => trivial

theorem restores_statements (henter : ∀ frame body, Restores (around.enter frame body))
    (hstart : ∀ owner, Restores (around.start owner)) (owner : Identity)
    (statements : List Statement) : Restores (Eval.statements m around owner statements) := by
  induction statements with
  | nil =>
    simp only [Eval.statements]
    exact restores_pure ()
  | cons statement rest ih =>
    cases statement with
    | expr e =>
      simp only [Eval.statements]
      refine (restores_beginStatement owner _).bind fun _ => ?_
      exact (restores_expr henter hstart {} e).bind fun _ => ih
    | init field value =>
      simp only [Eval.statements]
      refine (restores_beginStatement owner _).bind fun _ => ?_
      refine (restores_expr henter hstart {} value).bind fun v => ?_
      exact (restores_fillStatic owner field v).bind fun _ => ih

theorem restores_startWithin {enter : Frame → Expr → Eval Value}
    (henter : ∀ frame body, Restores (enter frame body)) (bound : Nat) (owner : Identity) :
    Restores (startWithin m enter bound owner) := by
  induction bound generalizing owner with
  | zero =>
    simp only [startWithin]
    exact (restores_markStarted owner).bind fun _ => restores_pure ()
  | succ bound ih =>
    simp only [startWithin]
    refine (restores_markStarted owner).bind fun fresh => ?_
    cases fresh with
    | true => exact restores_statements henter ih owner (m.initializer owner)
    | false => exact restores_pure ()

theorem restores_enterWithin (left : Nat) (frame : Frame) (body : Expr) :
    Restores (enterWithin m left frame body) := by
  induction left generalizing frame body with
  | zero => exact restores_throw _
  | succ left ih =>
    refine Restores.nested (restores_expr ih (fun owner => ?_) frame body)
    exact restores_startWithin ih m.build.classes.size owner

theorem restores_enter (frame : Frame) (body : Expr) : Restores (enter m frame body) :=
  fun s₀ => keeps_get_bind fun s hs => restores_enterWithin _ frame body s₀ s hs

end Eval

/-! ## Invocations -/

/-- What a machine can be asked to evaluate. -/
inductive Invocation where
  | expr (frame : Frame) (e : Expr)
  | call (method : MethodRef) (receiver : Option Value) (args : List Value)
  | apply (function : Value) (args : List Value)
  | start (owner : Identity)

/-- Performs an invocation. -/
def Machine.invoke (m : Machine) : Invocation → Eval Value
  | .expr frame e => m.evalIn frame e
  | .call method receiver args => m.call method receiver args
  | .apply function args => m.apply function args
  | .start owner => do
    m.start owner
    return .undefined

namespace Machine

theorem restores_start (m : Machine) (owner : Identity) : Eval.Restores (m.start owner) :=
  Eval.restores_startWithin Eval.restores_enter m.build.classes.size owner

theorem restores_invoke (m : Machine) (invocation : Invocation) :
    Eval.Restores (m.invoke invocation) := by
  cases invocation with
  | expr frame e => exact Eval.restores_expr Eval.restores_enter m.restores_start frame e
  | call method receiver args =>
    exact Eval.restores_callMethod Eval.restores_enter method receiver args
  | apply function args => exact Eval.restores_applyValue Eval.restores_enter function args
  | start owner => exact (m.restores_start owner).bind fun _ => Eval.restores_pure Value.undefined

theorem restores_runEntryPoint (m : Machine) : Eval.Restores m.runEntryPoint :=
  fun s₀ => Eval.keeps_runEntryPoint_of (fun _ => trivial) fun e _ =>
    m.restores_invoke (.expr {} e) s₀

end Machine

namespace Session

theorem returns_run {α : Type} (session : Session) {x : Eval α} (hx : Eval.Restores x) :
    session.state.Returns (session.run x).2.state := by
  obtain ⟨state, hrun, hstate⟩ := run_of_endsIn (hx session.state session.state (.refl _))
  rw [hrun]
  exact hstate

theorem returns_perform (session : Session) (op : Operation) :
    session.state.Returns (session.perform op).2.state := by
  cases op with
  | addHost name host | readStatic owner name => exact .refl _
  | changeStore f => exact (Machine.State.Returns.refl _).change rfl rfl
  | eval e =>
    exact session.returns_run fun s₀ =>
      (session.machine.restores_invoke (.expr {} e) s₀).map some
  | call method receiver args =>
    exact session.returns_run fun s₀ =>
      (session.machine.restores_invoke (.call method receiver args) s₀).map some
  | runEntryPoint => exact session.returns_run session.machine.restores_runEntryPoint

theorem returns_after (session : Session) (ops : List Operation) :
    session.state.Returns (session.after ops).state := by
  induction ops generalizing session with
  | nil => exact .refl _
  | cons op ops ih => exact (session.returns_perform op).trans (ih _)

end Session

end Memberwise
