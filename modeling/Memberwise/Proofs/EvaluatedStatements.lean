import Mathlib
import Memberwise.Proofs.Sessions

/-!
# Statements that a session evaluates

The moments of an operation are the statements of static initializers whose expressions it
evaluates.  A machine also keeps a log of the statements that were begun.  The log grows by one
entry with each moment and in no other way, so each entry goes with exactly one evaluation of its
expression, and in the same order.
-/

namespace Memberwise

/-- The entry of the log that goes with a moment. -/
def Moment.entry (t : Moment) : Identity × Statement := (t.owner, t.statement)

/-- What the evaluation of the statement came to. -/
def Moment.outcome (t : Moment) : EStateM.Result Fault Machine.State Value :=
  t.machine.eval t.statement.code t.state

/-! ## Moments of operations -/

namespace Machine

/-- The moments of evaluating a body as one more call. -/
def enterMoments (m : Machine) (frame : Frame) (body : Expr) (s : State) : List Moment :=
  Eval.enterMoments m (maxDepth - s.depth) frame body s

/-- The moments of evaluating an expression without a receiver, arguments or variables. -/
def evalMoments (m : Machine) (e : Expr) (s : State) : List Moment :=
  Eval.moments m (Eval.surroundings m (Eval.enter m)) (Eval.tracer m (Eval.enter m) m.enterMoments)
    {} e s

end Machine

namespace Session

/-- The moments of an operation. -/
def momentsOf (session : Session) : Operation → List Moment
  | .eval e => session.machine.evalMoments e session.state
  | .call method receiver args =>
    Eval.callMoments session.machine session.machine.enterMoments method receiver args session.state
  | .runEntryPoint =>
    match session.machine.build.entryPoint with
    | some (.expr e) => session.machine.evalMoments e session.state
    | _ => []
  | .addHost _ _ | .changeStore _ | .readStatic _ _ => []

/-- The moments of some operations, in order. -/
def moments (session : Session) : List Operation → List Moment
  | [] => []
  | op :: ops => session.momentsOf op ++ (session.perform op).2.moments ops

theorem moments_append (session : Session) (ops more : List Operation) :
    session.moments (ops ++ more) = session.moments ops ++ (session.after ops).moments more := by
  induction ops generalizing session with
  | nil => rfl
  | cons op ops ih =>
    rw [List.cons_append, moments, ih, moments, List.append_assoc]
    rfl

end Session

/-! ## The log -/

namespace Eval

variable {α : Type} {m : Machine} {around : Surroundings} {below : Tracer}

/-- The log of begun statements has grown by the moments. -/
def Logs (s : Machine.State) (l : List Moment) (_ : Option Fault) (s' : Machine.State) : Prop :=
  s'.begun = (l.map Moment.entry).reverse ++ s.begun

theorem Logs.trans {s s₁ s₂ : Machine.State} {l l₁ : List Moment} {fault fault₁ : Option Fault}
    (h : Logs s l fault s₁) (h₁ : Logs s₁ l₁ fault₁ s₂) : Logs s (l ++ l₁) fault₁ s₂ := by
  unfold Logs at *
  rw [h₁, h, List.map_append, List.reverse_append, List.append_assoc]

/-- A statement that is begun adds its entry before its expression is evaluated. -/
theorem Tells.begin {owner : Identity} {statement : Statement} {s : Machine.State}
    {l : List Moment} {r : EStateM.Result Fault Machine.State α}
    (h : Tells Logs { s with begun := (owner, statement) :: s.begun } l r) :
    Tells Logs s (⟨m, owner, statement, { s with begun := (owner, statement) :: s.begun }⟩ :: l)
      r := by
  cases r with
  | ok a s' =>
    have hlog : s'.begun = _ := h
    show s'.begun = _
    simp [hlog, Moment.entry]
  | error fault s' =>
    have hlog : s'.begun = _ := h
    show s'.begun = _
    simp [hlog, Moment.entry]

section Around

variable
  (henter : ∀ frame body s, Tells Logs s (below.enter frame body s) (around.enter frame body s))
  (hstart : ∀ owner s, Tells Logs s (below.start owner s) (around.start owner s))

include henter hstart

theorem chronicle_logs (holes : List Value) :
    Chronicle Logs m around below holes (fun _ => True) where
  refl _ := rfl
  trans := Logs.trans
  fault _ _ _ := rfl
  hole _ _ _ _ := rfl
  error _ _ _ := rfl
  store _ _ _ := rfl
  lambda _ _ _ _ _ _ := rfl
  static _ _ _ _ _ _ := rfl
  start := hstart
  call _ _ _ s := tells_callMethod_of (fun _ => rfl) fun r frame _ _ => henter frame r.body s
  apply _ _ s := tells_applyValue_of (fun _ => rfl)
    (fun _ => tells_callHost_of (fun _ => rfl) fun _ _ _ => rfl)
    fun frame closure _ => henter frame closure.body s

theorem logs_expr (frame : Frame) (e : Expr) (s : Machine.State) :
    Tells Logs s (moments m around below frame e s) (expr m around frame e s) :=
  (chronicle_logs henter hstart frame.holes).expr rfl (fun _ _ => trivial) s

theorem logs_statements (owner : Identity) (statements : List Statement) (s : Machine.State) :
    Tells Logs s (statementMoments m around below owner statements s)
      (Eval.statements m around owner statements s) := by
  have hlogs := chronicle_logs (m := m) henter hstart []
  have hexpr := logs_expr (m := m) henter hstart {}
  induction statements generalizing s with
  | nil => rfl
  | cons statement rest ih =>
    -- The entry is made before the expression is evaluated.
    cases statement with
    | expr e =>
      refine Tells.begin ?_
      exact hlogs.bind (hexpr e _) fun _ s₁ _ => ih s₁
    | init field value =>
      refine Tells.begin ?_
      exact hlogs.bind (f := fun v => fillStatic owner field v >>= fun _ =>
        Eval.statements m around owner rest) (hexpr value _) fun v s₁ _ => ih _

end Around

section Enter

variable {enter : Frame → Expr → Eval Value} {trace : Frame → Expr → Machine.State → List Moment}
  (henter : ∀ frame body s, Tells Logs s (trace frame body s) (enter frame body s))

include henter

theorem logs_startWithin (bound : Nat) (owner : Identity) (s : Machine.State) :
    Tells Logs s (startMoments m enter trace bound owner s)
      (startWithin m enter bound owner s) := by
  induction bound generalizing owner s with
  | zero =>
    by_cases hstarted : owner ∈ s.started
    · rw [startWithin_of_mem 0 hstarted]
      rfl
    · show Tells Logs s [] (EStateM.map _ (markStarted owner) s)
      rw [EStateM.map, markStarted_of_not_mem hstarted]
      rfl
  | succ bound ih =>
    unfold startMoments
    by_cases hstarted : owner ∈ s.started
    · rw [if_pos hstarted, startWithin_of_mem (bound + 1) hstarted]
      rfl
    · rw [if_neg hstarted, startWithin, bind_of_ok (markStarted_of_not_mem hstarted)]
      show Tells Logs { s with started := owner :: s.started } _ _
      exact logs_statements henter ih owner (m.initializer owner) _

theorem logs_body (frame : Frame) (body : Expr) (s : Machine.State) :
    Tells Logs s (moments m (surroundings m enter) (tracer m enter trace) frame body s)
      (expr m (surroundings m enter) frame body s) :=
  logs_expr henter (logs_startWithin henter m.build.classes.size) frame body s

end Enter

theorem logs_enterWithin (left : Nat) (frame : Frame) (body : Expr) (s : Machine.State) :
    Tells Logs s (enterMoments m left frame body s) (enterWithin m left frame body s) := by
  induction left generalizing frame body s with
  | zero => rfl
  | succ left ih =>
    have hbody := logs_body (m := m) ih frame body { s with depth := s.depth + 1 }
    unfold enterMoments enterWithin nested
    cases hresult : expr m (surroundings m (enterWithin m left)) frame body
        { s with depth := s.depth + 1 } with
    | ok value s' =>
      rw [hresult] at hbody
      exact hbody
    | error fault s' =>
      rw [hresult] at hbody
      exact hbody

end Eval

namespace Machine

theorem logs_enter (m : Machine) (frame : Frame) (body : Expr) (s : State) :
    Eval.Tells Eval.Logs s (m.enterMoments frame body s) (Eval.enter m frame body s) :=
  Eval.logs_enterWithin (maxDepth - s.depth) frame body s

theorem logs_eval (m : Machine) (e : Expr) (s : State) :
    Eval.Tells Eval.Logs s (m.evalMoments e s) (m.eval e s) :=
  Eval.logs_body m.logs_enter {} e s

end Machine

namespace Session

theorem logs_run {α : Type} (session : Session) {x : Eval α} {l : List Moment}
    (hx : Eval.Tells Eval.Logs session.state l (x session.state)) :
    Eval.Logs session.state l none (session.run x).2.state := by
  unfold Session.run
  cases hresult : x session.state with
  | ok a s' =>
    rw [hresult] at hx
    exact hx
  | error fault s' =>
    rw [hresult] at hx
    exact hx

/-- What an operation evaluates goes to the log, statement by statement. -/
theorem logs_perform (session : Session) (op : Operation) :
    Eval.Logs session.state (session.momentsOf op) none (session.perform op).2.state := by
  have hmap {x : Eval Value} {l : List Moment}
      (hx : Eval.Tells Eval.Logs session.state l (x session.state)) :
      Eval.Logs session.state l none (session.run (some <$> x)).2.state := by
    refine session.logs_run ?_
    show Eval.Tells Eval.Logs session.state l (EStateM.map some x session.state)
    unfold EStateM.map
    cases hresult : x session.state with
    | ok a s' =>
      rw [hresult] at hx
      exact hx
    | error fault s' =>
      rw [hresult] at hx
      exact hx
  cases op with
  | addHost name host | changeStore f | readStatic owner name => rfl
  | eval e => exact hmap (session.machine.logs_eval e session.state)
  | call method receiver args =>
    exact hmap (Eval.tells_callMethod_of (fun _ => rfl) fun r frame _ _ =>
      session.machine.logs_enter frame r.body session.state)
  | runEntryPoint =>
    show Eval.Logs session.state (session.momentsOf .runEntryPoint) none
      (session.run session.machine.runEntryPoint).2.state
    unfold momentsOf Machine.runEntryPoint
    cases session.machine.build.entryPoint with
    | none => rfl
    | some statement =>
      cases statement with
      | expr e => exact hmap (session.machine.logs_eval e session.state)
      | init field value => rfl

/--
Each entry of the log goes with exactly one evaluation of its expression: the statements begun by
some operations are those that they evaluate, in the same order.
-/
theorem begun_after (session : Session) (ops : List Operation) :
    (session.after ops).state.begun =
      ((session.moments ops).map Moment.entry).reverse ++ session.state.begun := by
  have hlogs : Eval.Logs session.state (session.moments ops) none (session.after ops).state := by
    induction ops generalizing session with
    | nil => rfl
    | cons op ops ih => exact (session.logs_perform op).trans (ih _)
  exact hlogs

/-- Of each type, the statements that were begun are those that were evaluated. -/
theorem begunBy_after_start (b : Build) (ops : List Operation) (owner : Identity) :
    ((Session.start b).after ops).state.begunBy owner =
      (((Session.start b).moments ops).filter (·.owner = owner)).map Moment.statement := by
  have hstart : (Session.start b).state.begun = [] := rfl
  rw [Machine.State.begunBy, begun_after, hstart, List.append_nil, List.reverse_reverse,
    List.filter_map, List.map_map]
  rfl

end Session

end Memberwise
