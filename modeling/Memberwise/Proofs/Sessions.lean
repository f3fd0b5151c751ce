import Mathlib
import Memberwise.Proofs.Initializers

/-!
# Sessions

A session is a machine with its state, on which operations are performed from
outside, one after the other.  An operation may fail; the session goes on from the
state in which the failure left it.

Between operations, objects and arrays may be made and changed from outside.
Functions are made by evaluation only.
-/

namespace Memberwise

/-- What can be asked of a machine from outside. -/
inductive Operation where
  | addHost (name : String) (host : Host)
  /-- Makes or changes what values refer to. -/
  | changeStore (f : Store → Store)
  | readStatic (owner : Identity) (name : String)
  | eval (e : Expr)
  | call (method : MethodRef) (receiver : Option Value) (args : List Value)
  | runEntryPoint

/-- A machine with its state. -/
structure Session where
  machine : Machine
  state : Machine.State := {}

namespace Session

/-- A session on a build, before any operation. -/
def start (b : Build) : Session := { machine := .new b }

/-- Runs an evaluation from the state of a session. -/
def run {α : Type} (session : Session) (x : Eval α) : Except Fault α × Session :=
  match x session.state with
  | .ok a state => (.ok a, { session with state })
  | .error fault state => (.error fault, { session with state })

/-- Performs an operation. -/
def perform (session : Session) : Operation → Except Fault (Option Value) × Session
  | .addHost name host =>
    (.ok none, { session with machine := session.machine.addHost name host })
  | .changeStore f =>
    (.ok none, { session with state := { session.state with store := f session.state.store } })
  | .readStatic owner name => (.ok (session.state.statics.get? (owner, name)), session)
  | .eval e => session.run (some <$> session.machine.eval e)
  | .call method receiver args => session.run (some <$> session.machine.call method receiver args)
  | .runEntryPoint => session.run session.machine.runEntryPoint

/-- The session after some operations. -/
def after (session : Session) (ops : List Operation) : Session :=
  ops.foldl (fun session op => (session.perform op).2) session

/-- The operations with their outcomes, in order. -/
def outcomes (session : Session) :
    List Operation → List (Operation × Except Fault (Option Value))
  | [] => []
  | op :: ops => (op, (session.perform op).1) :: (session.perform op).2.outcomes ops

end Session

/-- An operation that writes none of some static fields and makes no functions by itself. -/
def Operation.Spares (fields : List (Identity × String)) : Operation → Prop
  | addHost _ host => host.KeepsClosures
  | changeStore f => ∀ store, (f store).closures = store.closures
  | eval e => e.Every (Expr.Spares fields)
  | readStatic _ _ | call _ _ _ | runEntryPoint => True

/-! ## What operations keep -/

theorem Host.keepsClosures_getOptional (name : String) : (Host.getOptional name).KeepsClosures := by
  intro calls args store
  unfold Host.getOptional
  split <;> rfl

theorem Host.keepsClosures_setOptional (name : String) : (Host.setOptional name).KeepsClosures := by
  intro calls args store
  unfold Host.setOptional
  split
  · next target field value rest =>
    dsimp only
    by_cases hnull : value.isNullish
    · rw [if_pos hnull]
      cases target <;> rfl
    · rw [if_neg hnull]
      cases target <;> rfl
  · rfl

/-- A machine for a build whose hosts make and change no functions. -/
structure Machine.Runs (m : Machine) (b : Build) : Prop where
  build : m.build = b
  host : ∀ name host, m.hosts.get? name = some host → host.KeepsClosures

theorem Machine.Runs.addHost {m : Machine} {b : Build} (hm : m.Runs b) {name : String} {host : Host}
    (hhost : host.KeepsClosures) : (m.addHost name host).Runs b := by
  refine ⟨hm.build, fun name' host' h => ?_⟩
  rw [Machine.addHost, Table.get?_insert] at h
  split at h
  · obtain rfl := Option.some.inj h
    exact hhost
  · exact hm.host name' host' h

theorem Machine.runs_new (b : Build) : (Machine.new b).Runs b := by
  have hempty : (Machine.mk b {}).Runs b := by
    refine ⟨rfl, fun name host h => ?_⟩
    cases h
  exact (hempty.addHost (Host.keepsClosures_getOptional _)).addHost
    (Host.keepsClosures_setOptional _)

namespace Session

/-- A session on a build in an orderly state. -/
structure Sound (session : Session) (b : Build) (fields : List (Identity × String)) : Prop where
  machine : session.machine.Runs b
  orderly : session.machine.Orderly fields session.state

variable {b : Build} {fields : List (Identity × String)} {session : Session}

theorem sound_start (b : Build) (fields : List (Identity × String)) :
    (Session.start b).Sound b fields := by
  refine ⟨Machine.runs_new b, fun owner => ?_, fun owner _ => rfl, fun closure hclosure => ?_⟩
  · exact List.nil_prefix
  · exact absurd hclosure (Array.not_mem_empty closure)

/-- An evaluation changes the state of a session only. -/
theorem run_of_endsIn {α : Type} {I : Machine.State → Prop} {Q : Fault → Prop} {x : Eval α}
    (hx : Eval.EndsIn I Q (x session.state)) :
    ∃ state, (session.run x).2 = { session with state } ∧ I state := by
  unfold Session.run
  generalize x session.state = r at hx ⊢
  cases hx with
  | value a hstate => exact ⟨_, rfl, hstate⟩
  | fault _ hstate => exact ⟨_, rfl, hstate⟩

/-- An evaluation that settles leaves an orderly state that preserves the one before. -/
theorem Sound.run {α : Type} (hsound : session.Sound b fields) {x : Eval α}
    (hx : Eval.Settles session.machine fields x) :
    (session.run x).2.Sound b fields ∧
      session.state.Preserves fields (session.run x).2.state := by
  obtain ⟨state, hrun, hfollows⟩ :=
    run_of_endsIn (hx session.state session.state ⟨hsound.orderly, .refl _⟩)
  rw [hrun]
  exact ⟨⟨hsound.machine, hfollows.1⟩, hfollows.2⟩

/-- A value that was returned was reached together with the state of the session. -/
theorem exists_of_run {α : Type} {x : Eval α} {a : α}
    (h : (session.run (some <$> x)).1 = .ok (some a)) :
    ∃ state, x session.state = .ok a state ∧ (session.run (some <$> x)).2.state = state := by
  have hmap : (some <$> x) session.state = EStateM.map some x session.state := rfl
  unfold Session.run at h ⊢
  rw [hmap, EStateM.map] at h ⊢
  cases hx : x session.state with
  | ok a' state =>
    rw [hx] at h
    obtain rfl : a' = a := Option.some.inj (Except.ok.inj h)
    exact ⟨state, rfl, rfl⟩
  | error fault state =>
    rw [hx] at h
    cases h

variable (hsparing : ∀ m : Machine, m.Runs b → m.Sparing fields)

include hsparing

theorem Sound.perform (hsound : session.Sound b fields) {op : Operation} (hop : op.Spares fields) :
    (session.perform op).2.Sound b fields ∧
      session.state.Preserves fields (session.perform op).2.state := by
  have hm := hsparing session.machine hsound.machine
  have horderly := hsound.orderly
  cases op with
  | addHost name host =>
    refine ⟨⟨hsound.machine.addHost hop, ?_⟩, .refl _⟩
    exact ⟨horderly.begun, horderly.fresh, horderly.closures⟩
  | changeStore f =>
    refine ⟨⟨hsound.machine, horderly.begun, horderly.fresh, fun closure hclosure => ?_⟩,
      fun _ h => h, fun _ _ => rfl, fun _ _ _ _ => rfl⟩
    have hmem : closure ∈ (f session.state.store).closures := hclosure
    rw [hop session.state.store] at hmem
    exact horderly.closures closure hmem
  | readStatic owner name => exact ⟨hsound, .refl _⟩
  | eval e => exact hsound.run fun s₀ => (Machine.settles_eval hm hop s₀).map some
  | call method receiver args =>
    exact hsound.run fun s₀ => (Machine.settles_call hm method receiver args s₀).map some
  | runEntryPoint => exact hsound.run (Machine.settles_runEntryPoint hm)

theorem Sound.after (hsound : session.Sound b fields) {ops : List Operation}
    (hops : ∀ op ∈ ops, op.Spares fields) :
    (session.after ops).Sound b fields ∧
      session.state.Preserves fields (session.after ops).state := by
  induction ops generalizing session with
  | nil => exact ⟨hsound, .refl _⟩
  | cons op ops ih =>
    obtain ⟨hop, hlater⟩ := List.forall_mem_cons.mp hops
    obtain ⟨hnext, hpreserves⟩ := hsound.perform hsparing hop
    obtain ⟨hlast, hpreserves'⟩ := ih hnext hlater
    exact ⟨hlast, hpreserves.trans hpreserves'⟩

end Session

end Memberwise
