import Mathlib
import Memberwise.Proofs.Sessions
import Memberwise.Proofs.StartupCode

/-!
# Invariants of stores

Many invariants concern nothing but the store.  Such an invariant holds all through a session if
it survives what single forms of expressions do to the store, and if the hosts and the outside
world keep it.  Which forms of expressions there are in the code of a build may be restricted, so
an invariant of stores also says that functions have permitted bodies.
-/

namespace Memberwise

/-- All the code that a machine can run without being given any. -/
def Build.code (b : Build) : List Expr :=
  (b.classes.values.flatMap fun c => c.members.flatMap Member.code) ++
    b.entryPoint.toList.map Statement.code

/-- An invariant of stores that permitted forms of expressions keep. -/
structure Store.Lasting (P : Expr → Prop) (J : Store → Prop) : Prop where
  closure : ∀ store, J store → ∀ closure ∈ store.closures, closure.body.Every P
  change : ∀ store store', J store → Eval.StoreChange P store store' → J store'
  lambda : ∀ store params body frame, J store → (Expr.lambda params body).Every P →
    J (store.newClosure ⟨params, body, frame⟩).2

/-- A host that keeps an invariant of stores. -/
def Host.Respects (J : Store → Prop) (host : Host) : Prop :=
  ∀ calls args store, J store → J (host calls args store).2

/-- A machine with permitted code and hosts that keep an invariant of stores. -/
structure Machine.Guards (m : Machine) (P : Expr → Prop) (J : Store → Prop) : Prop where
  code : ∀ e ∈ m.build.code, e.Every P
  host : ∀ name host, m.hosts.get? name = some host → host.Respects J

/-- An operation that gives permitted code and keeps an invariant of stores. -/
def Operation.Respects (P : Expr → Prop) (J : Store → Prop) : Operation → Prop
  | addHost _ host => host.Respects J
  | changeStore f => ∀ store, J store → J (f store)
  | eval e => e.Every P
  | readStatic _ _ | call _ _ _ | runEntryPoint => True

variable {P : Expr → Prop} {J : Store → Prop} {m : Machine}

namespace Machine.Guards

theorem member (hm : m.Guards P J) {c : ClassRecord} (hc : c ∈ m.build.classes.values)
    {member : Member} (hmember : member ∈ c.members) {e : Expr} (he : e ∈ member.code) :
    e.Every P := by
  refine hm.code e (List.mem_append_left _ (List.mem_flatMap.mpr ⟨c, hc, ?_⟩))
  exact List.mem_flatMap.mpr ⟨member, hmember, he⟩

theorem method (hm : m.Guards P J) {ref : MethodRef} {r : Method} (h : m.lookup ref = .ok r) :
    r.body.Every P := by
  obtain ⟨c, hc, member, hmember, hbody⟩ := exists_of_lookup h
  exact hm.member hc hmember hbody

theorem initializer (hm : m.Guards P J) {owner : Identity} :
    ∀ statement ∈ m.initializer owner, statement.code.Every P := by
  intro statement hstatement
  obtain ⟨c, hc, statements, hmember, hmem⟩ := exists_of_initializer hstatement
  exact hm.member hc hmember (List.mem_map_of_mem hmem)

theorem entryPoint (hm : m.Guards P J) {statement : Statement}
    (h : m.build.entryPoint = some statement) : statement.code.Every P := by
  refine hm.code _ (List.mem_append_right _ (List.mem_map_of_mem ?_))
  rw [h]
  exact List.mem_singleton_self _

theorem addHost (hm : m.Guards P J) {host : Host} (hhost : host.Respects J) (name : String) :
    (m.addHost name host).Guards P J := by
  refine ⟨hm.code, fun name' host' h => ?_⟩
  rw [Machine.addHost, Table.get?_insert] at h
  split at h
  · obtain rfl := Option.some.inj h
    exact hhost
  · exact hm.host name' host' h

end Machine.Guards

theorem Machine.guards_new {b : Build} (hcode : ∀ e ∈ b.code, e.Every P)
    (hget : (Host.getOptional b.options.getOptional).Respects J)
    (hset : (Host.setOptional b.options.setOptional).Respects J) :
    (Machine.new b).Guards P J := by
  have hempty : (Machine.mk b {}).Guards P J := by
    refine ⟨hcode, fun name host h => ?_⟩
    cases h
  exact (hempty.addHost hget _).addHost hset _

/-! ## Evaluations -/

namespace Eval

variable {α : Type} {around : Surroundings} {enter : Frame → Expr → Eval Value}

/-- The evaluation keeps an invariant of stores, also if it stops with a fault. -/
def Respects (J : Store → Prop) (x : Eval α) : Prop :=
  Keeps (fun s => J s.store) (fun _ => True) x

/-- Permitted bodies that are entered keep an invariant of stores. -/
def EntersWithin (P : Expr → Prop) (J : Store → Prop) (enter : Frame → Expr → Eval Value) : Prop :=
  ∀ frame body, body.Every P → Respects J (enter frame body)

theorem respects_callMethod (hm : m.Guards P J) (henter : EntersWithin P J enter)
    (ref : MethodRef) (receiver : Option Value) (args : List Value) :
    Respects J (callMethod m enter ref receiver args) :=
  keeps_callMethod_of (fun _ => trivial) fun r frame hlookup _ =>
    henter frame r.body (hm.method hlookup)

theorem respects_applyValue (hJ : Store.Lasting P J) (hm : m.Guards P J)
    (henter : EntersWithin P J enter) (function : Value) (args : List Value) :
    Respects J (applyValue m enter function args) := by
  refine keeps_applyValue_of (fun _ => trivial) (fun name => ?_)
    fun s frame closure hclosure hs => ?_
  · refine keeps_callHost_of (fun _ => trivial) fun host s hhost hs => ?_
    exact hm.host name host hhost s.calls args s.store hs
  · exact henter frame closure.body (hJ.closure s.store hs closure hclosure) s hs

theorem respects_expr (hJ : Store.Lasting P J) (hm : m.Guards P J)
    (henter : EntersWithin P J around.enter) (hstart : ∀ owner, Respects J (around.start owner))
    (frame : Frame) {e : Expr} (he : e.Every P) : Respects J (expr m around frame e) := by
  have hupkeep : Upkeep (fun s => J s.store) (fun _ => True) m around frame.holes P := {
    fault := fun _ _ => trivial
    hole := fun _ _ _ => trivial
    error := fun _ _ => trivial
    store := fun s store hs hchange => hJ.change s.store store hs hchange
    lambda := fun s params body frame hs _ hbody => hJ.lambda s.store params body frame hs hbody
    static := fun _ _ _ _ _ hs _ => hs
    start := hstart
    call := respects_callMethod hm henter
    apply := respects_applyValue hJ hm henter }
  exact hupkeep.expr rfl he

theorem respects_statements (hJ : Store.Lasting P J) (hm : m.Guards P J)
    (henter : EntersWithin P J around.enter) (hstart : ∀ owner, Respects J (around.start owner))
    (owner : Identity) {l : List Statement} (hl : ∀ statement ∈ l, statement.code.Every P) :
    Respects J (statements m around owner l) := by
  induction l with
  | nil =>
    simp only [statements]
    exact keeps_pure ()
  | cons statement rest ih =>
    obtain ⟨hfirst, hrest⟩ := List.forall_mem_cons.mp hl
    have hrun := respects_expr hJ hm henter hstart {} hfirst
    cases statement with
    | expr e =>
      simp only [statements]
      refine Keeps.bind (keeps_modify fun _ hs => hs) fun _ => ?_
      exact Keeps.bind hrun fun _ => ih hrest
    | init field e =>
      simp only [statements]
      refine Keeps.bind (keeps_modify fun _ hs => hs) fun _ => ?_
      refine Keeps.bind hrun fun value => ?_
      exact Keeps.bind (keeps_modify fun _ hs => hs) fun _ => ih hrest

theorem respects_markStarted (owner : Identity) : Respects J (markStarted owner) := by
  intro s hs
  by_cases howner : owner ∈ s.started
  · rw [markStarted_of_mem howner]
    exact .value false hs
  · rw [markStarted_of_not_mem howner]
    exact .value true hs

theorem respects_startWithin (hJ : Store.Lasting P J) (hm : m.Guards P J)
    (henter : EntersWithin P J enter) (bound : Nat) (owner : Identity) :
    Respects J (startWithin m enter bound owner) := by
  induction bound generalizing owner with
  | zero =>
    simp only [startWithin]
    exact Keeps.bind (respects_markStarted owner) fun _ => keeps_pure ()
  | succ bound ih =>
    simp only [startWithin]
    refine Keeps.bind (respects_markStarted owner) fun fresh => ?_
    cases fresh with
    | true =>
      let around : Surroundings := ⟨enter, startWithin m enter bound⟩
      have henters : EntersWithin P J around.enter := henter
      exact respects_statements hJ hm henters ih owner hm.initializer
    | false => exact keeps_pure ()

theorem respects_body (hJ : Store.Lasting P J) (hm : m.Guards P J) (henter : EntersWithin P J enter)
    (frame : Frame) {e : Expr} (he : e.Every P) :
    Respects J (expr m (surroundings m enter) frame e) := by
  have henters : EntersWithin P J (surroundings m enter).enter := henter
  exact respects_expr hJ hm henters (respects_startWithin hJ hm henter m.build.classes.size)
    frame he

theorem entersWithin_enterWithin (hJ : Store.Lasting P J) (hm : m.Guards P J) (left : Nat) :
    EntersWithin P J (enterWithin m left) := by
  induction left with
  | zero => exact fun _ _ _ => keeps_throw trivial
  | succ left ih =>
    intro frame body hbody
    exact Keeps.nested (respects_body hJ hm ih frame hbody) fun _ _ hs => hs

theorem entersWithin_enter (hJ : Store.Lasting P J) (hm : m.Guards P J) :
    EntersWithin P J (Eval.enter m) := by
  intro frame body hbody
  refine keeps_get_bind fun s hs => ?_
  exact entersWithin_enterWithin hJ hm _ frame body hbody s hs

end Eval

/-! ## Sessions -/

namespace Session

variable {session : Session}

theorem guards_run {α : Type} {x : Eval α} (hm : session.machine.Guards P J)
    (hs : J session.state.store) (hx : Eval.Respects J x) :
    (session.run x).2.machine.Guards P J ∧ J (session.run x).2.state.store := by
  obtain ⟨state, hrun, hstate⟩ := run_of_endsIn (hx session.state hs)
  rw [hrun]
  exact ⟨hm, hstate⟩

/-- One operation keeps an invariant of stores. -/
theorem guards_perform (hJ : Store.Lasting P J) (hm : session.machine.Guards P J)
    (hs : J session.state.store) {op : Operation} (hop : op.Respects P J) :
    (session.perform op).2.machine.Guards P J ∧ J (session.perform op).2.state.store := by
  have henter := Eval.entersWithin_enter hJ hm
  have heval {e : Expr} (he : e.Every P) : Eval.Respects J (session.machine.eval e) :=
    Eval.respects_body hJ hm henter {} he
  cases op with
  | addHost name host => exact ⟨hm.addHost hop name, hs⟩
  | changeStore f => exact ⟨hm, hop session.state.store hs⟩
  | readStatic owner name => exact ⟨hm, hs⟩
  | eval e => exact guards_run hm hs ((heval hop).map some)
  | call ref receiver args =>
    exact guards_run hm hs ((Eval.respects_callMethod hm henter ref receiver args).map some)
  | runEntryPoint =>
    refine guards_run hm hs (Eval.keeps_runEntryPoint_of (fun _ => trivial) fun e hentry => ?_)
    exact heval (hm.entryPoint hentry)

/-- An invariant of stores holds all through a session. -/
theorem guards_after (hJ : Store.Lasting P J) (hm : session.machine.Guards P J)
    (hs : J session.state.store) {ops : List Operation} (hops : ∀ op ∈ ops, op.Respects P J) :
    J (session.after ops).state.store := by
  induction ops generalizing session with
  | nil => exact hs
  | cons op ops ih =>
    obtain ⟨hop, hlater⟩ := List.forall_mem_cons.mp hops
    obtain ⟨hnext, hstore⟩ := guards_perform hJ hm hs hop
    exact ih hnext hstore hlater

end Session

end Memberwise
