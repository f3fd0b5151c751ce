import Mathlib
import Memberwise.Proofs.Invariants
import Memberwise.Proofs.Runs

/-!
# Static initializers run once

A type is marked before its static initializer runs, so no evaluation that starts
after the mark can begin one of its statements.  What was begun is therefore always
an initial part of the initializer, and it stays as it is once the initializer has
been left, by its end or by a fault.

The same holds for static fields that only the initializer of their type writes.
The invariant relates the state at hand to an earlier one: for each type that was
started then, the statements begun and the fields are those of then.
-/

namespace Memberwise

namespace Machine.State

/-- The statements of the static initializer of a type that were begun, in order. -/
def begunBy (s : State) (owner : Identity) : List Statement :=
  (s.begun.reverse.filter fun entry => entry.1 = owner).map Prod.snd

theorem begunBy_begin (s : State) (owner type : Identity) (statement : Statement) :
    begunBy { s with begun := (owner, statement) :: s.begun } type =
      if owner = type then s.begunBy type ++ [statement] else s.begunBy type := by
  by_cases howner : owner = type
  · simp [begunBy, howner]
  · simp [begunBy, howner]

end Machine.State

/-- A form of expression that writes none of some static fields. -/
def Expr.Spares (fields : List (Identity × String)) : Expr → Prop
  | setStatic owner name _ => (owner, name) ∉ fields
  | _ => True

/-- A host that makes and changes no functions. -/
def Host.KeepsClosures (host : Host) : Prop :=
  ∀ calls args store, (host calls args store).2.closures = store.closures

/-- The code of a machine writes none of some static fields but in static initializers. -/
structure Machine.Sparing (m : Machine) (fields : List (Identity × String)) : Prop where
  method : ∀ ref r, m.lookup ref = .ok r → r.body.Every (Expr.Spares fields)
  initializer : ∀ owner, ∀ statement ∈ m.initializer owner,
    statement.code.Every (Expr.Spares fields)
  entryPoint : ∀ statement, m.build.entryPoint = some statement →
    statement.code.Every (Expr.Spares fields)
  host : ∀ name host, m.hosts.get? name = some host → host.KeepsClosures

/-- What was begun of each static initializer is an initial part of it. -/
structure Machine.Orderly (m : Machine) (fields : List (Identity × String)) (s : State) : Prop where
  begun : ∀ owner, s.begunBy owner <+: m.initializer owner
  fresh : ∀ owner, owner ∉ s.started → s.begunBy owner = []
  closures : ∀ closure ∈ s.store.closures, closure.body.Every (Expr.Spares fields)

/-- Types that were started are left as they were. -/
structure Machine.State.Preserves (fields : List (Identity × String)) (s₀ s : State) : Prop where
  started : ∀ owner ∈ s₀.started, owner ∈ s.started
  begun : ∀ owner ∈ s₀.started, s.begunBy owner = s₀.begunBy owner
  statics : ∀ owner ∈ s₀.started, ∀ name, (owner, name) ∈ fields →
    s.statics.get? (owner, name) = s₀.statics.get? (owner, name)

/-- An orderly state that preserves an earlier one. -/
def Machine.Follows (m : Machine) (fields : List (Identity × String)) (s₀ s : State) : Prop :=
  m.Orderly fields s ∧ s₀.Preserves fields s

variable {m : Machine} {fields : List (Identity × String)}

theorem Machine.State.Preserves.refl (s : State) : s.Preserves fields s :=
  ⟨fun _ h => h, fun _ _ => rfl, fun _ _ _ _ => rfl⟩

theorem Machine.State.Preserves.trans {s₁ s₂ s₃ : State} (h : s₁.Preserves fields s₂)
    (h' : s₂.Preserves fields s₃) : s₁.Preserves fields s₃ where
  started owner howner := h'.started owner (h.started owner howner)
  begun owner howner := (h'.begun owner (h.started owner howner)).trans (h.begun owner howner)
  statics owner howner name hname :=
    (h'.statics owner (h.started owner howner) name hname).trans
      (h.statics owner howner name hname)

theorem Machine.State.begunBy_congr {s s' : State} (h : s'.begun = s.begun) (owner : Identity) :
    s'.begunBy owner = s.begunBy owner := by
  rw [begunBy, begunBy, h]

/-- What else changes in a state does not matter. -/
theorem Machine.Follows.change {s₀ s s' : State} (h : m.Follows fields s₀ s)
    (hstarted : s'.started = s.started) (hbegun : s'.begun = s.begun)
    (hclosures : ∀ closure ∈ s'.store.closures, closure.body.Every (Expr.Spares fields))
    (hstatics : ∀ owner ∈ s₀.started, ∀ name, (owner, name) ∈ fields →
      s'.statics.get? (owner, name) = s.statics.get? (owner, name)) :
    m.Follows fields s₀ s' := by
  have hsame := State.begunBy_congr hbegun
  refine ⟨⟨fun owner => ?_, fun owner howner => ?_, hclosures⟩,
    fun owner howner => ?_, fun owner howner => ?_, fun owner howner name hname => ?_⟩
  · rw [hsame]
    exact h.1.begun owner
  · rw [hstarted] at howner
    rw [hsame]
    exact h.1.fresh owner howner
  · rw [hstarted]
    exact h.2.started owner howner
  · rw [hsame]
    exact h.2.begun owner howner
  · rw [hstatics owner howner name hname]
    exact h.2.statics owner howner name hname

/-- Marking a type as started does not matter either. -/
theorem Machine.Follows.mark {s₀ s : State} (h : m.Follows fields s₀ s) (owner : Identity) :
    m.Follows fields s₀ { s with started := owner :: s.started } := by
  refine ⟨⟨h.1.begun, fun type htype => ?_, h.1.closures⟩,
    fun type htype => ?_, h.2.begun, h.2.statics⟩
  · exact h.1.fresh type fun hmem => htype (List.mem_cons_of_mem owner hmem)
  · exact List.mem_cons_of_mem owner (h.2.started type htype)

theorem Machine.Follows.after {s₀ s₁ s : State} (h : m.Follows fields s₁ s)
    (h' : s₀.Preserves fields s₁) : m.Follows fields s₀ s :=
  ⟨h.1, h'.trans h.2⟩

/-! ## Surroundings -/

namespace Eval

variable {α : Type}

/-- From an orderly state, the evaluation ends in orderly ones that preserve it. -/
def Settles (m : Machine) (fields : List (Identity × String)) (x : Eval α) : Prop :=
  ∀ s₀, Keeps (m.Follows fields s₀) (fun _ => True) x

theorem keeps_callHost {s₀ : Machine.State} (hm : m.Sparing fields) (name : String)
    (args : List Value) :
    Keeps (m.Follows fields s₀) (fun _ => True) (callHost m name args) := by
  refine keeps_callHost_of (fun _ => trivial) fun host s hhost hs => ?_
  refine hs.change rfl rfl (fun closure hclosure => ?_) fun _ _ _ _ => rfl
  rw [hm.host name host hhost] at hclosure
  exact hs.1.closures closure hclosure

/-- How code that spares the fields is entered. -/
def Enters (m : Machine) (fields : List (Identity × String))
    (enter : Frame → Expr → Eval Value) : Prop :=
  ∀ frame body, body.Every (Expr.Spares fields) → Settles m fields (enter frame body)

theorem Enters.callMethod {enter : Frame → Expr → Eval Value} (henter : Enters m fields enter)
    (hm : m.Sparing fields) (ref : MethodRef) (receiver : Option Value) (args : List Value) :
    Settles m fields (callMethod m enter ref receiver args) := by
  intro s₀
  refine keeps_callMethod_of (fun _ => trivial) fun r frame hlookup _ => ?_
  exact henter frame r.body (hm.method ref r hlookup) s₀

theorem Enters.applyValue {enter : Frame → Expr → Eval Value} (henter : Enters m fields enter)
    (hm : m.Sparing fields) (function : Value) (args : List Value) :
    Settles m fields (applyValue m enter function args) := by
  intro s₀
  refine keeps_applyValue_of (fun _ => trivial) (fun name => keeps_callHost hm name args)
    fun s frame closure hclosure hs => ?_
  exact henter frame closure.body (hs.1.closures closure hclosure) s₀ s hs

/-- Code that spares the fields settles wherever entering and starting do. -/
theorem Enters.upkeep {around : Surroundings} (henter : Enters m fields around.enter)
    (hstart : ∀ owner, Settles m fields (around.start owner)) (hm : m.Sparing fields)
    (s₀ : Machine.State) (holes : List Value) :
    Upkeep (m.Follows fields s₀) (fun _ => True) m around holes (Expr.Spares fields) where
  fault _ _ := trivial
  hole _ _ _ := trivial
  error _ _ := trivial
  store s store hs hchange := by
    refine hs.change rfl rfl ?_ fun _ _ _ _ => rfl
    rw [hchange.closures]
    exact hs.1.closures
  lambda s params body frame hs _ hbody := by
    refine hs.change rfl rfl ?_ fun _ _ _ _ => rfl
    intro closure hclosure
    rcases Array.mem_push.mp hclosure with hclosure | rfl
    · exact hs.1.closures closure hclosure
    · exact hbody.child (by simp [Expr.children])
  static s owner name e value hs hspares := by
    refine hs.change rfl rfl hs.1.closures ?_
    intro owner' _ name' hname'
    have hne : (owner, name) ≠ (owner', name') := by
      rintro heq
      exact hspares (heq ▸ hname')
    rw [Machine.State.write, Table.get?_insert, if_neg hne]
  start owner := hstart owner s₀
  call ref receiver args := henter.callMethod hm ref receiver args s₀
  apply function args := henter.applyValue hm function args s₀

theorem Enters.expr {around : Surroundings} (henter : Enters m fields around.enter)
    (hstart : ∀ owner, Settles m fields (around.start owner)) (hm : m.Sparing fields)
    (frame : Frame) {e : Expr} (he : e.Every (Expr.Spares fields)) :
    Settles m fields (expr m around frame e) :=
  fun s₀ => (henter.upkeep hstart hm s₀ frame.holes).expr rfl he

end Eval

/-! ## Running an initializer -/

/-- While the initializer of a type runs: what was begun and what is left make up the whole. -/
structure Machine.Running (m : Machine) (fields : List (Identity × String)) (s₀ : State)
    (owner : Identity) (rest : List Statement) (s : State) : Prop where
  follows : m.Follows fields s₀ s
  started : owner ∈ s.started
  rest : s.begunBy owner ++ rest = m.initializer owner

namespace Machine.Running

variable {s₀ s s' : State} {owner : Identity} {rest : List Statement}

theorem begin (hs₀ : owner ∉ s₀.started) {statement : Statement}
    (h : m.Running fields s₀ owner (statement :: rest) s) :
    m.Running fields s₀ owner rest { s with begun := (owner, statement) :: s.begun } := by
  obtain ⟨⟨horderly, hpreserves⟩, hstarted, hrest⟩ := h
  have hbegun : (s.begunBy owner ++ [statement]) ++ rest = m.initializer owner := by
    rw [List.append_assoc]
    exact hrest
  -- Only what was begun of the owner grows, and the owner was not started in the earlier state.
  refine ⟨⟨⟨fun type => ?_, fun type htype => ?_, horderly.closures⟩,
    hpreserves.started, fun type htype => ?_, hpreserves.statics⟩, hstarted, ?_⟩
  · rw [State.begunBy_begin]
    split
    · next howner => exact howner ▸ ⟨rest, hbegun⟩
    · exact horderly.begun type
  · have hne : owner ≠ type := fun howner => htype (howner ▸ hstarted)
    rw [State.begunBy_begin, if_neg hne]
    exact horderly.fresh type htype
  · have hne : owner ≠ type := fun howner => hs₀ (howner ▸ htype)
    rw [State.begunBy_begin, if_neg hne]
    exact hpreserves.begun type htype
  · rw [State.begunBy_begin, if_pos rfl]
    exact hbegun

theorem after (h : m.Running fields s₀ owner rest s) (h' : m.Follows fields s s') :
    m.Running fields s₀ owner rest s' := by
  refine ⟨h'.after h.follows.2, h'.2.started owner h.started, ?_⟩
  rw [h'.2.begun owner h.started]
  exact h.rest

theorem fill (hs₀ : owner ∉ s₀.started) (h : m.Running fields s₀ owner rest s)
    (field : String) (value : Value) :
    m.Running fields s₀ owner rest (s.write ⟨owner, field, value, true⟩) := by
  refine ⟨h.follows.change rfl rfl h.follows.1.closures ?_, h.started, h.rest⟩
  intro type htype name _
  have hne : (owner, field) ≠ (type, name) := by
    intro heq
    obtain ⟨rfl, -⟩ := Prod.mk.inj heq
    exact hs₀ htype
  rw [State.write, Table.get?_insert, if_neg hne]

end Machine.Running

namespace Eval

variable {around : Surroundings}

theorem Enters.statements (henter : Enters m fields around.enter)
    (hstart : ∀ owner, Settles m fields (around.start owner)) (hm : m.Sparing fields)
    {s₀ : Machine.State} {owner : Identity} (hs₀ : owner ∉ s₀.started) {rest : List Statement}
    (hcode : ∀ statement ∈ rest, statement.code.Every (Expr.Spares fields)) {s : Machine.State}
    (hs : m.Running fields s₀ owner rest s) :
    EndsIn (fun s' => ∃ left, m.Running fields s₀ owner left s') (fun _ => True)
      (statements m around owner rest s) := by
  induction rest generalizing s with
  | nil => exact .value () ⟨[], hs⟩
  | cons statement rest ih =>
    obtain ⟨hfirst, hlater⟩ := List.forall_mem_cons.mp hcode
    have hbegun := hs.begin hs₀
    have hrun := henter.expr hstart hm {} hfirst _ _ ⟨hbegun.follows.1, .refl _⟩
    -- A fault leaves the initializer where it stands.
    have hfault (s' : Machine.State) (hs' : m.Follows fields _ s') :
        ∃ left, m.Running fields s₀ owner left s' := ⟨rest, hbegun.after hs'⟩
    cases statement with
    | expr e =>
      exact hrun.bind hfault fun _ s' hs' => ih hlater (hbegun.after hs')
    | init field e =>
      refine hrun.bind (f := fun value => fillStatic owner field value >>= fun _ =>
        Eval.statements m around owner rest) hfault fun value s' hs' => ?_
      exact ih hlater ((hbegun.after hs').fill hs₀ field value)

theorem markStarted_of_mem {s : Machine.State} {owner : Identity} (h : owner ∈ s.started) :
    markStarted owner s = .ok false s := by
  show (if owner ∈ s.started then pure false else _ : Eval Bool) s = _
  rw [if_pos h]
  rfl

theorem markStarted_of_not_mem {s : Machine.State} {owner : Identity} (h : owner ∉ s.started) :
    markStarted owner s = .ok true { s with started := owner :: s.started } := by
  show (if owner ∈ s.started then pure false else _ : Eval Bool) s = _
  rw [if_neg h]
  rfl

/-- The initializer of a type that has been started does not run again. -/
theorem startWithin_of_mem {enter : Frame → Expr → Eval Value} (bound : Nat) {owner : Identity}
    {s : Machine.State} (h : owner ∈ s.started) : startWithin m enter bound owner s = .ok () s := by
  cases bound with
  | zero =>
    show EStateM.map _ (markStarted owner) s = _
    rw [EStateM.map, markStarted_of_mem h]
  | succ bound =>
    rw [startWithin, bind_of_ok (markStarted_of_mem h)]
    rfl

/-- Starting a type settles, and the type counts as started from then on. -/
theorem Enters.marks {enter : Frame → Expr → Eval Value} (henter : Enters m fields enter)
    (hm : m.Sparing fields) (bound : Nat) (owner : Identity) {s₀ s : Machine.State}
    (hs : m.Follows fields s₀ s) :
    EndsIn (fun s' => m.Follows fields s₀ s' ∧ owner ∈ s'.started) (fun _ => True)
      (startWithin m enter bound owner s) := by
  induction bound generalizing owner s₀ s with
  | zero =>
    -- No initializer runs at this bound, but the type is marked all the same.
    by_cases hstarted : owner ∈ s.started
    · rw [startWithin_of_mem 0 hstarted]
      exact .value () ⟨hs, hstarted⟩
    · show EndsIn _ _ (EStateM.map _ (markStarted owner) s)
      rw [EStateM.map, markStarted_of_not_mem hstarted]
      exact .value _ ⟨hs.mark owner, List.mem_cons_self⟩
  | succ bound ih =>
    by_cases hstarted : owner ∈ s.started
    · rw [startWithin_of_mem (bound + 1) hstarted]
      exact .value () ⟨hs, hstarted⟩
    -- The type is new in the earlier state too, so the invariant says nothing about it yet.
    · have hs₀ : owner ∉ s₀.started := fun howner => hstarted (hs.2.started owner howner)
      have hstart (type : Identity) : Settles m fields (Eval.startWithin m enter bound type) :=
        fun _ _ hs => (ih type hs).imp fun _ h => h.1
      have hrest : s.begunBy owner ++ m.initializer owner = m.initializer owner := by
        rw [hs.1.fresh owner hstarted, List.nil_append]
      let around : Surroundings := ⟨enter, Eval.startWithin m enter bound⟩
      have henters : Enters m fields around.enter := henter
      have hrun := henters.statements hstart hm hs₀ (hm.initializer owner)
        ⟨hs.mark owner, List.mem_cons_self, hrest⟩
      rw [Eval.startWithin, bind_of_ok (markStarted_of_not_mem hstarted)]
      exact hrun.imp fun _ ⟨_, hrunning⟩ => ⟨hrunning.follows, hrunning.started⟩

theorem Enters.startWithin {enter : Frame → Expr → Eval Value} (henter : Enters m fields enter)
    (hm : m.Sparing fields) (bound : Nat) (owner : Identity) :
    Settles m fields (startWithin m enter bound owner) :=
  fun _ _ hs => (henter.marks hm bound owner hs).imp fun _ h => h.1

theorem Enters.body {enter : Frame → Expr → Eval Value} (henter : Enters m fields enter)
    (hm : m.Sparing fields) (frame : Frame) {e : Expr} (he : e.Every (Expr.Spares fields)) :
    Settles m fields (Eval.expr m (surroundings m enter) frame e) := by
  have henters : Enters m fields (surroundings m enter).enter := henter
  exact henters.expr (fun owner => henter.startWithin hm m.build.classes.size owner) hm frame he

theorem enters_enterWithin (hm : m.Sparing fields) (left : Nat) :
    Enters m fields (enterWithin m left) := by
  induction left with
  | zero => exact fun frame body hbody s₀ => keeps_throw trivial
  | succ left ih =>
    intro frame body hbody s₀
    refine Keeps.nested (ih.body hm frame hbody s₀) fun s depth hs => ?_
    exact hs.change rfl rfl hs.1.closures fun _ _ _ _ => rfl

theorem enters_enter (hm : m.Sparing fields) : Enters m fields (enter m) := by
  intro frame body hbody s₀
  refine keeps_get_bind fun s hs => ?_
  exact enters_enterWithin hm _ frame body hbody s₀ s hs

end Eval

namespace Machine

theorem settles_eval (hm : m.Sparing fields) {e : Expr} (he : e.Every (Expr.Spares fields)) :
    Eval.Settles m fields (m.eval e) :=
  (Eval.enters_enter hm).body hm {} he

theorem settles_call (hm : m.Sparing fields) (ref : MethodRef) (receiver : Option Value)
    (args : List Value) : Eval.Settles m fields (m.call ref receiver args) :=
  (Eval.enters_enter hm).callMethod hm ref receiver args

theorem settles_runEntryPoint (hm : m.Sparing fields) :
    Eval.Settles m fields m.runEntryPoint := by
  intro s₀
  refine Eval.keeps_runEntryPoint_of (fun _ => trivial) fun e hentry => ?_
  exact settles_eval hm (hm.entryPoint _ hentry) s₀

end Machine

end Memberwise
