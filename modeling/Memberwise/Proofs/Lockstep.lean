import Mathlib
import Memberwise.Eval.Run
import Memberwise.Proofs.Subterms

/-!
# Evaluations in lockstep

Two evaluations of one machine run in lockstep when each step of one is matched
by the same step of the other.  Their states may differ only in the functions
that the stores hold, and these correspond to each other one by one.  Values
refer to functions by position, so values on both sides are simply equal.

What may differ in the code is left to a relation between expressions in frames.
A coupling is such a relation that every form of expression respects; coupled
bodies then run in lockstep, through calls, functions and static initializers.
-/

namespace Memberwise

/-! ## Stores and states that are alike -/

/-- Stores that differ at most in corresponding functions. -/
structure Store.Alike (C : Closure → Closure → Prop) (s s' : Store) : Prop where
  objects : s.objects = s'.objects
  arrays : s.arrays = s'.arrays
  closures : List.Forall₂ C s.closures.toList s'.closures.toList

/-- Calls of one host with the same arguments at stores that are alike. -/
structure HostCall.Alike (C : Closure → Closure → Prop) (c c' : HostCall) : Prop where
  host : c.host = c'.host
  args : c.args = c'.args
  store : c.store.Alike C c'.store

/-- States that differ at most in corresponding functions. -/
structure Machine.State.Alike (C : Closure → Closure → Prop) (s s' : Machine.State) : Prop where
  store : s.store.Alike C s'.store
  statics : s.statics = s'.statics
  stored : s.stored = s'.stored
  started : s.started = s'.started
  begun : s.begun = s'.begun
  depth : s.depth = s'.depth
  calls : List.Forall₂ (HostCall.Alike C) s.calls s'.calls

/-- A host that does not tell corresponding functions apart. -/
def Host.Blind (C : Closure → Closure → Prop) (host : Host) : Prop :=
  ∀ calls calls' args store store',
    List.Forall₂ (HostCall.Alike C) calls calls' → store.Alike C store' →
      (host calls args store).1 = (host calls' args store').1 ∧
        (host calls args store).2.Alike C (host calls' args store').2

/-- All hosts of a machine are blind. -/
def Machine.HostsBlind (C : Closure → Closure → Prop) (m : Machine) : Prop :=
  ∀ name host, m.hosts.get? name = some host → host.Blind C

variable {C : Closure → Closure → Prop}

namespace Store.Alike

variable {s s' : Store}

theorem refl (hC : ∀ c, C c c) (s : Store) : s.Alike C s :=
  ⟨rfl, rfl, List.forall₂_same.mpr fun c _ => hC c⟩

theorem fields (h : s.Alike C s') (ref : Nat) : s.fields ref = s'.fields ref := by
  simp only [Store.fields, h.objects]

theorem items (h : s.Alike C s') (ref : Nat) : s.items ref = s'.items ref := by
  simp only [Store.items, h.arrays]

theorem field? (h : s.Alike C s') (v : Value) (name : String) :
    s.field? v name = s'.field? v name := by
  cases v <;> simp only [Store.field?, h.fields]

theorem textWithin (h : s.Alike C s') (nesting : Nat) (v : Value) :
    s.textWithin nesting v = s'.textWithin nesting v := by
  induction nesting generalizing v with
  | zero => cases v <;> simp [Store.textWithin]
  | succ nesting ih => cases v <;> simp [Store.textWithin, h.items, ih]

theorem text (h : s.Alike C s') (v : Value) : s.text v = s'.text v := by
  simp only [Store.text, h.arrays, h.textWithin]

theorem binary (h : s.Alike C s') (op : BinaryOp) (a b : Value) :
    s.binary op a b = s'.binary op a b := by
  have hjoin : s.join? a b = s'.join? a b := by
    cases a <;> cases b <;> simp [Store.join?, h.text]
  simp only [Store.binary, Store.binary?, hjoin, h.text]

theorem unary (h : s.Alike C s') (op : UnaryOp) (a : Value) : s.unary op a = s'.unary op a := by
  cases op <;> cases a <;> simp [Store.unary, h.text]

theorem read (h : s.Alike C s') (v : Value) (name : String) : s.read v name = s'.read v name := by
  cases v <;> simp [Store.read, Store.read.refused, h.field?, h.items, h.text]

theorem index (h : s.Alike C s') (v key : Value) : s.index v key = s'.index v key := by
  cases v <;> cases key <;> simp [Store.index, h.field?, h.items, h.text]

end Store.Alike

/-- The same fault, or stores that are alike. -/
inductive Store.AlikeResults (C : Closure → Closure → Prop) :
    Except Fault Store → Except Fault Store → Prop
  | store {s s' : Store} (h : s.Alike C s') : AlikeResults C (.ok s) (.ok s')
  | fault (fault : Fault) : AlikeResults C (.error fault) (.error fault)

namespace Store.Alike

variable {s s' : Store}

theorem mapFields (h : s.Alike C s') (ref : Nat)
    (f : Table String Value → Table String Value) :
    (s.mapFields ref f).Alike C (s'.mapFields ref f) :=
  ⟨by simp only [Store.mapFields, h.objects], h.arrays, h.closures⟩

theorem write (h : s.Alike C s') (v : Value) (name : String) (value : Value) :
    AlikeResults C (s.write v name value) (s'.write v name value) := by
  cases v with
  | object ref => exact .store (h.mapFields ref _)
  | _ =>
    simp only [Store.write, h.text]
    exact .fault _

theorem remove (h : s.Alike C s') (v : Value) (name : String) :
    AlikeResults C (s.remove v name) (s'.remove v name) := by
  cases v with
  | object ref => exact .store (h.mapFields ref _)
  | _ =>
    simp only [Store.remove, h.text]
    exact .fault _

theorem newObject (h : s.Alike C s') (fields : List (String × Value)) :
    (s.newObject fields).1 = (s'.newObject fields).1 ∧
      (s.newObject fields).2.Alike C (s'.newObject fields).2 := by
  constructor
  · simp only [Store.newObject, h.objects]
  · exact ⟨by simp only [Store.newObject, h.objects], h.arrays, h.closures⟩

theorem newArray (h : s.Alike C s') (items : List Value) :
    (s.newArray items).1 = (s'.newArray items).1 ∧
      (s.newArray items).2.Alike C (s'.newArray items).2 := by
  constructor
  · simp only [Store.newArray, h.arrays]
  · exact ⟨h.objects, by simp only [Store.newArray, h.arrays], h.closures⟩

theorem closures_size (h : s.Alike C s') : s.closures.size = s'.closures.size := by
  simpa using h.closures.length_eq

theorem newClosure (h : s.Alike C s') {c c' : Closure} (hc : C c c') :
    (s.newClosure c).1 = (s'.newClosure c').1 ∧
      (s.newClosure c).2.Alike C (s'.newClosure c').2 := by
  constructor
  · simp only [Store.newClosure, h.closures_size]
  · refine ⟨h.objects, h.arrays, ?_⟩
    simp only [Store.newClosure, Array.toList_push]
    exact List.rel_append h.closures (List.Forall₂.cons hc List.Forall₂.nil)

/-- The functions at one position correspond, or there is none on either side. -/
theorem closure_cases (h : s.Alike C s') (ref : Nat) :
    (s.closures[ref]? = none ∧ s'.closures[ref]? = none) ∨
      ∃ c c', s.closures[ref]? = some c ∧ s'.closures[ref]? = some c' ∧ C c c' := by
  have hsize := h.closures_size
  by_cases href : ref < s.closures.size
  · have href' : ref < s'.closures.size := hsize ▸ href
    refine Or.inr ⟨s.closures[ref], s'.closures[ref], by simp [href], by simp [href'], ?_⟩
    have hget := h.closures.get (i := ref) (by simpa using href) (by simpa using href')
    simpa using hget
  · refine Or.inl ⟨by simpa using href, ?_⟩
    simpa [← hsize] using href

end Store.Alike

theorem Machine.State.Alike.refl (hC : ∀ c, C c c) (s : Machine.State) : s.Alike C s where
  store := Store.Alike.refl hC s.store
  statics := rfl
  stored := rfl
  started := rfl
  begun := rfl
  depth := rfl
  calls := List.forall₂_same.mpr fun call _ => ⟨rfl, rfl, Store.Alike.refl hC call.store⟩

/-! ## The primitives of optional slots -/

theorem Host.getOptional_blind (name : String) : (Host.getOptional name).Blind C := by
  intro calls calls' args store store' _ hstore
  unfold Host.getOptional
  split
  · exact ⟨by rw [hstore.field?], hstore⟩
  · exact ⟨rfl, hstore⟩

theorem Host.setOptional_blind (name : String) : (Host.setOptional name).Blind C := by
  intro calls calls' args store store' _ hstore
  unfold Host.setOptional
  split
  case h_2 => exact ⟨rfl, hstore⟩
  case h_1 target field value _ =>
    have hresults : Store.AlikeResults C
        (if value.isNullish then store.remove target field else store.write target field value)
        (if value.isNullish then store'.remove target field
          else store'.write target field value) := by
      cases value.isNullish with
      | true => exact hstore.remove target field
      | false => exact hstore.write target field value
    dsimp only
    generalize (if value.isNullish then store.remove target field
      else store.write target field value) = r at hresults ⊢
    generalize (if value.isNullish then store'.remove target field
      else store'.write target field value) = r' at hresults ⊢
    cases hresults with
    | store h => exact ⟨rfl, h⟩
    | fault fault => exact ⟨rfl, hstore⟩

theorem Machine.HostsBlind.addHost {m : Machine} (hm : m.HostsBlind C) {host : Host}
    (hhost : host.Blind C) (name : String) : (m.addHost name host).HostsBlind C := by
  intro name' host' hget
  simp only [Machine.addHost, Table.get?_insert] at hget
  split at hget
  · obtain rfl := Option.some.inj hget
    exact hhost
  · exact hm name' host' hget

/-- The hosts that every machine brings are blind. -/
theorem Machine.new_hostsBlind (build : Build) : (Machine.new build).HostsBlind C := by
  have hnone : Machine.HostsBlind C { build } := by
    intro name host hget
    simp [Table.get?, Table.lookupIn] at hget
  exact (hnone.addHost (Host.getOptional_blind _) _).addHost (Host.setOptional_blind _) _

/-! ## Outcomes -/

namespace Eval

/-- The same value or the same fault, in states that are alike. -/
inductive SameOutcome (C : Closure → Closure → Prop) {α : Type} :
    EStateM.Result Fault Machine.State α → EStateM.Result Fault Machine.State α → Prop
  | value (a : α) {s s' : Machine.State} (h : s.Alike C s') : SameOutcome C (.ok a s) (.ok a s')
  | fault (fault : Fault) {s s' : Machine.State} (h : s.Alike C s') :
      SameOutcome C (.error fault s) (.error fault s')

/-- From states that are alike, both evaluations come to the same outcome. -/
def Lockstep (C : Closure → Closure → Prop) {α : Type} (x x' : Eval α) : Prop :=
  ∀ s s', s.Alike C s' → SameOutcome C (x s) (x' s')

variable {α β : Type}

theorem lockstep_pure (a : α) : Lockstep C (pure a) (pure a) := fun _ _ h => .value a h

theorem lockstep_throw (fault : Fault) :
    Lockstep C (throw fault : Eval α) (throw fault) := fun _ _ h => .fault fault h

theorem lockstep_lift (r : Except Fault α) : Lockstep C (lift r) (lift r) := by
  cases r with
  | ok a => exact lockstep_pure a
  | error fault => exact lockstep_throw fault

theorem Lockstep.bind {x x' : Eval α} {f f' : α → Eval β}
    (hx : Lockstep C x x') (hf : ∀ a, Lockstep C (f a) (f' a)) :
    Lockstep C (x >>= f) (x' >>= f') := by
  intro s s' hs
  have houtcome := hx s s' hs
  show SameOutcome C (EStateM.bind x f s) (EStateM.bind x' f' s')
  unfold EStateM.bind
  generalize x s = r at houtcome ⊢
  generalize x' s' = r' at houtcome ⊢
  cases houtcome with
  | value a ht => exact hf a _ _ ht
  | fault fault ht => exact .fault fault ht

/-- An evaluation that only looks at the state, at a part that is the same on both sides. -/
theorem lockstep_get_bind {f f' : Machine.State → Eval β}
    (hf : ∀ s s', s.Alike C s' → SameOutcome C (f s s) (f' s' s')) :
    Lockstep C (get >>= f) (get >>= f') := fun s s' h => hf s s' h

theorem lockstep_ofStore {f : Store → Except Fault α}
    (hf : ∀ s s', s.Alike C s' → f s = f s') :
    Lockstep C (ofStore f) (ofStore f) := by
  refine lockstep_get_bind fun s s' h => ?_
  rw [hf s.store s'.store h.store]
  exact lockstep_lift (f s'.store) s s' h

theorem lockstep_alloc {f f' : Store → Value × Store}
    (hf : ∀ s s', s.Alike C s' → (f s).1 = (f' s').1 ∧ (f s).2.Alike C (f' s').2) :
    Lockstep C (alloc f) (alloc f') := by
  intro s s' h
  obtain ⟨hvalue, hstore⟩ := hf s.store s'.store h.store
  show SameOutcome C (.ok (f s.store).1 _) (.ok (f' s'.store).1 _)
  rw [hvalue]
  exact .value _ { h with store := hstore }

theorem ofStore_apply (f : Store → Except Fault α) (s : Machine.State) :
    ofStore f s = lift (f s.store) s := rfl

/-- A store that is computed from the one at hand and takes its place. -/
theorem lockstep_ofStore_setStore {f : Store → Except Fault Store} {k k' : Eval β}
    (hf : ∀ s s', s.Alike C s' → Store.AlikeResults C (f s) (f s')) (hk : Lockstep C k k') :
    Lockstep C (ofStore f >>= fun store => setStore store >>= fun _ => k)
      (ofStore f >>= fun store => setStore store >>= fun _ => k') := by
  intro s s' h
  have hresults := hf s.store s'.store h.store
  show SameOutcome C (EStateM.bind (ofStore f) _ s) (EStateM.bind (ofStore f) _ s')
  unfold EStateM.bind
  rw [ofStore_apply, ofStore_apply]
  generalize f s.store = r at hresults ⊢
  generalize f s'.store = r' at hresults ⊢
  cases hresults with
  | store hstore => exact hk _ _ { h with store := hstore }
  | fault fault => exact .fault fault h

theorem lockstep_write (w : StaticWrite) :
    Lockstep C (modify fun s => s.write w) (modify fun s => s.write w) := by
  intro s s' h
  refine .value () { h with statics := ?_, stored := ?_ }
  · simp only [Machine.State.write, h.statics]
  · simp only [Machine.State.write, h.stored]

theorem lockstep_setStatic (owner : Identity) (name : String) (value : Value) :
    Lockstep C (setStatic owner name value) (setStatic owner name value) :=
  lockstep_write _

theorem lockstep_fillStatic (owner : Identity) (name : String) (value : Value) :
    Lockstep C (fillStatic owner name value) (fillStatic owner name value) :=
  lockstep_write _

theorem lockstep_beginStatement (owner : Identity) (statement : Statement) :
    Lockstep C (beginStatement owner statement) (beginStatement owner statement) := by
  intro s s' h
  exact .value () { h with begun := by simp only [h.begun] }

theorem lockstep_markStarted (owner : Identity) :
    Lockstep C (markStarted owner) (markStarted owner) := by
  refine lockstep_get_bind fun s s' h => ?_
  by_cases howner : owner ∈ s.started
  · have howner' : owner ∈ s'.started := h.started ▸ howner
    rw [if_pos howner, if_pos howner']
    exact .value false h
  · have howner' : owner ∉ s'.started := h.started ▸ howner
    rw [if_neg howner, if_neg howner']
    exact .value true { h with started := by rw [h.started] }

theorem Lockstep.nested {x x' : Eval α} (hx : Lockstep C x x') :
    Lockstep C (nested x) (nested x') := by
  intro s s' h
  have houtcome := hx { s with depth := s.depth + 1 } { s' with depth := s'.depth + 1 }
    { h with depth := by rw [h.depth] }
  unfold Eval.nested
  generalize x { s with depth := s.depth + 1 } = r at houtcome ⊢
  generalize x' { s' with depth := s'.depth + 1 } = r' at houtcome ⊢
  cases houtcome with
  | value a ht => exact .value a { ht with depth := by rw [ht.depth] }
  | fault fault ht => exact .fault fault { ht with depth := by rw [ht.depth] }

theorem lockstep_callHost {m : Machine} (hm : m.HostsBlind C) (name : String) (args : List Value) :
    Lockstep C (callHost m name args) (callHost m name args) := by
  unfold callHost
  cases hhost : m.hosts.get? name with
  | none => exact lockstep_throw _
  | some host =>
    refine lockstep_get_bind fun s s' h => ?_
    obtain ⟨hresult, hstore⟩ :=
      hm name host hhost s.calls s'.calls args s.store s'.store h.calls h.store
    have hcalls : List.Forall₂ (HostCall.Alike C)
        (⟨name, args, s.store⟩ :: s.calls) (⟨name, args, s'.store⟩ :: s'.calls) :=
      List.Forall₂.cons ⟨rfl, rfl, h.store⟩ h.calls
    have hlift : Lockstep C (lift (host s.calls args s.store).1)
        (lift (host s'.calls args s'.store).1) := by
      rw [hresult]
      exact lockstep_lift _
    exact hlift _ _ { h with store := hstore, calls := hcalls }

/-! ## Coupled code -/

/-- The forms that two coupled expressions share, by the form of the first. -/
def Parallel (C : Closure → Closure → Prop) (T : Frame → Expr → Frame → Expr → Prop)
    (f f' : Frame) (e' : Expr) : Expr → Prop
  | .letIn name value body => ∃ value' body', e' = .letIn name value' body' ∧
      T f value f' value' ∧ ∀ v, T (f.bind name v) body (f'.bind name v) body'
  | .lambda params body => ∃ body', e' = .lambda params body' ∧
      C ⟨params, body, f⟩ ⟨params, body', f'⟩
  | .apply function args => ∃ function' args', e' = .apply function' args' ∧
      T f function f' function' ∧ List.Forall₂ (fun a a' => T f a f' a') args args'
  | .call none method args => ∃ args', e' = .call none method args' ∧
      List.Forall₂ (fun a a' => T f a f' a') args args'
  | .call (some receiver) method args => ∃ receiver' args',
      e' = .call (some receiver') method args' ∧
      T f receiver f' receiver' ∧ List.Forall₂ (fun a a' => T f a f' a') args args'
  | .new constructor args => ∃ constructor' args', e' = .new constructor' args' ∧
      T f constructor f' constructor' ∧ List.Forall₂ (fun a a' => T f a f' a') args args'
  | .field target name => ∃ target', e' = .field target' name ∧ T f target f' target'
  | .setField target name value => ∃ target' value', e' = .setField target' name value' ∧
      T f target f' target' ∧ T f value f' value'
  | .item target key => ∃ target' key', e' = .item target' key' ∧
      T f target f' target' ∧ T f key f' key'
  | .setStatic owner name value => ∃ value', e' = .setStatic owner name value' ∧
      T f value f' value'
  | .ite condition yes no => ∃ condition' yes' no', e' = .ite condition' yes' no' ∧
      T f condition f' condition' ∧ T f yes f' yes' ∧ T f no f' no'
  | .seq items => ∃ items', e' = .seq items' ∧
      List.Forall₂ (fun a a' => T f a f' a') items items'
  | .object fields => ∃ fields', e' = .object fields' ∧
      List.Forall₂ (fun a a' => a.1 = a'.1 ∧ T f a.2 f' a'.2) fields fields'
  | .array items => ∃ items', e' = .array items' ∧
      List.Forall₂ (fun a a' => T f a f' a') items items'
  | .binary op left right => ∃ left' right', e' = .binary op left' right' ∧
      T f left f' left' ∧ T f right f' right'
  | .unary op operand => ∃ operand', e' = .unary op operand' ∧ T f operand f' operand'
  | e => ∀ m around, expr m around f e = expr m around f' e'

/--
A relation between expressions in frames that all forms of expressions respect,
together with the correspondence of the functions made by lambdas.
-/
structure Coupling (C : Closure → Closure → Prop) (T : Frame → Expr → Frame → Expr → Prop) :
    Prop where
  refl : ∀ f e, T f e f e
  parallel : ∀ {f e f' e'}, T f e f' e' → Parallel C T f f' e' e
  apply : ∀ {c c'}, C c c' → ∀ args,
    T (c.frame.bindAll c.params args) c.body (c'.frame.bindAll c'.params args) c'.body

variable {T : Frame → Expr → Frame → Expr → Prop} {m : Machine} {around : Surroundings}

section Lists

variable {f f' : Frame}

theorem lockstep_exprs {es es' : List Expr}
    (h : List.Forall₂ (fun e e' => Lockstep C (expr m around f e) (expr m around f' e')) es es') :
    Lockstep C (exprs m around f es) (exprs m around f' es') := by
  induction h with
  | nil =>
    simp only [exprs]
    exact lockstep_pure []
  | cons he _ ih =>
    simp only [exprs]
    exact he.bind fun value => ih.bind fun values => lockstep_pure (value :: values)

theorem lockstep_namedExprs {es es' : List (String × Expr)}
    (h : List.Forall₂ (fun e e' => e.1 = e'.1 ∧
      Lockstep C (expr m around f e.2) (expr m around f' e'.2)) es es') :
    Lockstep C (namedExprs m around f es) (namedExprs m around f' es') := by
  induction h with
  | nil =>
    simp only [namedExprs]
    exact lockstep_pure []
  | @cons e e' es es' he _ ih =>
    obtain ⟨name, value⟩ := e
    obtain ⟨name', value'⟩ := e'
    obtain ⟨rfl, hvalue⟩ := he
    simp only [namedExprs]
    exact hvalue.bind fun value => ih.bind fun values => lockstep_pure ((name, value) :: values)

theorem lockstep_lastOf {es es' : List Expr}
    (h : List.Forall₂ (fun e e' => Lockstep C (expr m around f e) (expr m around f' e')) es es')
    (last : Value) :
    Lockstep C (lastOf m around f last es) (lastOf m around f' last es') := by
  induction h generalizing last with
  | nil =>
    simp only [lastOf]
    exact lockstep_pure last
  | cons he _ ih =>
    simp only [lastOf]
    exact he.bind fun value => ih value

end Lists

theorem Coupling.lockstep_callMethod (hT : Coupling C T)
    {enter : Frame → Expr → Eval Value}
    (henter : ∀ {f e f' e'}, T f e f' e' → Lockstep C (enter f e) (enter f' e'))
    (method : MethodRef) (receiver : Option Value) (args : List Value) :
    Lockstep C (callMethod m enter method receiver args)
      (callMethod m enter method receiver args) := by
  unfold callMethod
  refine (lockstep_lift _).bind fun found => ?_
  cases found.frame? receiver args with
  | none => exact lockstep_throw _
  | some frame => exact henter (hT.refl frame found.body)

theorem lockstep_notCallable (function : Value) :
    Lockstep C (do throw (.notCallable ((← get).store.text function)) : Eval Value)
      (do throw (.notCallable ((← get).store.text function))) := by
  refine lockstep_get_bind fun s s' h => ?_
  rw [h.store.text function]
  exact lockstep_throw _ s s' h

theorem Coupling.lockstep_applyValue (hT : Coupling C T) (hm : m.HostsBlind C)
    {enter : Frame → Expr → Eval Value}
    (henter : ∀ {f e f' e'}, T f e f' e' → Lockstep C (enter f e) (enter f' e'))
    (function : Value) (args : List Value) :
    Lockstep C (applyValue m enter function args) (applyValue m enter function args) := by
  have hrefuse := lockstep_notCallable (C := C) function
  unfold applyValue
  cases function with
  | host name => exact lockstep_callHost hm name args
  | closure ref =>
    refine lockstep_get_bind fun s s' h => ?_
    rcases h.store.closure_cases ref with ⟨hnone, hnone'⟩ | ⟨c, c', hc, hc', hcc'⟩
    · rw [hnone, hnone']
      exact hrefuse s s' h
    · rw [hc, hc']
      exact henter (hT.apply hcc' args) s s' h
  | _ => exact hrefuse

/-- A list of coupled expressions, each of which runs in lockstep. -/
theorem lockstep_of_forall₂ {f f' : Frame} {es es' : List Expr}
    (h : List.Forall₂ (fun e e' => T f e f' e') es es')
    (hexpr : ∀ e ∈ es, ∀ e', T f e f' e' → Lockstep C (expr m around f e) (expr m around f' e')) :
    List.Forall₂ (fun e e' => Lockstep C (expr m around f e) (expr m around f' e')) es es' := by
  induction h with
  | nil => exact .nil
  | cons he _ ih =>
    refine .cons (hexpr _ List.mem_cons_self _ he) (ih fun e hmem => ?_)
    exact hexpr e (List.mem_cons_of_mem _ hmem)

theorem lockstep_fields_of_forall₂ {f f' : Frame} {fields fields' : List (String × Expr)}
    (h : List.Forall₂ (fun a a' => a.1 = a'.1 ∧ T f a.2 f' a'.2) fields fields')
    (hexpr : ∀ e ∈ fields.map Prod.snd, ∀ e', T f e f' e' →
      Lockstep C (expr m around f e) (expr m around f' e')) :
    List.Forall₂ (fun a a' => a.1 = a'.1 ∧
      Lockstep C (expr m around f a.2) (expr m around f' a'.2)) fields fields' := by
  induction h with
  | nil => exact .nil
  | cons he _ ih =>
    refine .cons ⟨he.1, hexpr _ List.mem_cons_self _ he.2⟩ (ih fun e hmem => ?_)
    exact hexpr e (List.mem_cons_of_mem _ hmem)

theorem lockstep_binary {f f' : Frame} {op : BinaryOp} {left right left' right' : Expr}
    (hleft : Lockstep C (expr m around f left) (expr m around f' left'))
    (hright : Lockstep C (expr m around f right) (expr m around f' right')) :
    Lockstep C (expr m around f (.binary op left right))
      (expr m around f' (.binary op left' right')) := by
  cases op with
  | and =>
    simp only [expr]
    refine hleft.bind fun value => ?_
    cases value.truthy with
    | true => exact hright
    | false => exact lockstep_pure value
  | or =>
    simp only [expr]
    refine hleft.bind fun value => ?_
    cases value.truthy with
    | true => exact lockstep_pure value
    | false => exact hright
  | _ =>
    simp only [expr]
    exact hleft.bind fun a => hright.bind fun b =>
      lockstep_ofStore fun s s' hs => hs.binary _ a b

theorem Coupling.lockstep_expr (hT : Coupling C T) (hm : m.HostsBlind C)
    (henter : ∀ {f e f' e'}, T f e f' e' → Lockstep C (around.enter f e) (around.enter f' e'))
    (hstart : ∀ owner, Lockstep C (around.start owner) (around.start owner))
    {f f' : Frame} {e e' : Expr} (h : T f e f' e') :
    Lockstep C (expr m around f e) (expr m around f' e') := by
  -- The induction is on the first expression; the coupling tells what the second looks like.
  induction e using Expr.childInduction generalizing f f' e' with
  | step e ih =>
    have hp := hT.parallel h
    cases e with
    | letIn name value body =>
      obtain ⟨value', body', rfl, hvalue, hbody⟩ := hp
      simp only [expr]
      exact (ih value (by simp [Expr.children]) hvalue).bind fun v =>
        ih body (by simp [Expr.children]) (hbody v)
    | lambda params body =>
      obtain ⟨body', rfl, hclosure⟩ := hp
      simp only [expr]
      exact lockstep_alloc fun s s' hs => hs.newClosure hclosure
    | apply function args | new function args =>
      obtain ⟨function', args', rfl, hfunction, hargs⟩ := hp
      simp only [expr]
      refine (ih function (by simp [Expr.children]) hfunction).bind fun value => ?_
      refine (lockstep_exprs (lockstep_of_forall₂ hargs fun a ha a' => ?_)).bind fun values => ?_
      · exact ih a (by simp [Expr.children, ha])
      · exact hT.lockstep_applyValue hm henter value values
    | call receiver method args =>
      cases receiver with
      | none =>
        obtain ⟨args', rfl, hargs⟩ := hp
        simp only [expr]
        refine (lockstep_exprs (lockstep_of_forall₂ hargs fun a ha a' => ?_)).bind fun values => ?_
        · exact ih a (by simp [Expr.children, ha])
        · exact hT.lockstep_callMethod henter method none values
      | some receiver =>
        obtain ⟨receiver', args', rfl, hreceiver, hargs⟩ := hp
        simp only [expr]
        refine (ih receiver (by simp [Expr.children]) hreceiver).bind fun value => ?_
        refine (lockstep_exprs (lockstep_of_forall₂ hargs fun a ha a' => ?_)).bind fun values => ?_
        · exact ih a (by simp [Expr.children, ha])
        · exact hT.lockstep_callMethod henter method (some value) values
    | field target name =>
      obtain ⟨target', rfl, htarget⟩ := hp
      simp only [expr]
      exact (ih target (by simp [Expr.children]) htarget).bind fun value =>
        lockstep_ofStore fun s s' hs => hs.read value name
    | setField target name value =>
      obtain ⟨target', value', rfl, htarget, hvalue⟩ := hp
      simp only [expr]
      refine (ih target (by simp [Expr.children]) htarget).bind fun object => ?_
      refine (ih value (by simp [Expr.children]) hvalue).bind fun written => ?_
      exact lockstep_ofStore_setStore (fun s s' hs => hs.write object name written)
        (lockstep_pure Value.undefined)
    | item target key =>
      obtain ⟨target', key', rfl, htarget, hkey⟩ := hp
      simp only [expr]
      refine (ih target (by simp [Expr.children]) htarget).bind fun object => ?_
      exact (ih key (by simp [Expr.children]) hkey).bind fun key =>
        lockstep_ofStore fun s s' hs => hs.index object key
    | setStatic owner name value =>
      obtain ⟨value', rfl, hvalue⟩ := hp
      simp only [expr]
      exact (ih value (by simp [Expr.children]) hvalue).bind fun written =>
        (lockstep_setStatic owner name written).bind fun _ => lockstep_pure Value.undefined
    | ite condition yes no =>
      obtain ⟨condition', yes', no', rfl, hcondition, hyes, hno⟩ := hp
      simp only [expr]
      refine (ih condition (by simp [Expr.children]) hcondition).bind fun value => ?_
      cases value.truthy with
      | true => exact ih yes (by simp [Expr.children]) hyes
      | false => exact ih no (by simp [Expr.children]) hno
    | seq items =>
      obtain ⟨items', rfl, hitems⟩ := hp
      simp only [expr]
      exact lockstep_lastOf (lockstep_of_forall₂ hitems fun a ha a' => ih a ha) .undefined
    | object fields =>
      obtain ⟨fields', rfl, hfields⟩ := hp
      simp only [expr]
      refine (lockstep_namedExprs (lockstep_fields_of_forall₂ hfields fun a ha a' => ?_)).bind
        fun values => ?_
      · exact ih a ha
      · exact lockstep_alloc fun s s' hs => hs.newObject values
    | array items =>
      obtain ⟨items', rfl, hitems⟩ := hp
      simp only [expr]
      exact (lockstep_exprs (lockstep_of_forall₂ hitems fun a ha a' => ih a ha)).bind fun values =>
        lockstep_alloc fun s s' hs => hs.newArray values
    | binary op left right =>
      obtain ⟨left', right', rfl, hleft, hright⟩ := hp
      exact lockstep_binary (ih left (by simp [Expr.children]) hleft)
        (ih right (by simp [Expr.children]) hright)
    | unary op operand =>
      obtain ⟨operand', rfl, hoperand⟩ := hp
      simp only [expr]
      exact (ih operand (by simp [Expr.children]) hoperand).bind fun value =>
        lockstep_ofStore fun s s' hs => hs.unary op value
    -- A form without parts may have another form on the other side, such as a hole for a
    -- variable, but both evaluate to the same.
    | undefined | literal value =>
      rw [← hp m around]
      simp only [expr]
      exact lockstep_pure _
    | self =>
      rw [← hp m around]
      simp only [expr]
      cases f.receiver with
      | none => exact lockstep_throw _
      | some value => exact lockstep_pure value
    | var name =>
      rw [← hp m around]
      simp only [expr]
      cases f.var? name with
      | none => exact lockstep_throw _
      | some value => exact lockstep_pure value
    | hole index =>
      rw [← hp m around]
      simp only [expr]
      cases f.holes[index]? with
      | none => exact lockstep_throw _
      | some value => exact lockstep_pure value
    | global path =>
      rw [← hp m around]
      simp only [expr]
      cases m.hosts.contains path with
      | true => exact lockstep_pure (Value.host path)
      | false => exact lockstep_throw _
    | static owner name =>
      rw [← hp m around]
      simp only [expr]
      refine lockstep_get_bind fun s s' hs => ?_
      rw [hs.statics]
      exact lockstep_pure _ s s' hs
    | start owner =>
      rw [← hp m around]
      simp only [expr]
      exact (hstart owner).bind fun _ => lockstep_pure Value.undefined
    | error message =>
      rw [← hp m around]
      simp only [expr]
      exact lockstep_throw _

/-! ## Static initializers and calls -/

theorem Coupling.lockstep_statements (hT : Coupling C T) (hm : m.HostsBlind C)
    (henter : ∀ {f e f' e'}, T f e f' e' → Lockstep C (around.enter f e) (around.enter f' e'))
    (hstart : ∀ owner, Lockstep C (around.start owner) (around.start owner))
    (owner : Identity) (statements : List Statement) :
    Lockstep C (Eval.statements m around owner statements)
      (Eval.statements m around owner statements) := by
  induction statements with
  | nil =>
    simp only [Eval.statements]
    exact lockstep_pure ()
  | cons statement rest ih =>
    cases statement with
    | expr e =>
      simp only [Eval.statements]
      refine (lockstep_beginStatement owner _).bind fun _ => ?_
      exact (hT.lockstep_expr hm henter hstart (hT.refl {} e)).bind fun _ => ih
    | init field value =>
      simp only [Eval.statements]
      refine (lockstep_beginStatement owner _).bind fun _ => ?_
      refine (hT.lockstep_expr hm henter hstart (hT.refl {} value)).bind fun v => ?_
      exact (lockstep_fillStatic owner field v).bind fun _ => ih

theorem Coupling.lockstep_startWithin (hT : Coupling C T) (hm : m.HostsBlind C)
    {enter : Frame → Expr → Eval Value}
    (henter : ∀ {f e f' e'}, T f e f' e' → Lockstep C (enter f e) (enter f' e'))
    (bound : Nat) (owner : Identity) :
    Lockstep C (startWithin m enter bound owner) (startWithin m enter bound owner) := by
  induction bound generalizing owner with
  | zero =>
    simp only [startWithin]
    exact (lockstep_markStarted owner).bind fun _ => lockstep_pure ()
  | succ bound ih =>
    simp only [startWithin]
    refine (lockstep_markStarted owner).bind fun fresh => ?_
    cases fresh with
    | true => exact hT.lockstep_statements hm henter ih owner (m.initializer owner)
    | false => exact lockstep_pure ()

/-- Coupled bodies that are entered run in lockstep, by induction on the calls that are left. -/
theorem Coupling.lockstep_enterWithin (hT : Coupling C T) (hm : m.HostsBlind C) (left : Nat)
    {f f' : Frame} {e e' : Expr} (h : T f e f' e') :
    Lockstep C (enterWithin m left f e) (enterWithin m left f' e') := by
  induction left generalizing f f' e e' with
  | zero => exact lockstep_throw _
  | succ left ih =>
    simp only [enterWithin]
    refine (hT.lockstep_expr hm ih (fun owner => ?_) h).nested
    exact hT.lockstep_startWithin hm ih m.build.classes.size owner

theorem Coupling.lockstep_enter (hT : Coupling C T) (hm : m.HostsBlind C)
    {f f' : Frame} {e e' : Expr} (h : T f e f' e') :
    Lockstep C (enter m f e) (enter m f' e') := by
  refine lockstep_get_bind fun s s' hs => ?_
  rw [hs.depth]
  exact hT.lockstep_enterWithin hm _ h s s' hs

end Eval

end Memberwise
