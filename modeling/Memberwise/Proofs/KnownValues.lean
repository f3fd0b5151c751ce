import Mathlib
import Memberwise.Proofs.ArrayNesting

/-!
# Values in the course of evaluations

Whatever is evaluated, the values that an evaluation has at hand are in the store:
those of the frame at the beginning, and with them all that it returns, binds,
captures or stores.  So it makes arrays of values that are there, and the store stays
tidy.  This holds also of evaluations that stop with a fault, since they have made
things before.
-/

namespace Memberwise

/-- The store is tidy and holds what static fields refer to. -/
structure Machine.State.Tidy (s : Machine.State) : Prop where
  store : s.store.Tidy
  statics : ∀ v ∈ s.statics.values, s.store.Knows v
  /-- The stores that hosts were called with were tidy too. -/
  calls : ∀ call ∈ s.calls, call.store.Tidy

/-- All hosts build what they return from their arguments. -/
def Machine.Builds (m : Machine) : Prop :=
  ∀ name host, m.hosts.get? name = some host → host.Builds

/-! ## Frames -/

namespace Frame

variable {P : Value → Prop} {f : Frame}

theorem within_empty : Within P {} where
  receiver v h := absurd h (Option.not_mem_none v)
  holes _ h := absurd h List.not_mem_nil
  vars _ h := absurd h List.not_mem_nil

theorem Within.bind (hf : f.Within P) (name : String) {v : Value} (hv : P v) :
    (f.bind name v).Within P :=
  ⟨hf.receiver, hf.holes, List.forall_mem_cons.mpr ⟨hv, hf.vars⟩⟩

theorem Within.bindAll (hf : f.Within P) (params : List String) {args : List Value}
    (hargs : ∀ v ∈ args, P v) : (f.bindAll params args).Within P := by
  refine ⟨hf.receiver, hf.holes, fun entry hentry => ?_⟩
  rcases List.mem_append.mp hentry with hentry | hentry
  · exact hargs _ (List.of_mem_zip (List.mem_reverse.mp hentry)).2
  · exact hf.vars entry hentry

theorem mem_vars_of_var? {name : String} {v : Value} (h : f.var? name = some v) :
    (name, v) ∈ f.vars := by
  obtain ⟨receiver, holes, vars⟩ := f
  unfold var? at h
  dsimp only at h ⊢
  induction vars with
  | nil => cases h
  | cons entry rest ih =>
    obtain ⟨name', v'⟩ := entry
    rw [Table.lookupIn] at h
    split_ifs at h with hname
    · obtain rfl := Option.some.inj h
      rw [hname]
      exact List.mem_cons_self
    · exact List.mem_cons_of_mem _ (ih h)

end Frame

theorem Method.within_frame? {P : Value → Prop} {method : Method} {receiver : Option Value}
    {args : List Value} (hreceiver : ∀ v ∈ receiver, P v) (hargs : ∀ v ∈ args, P v) {frame : Frame}
    (h : method.frame? receiver args = some frame) : frame.Within P := by
  have hempty : Frame.Within P { receiver } :=
    ⟨hreceiver, fun v hv => absurd hv List.not_mem_nil,
      fun entry hentry => absurd hentry List.not_mem_nil⟩
  have hholes : Frame.Within P { holes := receiver.toList ++ args } := by
    refine ⟨fun v hv => absurd hv (Option.not_mem_none v), fun v hv => ?_,
      fun entry hentry => absurd hentry List.not_mem_nil⟩
    rcases List.mem_append.mp hv with hv | hv
    · exact hreceiver v (Option.mem_toList.mp hv)
    · exact hargs v hv
  unfold Method.frame? at h
  split at h <;> cases h
  · exact hempty.bindAll _ hargs
  all_goals exact hholes

/-! ## Operators -/

theorem Value.isScalar_ofLiteral (l : Literal) : (Value.ofLiteral l).isScalar = true := by
  cases l <;> rfl

theorem Value.isScalar_arithmetic? {f : Float → Float → Float} {a b v : Value}
    (h : arithmetic? f a b = some v) : v.isScalar = true := by
  obtain ⟨x, -, h⟩ := Option.bind_eq_some_iff.mp h
  obtain ⟨y, -, h⟩ := Option.bind_eq_some_iff.mp h
  cases h
  rfl

theorem Value.isScalar_compare? {strings : String → String → Bool} {floats : Float → Float → Bool}
    {a b v : Value} (h : compare? strings floats a b = some v) : v.isScalar = true := by
  unfold compare? at h
  split at h
  · cases h
    rfl
  · obtain ⟨x, -, h⟩ := Option.bind_eq_some_iff.mp h
    obtain ⟨y, -, h⟩ := Option.bind_eq_some_iff.mp h
    cases h
    rfl

namespace Store

variable {s : Store} {a b v : Value}

theorem isScalar_join? (h : s.join? a b = some v) : v.isScalar = true := by
  unfold join? at h
  split at h <;> cases h <;> rfl

theorem isScalar_binary {op : BinaryOp} (h : s.binary op a b = .ok v) : v.isScalar = true := by
  unfold binary at h
  split at h <;> cases h
  next h =>
  cases op with
  | add =>
    rcases Option.or_eq_some_iff.mp h with h | ⟨-, h⟩
    · exact isScalar_join? h
    · unfold Value.add? at h
      split at h
      · cases h
        rfl
      · exact Value.isScalar_arithmetic? h
  | sub | mul =>
    simp only [binary?, Value.sub?, Value.mul?] at h
    split at h
    · cases h
      rfl
    · exact Value.isScalar_arithmetic? h
  | div | mod =>
    simp only [binary?, Value.div?, Value.mod?] at h
    split at h
    · split_ifs at h
      · cases h
        rfl
      · exact Value.isScalar_arithmetic? h
    · exact Value.isScalar_arithmetic? h
  | eq | ne | strictEq | strictNe =>
    cases h
    rfl
  | lt | le | gt | ge => exact Value.isScalar_compare? h
  | and | or => cases h

theorem isScalar_unary {op : UnaryOp} (h : s.unary op a = .ok v) : v.isScalar = true := by
  unfold unary at h
  split at h <;> cases h <;> rfl

end Store

/-! ## States -/

namespace Machine.State.Tidy

variable {s : Machine.State}

theorem withStore (hs : s.Tidy) {store : Store} (hstore : store.Tidy)
    (hgrows : s.store.Grows store) : Machine.State.Tidy { s with store } :=
  ⟨hstore, fun v hv => (hs.statics v hv).mono hgrows, hs.calls⟩

theorem write (hs : s.Tidy) {w : StaticWrite} (hw : s.store.Knows w.value) : (s.write w).Tidy := by
  refine ⟨hs.store, fun v hv => ?_, hs.calls⟩
  rcases Table.mem_values_insert hv with rfl | hv
  · exact hw
  · exact hs.statics v hv

/-- The logs and the depth of calls do not matter. -/
theorem of_eq (hs : s.Tidy) {s' : Machine.State} (hstore : s'.store = s.store)
    (hstatics : s'.statics = s.statics) (hcalls : s'.calls = s.calls) : s'.Tidy := by
  refine ⟨?_, ?_, ?_⟩
  · rw [hstore]
    exact hs.store
  · rw [hstore, hstatics]
    exact hs.statics
  · rw [hcalls]
    exact hs.calls

end Machine.State.Tidy

theorem Machine.State.tidy_empty : Machine.State.Tidy {} where
  store := Store.tidy_empty
  statics _ h := absurd h List.not_mem_nil
  calls _ h := absurd h List.not_mem_nil

namespace Eval

variable {α β : Type}

/--
The outcome of an evaluation from some state: a tidy state with a store that has
grown, and a value of some kind unless there is a fault.
-/
inductive Leads (s₀ : Machine.State) (P : Store → α → Prop) :
    EStateM.Result Fault Machine.State α → Prop
  | value {a : α} {s : Machine.State} (hs : s.Tidy) (hgrows : s₀.store.Grows s.store)
      (ha : P s.store a) : Leads s₀ P (.ok a s)
  | fault {fault : Fault} {s : Machine.State} (hs : s.Tidy) (hgrows : s₀.store.Grows s.store) :
      Leads s₀ P (.error fault s)

variable {P : Store → α → Prop} {Q : Store → β → Prop} {s : Machine.State}

theorem leads_pure (hs : s.Tidy) {a : α} (ha : P s.store a) : Leads s P ((pure a : Eval α) s) :=
  .value hs (.refl _) ha

theorem leads_throw (hs : s.Tidy) (fault : Fault) : Leads s P ((throw fault : Eval α) s) :=
  .fault hs (.refl _)

theorem leads_lift (hs : s.Tidy) {r : Except Fault α} (hr : ∀ a, r = .ok a → P s.store a) :
    Leads s P (lift r s) := by
  cases r with
  | ok a => exact leads_pure hs (hr a rfl)
  | error fault => exact leads_throw hs fault

theorem leads_get_bind {f : Machine.State → Eval β} (h : Leads s Q (f s s)) :
    Leads s Q ((get >>= f) s) := h

theorem leads_ofStore (hs : s.Tidy) {f : Store → Except Fault α}
    (hf : ∀ a, f s.store = .ok a → P s.store a) : Leads s P (ofStore f s) :=
  leads_lift hs hf

theorem leads_setStore (hs : s.Tidy) {store : Store} (hstore : store.Tidy)
    (hgrows : s.store.Grows store) : Leads s (fun _ _ => True) (setStore store s) :=
  .value (hs.withStore hstore hgrows) hgrows trivial

theorem leads_write (hs : s.Tidy) {w : StaticWrite} (hw : s.store.Knows w.value) :
    Leads s (fun _ _ => True) ((modify fun s => s.write w : Eval Unit) s) :=
  .value (hs.write hw) (.refl _) trivial

theorem leads_beginStatement (hs : s.Tidy) (owner : Identity) (statement : Statement) :
    Leads s (fun _ _ => True) (beginStatement owner statement s) :=
  .value (hs.of_eq rfl rfl rfl) (.refl _) trivial

theorem leads_markStarted (hs : s.Tidy) (owner : Identity) :
    Leads s (fun _ _ => True) (markStarted owner s) := by
  by_cases hmem : owner ∈ s.started
  · rw [markStarted_of_mem hmem]
    exact .value hs (.refl _) trivial
  · rw [markStarted_of_not_mem hmem]
    exact .value (hs.of_eq rfl rfl rfl) (.refl _) trivial

theorem leads_alloc (hs : s.Tidy) {f : Store → Value × Store} (htidy : (f s.store).2.Tidy)
    (hgrows : s.store.Grows (f s.store).2) (hknows : (f s.store).2.Knows (f s.store).1) :
    Leads s Store.Knows (alloc f s) :=
  .value (hs.withStore htidy hgrows) hgrows hknows

theorem Leads.after {s' : Machine.State} {r : EStateM.Result Fault Machine.State α}
    (h : Leads s' P r) (hgrows : s.store.Grows s'.store) : Leads s P r := by
  cases h with
  | value hs hgrows' ha => exact .value hs (hgrows.trans hgrows') ha
  | fault hs hgrows' => exact .fault hs (hgrows.trans hgrows')

theorem Leads.bind {x : Eval α} {f : α → Eval β} (hx : Leads s P (x s))
    (hf : ∀ a s', s'.Tidy → s.store.Grows s'.store → P s'.store a → Leads s' Q (f a s')) :
    Leads s Q ((x >>= f) s) := by
  show Leads s Q (EStateM.bind x f s)
  unfold EStateM.bind
  generalize x s = r at hx ⊢
  cases hx with
  | value hs hgrows ha => exact (hf _ _ hs hgrows ha).after hgrows
  | fault hs hgrows => exact .fault hs hgrows

theorem Leads.nested {x : Eval α} (hx : Leads { s with depth := s.depth + 1 } P
    (x { s with depth := s.depth + 1 })) : Leads s P (nested x s) := by
  unfold Eval.nested
  generalize x { s with depth := s.depth + 1 } = r at hx ⊢
  cases hx with
  | value hs hgrows ha => exact .value (hs.of_eq rfl rfl rfl) hgrows ha
  | fault hs hgrows => exact .fault (hs.of_eq rfl rfl rfl) hgrows

/-! ## Leaving a body -/

variable {m : Machine} {around : Surroundings} {enter : Frame → Expr → Eval Value}

/-- Bodies that are entered with values of the store lead to such values. -/
def EntersTidily (enter : Frame → Expr → Eval Value) : Prop :=
  ∀ frame body s, s.Tidy → frame.Within s.store.Knows → Leads s Store.Knows (enter frame body s)

/-- Static initializers that are started lead to tidy states. -/
def StartsTidily (start : Identity → Eval Unit) : Prop :=
  ∀ owner s, s.Tidy → Leads s (fun _ _ => True) (start owner s)

/-- The surroundings of a body keep the store tidy. -/
structure Surroundings.Tidies (around : Surroundings) : Prop where
  enter : EntersTidily around.enter
  start : StartsTidily around.start

theorem leads_callHost (hm : m.Builds) (hs : s.Tidy) (name : String) {args : List Value}
    (hargs : ∀ v ∈ args, s.store.Knows v) : Leads s Store.Knows (callHost m name args s) := by
  unfold callHost
  cases hhost : m.hosts.get? name with
  | none => exact leads_throw hs _
  | some host =>
    obtain ⟨given, hand, hgiven, hbuilds, hresult⟩ := hm name host hhost s.calls args s.store
    obtain ⟨htidy, hgrows, hknows⟩ :=
      hbuilds.tidy hs.store fun v hv => (hgiven v hv).elim (hargs v) id
    have hstate : Machine.State.Tidy { s with
        store := (host s.calls args s.store).2
        calls := ⟨name, args, s.store⟩ :: s.calls } :=
      ⟨htidy, fun v hv => (hs.statics v hv).mono hgrows,
        List.forall_mem_cons.mpr ⟨hs.store, hs.calls⟩⟩
    have hlift := leads_lift (P := Store.Knows) hstate fun v hv => hknows v (hresult v hv)
    exact hlift.after hgrows

theorem leads_callMethod (henter : EntersTidily enter) (hs : s.Tidy) (ref : MethodRef)
    {receiver : Option Value} (hreceiver : ∀ v ∈ receiver, s.store.Knows v) {args : List Value}
    (hargs : ∀ v ∈ args, s.store.Knows v) :
    Leads s Store.Knows (callMethod m enter ref receiver args s) := by
  unfold callMethod
  refine Leads.bind (P := fun _ _ => True) (leads_lift hs fun _ _ => trivial)
    fun found s' hs' hgrows _ => ?_
  cases hframe : found.frame? receiver args with
  | none => exact leads_throw hs' _
  | some frame =>
    refine henter frame found.body s' hs' (Method.within_frame? ?_ ?_ hframe)
    · exact fun v hv => (hreceiver v hv).mono hgrows
    · exact fun v hv => (hargs v hv).mono hgrows

/-- A closure is applied in the frame that it captured, whose values are in the store. -/
theorem leads_applyValue (hm : m.Builds) (henter : EntersTidily enter) (hs : s.Tidy)
    (function : Value) {args : List Value} (hargs : ∀ v ∈ args, s.store.Knows v) :
    Leads s Store.Knows (applyValue m enter function args s) := by
  unfold applyValue
  cases function with
  | host name => exact leads_callHost hm hs name hargs
  | closure ref =>
    refine leads_get_bind ?_
    cases hclosure : s.store.closures[ref]? with
    | none => exact leads_get_bind (leads_throw hs _)
    | some closure =>
      have hframe := hs.store.captured closure (Array.mem_of_getElem? hclosure)
      exact henter _ _ s hs (hframe.bindAll _ hargs)
  | _ => exact leads_get_bind (leads_throw hs _)

/-! ## Evaluation of an expression -/

/-- In every frame of values in the store, the expression leads to such a value. -/
def EvaluatesTidily (m : Machine) (around : Surroundings) (e : Expr) : Prop :=
  ∀ frame s, s.Tidy → frame.Within s.store.Knows → Leads s Store.Knows (expr m around frame e s)

section Lists

variable {frame : Frame}

theorem leads_exprs {es : List Expr} (h : ∀ e ∈ es, EvaluatesTidily m around e) (hs : s.Tidy)
    (hframe : frame.Within s.store.Knows) :
    Leads s (fun store values => ∀ v ∈ values, store.Knows v) (exprs m around frame es s) := by
  induction es generalizing s with
  | nil =>
    simp only [exprs]
    exact leads_pure hs fun v hv => absurd hv List.not_mem_nil
  | cons e es ih =>
    obtain ⟨he, hes⟩ := List.forall_mem_cons.mp h
    simp only [exprs]
    refine (he frame s hs hframe).bind fun value s₁ hs₁ hgrows hvalue => ?_
    refine (ih hes hs₁ (hframe.grows hgrows)).bind fun values s₂ hs₂ hgrows₂ hvalues => ?_
    exact leads_pure hs₂ (List.forall_mem_cons.mpr ⟨hvalue.mono hgrows₂, hvalues⟩)

theorem leads_namedExprs {es : List (String × Expr)}
    (h : ∀ entry ∈ es, EvaluatesTidily m around entry.2) (hs : s.Tidy)
    (hframe : frame.Within s.store.Knows) :
    Leads s (fun store values => ∀ entry ∈ values, store.Knows entry.2)
      (namedExprs m around frame es s) := by
  induction es generalizing s with
  | nil =>
    simp only [namedExprs]
    exact leads_pure hs fun v hv => absurd hv List.not_mem_nil
  | cons entry es ih =>
    obtain ⟨he, hes⟩ := List.forall_mem_cons.mp h
    obtain ⟨name, e⟩ := entry
    simp only [namedExprs]
    refine (he frame s hs hframe).bind fun value s₁ hs₁ hgrows hvalue => ?_
    refine (ih hes hs₁ (hframe.grows hgrows)).bind fun values s₂ hs₂ hgrows₂ hvalues => ?_
    exact leads_pure hs₂ (List.forall_mem_cons.mpr ⟨hvalue.mono hgrows₂, hvalues⟩)

theorem leads_lastOf {es : List Expr} (h : ∀ e ∈ es, EvaluatesTidily m around e) (hs : s.Tidy)
    (hframe : frame.Within s.store.Knows) {last : Value} (hlast : s.store.Knows last) :
    Leads s Store.Knows (lastOf m around frame last es s) := by
  induction es generalizing s last with
  | nil =>
    simp only [lastOf]
    exact leads_pure hs hlast
  | cons e es ih =>
    obtain ⟨he, hes⟩ := List.forall_mem_cons.mp h
    simp only [lastOf]
    refine (he frame s hs hframe).bind fun value s₁ hs₁ hgrows hvalue => ?_
    exact ih hes hs₁ (hframe.grows hgrows) hvalue

end Lists

theorem evaluatesTidily_binary {op : BinaryOp} {left right : Expr}
    (hleft : EvaluatesTidily m around left) (hright : EvaluatesTidily m around right) :
    EvaluatesTidily m around (.binary op left right) := by
  intro frame s hs hframe
  cases op with
  | and =>
    simp only [expr]
    refine (hleft frame s hs hframe).bind fun value s₁ hs₁ hgrows hvalue => ?_
    cases value.truthy with
    | true => exact hright frame s₁ hs₁ (hframe.grows hgrows)
    | false => exact leads_pure hs₁ hvalue
  | or =>
    simp only [expr]
    refine (hleft frame s hs hframe).bind fun value s₁ hs₁ hgrows hvalue => ?_
    cases value.truthy with
    | true => exact leads_pure hs₁ hvalue
    | false => exact hright frame s₁ hs₁ (hframe.grows hgrows)
  | _ =>
    simp only [expr]
    refine (hleft frame s hs hframe).bind fun a s₁ hs₁ hgrows _ => ?_
    refine (hright frame s₁ hs₁ (hframe.grows hgrows)).bind fun b s₂ hs₂ _ _ => ?_
    exact leads_ofStore hs₂ fun v hv => Store.knows_of_isScalar (Store.isScalar_binary hv)

theorem evaluatesTidily (hm : m.Builds) (haround : around.Tidies) (e : Expr) :
    EvaluatesTidily m around e := by
  induction e using Expr.childInduction with
  | step e ih =>
    intro frame s hs hframe
    have hchild {c : Expr} (hc : c ∈ e.children) := ih c hc frame s hs hframe
    cases e with
    | letIn name value body =>
      simp only [expr]
      refine (hchild (by simp [Expr.children])).bind fun v s₁ hs₁ hgrows hv => ?_
      exact ih body (by simp [Expr.children]) _ s₁ hs₁ ((hframe.grows hgrows).bind name hv)
    | lambda params body =>
      simp only [expr]
      exact leads_alloc hs (hs.store.newClosure hframe) (Store.grows_newClosure ..)
        (Store.knows_newClosure ..)
    | apply function args | new function args =>
      simp only [expr]
      refine (hchild (by simp [Expr.children])).bind fun value s₁ hs₁ hgrows _ => ?_
      have hargs : ∀ a ∈ args, EvaluatesTidily m around a :=
        fun a ha => ih a (by simp [Expr.children, ha])
      refine (leads_exprs hargs hs₁ (hframe.grows hgrows)).bind fun values s₂ hs₂ _ hvalues => ?_
      exact leads_applyValue hm haround.enter hs₂ value hvalues
    | call receiver method args =>
      have hargs : ∀ a ∈ args, EvaluatesTidily m around a :=
        fun a ha => ih a (by simp [Expr.children, ha])
      cases receiver with
      | none =>
        simp only [expr]
        refine (leads_exprs hargs hs hframe).bind fun values s₁ hs₁ _ hvalues => ?_
        refine leads_callMethod haround.enter hs₁ method (fun v hv => ?_) hvalues
        exact absurd hv (Option.not_mem_none v)
      | some receiver =>
        simp only [expr]
        refine (hchild (by simp [Expr.children])).bind fun value s₁ hs₁ hgrows hvalue => ?_
        refine (leads_exprs hargs hs₁ (hframe.grows hgrows)).bind
          fun values s₂ hs₂ hgrows₂ hvalues => ?_
        refine leads_callMethod haround.enter hs₂ method (fun v hv => ?_) hvalues
        exact Option.mem_some.mp hv ▸ hvalue.mono hgrows₂
    | field target name =>
      simp only [expr]
      refine (hchild (by simp [Expr.children])).bind fun value s₁ hs₁ _ _ => ?_
      exact leads_ofStore hs₁ fun v hv => hs₁.store.knows_read hv
    | setField target name value =>
      simp only [expr]
      refine (hchild (by simp [Expr.children])).bind fun object s₁ hs₁ hgrows _ => ?_
      refine (ih value (by simp [Expr.children]) frame s₁ hs₁ (hframe.grows hgrows)).bind
        fun written s₂ hs₂ _ hwritten => ?_
      refine Leads.bind (P := fun store store' => store'.Tidy ∧ store.Grows store')
        (leads_ofStore hs₂ fun store hstore => hs₂.store.write hwritten hstore)
        fun store s₃ hs₃ _ hstore => ?_
      exact (leads_setStore hs₃ hstore.1 hstore.2).bind fun _ s₄ hs₄ _ _ => leads_pure hs₄ trivial
    | item target key =>
      simp only [expr]
      refine (hchild (by simp [Expr.children])).bind fun object s₁ hs₁ hgrows _ => ?_
      refine (ih key (by simp [Expr.children]) frame s₁ hs₁ (hframe.grows hgrows)).bind
        fun key s₂ hs₂ _ _ => ?_
      exact leads_ofStore hs₂ fun v hv => hs₂.store.knows_index hv
    | setStatic owner name value =>
      simp only [expr]
      refine (hchild (by simp [Expr.children])).bind fun written s₁ hs₁ _ hwritten => ?_
      exact (leads_write hs₁ hwritten).bind fun _ s₂ hs₂ _ _ => leads_pure hs₂ trivial
    | ite condition yes no =>
      simp only [expr]
      refine (hchild (by simp [Expr.children])).bind fun value s₁ hs₁ hgrows _ => ?_
      cases value.truthy with
      | true => exact ih yes (by simp [Expr.children]) frame s₁ hs₁ (hframe.grows hgrows)
      | false => exact ih no (by simp [Expr.children]) frame s₁ hs₁ (hframe.grows hgrows)
    | seq items =>
      simp only [expr]
      exact leads_lastOf ih hs hframe trivial
    | object fields =>
      have hfields : ∀ entry ∈ fields, EvaluatesTidily m around entry.2 :=
        fun entry hentry => ih _ (List.mem_map.mpr ⟨entry, hentry, rfl⟩)
      simp only [expr]
      refine (leads_namedExprs hfields hs hframe).bind fun values s₁ hs₁ _ hvalues => ?_
      exact leads_alloc hs₁ (hs₁.store.newObject hvalues) (Store.grows_newObject ..)
        (Store.knows_newObject ..)
    | array items =>
      simp only [expr]
      refine (leads_exprs ih hs hframe).bind fun values s₁ hs₁ _ hvalues => ?_
      exact leads_alloc hs₁ (hs₁.store.newArray hvalues) (Store.grows_newArray ..)
        (Store.knows_newArray ..)
    | binary op left right =>
      exact evaluatesTidily_binary (ih left (by simp [Expr.children]))
        (ih right (by simp [Expr.children])) frame s hs hframe
    | unary op operand =>
      simp only [expr]
      refine (hchild (by simp [Expr.children])).bind fun value s₁ hs₁ _ _ => ?_
      exact leads_ofStore hs₁ fun v hv => Store.knows_of_isScalar (Store.isScalar_unary hv)
    | undefined =>
      simp only [expr]
      exact leads_pure hs trivial
    | literal value =>
      simp only [expr]
      exact leads_pure hs (Store.knows_of_isScalar (Value.isScalar_ofLiteral value))
    | self =>
      simp only [expr]
      cases hreceiver : frame.receiver with
      | none => exact leads_throw hs _
      | some value => exact leads_pure hs (hframe.receiver value hreceiver)
    | var name =>
      simp only [expr]
      cases hvar : frame.var? name with
      | none => exact leads_throw hs _
      | some value => exact leads_pure hs (hframe.vars _ (Frame.mem_vars_of_var? hvar))
    | hole index =>
      simp only [expr]
      cases hhole : frame.holes[index]? with
      | none => exact leads_throw hs _
      | some value => exact leads_pure hs (hframe.holes value (List.mem_of_getElem? hhole))
    | global path =>
      simp only [expr]
      cases m.hosts.contains path with
      | true => exact leads_pure hs trivial
      | false => exact leads_throw hs _
    | static owner name =>
      simp only [expr]
      refine leads_get_bind (leads_pure hs ?_)
      cases hvalue : s.statics.get? (owner, name) with
      | none => trivial
      | some value => exact hs.statics value (Table.mem_values_of_get? hvalue)
    | start owner =>
      simp only [expr]
      exact (haround.start owner s hs).bind fun _ s₁ hs₁ _ _ => leads_pure hs₁ trivial
    | error message =>
      simp only [expr]
      exact leads_throw hs _

/-! ## Bodies and initializers -/

theorem leads_statements (hm : m.Builds) (haround : around.Tidies) (owner : Identity)
    (body : List Statement) (hs : s.Tidy) :
    Leads s (fun _ _ => True) (statements m around owner body s) := by
  have hexpr := evaluatesTidily hm haround
  induction body generalizing s with
  | nil =>
    simp only [statements]
    exact leads_pure hs trivial
  | cons statement rest ih =>
    cases statement with
    | expr e =>
      simp only [statements]
      refine (leads_beginStatement hs _ _).bind fun _ s₁ hs₁ _ _ => ?_
      refine (hexpr e {} s₁ hs₁ Frame.within_empty).bind fun _ s₂ hs₂ _ _ => ?_
      exact ih hs₂
    | init field value =>
      simp only [statements]
      refine (leads_beginStatement hs _ _).bind fun _ s₁ hs₁ _ _ => ?_
      refine (hexpr value {} s₁ hs₁ Frame.within_empty).bind fun v s₂ hs₂ _ hv => ?_
      exact (leads_write hs₂ hv).bind fun _ s₃ hs₃ _ _ => ih hs₃

theorem startsTidily_startWithin (hm : m.Builds) (henter : EntersTidily enter) (bound : Nat) :
    StartsTidily (startWithin m enter bound) := by
  induction bound with
  | zero =>
    intro owner s hs
    exact (leads_markStarted hs owner).bind fun _ s₁ hs₁ _ _ => leads_pure hs₁ trivial
  | succ bound ih =>
    intro owner s hs
    rw [startWithin]
    refine (leads_markStarted hs owner).bind fun fresh s₁ hs₁ _ _ => ?_
    cases fresh with
    | true => exact leads_statements hm ⟨henter, ih⟩ owner _ hs₁
    | false => exact leads_pure hs₁ trivial

theorem tidies_startWithin (hm : m.Builds) (henter : EntersTidily enter) (bound : Nat) :
    Surroundings.Tidies ⟨enter, startWithin m enter bound⟩ :=
  ⟨henter, startsTidily_startWithin hm henter bound⟩

theorem tidies_surroundings (hm : m.Builds) (henter : EntersTidily enter) :
    (surroundings m enter).Tidies :=
  tidies_startWithin hm henter _

theorem entersTidily_enterWithin (hm : m.Builds) (left : Nat) :
    EntersTidily (enterWithin m left) := by
  induction left with
  | zero =>
    intro frame body s hs hframe
    exact leads_throw hs _
  | succ left ih =>
    intro frame body s hs hframe
    have hdeeper : Machine.State.Tidy { s with depth := s.depth + 1 } := hs.of_eq rfl rfl rfl
    have hbody := evaluatesTidily hm (tidies_surroundings hm ih) body
    exact (hbody frame _ hdeeper hframe).nested

theorem entersTidily_enter (hm : m.Builds) : EntersTidily (Eval.enter m) := by
  intro frame body s hs hframe
  exact leads_get_bind (entersTidily_enterWithin hm _ frame body s hs hframe)

end Eval

end Memberwise
