import Mathlib
import Memberwise.Proofs.Moments
import Memberwise.Proofs.Runs

/-!
# Invariants of evaluations

An evaluation keeps an invariant if it ends in a state with the invariant
whenever it begins in one, whether it gives a value or stops with a fault.  Along
with the states goes a condition on the faults.

A chronicle says more: it relates the state before an evaluation, its moments, and
the fault and the state after it.  What a piece of code may do is said once for each
form of expression.  If a chronicle holds of what the forms at hand may do, and of
what the surroundings do, then it holds of evaluating the code.  An invariant is the
special case in which the moments do not matter.
-/

namespace Memberwise

/-- A fault that comes from a body with a gap: a hole without argument or a placeholder. -/
def Fault.IsGap : Fault → Prop
  | missingHole _ | placeholder _ => True
  | _ => False

namespace Eval

/-- The outcome is in a state with the invariant, and a fault is one of those expected. -/
inductive EndsIn (I : Machine.State → Prop) (Q : Fault → Prop) {α : Type} :
    EStateM.Result Fault Machine.State α → Prop
  | value (a : α) {s : Machine.State} (h : I s) : EndsIn I Q (.ok a s)
  | fault {fault : Fault} (hfault : Q fault) {s : Machine.State} (h : I s) :
      EndsIn I Q (.error fault s)

/-- From states with the invariant, the evaluation ends in states with the invariant. -/
def Keeps (I : Machine.State → Prop) (Q : Fault → Prop) {α : Type} (x : Eval α) : Prop :=
  ∀ s, I s → EndsIn I Q (x s)

variable {I : Machine.State → Prop} {Q : Fault → Prop} {α β : Type}

theorem EndsIn.imp {J : Machine.State → Prop} {r : EStateM.Result Fault Machine.State α}
    (h : EndsIn I Q r) (hIJ : ∀ s, I s → J s) : EndsIn J Q r := by
  cases h with
  | value a h => exact .value a (hIJ _ h)
  | fault hfault h => exact .fault hfault (hIJ _ h)

theorem keeps_pure (a : α) : Keeps I Q (pure a) := fun _ h => .value a h

theorem keeps_throw {fault : Fault} (hfault : Q fault) : Keeps I Q (throw fault : Eval α) :=
  fun _ h => .fault hfault h

theorem keeps_lift {r : Except Fault α} (hr : ∀ fault, r = .error fault → Q fault) :
    Keeps I Q (lift r) := by
  cases r with
  | ok a => exact keeps_pure a
  | error fault => exact keeps_throw (hr fault rfl)

/--
What follows may rely on the invariant of the first part and on the way it gave its
value, and establish another invariant.
-/
theorem EndsIn.bind_of_eq {J : Machine.State → Prop} {x : Eval α} {f : α → Eval β}
    {s : Machine.State} (hx : EndsIn I Q (x s))
    (hfault : ∀ fault s', x s = .error fault s' → I s' → J s')
    (hf : ∀ a s', x s = .ok a s' → I s' → EndsIn J Q (f a s')) : EndsIn J Q ((x >>= f) s) := by
  show EndsIn J Q (EStateM.bind x f s)
  unfold EStateM.bind
  cases hresult : x s with
  | ok a s' =>
    rw [hresult] at hx
    cases hx with
    | value _ ht => exact hf a s' hresult ht
  | error fault s' =>
    rw [hresult] at hx
    cases hx with
    | fault hq ht => exact .fault hq (hfault fault s' hresult ht)

theorem EndsIn.bind {J : Machine.State → Prop} {x : Eval α} {f : α → Eval β} {s : Machine.State}
    (hx : EndsIn I Q (x s)) (hfault : ∀ s, I s → J s)
    (hf : ∀ a s, I s → EndsIn J Q (f a s)) : EndsIn J Q ((x >>= f) s) :=
  hx.bind_of_eq (fun _ s' _ hs' => hfault s' hs') fun a s' _ hs' => hf a s' hs'

theorem Keeps.bind {x : Eval α} {f : α → Eval β} (hx : Keeps I Q x)
    (hf : ∀ a, Keeps I Q (f a)) : Keeps I Q (x >>= f) :=
  fun s hs => (hx s hs).bind (fun _ h => h) hf

theorem Keeps.bind_of_ok {x : Eval α} {f : α → Eval β} (hx : Keeps I Q x)
    (hf : ∀ s a s', x s = .ok a s' → I s' → EndsIn I Q (f a s')) : Keeps I Q (x >>= f) :=
  fun s hs => (hx s hs).bind_of_eq (fun _ _ _ hs' => hs') (hf s)

theorem Keeps.map {x : Eval α} (hx : Keeps I Q x) (f : α → β) : Keeps I Q (f <$> x) := by
  intro s hs
  have hends := hx s hs
  show EndsIn I Q (EStateM.map f x s)
  unfold EStateM.map
  generalize x s = r at hends ⊢
  cases hends with
  | value a ht => exact .value (f a) ht
  | fault hq ht => exact .fault hq ht

/-- A sequence that gave a value went through one of its first part. -/
theorem exists_of_bind {x : Eval α} {f : α → Eval β} {s s' : Machine.State} {b : β}
    (h : (x >>= f) s = .ok b s') : ∃ a s₁, x s = .ok a s₁ ∧ f a s₁ = .ok b s' := by
  change EStateM.bind x f s = .ok b s' at h
  unfold EStateM.bind at h
  cases hx : x s with
  | ok a s₁ =>
    rw [hx] at h
    exact ⟨a, s₁, rfl, h⟩
  | error fault s₁ =>
    rw [hx] at h
    cases h

theorem keeps_get_bind {f : Machine.State → Eval β} (hf : ∀ s, I s → EndsIn I Q (f s s)) :
    Keeps I Q (get >>= f) := fun s h => hf s h

theorem keeps_modify {f : Machine.State → Machine.State} (hf : ∀ s, I s → I (f s)) :
    Keeps I Q (modify f) := fun s h => .value () (hf s h)

/-- The call that was counted is taken off again, with a value as well as with a fault. -/
theorem EndsIn.nested {J : Machine.State → Prop} {x : Eval α} {s : Machine.State}
    (hx : EndsIn I Q (x { s with depth := s.depth + 1 }))
    (hback : ∀ t, I t → J { t with depth := t.depth - 1 }) : EndsIn J Q (nested x s) := by
  unfold Eval.nested
  generalize x { s with depth := s.depth + 1 } = r at hx ⊢
  cases hx with
  | value a ht => exact .value a (hback _ ht)
  | fault hfault ht => exact .fault hfault (hback _ ht)

theorem Keeps.nested {x : Eval α} (hx : Keeps I Q x)
    (hdepth : ∀ s depth, I s → I { s with depth }) : Keeps I Q (nested x) :=
  fun s h => (hx _ (hdepth s (s.depth + 1) h)).nested fun t ht => hdepth t _ ht

/-! ## The store -/

/-- What permitted forms of expressions do to the objects and arrays of a store. -/
inductive StoreChange (P : Expr → Prop) (s : Store) : Store → Prop
  | write {target value : Value} {name : String} {store : Store}
      (h : s.write target name value = .ok store) : StoreChange P s store
  | object {fields : List (String × Expr)} (hfields : P (.object fields))
      {values : List (String × Value)} (h : values.map Prod.fst = fields.map Prod.fst) :
      StoreChange P s (s.newObject values).2
  | array (items : List Value) : StoreChange P s (s.newArray items).2

theorem closures_of_write {s store : Store} {v value : Value} {name : String}
    (h : s.write v name value = .ok store) : store.closures = s.closures := by
  cases v <;> cases h
  rfl

theorem StoreChange.closures {P : Expr → Prop} {s store : Store} (h : StoreChange P s store) :
    store.closures = s.closures := by
  cases h with
  | write h => exact closures_of_write h
  | object _ _ | array items => rfl

theorem not_isGap_read {s : Store} {v : Value} {name : String} {fault : Fault}
    (h : s.read v name = .error fault) : ¬ fault.IsGap := by
  cases v <;> simp only [Store.read, Store.read.refused, reduceCtorEq] at h <;>
    first
    | (obtain rfl := Except.error.inj h; exact id)
    | (split at h <;> cases h; exact id)

theorem not_isGap_write {s : Store} {v value : Value} {name : String} {fault : Fault}
    (h : s.write v name value = .error fault) : ¬ fault.IsGap := by
  cases v <;> simp only [Store.write, reduceCtorEq] at h <;>
    (obtain rfl := Except.error.inj h; exact id)

theorem not_isGap_index {s : Store} {v key : Value} {fault : Fault}
    (h : s.index v key = .error fault) : ¬ fault.IsGap := by
  unfold Store.index at h
  split at h <;> cases h
  exact id

theorem not_isGap_unary {s : Store} {op : UnaryOp} {v : Value} {fault : Fault}
    (h : s.unary op v = .error fault) : ¬ fault.IsGap := by
  unfold Store.unary at h
  split at h <;> cases h
  exact id

theorem not_isGap_binary {s : Store} {op : BinaryOp} {a b : Value} {fault : Fault}
    (h : s.binary op a b = .error fault) : ¬ fault.IsGap := by
  unfold Store.binary at h
  split at h <;> cases h
  exact id

/-! ## Code -/

section Lists

variable {m : Machine} {around : Surroundings} {frame : Frame}

theorem keeps_exprs {es : List Expr} (h : ∀ e ∈ es, Keeps I Q (expr m around frame e)) :
    Keeps I Q (exprs m around frame es) := by
  induction es with
  | nil =>
    simp only [exprs]
    exact keeps_pure []
  | cons e es ih =>
    obtain ⟨he, hes⟩ := List.forall_mem_cons.mp h
    simp only [exprs]
    exact he.bind fun value => (ih hes).bind fun values => keeps_pure (value :: values)

theorem keeps_namedExprs {es : List (String × Expr)}
    (h : ∀ e ∈ es, Keeps I Q (expr m around frame e.2)) :
    Keeps I Q (namedExprs m around frame es) := by
  induction es with
  | nil =>
    simp only [namedExprs]
    exact keeps_pure []
  | cons entry es ih =>
    obtain ⟨he, hes⟩ := List.forall_mem_cons.mp h
    obtain ⟨name, e⟩ := entry
    simp only [namedExprs]
    exact he.bind fun value => (ih hes).bind fun values => keeps_pure ((name, value) :: values)

/-- The fields of an object have the names that were written. -/
theorem map_fst_namedExprs {es : List (String × Expr)} {s s' : Machine.State}
    {values : List (String × Value)} (h : namedExprs m around frame es s = .ok values s') :
    values.map Prod.fst = es.map Prod.fst := by
  induction es generalizing s values with
  | nil =>
    simp only [namedExprs] at h
    cases h
    rfl
  | cons entry es ih =>
    obtain ⟨name, e⟩ := entry
    simp only [namedExprs] at h
    obtain ⟨value, s₁, -, h⟩ := exists_of_bind h
    obtain ⟨rest, s₂, hrest, h⟩ := exists_of_bind h
    cases h
    simp [ih hrest]

end Lists

/-! ## Chronicles -/

/-- What a relation says of an evaluation from some state, with some moments. -/
def Tells (K : Machine.State → List Moment → Option Fault → Machine.State → Prop) {α : Type}
    (s : Machine.State) (l : List Moment) : EStateM.Result Fault Machine.State α → Prop
  | .ok _ s' => K s l none s'
  | .error fault s' => K s l (some fault) s'

/--
A relation that holds of all that the permitted forms of expressions do in frames with the
given holes, and of all that their surroundings do, and passes from parts to sequences.
-/
structure Chronicle (K : Machine.State → List Moment → Option Fault → Machine.State → Prop)
    (m : Machine) (around : Surroundings) (below : Tracer) (holes : List Value)
    (P : Expr → Prop) : Prop where
  refl : ∀ s, K s [] none s
  trans : ∀ {s s₁ s₂ : Machine.State} {l l₁ : List Moment} {fault : Option Fault},
    K s l none s₁ → K s₁ l₁ fault s₂ → K s (l ++ l₁) fault s₂
  fault : ∀ s (fault : Fault), ¬ fault.IsGap → K s [] (some fault) s
  hole : ∀ s index, P (.hole index) → holes[index]? = none → K s [] (some (.missingHole index)) s
  error : ∀ s message, P (.error message) → K s [] (some (.placeholder message)) s
  store : ∀ s store, StoreChange P s.store store → K s [] none { s with store }
  lambda : ∀ s params body frame, frame.holes = holes → (Expr.lambda params body).Every P →
    K s [] none { s with store := (s.store.newClosure ⟨params, body, frame⟩).2 }
  static : ∀ s owner name e value, P (.setStatic owner name e) →
    K s [] none (s.write ⟨owner, name, value, false⟩)
  start : ∀ owner s, Tells K s (below.start owner s) (around.start owner s)
  call : ∀ method receiver args s,
    Tells K s (callMoments m below.enter method receiver args s)
      (callMethod m around.enter method receiver args s)
  apply : ∀ function args s,
    Tells K s (applyMoments below.enter function args s)
      (applyValue m around.enter function args s)

theorem Keeps.tells {x : Eval α} (h : Keeps I Q x) (s : Machine.State) (l : List Moment) :
    Tells (fun s _ fault s' => I s → I s' ∧ ∀ f ∈ fault, Q f) s l (x s) := by
  have hends := h s
  cases hresult : x s with
  | ok a s' =>
    intro hs
    have hvalue := hends hs
    rw [hresult] at hvalue
    cases hvalue with
    | value _ ht => exact ⟨ht, by simp⟩
  | error fault s' =>
    intro hs
    have hfault := hends hs
    rw [hresult] at hfault
    cases hfault with
    | fault hq ht => exact ⟨ht, by simpa using hq⟩

namespace Chronicle

variable {K : Machine.State → List Moment → Option Fault → Machine.State → Prop} {m : Machine}
  {around : Surroundings} {below : Tracer} {holes : List Value} {P : Expr → Prop}
  (h : Chronicle K m around below holes P) {s : Machine.State}

include h

/-- The moments of a sequence are those of its first part and, if this gave a value, of the rest. -/
theorem bind {x : Eval α} {f : α → Eval β} {l : List Moment}
    {next : α → Machine.State → List Moment} (hx : Tells K s l (x s))
    (hf : ∀ a s', x s = .ok a s' → Tells K s' (next a s') (f a s')) :
    Tells K s (l ++ following (x s) next) ((x >>= f) s) := by
  show Tells K s _ (EStateM.bind x f s)
  unfold EStateM.bind following
  cases hresult : x s with
  | ok a s' =>
    rw [hresult] at hx
    have hnext := hf a s' hresult
    dsimp only
    cases hend : f a s' with
    | ok b t =>
      rw [hend] at hnext
      exact h.trans hx hnext
    | error fault t =>
      rw [hend] at hnext
      exact h.trans hx hnext
  | error fault s' =>
    rw [hresult] at hx
    rw [List.append_nil]
    exact hx

/-- What follows has no moments. -/
theorem silent {x : Eval α} {f : α → Eval β} {l : List Moment} (hx : Tells K s l (x s))
    (hf : ∀ a s', x s = .ok a s' → Tells K s' [] (f a s')) : Tells K s l ((x >>= f) s) := by
  have hnone : following (x s) (fun _ _ => ([] : List Moment)) = [] := by
    unfold following
    cases x s <;> rfl
  have htells : Tells K s (l ++ following (x s) fun _ _ => []) ((x >>= f) s) := h.bind hx hf
  rwa [hnone, List.append_nil] at htells

theorem ofStore {f : Store → Except Fault α}
    (hf : ∀ store fault, f store = .error fault → ¬ fault.IsGap) :
    Tells K s [] (ofStore f s) := by
  show Tells K s [] (lift (f s.store) s)
  cases hresult : f s.store with
  | ok a => exact h.refl s
  | error fault => exact h.fault s fault (hf s.store fault hresult)

/-- A field that is written, with what follows an assignment. -/
theorem write (s : Machine.State) (target : Value) (name : String) (value : Value) :
    Tells K s [] ((do
      setStore (← Eval.ofStore fun store => store.write target name value)
      return Value.undefined : Eval Value) s) := by
  show Tells K s [] (EStateM.bind (lift (s.store.write target name value)) _ s)
  cases hresult : s.store.write target name value with
  | ok store => exact h.store s store (.write hresult)
  | error fault => exact h.fault s fault (not_isGap_write hresult)

theorem exprs {frame : Frame} {es : List Expr}
    (hes : ∀ e ∈ es, ∀ s, Tells K s (moments m around below frame e s) (expr m around frame e s))
    (s : Machine.State) :
    Tells K s (momentsOfAll m around below frame es s) (exprs m around frame es s) := by
  induction es generalizing s with
  | nil =>
    simp only [Eval.exprs, momentsOfAll]
    exact h.refl s
  | cons e es ih =>
    obtain ⟨he, hes⟩ := List.forall_mem_cons.mp hes
    simp only [Eval.exprs, momentsOfAll]
    exact h.bind (he s) fun value s₁ _ => h.silent (ih hes s₁) fun values s₂ _ => h.refl s₂

theorem namedExprs {frame : Frame} {es : List (String × Expr)}
    (hes : ∀ e ∈ es, ∀ s,
      Tells K s (moments m around below frame e.2 s) (expr m around frame e.2 s))
    (s : Machine.State) :
    Tells K s (momentsOfFields m around below frame es s) (namedExprs m around frame es s) := by
  induction es generalizing s with
  | nil =>
    simp only [Eval.namedExprs, momentsOfFields]
    exact h.refl s
  | cons entry es ih =>
    obtain ⟨name, e⟩ := entry
    obtain ⟨he, hrest⟩ := List.forall_mem_cons.mp hes
    simp only [Eval.namedExprs, momentsOfFields]
    exact h.bind (he s) fun value s₁ _ => h.silent (ih hrest s₁) fun values s₂ _ => h.refl s₂

theorem lastOf {frame : Frame} {es : List Expr}
    (hes : ∀ e ∈ es, ∀ s, Tells K s (moments m around below frame e s) (expr m around frame e s))
    (last : Value) (s : Machine.State) :
    Tells K s (momentsOfAll m around below frame es s) (lastOf m around frame last es s) := by
  induction es generalizing last s with
  | nil =>
    simp only [Eval.lastOf, momentsOfAll]
    exact h.refl s
  | cons e es ih =>
    obtain ⟨he, hes⟩ := List.forall_mem_cons.mp hes
    simp only [Eval.lastOf, momentsOfAll]
    exact h.bind (he s) fun value s₁ _ => ih hes value s₁

theorem binary {frame : Frame} {op : BinaryOp} {left right : Expr}
    (hleft : ∀ s, Tells K s (moments m around below frame left s) (expr m around frame left s))
    (hright : ∀ s, Tells K s (moments m around below frame right s) (expr m around frame right s))
    (s : Machine.State) :
    Tells K s (moments m around below frame (.binary op left right) s)
      (expr m around frame (.binary op left right) s) := by
  cases op with
  | and =>
    simp only [Eval.expr, moments]
    refine h.bind (hleft s) fun value s₁ _ => ?_
    cases value.truthy with
    | true => exact hright s₁
    | false => exact h.refl s₁
  | or =>
    simp only [Eval.expr, moments]
    refine h.bind (hleft s) fun value s₁ _ => ?_
    cases value.truthy with
    | true => exact h.refl s₁
    | false => exact hright s₁
  | _ =>
    simp only [Eval.expr, moments]
    refine h.bind (hleft s) fun a s₁ _ => h.silent (hright s₁) fun b s₂ _ => ?_
    exact h.ofStore fun store fault hfault => not_isGap_binary hfault

/-- The relation holds of permitted code. -/
theorem expr {frame : Frame} (hframe : frame.holes = holes) {e : Expr} (he : e.Every P)
    (s : Machine.State) :
    Tells K s (moments m around below frame e s) (expr m around frame e s) := by
  -- The frame varies: the body of a `let` is evaluated in a larger one, with the same holes.
  induction e using Expr.childInduction generalizing frame s with
  | step e ih =>
    have hchild {c : Expr} (hc : c ∈ e.children) (s : Machine.State) :
        Tells K s (moments m around below frame c s) (Eval.expr m around frame c s) :=
      ih c hc hframe (he.child hc) s
    cases e with
    | letIn name value body =>
      simp only [Eval.expr, moments]
      have hbody : body ∈ (Expr.letIn name value body).children := by simp [Expr.children]
      refine h.bind (hchild (by simp [Expr.children]) s) fun v s₁ _ => ?_
      have hbind : (frame.bind name v).holes = holes := hframe
      exact ih body hbody hbind (he.child hbody) s₁
    | lambda params body =>
      simp only [Eval.expr, moments]
      exact h.lambda s params body frame hframe he
    | apply function args | new function args =>
      simp only [Eval.expr, moments]
      refine h.bind (hchild (by simp [Expr.children]) s) fun value s₁ _ => ?_
      refine h.bind (h.exprs (fun a ha => hchild (by simp [Expr.children, ha])) s₁) ?_
      exact fun values s₂ _ => h.apply value values s₂
    | call receiver method args =>
      have hargs : ∀ a ∈ args, ∀ s,
          Tells K s (moments m around below frame a s) (Eval.expr m around frame a s) :=
        fun a ha => hchild (by simp [Expr.children, ha])
      cases receiver with
      | none =>
        simp only [Eval.expr, moments]
        exact h.bind (h.exprs hargs s) fun values s₁ _ => h.call method none values s₁
      | some receiver =>
        simp only [Eval.expr, moments]
        refine h.bind (hchild (by simp [Expr.children]) s) fun value s₁ _ => ?_
        exact h.bind (h.exprs hargs s₁) fun values s₂ _ => h.call method (some value) values s₂
    | field target name =>
      simp only [Eval.expr, moments]
      refine h.silent (hchild (by simp [Expr.children]) s) fun value s₁ _ => ?_
      exact h.ofStore fun store fault hfault => not_isGap_read hfault
    | setField target name value =>
      simp only [Eval.expr, moments]
      refine h.bind (hchild (by simp [Expr.children]) s) fun object s₁ _ => ?_
      refine h.silent (hchild (by simp [Expr.children]) s₁) fun written s₂ _ => ?_
      exact h.write s₂ object name written
    | item target key =>
      simp only [Eval.expr, moments]
      refine h.bind (hchild (by simp [Expr.children]) s) fun object s₁ _ => ?_
      refine h.silent (hchild (by simp [Expr.children]) s₁) fun key s₂ _ => ?_
      exact h.ofStore fun store fault hfault => not_isGap_index hfault
    | setStatic owner name value =>
      simp only [Eval.expr, moments]
      refine h.silent (hchild (by simp [Expr.children]) s) fun written s₁ _ => ?_
      exact h.static s₁ owner name value written he.self
    | ite condition yes no =>
      simp only [Eval.expr, moments]
      refine h.bind (hchild (by simp [Expr.children]) s) fun value s₁ _ => ?_
      cases value.truthy with
      | true => exact hchild (by simp [Expr.children]) s₁
      | false => exact hchild (by simp [Expr.children]) s₁
    | seq items =>
      simp only [Eval.expr, moments]
      exact h.lastOf (fun a ha => hchild ha) .undefined s
    | object fields =>
      simp only [Eval.expr, moments]
      refine h.silent (h.namedExprs (fun entry hentry => ?_) s) fun values s₁ hvalues => ?_
      · exact hchild (List.mem_map.mpr ⟨entry, hentry, rfl⟩)
      · exact h.store s₁ _ (.object he.self (map_fst_namedExprs hvalues))
    | array items =>
      simp only [Eval.expr, moments]
      refine h.silent (h.exprs (fun a ha => hchild ha) s) fun values s₁ _ => ?_
      exact h.store s₁ _ (.array values)
    | binary op left right =>
      exact h.binary (hchild (by simp [Expr.children])) (hchild (by simp [Expr.children])) s
    | unary op operand =>
      simp only [Eval.expr, moments]
      refine h.silent (hchild (by simp [Expr.children]) s) fun value s₁ _ => ?_
      exact h.ofStore fun store fault hfault => not_isGap_unary hfault
    | undefined | literal value =>
      simp only [Eval.expr, moments]
      exact h.refl s
    | self =>
      simp only [Eval.expr, moments]
      cases frame.receiver with
      | none => exact h.fault s _ id
      | some value => exact h.refl s
    | var name =>
      simp only [Eval.expr, moments]
      cases frame.var? name with
      | none => exact h.fault s _ id
      | some value => exact h.refl s
    | hole index =>
      simp only [Eval.expr, moments, hframe]
      cases hhole : holes[index]? with
      | none => exact h.hole s index he.self hhole
      | some value => exact h.refl s
    | global path =>
      simp only [Eval.expr, moments]
      cases m.hosts.contains path with
      | true => exact h.refl s
      | false => exact h.fault s _ id
    | static owner name =>
      simp only [Eval.expr, moments]
      exact h.refl s
    | start owner =>
      simp only [Eval.expr, moments]
      exact h.silent (h.start owner s) fun _ s₁ _ => h.refl s₁
    | error message =>
      simp only [Eval.expr, moments]
      exact h.error s message he.self

end Chronicle

/-! ## Invariants -/

/--
An invariant survives all that the permitted forms of expressions do in frames
with the given holes, and all that their surroundings do.
-/
structure Upkeep (I : Machine.State → Prop) (Q : Fault → Prop) (m : Machine)
    (around : Surroundings) (holes : List Value) (P : Expr → Prop) : Prop where
  fault : ∀ fault : Fault, ¬ fault.IsGap → Q fault
  hole : ∀ index, P (.hole index) → holes[index]? = none → Q (.missingHole index)
  error : ∀ message, P (.error message) → Q (.placeholder message)
  store : ∀ s store, I s → StoreChange P s.store store → I { s with store }
  lambda : ∀ s params body frame, I s → frame.holes = holes → (Expr.lambda params body).Every P →
    I { s with store := (s.store.newClosure ⟨params, body, frame⟩).2 }
  static : ∀ s owner name e value, I s → P (.setStatic owner name e) →
    I (s.write ⟨owner, name, value, false⟩)
  start : ∀ owner, Keeps I Q (around.start owner)
  call : ∀ method receiver args, Keeps I Q (callMethod m around.enter method receiver args)
  apply : ∀ function args, Keeps I Q (applyValue m around.enter function args)

section Expr

variable {m : Machine} {around : Surroundings} {holes : List Value} {P : Expr → Prop}

/-- An invariant that survives may be told of every evaluation, whatever its moments are. -/
theorem Upkeep.chronicle (h : Upkeep I Q m around holes P) :
    Chronicle (fun s _ fault s' => I s → I s' ∧ ∀ f ∈ fault, Q f) m around
      ⟨fun _ _ _ => [], fun _ _ => []⟩ holes P where
  refl _ hs := ⟨hs, by simp⟩
  trans hx hf hs := hf (hx hs).1
  fault _ fault hfault hs := ⟨hs, by simpa using h.fault fault hfault⟩
  hole _ index hhole hnone hs := ⟨hs, by simpa using h.hole index hhole hnone⟩
  error _ message herror hs := ⟨hs, by simpa using h.error message herror⟩
  store s store hchange hs := ⟨h.store s store hs hchange, by simp⟩
  lambda s params body frame hframe hbody hs :=
    ⟨h.lambda s params body frame hs hframe hbody, by simp⟩
  static s owner name e value hstatic hs := ⟨h.static s owner name e value hs hstatic, by simp⟩
  start owner s := (h.start owner).tells s _
  call method receiver args s := (h.call method receiver args).tells s _
  apply function args s := (h.apply function args).tells s _

/-- Permitted code keeps the invariant. -/
theorem Upkeep.expr (h : Upkeep I Q m around holes P) {frame : Frame}
    (hframe : frame.holes = holes) {e : Expr} (he : e.Every P) :
    Keeps I Q (expr m around frame e) := by
  intro s hs
  have htells := h.chronicle.expr hframe he s
  cases hresult : Eval.expr m around frame e s with
  | ok value s' =>
    rw [hresult] at htells
    exact .value value (htells hs).1
  | error fault s' =>
    rw [hresult] at htells
    exact .fault ((htells hs).2 fault rfl) (htells hs).1

end Expr

/-! ## Leaving a body -/

section Leaving

variable {m : Machine} {enter : Frame → Expr → Eval Value}

theorem keeps_callHost_of (hfault : ∀ fault, Q fault) {name : String} {args : List Value}
    (hhost : ∀ host s, m.hosts.get? name = some host → I s →
      I { s with
        store := (host s.calls args s.store).2
        calls := ⟨name, args, s.store⟩ :: s.calls }) :
    Keeps I Q (callHost m name args) := by
  unfold callHost
  cases hget : m.hosts.get? name with
  | none => exact keeps_throw (hfault _)
  | some host =>
    refine keeps_get_bind fun s hs => ?_
    exact keeps_lift (fun fault _ => hfault fault) _ (hhost host s hget hs)

theorem keeps_callMethod_of (hfault : ∀ fault, Q fault) {ref : MethodRef}
    {receiver : Option Value} {args : List Value}
    (henter : ∀ r frame, m.lookup ref = .ok r → r.frame? receiver args = some frame →
      Keeps I Q (enter frame r.body)) :
    Keeps I Q (callMethod m enter ref receiver args) := by
  unfold callMethod
  cases hlookup : m.lookup ref with
  | error fault => exact keeps_throw (hfault fault)
  | ok r =>
    refine Keeps.bind_of_ok (keeps_pure r) fun s found s' hfound hs' => ?_
    obtain ⟨rfl, rfl⟩ := EStateM.Result.ok.inj hfound
    cases hframe : r.frame? receiver args with
    | none => exact .fault (hfault _) hs'
    | some frame => exact henter r frame hlookup hframe s hs'

theorem keeps_applyValue_of (hfault : ∀ fault, Q fault) {function : Value} {args : List Value}
    (hhost : ∀ name, Keeps I Q (callHost m name args))
    (hclosure : ∀ s frame, ∀ closure ∈ s.store.closures, I s →
      EndsIn I Q (enter frame closure.body s)) :
    Keeps I Q (applyValue m enter function args) := by
  have hrefuse : Keeps I Q
      (do throw (.notCallable ((← get).store.text function)) : Eval Value) :=
    keeps_get_bind fun s hs => .fault (hfault _) hs
  unfold applyValue
  cases function with
  | host name => exact hhost name
  | closure ref =>
    refine keeps_get_bind fun s hs => ?_
    cases hget : s.store.closures[ref]? with
    | none => exact hrefuse s hs
    | some closure => exact hclosure s _ closure (Array.mem_of_getElem? hget) hs
  | _ => exact hrefuse

section Chronicles

variable {K : Machine.State → List Moment → Option Fault → Machine.State → Prop}
  {trace : Frame → Expr → Machine.State → List Moment} {s : Machine.State}

theorem tells_callHost_of (hfault : ∀ fault, K s [] (some fault) s) {name : String}
    {args : List Value}
    (hhost : ∀ host fault, m.hosts.get? name = some host →
      K s [] fault { s with
        store := (host s.calls args s.store).2
        calls := ⟨name, args, s.store⟩ :: s.calls }) :
    Tells K s [] (callHost m name args s) := by
  unfold callHost
  cases hget : m.hosts.get? name with
  | none => exact hfault _
  | some host =>
    show Tells K s [] (lift (host s.calls args s.store).1 _)
    cases (host s.calls args s.store).1 with
    | ok value => exact hhost host none hget
    | error fault => exact hhost host (some fault) hget

theorem tells_callMethod_of (hfault : ∀ fault, K s [] (some fault) s) {ref : MethodRef}
    {receiver : Option Value} {args : List Value}
    (henter : ∀ r frame, m.lookup ref = .ok r → r.frame? receiver args = some frame →
      Tells K s (trace frame r.body s) (enter frame r.body s)) :
    Tells K s (callMoments m trace ref receiver args s)
      (callMethod m enter ref receiver args s) := by
  unfold callMethod callMoments
  cases hlookup : m.lookup ref with
  | error fault => exact hfault fault
  | ok r =>
    have hfound : lift (.ok r) s = .ok r s := rfl
    rw [bind_of_ok hfound]
    dsimp only
    cases hframe : r.frame? receiver args with
    | none => exact hfault _
    | some frame => exact henter r frame hlookup hframe

theorem tells_applyValue_of (hfault : ∀ fault, K s [] (some fault) s) {function : Value}
    {args : List Value} (hhost : ∀ name, Tells K s [] (callHost m name args s))
    (hclosure : ∀ frame, ∀ closure ∈ s.store.closures,
      Tells K s (trace frame closure.body s) (enter frame closure.body s)) :
    Tells K s (applyMoments trace function args s) (applyValue m enter function args s) := by
  cases function with
  | host name => exact hhost name
  | closure ref =>
    have hstate : (get : Eval Machine.State) s = .ok s s := rfl
    unfold applyValue applyMoments
    dsimp only
    rw [bind_of_ok hstate]
    cases hget : s.store.closures[ref]? with
    | none => exact hfault _
    | some closure => exact hclosure _ closure (Array.mem_of_getElem? hget)
  | _ => exact hfault _

end Chronicles

theorem keeps_runEntryPoint_of (hfault : ∀ fault, Q fault)
    (heval : ∀ e, m.build.entryPoint = some (.expr e) → Keeps I Q (m.eval e)) :
    Keeps I Q m.runEntryPoint := by
  unfold Machine.runEntryPoint
  split
  · exact keeps_pure none
  · next e hentry => exact (heval e hentry).map some
  · exact keeps_throw (hfault _)

end Leaving

end Eval

end Memberwise
