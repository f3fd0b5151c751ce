import Mathlib
import Memberwise.Emit.Body
import Memberwise.Proofs.Lockstep

/-!
# Inlining source bodies

A source body names its parameters; its template reads them from holes.  Running
the body with its parameters bound by name and running the template with its
holes filled are shown to proceed in lockstep.

Inside the body, variables that hide a parameter must hide it on both sides.  A
`let` always binds its name, but a function called with too few arguments leaves
some of its names unbound, and then a hidden parameter would show through in the
body and not in the template.  So no function in the body may rebind a parameter.
-/

namespace Memberwise

namespace Expr

/-- A part that a template can take over: no hole, and no function that rebinds a parameter. -/
def Inlinable (params : List String) : Expr → Prop
  | hole _ => False
  | lambda names _ => ∀ name ∈ params, name ∉ names
  | _ => True

end Expr

/-- A call of a body, with an argument for each of its parameters. -/
structure Inlining where
  params : List String
  receiver : Option Value
  args : List Value
  distinct : params.Nodup
  complete : args.length = params.length

namespace Inlining

variable (p : Inlining)

/-- The frame of the body, once some variables have been bound in it. -/
def named (locals : List (String × Value)) : Frame :=
  { receiver := p.receiver, vars := locals ++ (p.params.zip p.args).reverse }

/-- The frame of the template, once some variables have been bound in it. -/
def filled (locals : List (String × Value)) : Frame :=
  { holes := p.receiver.toList ++ p.args, vars := locals }

/-- The template of a part of the body, inside binders of the given names. -/
def template (bound : List String) (e : Expr) : Expr :=
  e.toTemplate p.params p.receiver.isSome bound

/-- Names and variables that hide the same parameters. -/
def Hides (bound : List String) (locals : List (String × Value)) : Prop :=
  ∀ name ∈ p.params, name ∈ bound ↔ name ∈ locals.map Prod.fst

/-- Code on both sides: the same code, or a part of the body and its template. -/
inductive Coupled : Frame → Expr → Frame → Expr → Prop
  | same (f : Frame) (e : Expr) : Coupled f e f e
  | template {bound : List String} {locals : List (String × Value)} {e : Expr}
      (hides : p.Hides bound locals) (inlinable : e.Every (Expr.Inlinable p.params)) :
      Coupled (p.named locals) e (p.filled locals) (p.template bound e)

/-- A function and its counterpart: the same, or made by a lambda of body and template. -/
inductive Counterpart : Closure → Closure → Prop
  | same (c : Closure) : Counterpart c c
  | template {bound : List String} {locals : List (String × Value)} {names : List String}
      {body : Expr} (hides : p.Hides bound locals)
      (inlinable : (Expr.lambda names body).Every (Expr.Inlinable p.params)) :
      Counterpart ⟨names, body, p.named locals⟩
        ⟨names, p.template (names ++ bound) body, p.filled locals⟩

variable {p} {bound : List String} {locals : List (String × Value)}

theorem named_bindAll (names : List String) (args : List Value) :
    (p.named locals).bindAll names args = p.named ((names.zip args).reverse ++ locals) := by
  simp [named, Frame.bindAll]

theorem filled_bindAll (names : List String) (args : List Value) :
    (p.filled locals).bindAll names args = p.filled ((names.zip args).reverse ++ locals) := rfl

theorem Hides.bind (h : p.Hides bound locals) (name : String) (v : Value) :
    p.Hides (name :: bound) ((name, v) :: locals) := by
  intro param hparam
  simp only [List.map_cons, List.mem_cons, h param hparam]

/-- Names that are no parameters hide nothing, whether they are bound or not. -/
theorem Hides.bindAll (h : p.Hides bound locals) {names : List String}
    (hnames : ∀ param ∈ p.params, param ∉ names) (args : List Value) :
    p.Hides (names ++ bound) ((names.zip args).reverse ++ locals) := by
  intro param hparam
  have hunzipped : param ∉ (names.zip args).reverse.map Prod.fst := by
    intro hmem
    obtain ⟨entry, hentry, rfl⟩ := List.mem_map.mp hmem
    exact hnames _ hparam (List.of_mem_zip (List.mem_reverse.mp hentry)).1
  simp only [List.map_append, List.mem_append, hnames param hparam, hunzipped, false_or,
    h param hparam]

/-! ## Reading parameters -/

theorem named_var?_of_not_mem {name : String} (hname : name ∉ p.params) :
    (p.named locals).var? name = (p.filled locals).var? name := by
  have habsent : Table.lookupIn name (p.params.zip p.args).reverse = none := by
    rw [Table.lookupIn_eq_none]
    intro hmem
    obtain ⟨entry, hentry, rfl⟩ := List.mem_map.mp hmem
    exact hname (List.of_mem_zip (List.mem_reverse.mp hentry)).1
  simp only [Frame.var?, named, filled, Table.lookupIn_append, habsent, Option.or_none]

theorem named_var?_of_local {name : String} (hname : name ∈ locals.map Prod.fst) :
    (p.named locals).var? name = (p.filled locals).var? name := by
  obtain ⟨v, hv⟩ := Option.isSome_iff_exists.mp ((Table.isSome_lookupIn name locals).mpr hname)
  simp only [Frame.var?, named, filled, Table.lookupIn_append, hv, Option.some_or]

/-- A parameter that nothing hides is read from the hole of its position. -/
theorem named_var?_of_param {i : Nat} (hi : i < p.params.length)
    (hlocal : p.params[i] ∉ locals.map Prod.fst) :
    ∃ v, (p.named locals).var? p.params[i] = some v ∧
      (p.filled locals).holes[i + if p.receiver.isSome then 1 else 0]? = some v := by
  have hi' : i < p.args.length := p.complete ▸ hi
  have hkeys : (((p.params.zip p.args).reverse).map Prod.fst).Nodup := by
    rw [List.map_reverse, List.nodup_reverse, List.map_fst_zip (le_of_eq p.complete.symm)]
    exact p.distinct
  have hfound : Table.lookupIn p.params[i] (p.params.zip p.args).reverse = some p.args[i] := by
    rw [Table.lookupIn_eq_some_iff hkeys, List.mem_reverse]
    exact List.mem_iff_getElem.mpr ⟨i, by simp [hi, hi'], by simp⟩
  have hhole : (p.receiver.toList ++ p.args)[i + if p.receiver.isSome then 1 else 0]? =
      some p.args[i] := by
    cases p.receiver with
    | none => simp [hi']
    | some receiver => simp [hi']
  refine ⟨p.args[i], ?_, hhole⟩
  simp only [Frame.var?, named, Table.lookupIn_append,
    (Table.lookupIn_eq_none _ _).mpr hlocal, Option.none_or, hfound]

theorem expr_template_var (hides : p.Hides bound locals) (name : String) (m : Machine)
    (around : Eval.Surroundings) :
    Eval.expr m around (p.named locals) (.var name) =
      Eval.expr m around (p.filled locals) (p.template bound (.var name)) := by
  by_cases hbound : name ∈ bound
  -- A bound name stays a variable, and a local hides the parameter of that name.
  · have htemplate : p.template bound (.var name) = .var name := by
      simp [template, Expr.toTemplate, hbound]
    have hvar : (p.named locals).var? name = (p.filled locals).var? name := by
      by_cases hparam : name ∈ p.params
      · exact named_var?_of_local ((hides name hparam).mp hbound)
      · exact named_var?_of_not_mem hparam
    simp only [htemplate, Eval.expr, hvar]
  · cases hindex : p.params.findIdx? (· = name) with
    | none =>
      have hparam : name ∉ p.params := by
        intro hmem
        simpa using List.findIdx?_eq_none_iff.mp hindex name hmem
      have htemplate : p.template bound (.var name) = .var name := by
        simp [template, Expr.toTemplate, hbound, hindex]
      simp only [htemplate, Eval.expr, named_var?_of_not_mem hparam]
    | some i =>
      obtain ⟨hi, hname, -⟩ := List.findIdx?_eq_some_iff_getElem.mp hindex
      obtain rfl : p.params[i] = name := by simpa using hname
      have hlocal : p.params[i] ∉ locals.map Prod.fst := fun hmem =>
        hbound ((hides _ (List.getElem_mem hi)).mpr hmem)
      have htemplate : p.template bound (.var p.params[i]) =
          .hole (i + if p.receiver.isSome then 1 else 0) := by
        simp only [template, Expr.toTemplate, List.contains_eq_mem, hbound, decide_false,
          Bool.false_eq_true, if_false, hindex]
      obtain ⟨v, hvar, hhole⟩ := named_var?_of_param hi hlocal
      simp only [htemplate, Eval.expr, hvar, hhole]

theorem expr_template_self (m : Machine) (around : Eval.Surroundings) :
    Eval.expr m around (p.named locals) .self =
      Eval.expr m around (p.filled locals) (p.template bound .self) := by
  cases hreceiver : p.receiver with
  | none => simp [template, Expr.toTemplate, Eval.expr, named, filled, hreceiver]
  | some receiver => simp [template, Expr.toTemplate, Eval.expr, named, filled, hreceiver]

/-! ## Lockstep of a body and its template -/

theorem Coupled.parallel_same (f : Frame) (e : Expr) :
    Eval.Parallel p.Counterpart p.Coupled f f e e := by
  have hall (es : List Expr) : List.Forall₂ (fun a a' => p.Coupled f a f a') es es :=
    List.forall₂_same.mpr fun a _ => .same f a
  have hfields (es : List (String × Expr)) :
      List.Forall₂ (fun a a' => a.1 = a'.1 ∧ p.Coupled f a.2 f a'.2) es es :=
    List.forall₂_same.mpr fun a _ => ⟨rfl, .same f a.2⟩
  cases e with
  | letIn name value body => exact ⟨_, _, rfl, .same f value, fun v => .same (f.bind name v) body⟩
  | lambda params body => exact ⟨_, rfl, .same _⟩
  | apply function args | new function args => exact ⟨_, _, rfl, .same f function, hall args⟩
  | call receiver method args =>
    cases receiver with
    | none => exact ⟨_, rfl, hall args⟩
    | some receiver => exact ⟨_, _, rfl, .same f receiver, hall args⟩
  | field target name | setStatic owner name target | unary op target =>
    exact ⟨_, rfl, .same f target⟩
  | setField left name right | item left right | binary op left right =>
    exact ⟨_, _, rfl, .same f left, .same f right⟩
  | ite condition yes no => exact ⟨_, _, _, rfl, .same f condition, .same f yes, .same f no⟩
  | seq items | array items => exact ⟨_, rfl, hall items⟩
  | object fields => exact ⟨_, rfl, hfields fields⟩
  | _ => exact fun _ _ => rfl

theorem Coupled.parallel_template (hides : p.Hides bound locals) {e : Expr}
    (h : e.Every (Expr.Inlinable p.params)) :
    Eval.Parallel p.Counterpart p.Coupled (p.named locals) (p.filled locals)
      (p.template bound e) e := by
  have hpart {c : Expr} (hc : c ∈ e.children) :
      p.Coupled (p.named locals) c (p.filled locals) (p.template bound c) :=
    .template hides (h.child hc)
  have hall {es : List Expr} (hes : ∀ c ∈ es, c ∈ e.children) :
      List.Forall₂ (fun a a' => p.Coupled (p.named locals) a (p.filled locals) a') es
        (Expr.toTemplates p.params p.receiver.isSome es bound) := by
    rw [Expr.toTemplates_eq_map, List.forall₂_map_right_iff]
    exact List.forall₂_same.mpr fun c hc => hpart (hes c hc)
  cases e with
  | letIn name value body =>
    refine ⟨_, _, rfl, hpart (by simp [Expr.children]), fun v => ?_⟩
    exact .template (hides.bind name v) (h.child (by simp [Expr.children]))
  | lambda names body => exact ⟨_, rfl, .template hides h⟩
  | apply function args | new function args =>
    exact ⟨_, _, rfl, hpart List.mem_cons_self, hall fun c hc => List.mem_cons_of_mem _ hc⟩
  | call receiver method args =>
    cases receiver with
    | none => exact ⟨_, rfl, hall fun c hc => hc⟩
    | some receiver =>
      exact ⟨_, _, rfl, hpart List.mem_cons_self, hall fun c hc => List.mem_cons_of_mem _ hc⟩
  | field target name | setStatic owner name target | unary op target =>
    exact ⟨_, rfl, hpart (by simp [Expr.children])⟩
  | setField left name right | item left right | binary op left right =>
    exact ⟨_, _, rfl, hpart (by simp [Expr.children]), hpart (by simp [Expr.children])⟩
  | ite condition yes no =>
    exact ⟨_, _, _, rfl, hpart (by simp [Expr.children]), hpart (by simp [Expr.children]),
      hpart (by simp [Expr.children])⟩
  | seq items | array items => exact ⟨_, rfl, hall fun c hc => hc⟩
  | object fields =>
    refine ⟨_, rfl, ?_⟩
    rw [Expr.toTemplateFields_eq_map, List.forall₂_map_right_iff]
    exact List.forall₂_same.mpr fun entry hentry =>
      ⟨rfl, hpart (List.mem_map.mpr ⟨entry, hentry, rfl⟩)⟩
  | var name => exact fun m around => expr_template_var hides name m around
  | self => exact fun m around => expr_template_self m around
  | hole index => exact h.self.elim
  | _ => exact fun _ _ => rfl

theorem coupling (p : Inlining) : Eval.Coupling p.Counterpart p.Coupled where
  refl f e := .same f e
  parallel h := by
    cases h with
    | same => exact Coupled.parallel_same _ _
    | template hides h => exact Coupled.parallel_template hides h
  apply h args := by
    cases h with
    | same c => exact .same _ _
    | template hides h =>
      rw [named_bindAll, filled_bindAll]
      exact .template (hides.bindAll h.self args) (h.child (by simp [Expr.children]))

end Inlining

theorem Expr.every_inlinable {params : List String} {body : Expr} (hhole : body.hasHole = false)
    (hlambda : ∀ names inner, .lambda names inner ∈ body.subterms →
      ∀ name ∈ params, name ∉ names) :
    body.Every (Inlinable params) := by
  intro t ht
  cases t with
  | hole index =>
    have hany : body.hasHole = true := List.any_eq_true.mpr ⟨_, ht, rfl⟩
    rw [hhole] at hany
    exact Bool.false_ne_true hany
  | lambda names inner => exact hlambda names inner ht
  | _ => exact trivial

/--
A source body and its template come to the same outcome when they are called:
the same fault, or the same value, and in either case the same static fields,
started types, objects, arrays and host calls.  Functions made by the body
correspond to those made by the template.
-/
theorem inlined_call_same_outcome (m : Machine) (s : Machine.State) (source inlined : Method)
    (hasReceiver : Bool) (receiver : Option Value) (args : List Value)
    (hsource : source.kind = .callable) (hinlined : inlined.kind = .inline)
    (hbody : inlined.body = source.body.toTemplate source.params hasReceiver [])
    (hhole : source.body.hasHole = false) (hdistinct : source.params.Nodup)
    (hlambda : ∀ names inner, .lambda names inner ∈ source.body.subterms →
      ∀ name ∈ source.params, name ∉ names)
    (hreceiver : receiver.isSome = hasReceiver) (hargs : args.length = source.params.length)
    (hhosts : m.HostsBlind
      (Inlining.mk source.params receiver args hdistinct hargs).Counterpart) :
    ∃ named filled, source.frame? receiver args = some named ∧
      inlined.frame? receiver args = some filled ∧
      Eval.SameOutcome (Inlining.mk source.params receiver args hdistinct hargs).Counterpart
        (Eval.enter m named source.body s) (Eval.enter m filled inlined.body s) := by
  let p := Inlining.mk source.params receiver args hdistinct hargs
  have hnamed : source.frame? receiver args = some (p.named []) := by
    simp [Method.frame?, hsource, Frame.bindAll, Inlining.named, p]
  have hfilled : inlined.frame? receiver args = some (p.filled []) := by
    simp [Method.frame?, hinlined, Inlining.filled, p]
  have htemplate : inlined.body = p.template [] source.body := by
    rw [hbody, ← hreceiver]
    rfl
  have hcoupled : p.Coupled (p.named []) source.body (p.filled []) (p.template [] source.body) :=
    .template (fun name _ => by simp) (Expr.every_inlinable hhole hlambda)
  have halike : s.Alike p.Counterpart s :=
    Machine.State.Alike.refl Inlining.Counterpart.same s
  refine ⟨p.named [], p.filled [], hnamed, hfilled, ?_⟩
  rw [htemplate]
  exact p.coupling.lockstep_enter hhosts hcoupled s s halike

/--
A body in which a variable hides a parameter, one function is handed to a host
and another one, which uses the receiver, is called.
-/
def hidingBody : Expr :=
  .letIn "a" (.binary .add (.var "a") (.var "b"))
    (.seq [
      .apply (.global "echo") [.lambda ["x"] (.binary .add (.var "x") (.var "b"))],
      .apply (.lambda ["x"] (.binary .add (.var "x") (.binary .add (.var "a") .self))) [.var "b"]])

/-- A method with that body. -/
def hidingMethod : Method := { kind := .callable, body := hidingBody, params := ["a", "b"] }

/-- The same method with the template of the body in place of calls. -/
def hidingTemplate : Method :=
  { kind := .inline, body := hidingBody.toTemplate ["a", "b"] true [], params := ["a", "b"] }

/-- A machine with a host that returns its first argument. -/
def echoMachine : Machine :=
  (Machine.new {}).addHost "echo" fun _ args store => (.ok (args.headD .undefined), store)

theorem hidingMethod_same_outcome :
    ∃ named filled, hidingMethod.frame? (some (.int 5)) [.int 1, .int 2] = some named ∧
      hidingTemplate.frame? (some (.int 5)) [.int 1, .int 2] = some filled ∧
      Eval.SameOutcome
        (Inlining.mk ["a", "b"] (some (.int 5)) [.int 1, .int 2] (by decide) rfl).Counterpart
        (Eval.enter echoMachine named hidingBody {})
        (Eval.enter echoMachine filled hidingTemplate.body {}) := by
  refine inlined_call_same_outcome echoMachine {} hidingMethod hidingTemplate true
    (some (.int 5)) [.int 1, .int 2] rfl rfl rfl rfl (by decide) ?_ rfl rfl ?_
  · intro names inner hmem
    have hnames : names = ["x"] := by
      simp only [hidingMethod, hidingBody, Expr.subterms, List.cons_append, List.nil_append,
        Expr.subtermsOfAll, List.append_nil, List.mem_cons, reduceCtorEq, Expr.lambda.injEq,
        List.not_mem_nil, or_self, or_false, false_or] at hmem
      rcases hmem with hmem | hmem <;> exact hmem.1
    subst hnames
    decide
  · refine Machine.HostsBlind.addHost (Machine.new_hostsBlind {}) ?_ "echo"
    intro calls calls' args store store' _ hstore
    exact ⟨rfl, hstore⟩

example : ∃ s, Eval.enter echoMachine
    (Frame.bindAll { receiver := some (.int 5) } ["a", "b"] [.int 1, .int 2]) hidingBody {} =
      .ok (.int 10) s :=
  ⟨_, rfl⟩

end Memberwise
