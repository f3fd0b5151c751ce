import Mathlib
import Memberwise.Eval.Run

/-!
# Runs of templates

What an evaluation comes to when its parts give values.  A template that is called is evaluated one
call deeper, with the receiver and the arguments in its holes.
-/

namespace Memberwise

theorem Signature.isConstructor_getter (property : String) (type : Ty) :
    (getter property type).isConstructor = false := by
  refine beq_eq_false_iff_ne.mpr fun heq => ?_
  have hchars := congrArg String.toList heq
  simp [getter, constructorName] at hchars

theorem Signature.isConstructor_setter (property : String) (type : Ty) :
    (setter property type).isConstructor = false := by
  refine beq_eq_false_iff_ne.mpr fun heq => ?_
  have hchars := congrArg String.toList heq
  simp [setter, constructorName] at hchars

theorem Signature.getter_injective {name name' : String} {type type' : Ty}
    (h : getter name type = getter name' type') : name = name' ∧ type = type' := by
  obtain ⟨hname, -, htype, -⟩ := Signature.mk.inj h
  exact ⟨(String.append_right_inj _).mp hname, htype⟩

/-- Each element has the argument of its position. -/
theorem getElem?_of_mem_zipIdx {α : Type} {l : List α} {args : List Value}
    (hargs : args.length = l.length) {p : α × Nat} (hp : p ∈ l.zipIdx) :
    args[p.2]? = some (args.getD p.2 .undefined) := by
  obtain ⟨hlt, -⟩ := List.getElem?_eq_some_iff.mp (List.mem_zipIdx_iff_getElem?.mp hp)
  rw [List.getD_eq_getElem?_getD, List.getElem?_eq_getElem (hargs ▸ hlt), Option.getD_some]

/-- A field of an object that was just made. -/
theorem Store.read_newObject (store : Store) (fields : List (String × Value)) (name : String) :
    (store.newObject fields).2.read (store.newObject fields).1 name =
      .ok ((Table.lookupIn name fields).getD .undefined) := by
  simp [newObject, read, field?, Store.fields, Table.get?]

/-- What comes of one call of a host and nothing else. -/
def Host.outcome (host : Host) (call : HostCall) (s : Machine.State) :
    EStateM.Result Fault Machine.State Value :=
  let (result, store) := host s.calls call.args call.store
  Eval.lift result { s with store, calls := call :: s.calls }

namespace Eval

variable {machine : Machine} {around : Surroundings} {frame : Frame} {s s' : Machine.State}

theorem bind_of_ok {α β : Type} {x : Eval α} {f : α → Eval β} {a : α} (h : x s = .ok a s') :
    (x >>= f) s = f a s' := by
  show EStateM.bind x f s = f a s'
  rw [EStateM.bind, h]

theorem nested_of_ok {α : Type} {x : Eval α} {a : α}
    (h : x { s with depth := s.depth + 1 } = .ok a { s' with depth := s'.depth + 1 }) :
    nested x s = .ok a s' := by
  rw [nested, h]
  rfl

theorem expr_hole {index : Nat} {v : Value} (h : frame.holes[index]? = some v) :
    expr machine around frame (.hole index) s = .ok v s := by
  rw [expr, h]
  rfl

theorem expr_ite {condition yes no : Expr} {v : Value}
    (h : expr machine around frame condition s = .ok v s') :
    expr machine around frame (.ite condition yes no) s =
      if v.truthy then expr machine around frame yes s' else expr machine around frame no s' := by
  rw [expr, bind_of_ok h]
  split_ifs <;> rfl

/-- Reading a field of the value in a hole. -/
theorem expr_field {index : Nat} {v value : Value} (h : frame.holes[index]? = some v)
    {name : String} (hread : s.store.read v name = .ok value) :
    expr machine around frame (.field (.hole index) name) s = .ok value s := by
  rw [expr, bind_of_ok (expr_hole h)]
  show Eval.lift (s.store.read v name) s = _
  rw [hread]
  rfl

/-- Fields whose values leave the state alone. -/
theorem namedExprs_map {α : Type} {l : List α} {name : α → String} {e : α → Expr} {v : α → Value}
    (h : ∀ a ∈ l, expr machine around frame (e a) s = .ok (v a) s) :
    namedExprs machine around frame (l.map fun a => (name a, e a)) s =
      .ok (l.map fun a => (name a, v a)) s := by
  induction l with
  | nil => rfl
  | cons a l ih =>
    obtain ⟨hfirst, hrest⟩ := List.forall_mem_cons.mp h
    rw [List.map_cons, namedExprs, bind_of_ok hfirst, bind_of_ok (ih hrest)]
    rfl

/-- Making an object of fields whose values leave the state alone. -/
theorem expr_object {α : Type} {l : List α} {name : α → String} {e : α → Expr} {v : α → Value}
    (h : ∀ a ∈ l, expr machine around frame (e a) s = .ok (v a) s) :
    expr machine around frame (.object (l.map fun a => (name a, e a))) s =
      .ok (.object s.store.objects.size)
        { s with store := { s.store with
          objects := s.store.objects.push ⟨l.map fun a => (name a, v a)⟩ } } := by
  rw [expr, bind_of_ok (namedExprs_map h)]
  rfl

/-- Arguments that leave the state alone. -/
theorem exprs_of_forall₂ {es : List Expr} {vs : List Value}
    (h : List.Forall₂ (fun e v => expr machine around frame e s = .ok v s) es vs) :
    exprs machine around frame es s = .ok vs s := by
  induction h with
  | nil => rfl
  | cons hfirst _ ih =>
    rw [exprs, bind_of_ok hfirst, bind_of_ok ih]
    rfl

/-- Applying a host, whatever it answers. -/
theorem expr_apply_host {name : String} {host : Host}
    (hhost : machine.hosts.get? name = some host) {es : List Expr} {vs : List Value}
    (hargs : exprs machine around frame es s = .ok vs s') :
    expr machine around frame (.apply (.global name) es) s =
      host.outcome ⟨name, vs, s'.store⟩ s' := by
  have hglobal : expr machine around frame (.global name) s = .ok (.host name) s := by
    rw [expr, Table.contains, hhost]
    rfl
  have hcall : callHost machine name vs s' = host.outcome ⟨name, vs, s'.store⟩ s' := by
    rw [callHost, hhost]
    rfl
  rw [expr, bind_of_ok hglobal, bind_of_ok hargs]
  exact hcall

/-- Applying a host to arguments that leave the state alone. -/
theorem expr_host {name : String} {host : Host} (hhost : machine.hosts.get? name = some host)
    {es : List Expr} {vs : List Value}
    (hargs : List.Forall₂ (fun e v => expr machine around frame e s = .ok v s) es vs)
    {v : Value} {store : Store} (hresult : host s.calls vs s.store = (.ok v, store)) :
    expr machine around frame (.apply (.global name) es) s =
      .ok v { s with store, calls := ⟨name, vs, s.store⟩ :: s.calls } := by
  rw [expr_apply_host hhost (exprs_of_forall₂ hargs), Host.outcome, hresult]
  rfl

/-- A method that is found runs where its arguments fit. -/
theorem callMethod_of_ok {machine : Machine} {ref : MethodRef} {r : Method}
    (hr : machine.lookup ref = .ok r) (enter : Frame → Expr → Eval Value)
    (receiver : Option Value) (args : List Value) :
    callMethod machine enter ref receiver args =
      match r.frame? receiver args with
      | none => throw (.notCallable ref.signature.text)
      | some frame => enter frame r.body := by
  rewrite [callMethod, hr]
  rfl

end Eval

namespace Machine

variable {machine : Machine} {ref : MethodRef} {r : Method}

theorem lookup_method {owner : Identity} {c : ClassRecord} {signature : Signature}
    (hc : machine.build.classes.get? owner = some c) (hplain : signature.isConstructor = false)
    (hr : c.method? signature = some r) : machine.lookup ⟨owner, signature⟩ = .ok r := by
  simp [lookup, hc, hplain, hr]

theorem lookup_constructor {owner : Identity} {c : ClassRecord} {params : List Ty}
    (hc : machine.build.classes.get? owner = some c)
    (hr : c.constructor? (.constructor params) = some r) :
    machine.lookup ⟨owner, .constructor params⟩ = .ok r := by
  simp [lookup, hc, Signature.isConstructor, Signature.constructor] at hr ⊢
  simp [hr]

theorem call_of_frame? (hr : machine.lookup ref = .ok r) {receiver : Option Value}
    {args : List Value} {frame : Frame} (hframe : r.frame? receiver args = some frame) (s : State) :
    machine.call ref receiver args s =
      Eval.enterWithin machine (maxDepth - s.depth) frame r.body s := by
  rw [call, Eval.callMethod_of_ok hr, hframe]
  rfl

theorem call_eq_enterWithin (hr : machine.lookup ref = .ok r) (hkind : r.kind = .inline)
    (receiver : Option Value) (args : List Value) (s : State) :
    machine.call ref receiver args s =
      Eval.enterWithin machine (maxDepth - s.depth) { holes := receiver.toList ++ args } r.body
        s :=
  call_of_frame? hr (by rw [Method.frame?, hkind]) s

/-- What a method does is evaluated one call deeper. -/
theorem exists_call_eq_nested (hr : machine.lookup ref = .ok r) {receiver : Option Value}
    {args : List Value} {frame : Frame} (hframe : r.frame? receiver args = some frame) {s : State}
    (hdepth : s.depth < maxDepth) :
    ∃ around, machine.call ref receiver args s =
      Eval.nested (Eval.expr machine around frame r.body) s := by
  obtain ⟨left, hleft⟩ : ∃ left, maxDepth - s.depth = left + 1 :=
    ⟨maxDepth - s.depth - 1, by omega⟩
  exact ⟨_, by rw [call_of_frame? hr hframe, hleft, Eval.enterWithin]⟩

/-- A machine finds a template under a reference. -/
def Expands (machine : Machine) (ref : MethodRef) (body : Expr) : Prop :=
  ∃ r, machine.lookup ref = .ok r ∧ r.kind = .inline ∧ r.body = body

namespace Expands

variable {body : Expr} (h : machine.Expands ref body) {s : State} (hdepth : s.depth < maxDepth)
  (receiver : Option Value) (args : List Value)

include h hdepth

/-- A template that is called is evaluated one call deeper. -/
theorem call_eq :
    ∃ around, machine.call ref receiver args s =
      Eval.nested (Eval.expr machine around { holes := receiver.toList ++ args } body) s := by
  obtain ⟨r, hlookup, hkind, rfl⟩ := h
  exact exists_call_eq_nested hlookup (by rw [Method.frame?, hkind]) hdepth

theorem call_of_ok {s' : State} {v : Value}
    (hbody : ∀ around, Eval.expr machine around { holes := receiver.toList ++ args } body
      { s with depth := s.depth + 1 } = .ok v { s' with depth := s'.depth + 1 }) :
    machine.call ref receiver args s = .ok v s' := by
  obtain ⟨around, hcall⟩ := h.call_eq hdepth receiver args
  rw [hcall]
  exact Eval.nested_of_ok (hbody around)

/-- A call in which only something about the store at the end is known. -/
theorem exists_call {v : Value} {P : Store → Prop}
    (hbody : ∀ around, ∃ s', Eval.expr machine around { holes := receiver.toList ++ args } body
      { s with depth := s.depth + 1 } = .ok v s' ∧ s'.depth = s.depth + 1 ∧ P s'.store) :
    ∃ s', machine.call ref receiver args s = .ok v s' ∧ s'.depth = s.depth ∧ P s'.store := by
  obtain ⟨around, hcall⟩ := h.call_eq hdepth receiver args
  obtain ⟨s', hexpr, hdepth', hstore⟩ := hbody around
  refine ⟨{ s' with depth := s.depth }, ?_, rfl, hstore⟩
  rw [hcall]
  refine Eval.nested_of_ok ?_
  rw [hexpr, ← hdepth']

end Expands

end Machine

end Memberwise
