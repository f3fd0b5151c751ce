import Mathlib
import Memberwise.Emit.Body

/-!
# Children and subterms of expressions

Expressions nest through lists, fields and optional receivers, so their own
recursor has a motive for each of these.  Here every expression gets one list of
children, with one induction principle over it.  A property of all subterms is
then a property of the expression and the same property of its children.
-/

namespace Memberwise.Expr

/-- The expressions directly inside an expression, in reading order. -/
def children : Expr → List Expr
  | letIn _ value body => [value, body]
  | lambda _ body => [body]
  | apply function args => function :: args
  | call receiver _ args => receiver.toList ++ args
  | new constructor args => constructor :: args
  | field target _ => [target]
  | setField target _ value => [target, value]
  | item target key => [target, key]
  | setStatic _ _ value => [value]
  | ite condition yes no => [condition, yes, no]
  | seq items => items
  | object fields => fields.map Prod.snd
  | array items => items
  | binary _ left right => [left, right]
  | unary _ operand => [operand]
  | _ => []

theorem sizeOf_lt_of_mem_children {e c : Expr} (hc : c ∈ e.children) : sizeOf c < sizeOf e := by
  cases e with
  | object fields =>
    obtain ⟨entry, hentry, rfl⟩ := List.mem_map.mp hc
    have hlist := List.sizeOf_lt_of_mem hentry
    obtain ⟨key, value⟩ := entry
    simp only [Prod.mk.sizeOf_spec, object.sizeOf_spec] at hlist ⊢
    omega
  | apply function args | new function args =>
    rcases List.mem_cons.mp hc with rfl | hmem
    · simp only [apply.sizeOf_spec, new.sizeOf_spec]
      omega
    · have hlist := List.sizeOf_lt_of_mem hmem
      simp only [apply.sizeOf_spec, new.sizeOf_spec]
      omega
  | call receiver method args =>
    rcases List.mem_append.mp hc with hmem | hmem
    · obtain rfl := Option.mem_toList.mp hmem
      simp only [call.sizeOf_spec, Option.some.sizeOf_spec]
      omega
    · have hlist := List.sizeOf_lt_of_mem hmem
      simp only [call.sizeOf_spec]
      omega
  | seq items | array items =>
    have hlist : sizeOf c < sizeOf items := List.sizeOf_lt_of_mem hc
    simp only [seq.sizeOf_spec, array.sizeOf_spec]
    omega
  | _ =>
    simp only [children, List.mem_cons, List.not_mem_nil, or_false] at hc <;>
      rcases hc with rfl | rfl | rfl <;> simp +arith

/-- What holds of an expression whenever it holds of its children holds of all expressions. -/
@[elab_as_elim]
theorem childInduction {motive : Expr → Prop}
    (step : ∀ e : Expr, (∀ c ∈ e.children, motive c) → motive e) (e : Expr) : motive e :=
  step e fun c hc =>
    have := sizeOf_lt_of_mem_children hc
    childInduction step c
termination_by sizeOf e

/-! ## Subterms through children -/

theorem subtermsOfAll_eq_flatMap (es : List Expr) :
    subtermsOfAll es = es.flatMap subterms := by
  induction es with
  | nil => rfl
  | cons e es ih => simp [subtermsOfAll, ih]

theorem subtermsOfFields_eq_flatMap (fields : List (String × Expr)) :
    subtermsOfFields fields = (fields.map Prod.snd).flatMap subterms := by
  induction fields with
  | nil => rfl
  | cons entry fields ih => simp [subtermsOfFields, ih]

theorem subterms_eq_cons (e : Expr) : e.subterms = e :: e.children.flatMap subterms := by
  cases e with
  | call receiver method args =>
    cases receiver <;> simp [subterms, children, subtermsOfAll_eq_flatMap]
  | _ =>
    simp [subterms, children, subtermsOfAll_eq_flatMap, subtermsOfFields_eq_flatMap]

theorem mem_subterms {t e : Expr} :
    t ∈ e.subterms ↔ t = e ∨ ∃ c ∈ e.children, t ∈ c.subterms := by
  rw [subterms_eq_cons, List.mem_cons, List.mem_flatMap]

theorem self_mem_subterms (e : Expr) : e ∈ e.subterms := mem_subterms.mpr (Or.inl rfl)

theorem subterms_trans {t u e : Expr} (ht : t ∈ u.subterms) (hu : u ∈ e.subterms) :
    t ∈ e.subterms := by
  induction e using childInduction with
  | step e ih =>
    rcases mem_subterms.mp hu with rfl | ⟨c, hc, huc⟩
    · exact ht
    · exact mem_subterms.mpr (Or.inr ⟨c, hc, ih c hc huc⟩)

/-- A property of an expression and of everything inside it. -/
def Every (P : Expr → Prop) (e : Expr) : Prop := ∀ t ∈ e.subterms, P t

theorem every_iff {P : Expr → Prop} {e : Expr} :
    e.Every P ↔ P e ∧ ∀ c ∈ e.children, c.Every P := by
  constructor
  · intro h
    refine ⟨h e (self_mem_subterms e), fun c hc t ht => h t ?_⟩
    exact mem_subterms.mpr (Or.inr ⟨c, hc, ht⟩)
  · rintro ⟨he, hchildren⟩ t ht
    rcases mem_subterms.mp ht with rfl | ⟨c, hc, htc⟩
    · exact he
    · exact hchildren c hc t htc

theorem Every.self {P : Expr → Prop} {e : Expr} (h : e.Every P) : P e := (every_iff.mp h).1

theorem Every.child {P : Expr → Prop} {e c : Expr} (h : e.Every P) (hc : c ∈ e.children) :
    c.Every P :=
  (every_iff.mp h).2 c hc

theorem Every.subterm {P : Expr → Prop} {e t : Expr} (h : e.Every P) (ht : t ∈ e.subterms) :
    t.Every P :=
  fun u hu => h u (subterms_trans hu ht)

theorem Every.imp {P Q : Expr → Prop} {e : Expr} (hPQ : ∀ t, P t → Q t) (h : e.Every P) :
    e.Every Q :=
  fun t ht => hPQ t (h t ht)

/-! ## One form at a time -/

section Forms

variable {P : Expr → Prop}

theorem every_of_children {e : Expr} (l : List Expr) (h : e.children = l) :
    e.Every P ↔ P e ∧ ∀ c ∈ l, c.Every P := h ▸ every_iff

theorem every_leaf {e : Expr} (h : e.children = []) : e.Every P ↔ P e :=
  Iff.trans (every_of_children [] h) (and_iff_left (List.forall_mem_nil _))

@[simp]
theorem every_undefined : undefined.Every P ↔ P undefined := every_leaf rfl

@[simp]
theorem every_literal (value : Literal) : (literal value).Every P ↔ P (literal value) :=
  every_leaf rfl

@[simp]
theorem every_var (name : String) : (var name).Every P ↔ P (var name) := every_leaf rfl

@[simp]
theorem every_hole (index : Nat) : (hole index).Every P ↔ P (hole index) := every_leaf rfl

@[simp]
theorem every_global (path : String) : (global path).Every P ↔ P (global path) := every_leaf rfl

@[simp]
theorem every_static (owner : Identity) (name : String) :
    (static owner name).Every P ↔ P (static owner name) := every_leaf rfl

@[simp]
theorem every_start (owner : Identity) : (start owner).Every P ↔ P (start owner) := every_leaf rfl

@[simp]
theorem every_letIn (name : String) (value body : Expr) :
    (letIn name value body).Every P ↔
      P (letIn name value body) ∧ value.Every P ∧ body.Every P :=
  Iff.trans (every_of_children [value, body] rfl) (by simp)

@[simp]
theorem every_apply (function : Expr) (args : List Expr) :
    (apply function args).Every P ↔
      P (apply function args) ∧ function.Every P ∧ ∀ a ∈ args, a.Every P :=
  Iff.trans (every_of_children (function :: args) rfl) (by simp)

@[simp]
theorem every_new (constructor : Expr) (args : List Expr) :
    (new constructor args).Every P ↔
      P (new constructor args) ∧ constructor.Every P ∧ ∀ a ∈ args, a.Every P :=
  Iff.trans (every_of_children (constructor :: args) rfl) (by simp)

@[simp]
theorem every_field (target : Expr) (name : String) :
    (field target name).Every P ↔ P (field target name) ∧ target.Every P :=
  Iff.trans (every_of_children [target] rfl) (by simp)

@[simp]
theorem every_setField (target : Expr) (name : String) (value : Expr) :
    (setField target name value).Every P ↔
      P (setField target name value) ∧ target.Every P ∧ value.Every P :=
  Iff.trans (every_of_children [target, value] rfl) (by simp)

@[simp]
theorem every_item (target key : Expr) :
    (item target key).Every P ↔ P (item target key) ∧ target.Every P ∧ key.Every P :=
  Iff.trans (every_of_children [target, key] rfl) (by simp)

@[simp]
theorem every_setStatic (owner : Identity) (name : String) (value : Expr) :
    (setStatic owner name value).Every P ↔ P (setStatic owner name value) ∧ value.Every P :=
  Iff.trans (every_of_children [value] rfl) (by simp)

@[simp]
theorem every_ite (condition yes no : Expr) :
    (ite condition yes no).Every P ↔
      P (ite condition yes no) ∧ condition.Every P ∧ yes.Every P ∧ no.Every P :=
  Iff.trans (every_of_children [condition, yes, no] rfl) (by simp)

@[simp]
theorem every_seq (items : List Expr) :
    (seq items).Every P ↔ P (seq items) ∧ ∀ e ∈ items, e.Every P :=
  every_of_children items rfl

@[simp]
theorem every_object (fields : List (String × Expr)) :
    (object fields).Every P ↔ P (object fields) ∧ ∀ f ∈ fields, f.2.Every P := by
  rw [every_of_children (fields.map Prod.snd) rfl, List.forall_mem_map]

@[simp]
theorem every_array (items : List Expr) :
    (array items).Every P ↔ P (array items) ∧ ∀ e ∈ items, e.Every P :=
  every_of_children items rfl

@[simp]
theorem every_binary (op : BinaryOp) (left right : Expr) :
    (binary op left right).Every P ↔ P (binary op left right) ∧ left.Every P ∧ right.Every P :=
  Iff.trans (every_of_children [left, right] rfl) (by simp)

@[simp]
theorem every_unary (op : UnaryOp) (operand : Expr) :
    (unary op operand).Every P ↔ P (unary op operand) ∧ operand.Every P :=
  Iff.trans (every_of_children [operand] rfl) (by simp)

end Forms

/-! ## Templates of bodies -/

theorem toTemplates_eq_map (params : List String) (hasReceiver : Bool) (es : List Expr)
    (bound : List String) :
    toTemplates params hasReceiver es bound =
      es.map fun e => e.toTemplate params hasReceiver bound := by
  induction es with
  | nil => rfl
  | cons e es ih => simp [toTemplates, ih]

theorem toTemplateFields_eq_map (params : List String) (hasReceiver : Bool)
    (fields : List (String × Expr)) (bound : List String) :
    toTemplateFields params hasReceiver fields bound =
      fields.map fun entry => (entry.1, entry.2.toTemplate params hasReceiver bound) := by
  induction fields with
  | nil => rfl
  | cons entry fields ih => simp [toTemplateFields, ih]

/-- The children of a template are the templates of the children. -/
theorem mem_children_toTemplate {params : List String} {hasReceiver : Bool} {bound : List String}
    {e c : Expr} (hc : c ∈ (e.toTemplate params hasReceiver bound).children) :
    ∃ d ∈ e.children, ∃ bound', c = d.toTemplate params hasReceiver bound' := by
  cases e with
  | var name =>
    simp only [toTemplate] at hc
    split at hc
    · simp [children] at hc
    · split at hc <;> simp [children] at hc
  | self =>
    simp only [toTemplate] at hc
    split at hc <;> simp [children] at hc
  | call receiver method args =>
    cases receiver <;> simp only [toTemplate, children, toTemplates_eq_map] at hc ⊢ <;> grind
  | _ =>
    simp only [toTemplate, children, toTemplates_eq_map, toTemplateFields_eq_map] at hc ⊢
    grind

/-- What holds of all forms in a body, and of what they become, holds of all of the template. -/
theorem every_toTemplate {P P' : Expr → Prop} {params : List String} {hasReceiver : Bool}
    (hform : ∀ e bound, P e → P' (e.toTemplate params hasReceiver bound)) {e : Expr}
    (he : e.Every P) (bound : List String) : (e.toTemplate params hasReceiver bound).Every P' := by
  induction e using childInduction generalizing bound with
  | step e ih =>
    refine every_iff.mpr ⟨hform e bound he.self, fun c hc => ?_⟩
    obtain ⟨d, hd, bound', rfl⟩ := mem_children_toTemplate hc
    exact ih d hd (he.child hd) bound'

end Memberwise.Expr

namespace Memberwise

/-- The expression that a statement evaluates. -/
def Statement.code : Statement → Expr
  | expr e => e
  | init _ value => value

end Memberwise
