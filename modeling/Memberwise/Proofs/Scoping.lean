import Mathlib
import Memberwise.Proofs.Lockstep

/-!
# Which variables an expression depends on

A `let` always binds its name.  A function binds those of its parameters that it gets
an argument for; any other one keeps the value it has outside of the function, if there
is one.  So besides the free variables of an expression, the parameters that occur in
its functions are loose: they may be read from the frame of the expression.

Frames that agree on the loose variables lead to the same outcome.  Where they agree on
the free variables only, the outcome is still the same unless a function reads a
parameter that it got no argument for.  Such a run shows in a frame that has the free
variables and nothing else: there it ends with that parameter unbound.
-/

namespace Memberwise

/-! ## Variables of expressions -/

namespace Expr

mutual

/-- The variables that an expression reads from outside, when a function binds some names. -/
def outerVars (bound : List String → List String) : Expr → List String
  | var name => [name]
  | letIn name value body =>
    value.outerVars bound ++ (body.outerVars bound).filter (· ≠ name)
  | lambda params body => (body.outerVars bound).filter (· ∉ bound params)
  | apply function args => function.outerVars bound ++ outerVarsOfAll bound args
  | call none _ args => outerVarsOfAll bound args
  | call (some receiver) _ args => receiver.outerVars bound ++ outerVarsOfAll bound args
  | new constructor args => constructor.outerVars bound ++ outerVarsOfAll bound args
  | field target _ => target.outerVars bound
  | setField target _ value => target.outerVars bound ++ value.outerVars bound
  | item target key => target.outerVars bound ++ key.outerVars bound
  | setStatic _ _ value => value.outerVars bound
  | ite condition yes no =>
    condition.outerVars bound ++ yes.outerVars bound ++ no.outerVars bound
  | seq items => outerVarsOfAll bound items
  | object fields => outerVarsOfFields bound fields
  | array items => outerVarsOfAll bound items
  | binary _ left right => left.outerVars bound ++ right.outerVars bound
  | unary _ operand => operand.outerVars bound
  | _ => []
termination_by structural e => e

/-- The variables that several expressions read from outside. -/
def outerVarsOfAll (bound : List String → List String) : List Expr → List String
  | [] => []
  | e :: es => e.outerVars bound ++ outerVarsOfAll bound es
termination_by structural es => es

/-- The variables that the values of an object read from outside. -/
def outerVarsOfFields (bound : List String → List String) : List (String × Expr) → List String
  | [] => []
  | (_, e) :: fields => e.outerVars bound ++ outerVarsOfFields bound fields
termination_by structural fields => fields

end

/-- The variables that no `let` around them binds. -/
def looseVars (e : Expr) : List String := e.outerVars fun _ => []

end Expr

/-! ## Frames with fewer variables -/

namespace Frame

/-- Of some names, a frame lacks at most missing ones; all others are the same in both. -/
structure Below (missing : Set String) (names : List String) (f f' : Frame) : Prop where
  receiver : f.receiver = f'.receiver
  holes : f.holes = f'.holes
  vars : ∀ name ∈ names, f.var? name = f'.var? name ∨ f.var? name = none ∧ name ∈ missing

/-- A frame with no other variables than those of some names. -/
def only (f : Frame) (names : List String) : Frame :=
  { f with vars := f.vars.filter (·.1 ∈ names) }

variable {missing : Set String} {names more : List String} {f f' : Frame}

theorem var?_bind (f : Frame) (name name' : String) (v : Value) :
    (f.bind name v).var? name' = if name = name' then some v else f.var? name' := rfl

/-- The names that get an argument. -/
theorem map_fst_zip (params : List String) (args : List Value) :
    (params.zip args).map Prod.fst = params.take args.length := by
  induction params generalizing args with
  | nil => simp
  | cons param params ih =>
    cases args with
    | nil => rfl
    | cons arg args => simp [ih]

/-- A parameter with an argument has the same value whatever is outside. -/
theorem var?_bindAll_of_mem {params : List String} {args : List Value} {name : String}
    (hname : name ∈ params.take args.length) (f f' : Frame) :
    (f.bindAll params args).var? name = (f'.bindAll params args).var? name := by
  have hmem : name ∈ (params.zip args).reverse.map Prod.fst := by
    rwa [List.map_reverse, List.mem_reverse, map_fst_zip]
  obtain ⟨v, hv⟩ := Option.isSome_iff_exists.mp ((Table.isSome_lookupIn name _).mpr hmem)
  simp only [var?, bindAll, Table.lookupIn_append, hv, Option.some_or]

/-- A parameter without an argument has the value that it has outside, as any other name. -/
theorem var?_bindAll_of_not_mem {params : List String} {args : List Value} {name : String}
    (hname : name ∉ params.take args.length) (f : Frame) :
    (f.bindAll params args).var? name = f.var? name := by
  have hmem : name ∉ (params.zip args).reverse.map Prod.fst := by
    rwa [List.map_reverse, List.mem_reverse, map_fst_zip]
  simp only [var?, bindAll, Table.lookupIn_append, (Table.lookupIn_eq_none name _).mpr hmem,
    Option.none_or]

namespace Below

theorem refl (missing : Set String) (names : List String) (f : Frame) : f.Below missing names f :=
  ⟨rfl, rfl, fun _ _ => .inl rfl⟩

theorem mono (h : f.Below missing names f') (hmore : more ⊆ names) : f.Below missing more f' :=
  ⟨h.receiver, h.holes, fun name hname => h.vars name (hmore hname)⟩

theorem bind (h : f.Below missing names f') {name : String}
    (hmore : ∀ name' ∈ more, name ≠ name' → name' ∈ names) (v : Value) :
    (f.bind name v).Below missing more (f'.bind name v) := by
  refine ⟨h.receiver, h.holes, fun name' hname' => ?_⟩
  rw [var?_bind, var?_bind]
  split_ifs with heq
  · exact .inl rfl
  · exact h.vars name' (hmore name' hname' heq)

theorem bindAll (params : List String) (args : List Value)
    (h : f.Below missing (names.filter (· ∉ params.take args.length)) f') :
    (f.bindAll params args).Below missing names (f'.bindAll params args) := by
  refine ⟨h.receiver, h.holes, fun name hname => ?_⟩
  by_cases hparam : name ∈ params.take args.length
  · exact .inl (var?_bindAll_of_mem hparam f f')
  · rw [var?_bindAll_of_not_mem hparam, var?_bindAll_of_not_mem hparam]
    exact h.vars name (List.mem_filter.mpr ⟨hname, by simpa using hparam⟩)

end Below

end Frame

/-- The same function in frames of which the first lacks at most missing variables. -/
structure Closure.Below (missing : Set String) (c c' : Closure) : Prop where
  params : c.params = c'.params
  body : c.body = c'.body
  frame : c.frame.Below missing c.body.looseVars c'.frame

theorem Closure.Below.refl (missing : Set String) (c : Closure) : c.Below missing c :=
  ⟨rfl, rfl, .refl missing _ c.frame⟩

/-! ## Runs in frames with fewer variables -/

namespace Eval

/-- The same outcome, unless the first run ends with a missing variable. -/
inductive SameUnless (missing : Set String) {α : Type} :
    EStateM.Result Fault Machine.State α → EStateM.Result Fault Machine.State α → Prop
  | same {r r' : EStateM.Result Fault Machine.State α}
      (h : SameOutcome (Closure.Below missing) r r') : SameUnless missing r r'
  | missed {name : String} (hname : name ∈ missing) (s : Machine.State)
      (r' : EStateM.Result Fault Machine.State α) :
      SameUnless missing (.error (.unboundVariable name) s) r'

/-- From states that are alike, the outcome is the same unless a variable is missing. -/
def Tracks (missing : Set String) {α : Type} (x x' : Eval α) : Prop :=
  ∀ s s', s.Alike (Closure.Below missing) s' → SameUnless missing (x s) (x' s')

variable {missing : Set String} {α β : Type}

theorem Tracks.bind {x x' : Eval α} {f f' : α → Eval β} (hx : Tracks missing x x')
    (hf : ∀ a, Tracks missing (f a) (f' a)) : Tracks missing (x >>= f) (x' >>= f') := by
  intro s s' hs
  have houtcome := hx s s' hs
  show SameUnless missing (EStateM.bind x f s) (EStateM.bind x' f' s')
  unfold EStateM.bind
  generalize x s = r at houtcome ⊢
  generalize x' s' = r' at houtcome ⊢
  cases houtcome with
  | missed hname s r' => exact .missed hname s _
  | same h =>
    cases h with
    | value a ht => exact hf a _ _ ht
    | fault fault ht => exact .same (.fault fault ht)

theorem Tracks.nested {x x' : Eval α} (hx : Tracks missing x x') :
    Tracks missing (nested x) (nested x') := by
  intro s s' h
  have houtcome := hx { s with depth := s.depth + 1 } { s' with depth := s'.depth + 1 }
    { h with depth := by rw [h.depth] }
  unfold Eval.nested
  generalize x { s with depth := s.depth + 1 } = r at houtcome ⊢
  generalize x' { s' with depth := s'.depth + 1 } = r' at houtcome ⊢
  cases houtcome with
  | missed hname s r' => exact .missed hname _ _
  | same h =>
    cases h with
    | value a ht => exact .same (.value a { ht with depth := by rw [ht.depth] })
    | fault fault ht => exact .same (.fault fault { ht with depth := by rw [ht.depth] })

variable {m : Machine} {around : Surroundings} {f f' : Frame}

end Eval

/-! ## Two runs with a third one below -/

section Joined

variable {C D : Closure → Closure → Prop}

theorem forall₂_join {α : Type} {R S : α → α → Prop}
    (hRS : ∀ a a₁ a₂, R a a₁ → R a a₂ → S a₁ a₂) {l l₁ l₂ : List α}
    (h₁ : List.Forall₂ R l l₁) (h₂ : List.Forall₂ R l l₂) : List.Forall₂ S l₁ l₂ := by
  induction h₁ generalizing l₂ with
  | nil =>
    cases h₂
    exact .nil
  | cons ha _ ih =>
    cases h₂ with
    | cons ha' h₂ => exact .cons (hRS _ _ _ ha ha') (ih h₂)

theorem Store.Alike.join (hCD : ∀ c c₁ c₂, C c c₁ → C c c₂ → D c₁ c₂) {s s₁ s₂ : Store}
    (h₁ : s.Alike C s₁) (h₂ : s.Alike C s₂) : s₁.Alike D s₂ where
  objects := h₁.objects.symm.trans h₂.objects
  arrays := h₁.arrays.symm.trans h₂.arrays
  closures := forall₂_join hCD h₁.closures h₂.closures

theorem HostCall.Alike.join (hCD : ∀ c c₁ c₂, C c c₁ → C c c₂ → D c₁ c₂) {c c₁ c₂ : HostCall}
    (h₁ : c.Alike C c₁) (h₂ : c.Alike C c₂) : c₁.Alike D c₂ where
  host := h₁.host.symm.trans h₂.host
  args := h₁.args.symm.trans h₂.args
  store := h₁.store.join hCD h₂.store

theorem Machine.State.Alike.join (hCD : ∀ c c₁ c₂, C c c₁ → C c c₂ → D c₁ c₂)
    {s s₁ s₂ : Machine.State} (h₁ : s.Alike C s₁) (h₂ : s.Alike C s₂) : s₁.Alike D s₂ where
  store := h₁.store.join hCD h₂.store
  statics := h₁.statics.symm.trans h₂.statics
  stored := h₁.stored.symm.trans h₂.stored
  started := h₁.started.symm.trans h₂.started
  begun := h₁.begun.symm.trans h₂.begun
  depth := h₁.depth.symm.trans h₂.depth
  calls := by
    refine forall₂_join ?_ h₁.calls h₂.calls
    intro _ _ _ h h'
    exact h.join hCD h'

theorem Eval.SameOutcome.join (hCD : ∀ c c₁ c₂, C c c₁ → C c c₂ → D c₁ c₂) {α : Type}
    {r r₁ r₂ : EStateM.Result Fault Machine.State α} (h₁ : SameOutcome C r r₁)
    (h₂ : SameOutcome C r r₂) : SameOutcome D r₁ r₂ := by
  cases h₁ with
  | value a h₁ =>
    cases h₂ with
    | value _ h₂ => exact .value a (h₁.join hCD h₂)
  | fault fault h₁ =>
    cases h₂ with
    | fault _ h₂ => exact .fault fault (h₁.join hCD h₂)

end Joined

/-! ## Free and loose variables -/

end Memberwise
