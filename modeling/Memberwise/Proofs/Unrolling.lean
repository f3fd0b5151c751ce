import Mathlib
import Memberwise.Proofs.CallDepth

/-!
# Evaluations come to an end

Evaluating an expression leaves it in two ways that its form does not bound: a body
enters another body, and a type that is started runs its initializer.  One level of
this recursion is written down with the level below as a parameter.  Unrolling it as
often as calls are left and classes are not started yet, and once more, gives the
outcome of an evaluation, whatever is put in place of the levels below.  So these are
never reached, and every evaluation comes to its end.
-/

namespace Memberwise

namespace Eval

variable {α β : Type} {m : Machine} {around : Surroundings}

/-! ## Evaluations in other surroundings -/

/-- Two evaluations that come to the same from every state with a property. -/
def SameFrom (I : Machine.State → Prop) (x x' : Eval α) : Prop := ∀ s, I s → x s = x' s

section SameFrom

variable {I : Machine.State → Prop} {Q : Fault → Prop}

theorem sameFrom_refl (x : Eval α) : SameFrom I x x := fun _ _ => rfl

/-- What follows is compared in the states where the first part may end. -/
theorem SameFrom.bind {x x' : Eval α} {f f' : α → Eval β} (hx : SameFrom I x x')
    (hkeeps : Keeps I Q x) (hf : ∀ a, SameFrom I (f a) (f' a)) :
    SameFrom I (x >>= f) (x' >>= f') := by
  intro s hs
  have hends := hkeeps s hs
  show EStateM.bind x f s = EStateM.bind x' f' s
  unfold EStateM.bind
  rw [← hx s hs]
  generalize x s = r at hends ⊢
  cases hends with
  | value a ht => exact hf a _ ht
  | fault _ _ => rfl

theorem sameFrom_get_bind {f f' : Machine.State → Eval β} (hf : ∀ s, I s → f s s = f' s s) :
    SameFrom I (get >>= f) (get >>= f') := fun s hs => hf s hs

section Enter

variable {enter enter' : Frame → Expr → Eval Value}
  (henter : ∀ frame body, SameFrom I (enter frame body) (enter' frame body))

include henter

theorem sameFrom_callMethod (method : MethodRef) (receiver : Option Value) (args : List Value) :
    SameFrom I (callMethod m enter method receiver args)
      (callMethod m enter' method receiver args) := by
  refine (sameFrom_refl _).bind (keeps_lift (Q := fun _ => True) fun _ _ => trivial) fun found => ?_
  cases found.frame? receiver args with
  | none => exact sameFrom_refl _
  | some frame => exact henter frame found.body

theorem sameFrom_applyValue (function : Value) (args : List Value) :
    SameFrom I (applyValue m enter function args) (applyValue m enter' function args) := by
  cases function with
  | closure ref =>
    refine sameFrom_get_bind fun s hs => ?_
    cases s.store.closures[ref]? with
    | none => rfl
    | some closure => exact henter _ closure.body s hs
  | _ => exact sameFrom_refl _

end Enter

section Lists

variable {around' : Surroundings} {frame : Frame}

theorem sameFrom_exprs {es : List Expr}
    (hkeeps : ∀ e ∈ es, Keeps I Q (expr m around frame e))
    (h : ∀ e ∈ es, SameFrom I (expr m around frame e) (expr m around' frame e)) :
    SameFrom I (exprs m around frame es) (exprs m around' frame es) := by
  induction es with
  | nil =>
    simp only [exprs]
    exact sameFrom_refl _
  | cons e es ih =>
    obtain ⟨hkeep, hkeeps⟩ := List.forall_mem_cons.mp hkeeps
    obtain ⟨he, hes⟩ := List.forall_mem_cons.mp h
    simp only [exprs]
    exact he.bind hkeep fun value =>
      (ih hkeeps hes).bind (keeps_exprs hkeeps) fun values => sameFrom_refl _

theorem sameFrom_namedExprs {es : List (String × Expr)}
    (hkeeps : ∀ e ∈ es, Keeps I Q (expr m around frame e.2))
    (h : ∀ e ∈ es, SameFrom I (expr m around frame e.2) (expr m around' frame e.2)) :
    SameFrom I (namedExprs m around frame es) (namedExprs m around' frame es) := by
  induction es with
  | nil =>
    simp only [namedExprs]
    exact sameFrom_refl _
  | cons entry es ih =>
    obtain ⟨name, e⟩ := entry
    obtain ⟨hkeep, hkeeps⟩ := List.forall_mem_cons.mp hkeeps
    obtain ⟨he, hes⟩ := List.forall_mem_cons.mp h
    simp only [namedExprs]
    exact he.bind hkeep fun value =>
      (ih hkeeps hes).bind (keeps_namedExprs hkeeps) fun values => sameFrom_refl _

theorem sameFrom_lastOf {es : List Expr}
    (hkeeps : ∀ e ∈ es, Keeps I Q (expr m around frame e))
    (h : ∀ e ∈ es, SameFrom I (expr m around frame e) (expr m around' frame e)) (last : Value) :
    SameFrom I (lastOf m around frame last es) (lastOf m around' frame last es) := by
  induction es generalizing last with
  | nil =>
    simp only [lastOf]
    exact sameFrom_refl _
  | cons e es ih =>
    obtain ⟨hkeep, hkeeps⟩ := List.forall_mem_cons.mp hkeeps
    obtain ⟨he, hes⟩ := List.forall_mem_cons.mp h
    simp only [lastOf]
    exact he.bind hkeep fun value => ih hkeeps hes value

end Lists

variable {around' : Surroundings} {holes : List Value} {P : Expr → Prop}

theorem sameFrom_binary {frame : Frame} {op : BinaryOp} {left right : Expr}
    (hkeepsLeft : Keeps I Q (expr m around frame left))
    (hkeepsRight : Keeps I Q (expr m around frame right))
    (hleft : SameFrom I (expr m around frame left) (expr m around' frame left))
    (hright : SameFrom I (expr m around frame right) (expr m around' frame right)) :
    SameFrom I (expr m around frame (.binary op left right))
      (expr m around' frame (.binary op left right)) := by
  cases op with
  | and =>
    simp only [expr]
    refine hleft.bind hkeepsLeft fun value => ?_
    cases value.truthy with
    | true => exact hright
    | false => exact sameFrom_refl _
  | or =>
    simp only [expr]
    refine hleft.bind hkeepsLeft fun value => ?_
    cases value.truthy with
    | true => exact sameFrom_refl _
    | false => exact hright
  | _ =>
    simp only [expr]
    exact hleft.bind hkeepsLeft fun a => hright.bind hkeepsRight fun b => sameFrom_refl _

/-- Code comes to the same in surroundings that do, where it keeps to the states compared. -/
theorem Upkeep.sameFrom_expr (h : Upkeep I Q m around holes P)
    (henter : ∀ frame body, SameFrom I (around.enter frame body) (around'.enter frame body))
    (hstart : ∀ owner, SameFrom I (around.start owner) (around'.start owner)) {frame : Frame}
    (hframe : frame.holes = holes) {e : Expr} (he : e.Every P) :
    SameFrom I (Eval.expr m around frame e) (Eval.expr m around' frame e) := by
  induction e using Expr.childInduction generalizing frame with
  | step e ih =>
    have hkeeps {c : Expr} (hc : c ∈ e.children) : Keeps I Q (Eval.expr m around frame c) :=
      h.expr hframe (he.child hc)
    have hchild {c : Expr} (hc : c ∈ e.children) :
        SameFrom I (Eval.expr m around frame c) (Eval.expr m around' frame c) :=
      ih c hc hframe (he.child hc)
    have hargs {es : List Expr} (hes : ∀ c ∈ es, c ∈ e.children) :
        SameFrom I (exprs m around frame es) (exprs m around' frame es) :=
      sameFrom_exprs (fun c hc => hkeeps (hes c hc)) fun c hc => hchild (hes c hc)
    have hkeepsArgs {es : List Expr} (hes : ∀ c ∈ es, c ∈ e.children) :
        Keeps I Q (exprs m around frame es) :=
      keeps_exprs fun c hc => hkeeps (hes c hc)
    cases e with
    | letIn name value body =>
      have hvalue : value ∈ (Expr.letIn name value body).children := by simp [Expr.children]
      have hbody : body ∈ (Expr.letIn name value body).children := by simp [Expr.children]
      simp only [Eval.expr]
      exact (hchild hvalue).bind (hkeeps hvalue) fun v => ih body hbody hframe (he.child hbody)
    | apply function args | new function args =>
      simp only [Eval.expr]
      refine (hchild List.mem_cons_self).bind (hkeeps List.mem_cons_self) fun value => ?_
      have hes : ∀ c ∈ args, c ∈ function :: args := fun c hc => List.mem_cons_of_mem _ hc
      exact (hargs hes).bind (hkeepsArgs hes) fun values => sameFrom_applyValue henter value values
    | call receiver method args =>
      cases receiver with
      | none =>
        simp only [Eval.expr]
        exact (hargs fun c hc => hc).bind (hkeepsArgs fun c hc => hc) fun values =>
          sameFrom_callMethod henter method none values
      | some receiver =>
        simp only [Eval.expr]
        refine (hchild List.mem_cons_self).bind (hkeeps List.mem_cons_self) fun value => ?_
        have hes : ∀ c ∈ args, c ∈ receiver :: args := fun c hc => List.mem_cons_of_mem _ hc
        exact (hargs hes).bind (hkeepsArgs hes) fun values =>
          sameFrom_callMethod henter method (some value) values
    | field target name | setStatic owner name target | unary op target =>
      simp only [Eval.expr]
      exact (hchild List.mem_cons_self).bind (hkeeps List.mem_cons_self) fun v => sameFrom_refl _
    | setField target name value | item target value =>
      have hvalue : value ∈ [target, value] := by simp
      simp only [Eval.expr]
      refine (hchild List.mem_cons_self).bind (hkeeps List.mem_cons_self) fun object => ?_
      exact (hchild hvalue).bind (hkeeps hvalue) fun v => sameFrom_refl _
    | ite condition yes no =>
      simp only [Eval.expr]
      refine (hchild List.mem_cons_self).bind (hkeeps List.mem_cons_self) fun value => ?_
      cases value.truthy with
      | true => exact hchild (by simp [Expr.children])
      | false => exact hchild (by simp [Expr.children])
    | seq items =>
      simp only [Eval.expr]
      exact sameFrom_lastOf (fun c hc => hkeeps hc) (fun c hc => hchild hc) .undefined
    | object fields =>
      have hfields : ∀ entry ∈ fields, entry.2 ∈ (Expr.object fields).children :=
        fun entry hentry => List.mem_map.mpr ⟨entry, hentry, rfl⟩
      have hkeepsFields := keeps_namedExprs fun entry hentry => hkeeps (hfields entry hentry)
      simp only [Eval.expr]
      refine SameFrom.bind ?_ hkeepsFields fun values => sameFrom_refl _
      exact sameFrom_namedExprs (fun entry hentry => hkeeps (hfields entry hentry))
        fun entry hentry => hchild (hfields entry hentry)
    | array items =>
      simp only [Eval.expr]
      exact (hargs fun c hc => hc).bind (hkeepsArgs fun c hc => hc) fun values => sameFrom_refl _
    | binary op left right =>
      have hright : right ∈ [left, right] := by simp
      exact sameFrom_binary (hkeeps List.mem_cons_self) (hkeeps hright)
        (hchild List.mem_cons_self) (hchild hright)
    | start owner =>
      simp only [Eval.expr]
      exact (hstart owner).bind (h.start owner) fun _ => sameFrom_refl _
    | _ =>
      simp only [Eval.expr]
      exact sameFrom_refl _

theorem sameFrom_statements (henter : ∀ frame body, Restores (around.enter frame body))
    (hstart : ∀ owner, Restores (around.start owner)) {s₀ : Machine.State}
    (hsameEnter : ∀ frame body,
      SameFrom s₀.Returns (around.enter frame body) (around'.enter frame body))
    (hsameStart : ∀ owner, SameFrom s₀.Returns (around.start owner) (around'.start owner))
    (owner : Identity) (statements : List Statement) :
    SameFrom s₀.Returns (Eval.statements m around owner statements)
      (Eval.statements m around' owner statements) := by
  have hexpr (e : Expr) : SameFrom s₀.Returns (expr m around {} e) (expr m around' {} e) :=
    (upkeep_returns henter hstart s₀ []).sameFrom_expr hsameEnter hsameStart rfl
      fun _ _ => trivial
  induction statements with
  | nil => exact sameFrom_refl _
  | cons statement rest ih =>
    cases statement with
    | expr e =>
      simp only [Eval.statements]
      refine (sameFrom_refl _).bind (restores_beginStatement owner _ s₀) fun _ => ?_
      exact (hexpr e).bind (restores_expr henter hstart {} e s₀) fun _ => ih
    | init field value =>
      simp only [Eval.statements]
      refine (sameFrom_refl _).bind (restores_beginStatement owner _ s₀) fun _ => ?_
      refine (hexpr value).bind (restores_expr henter hstart {} value s₀) fun v => ?_
      exact (sameFrom_refl _).bind (restores_fillStatic owner field v s₀) fun _ => ih

end SameFrom

/-! ## Unrolling the recursion -/

/--
One level of the recursion.  A body is entered unless too many calls are in progress,
and an initializer runs unless its type has been started, both on top of a level below.
-/
def Surroundings.above (m : Machine) (below : Surroundings) : Surroundings where
  enter frame body := do
    if Machine.maxDepth ≤ (← get).depth then throw .callDepth
    else nested (expr m below frame body)
  start owner := do
    if ← markStarted owner then statements m below owner (m.initializer owner)

/-- So many levels of the recursion on top of a given one. -/
def unrolled (m : Machine) (bottom : Surroundings) : Nat → Surroundings
  | 0 => bottom
  | n + 1 => (unrolled m bottom n).above m

end Eval

namespace Machine

/-- The number of classes that have not been started. -/
def unstarted (m : Machine) (s : State) : Nat :=
  (m.build.classes.keys.toFinset.filter (· ∉ s.started)).card

/-- How many levels of the recursion an evaluation may need. -/
def levels (m : Machine) (s : State) : Nat := maxDepth - s.depth + m.unstarted s + 1

variable {m : Machine} {s s' : State}

theorem unstarted_le_size (m : Machine) (s : State) : m.unstarted s ≤ m.build.classes.size := by
  calc m.unstarted s ≤ m.build.classes.keys.toFinset.card := Finset.card_filter_le _ _
    _ ≤ m.build.classes.keys.length := List.toFinset_card_le _
    _ = m.build.classes.size := List.length_map _

theorem unstarted_le_of_returns (h : s.Returns s') : m.unstarted s' ≤ m.unstarted s := by
  refine Finset.card_le_card fun id hid => ?_
  obtain ⟨hmem, hstarted⟩ := Finset.mem_filter.mp hid
  exact Finset.mem_filter.mpr ⟨hmem, fun hold => hstarted (h.started.subset hold)⟩

/-- Marking a class leaves fewer to be started. -/
theorem unstarted_mark_lt {owner : Identity} (hclass : owner ∈ m.build.classes.keys)
    (howner : owner ∉ s.started) :
    m.unstarted { s with started := owner :: s.started } < m.unstarted s := by
  have hsubset : m.build.classes.keys.toFinset.filter (· ∉ owner :: s.started) ⊆
      m.build.classes.keys.toFinset.filter (· ∉ s.started) := by
    intro id hid
    obtain ⟨hmem, hstarted⟩ := Finset.mem_filter.mp hid
    exact Finset.mem_filter.mpr ⟨hmem, fun hold => hstarted (List.mem_cons_of_mem owner hold)⟩
  apply Finset.card_lt_card
  refine (Finset.ssubset_iff_of_subset hsubset).mpr ⟨owner, ?_, by simp⟩
  exact Finset.mem_filter.mpr ⟨List.mem_toFinset.mpr hclass, howner⟩

theorem levels_le_of_returns (h : s.Returns s') : m.levels s' ≤ m.levels s := by
  have hunstarted := unstarted_le_of_returns (m := m) h
  unfold levels
  rw [h.depth]
  omega

theorem exists_of_levels_le {n : Nat} (h : m.levels s ≤ n) : ∃ k, n = k + 1 :=
  ⟨n - 1, by unfold levels at h; omega⟩

/-- Only a class has an initializer to run. -/
theorem mem_keys_of_initializer {owner : Identity} (h : m.initializer owner ≠ []) :
    owner ∈ m.build.classes.keys := by
  refine (Table.contains_iff _ _).mp ?_
  unfold initializer at h
  unfold Table.contains
  cases hclass : m.build.classes.get? owner with
  | none => simp [hclass] at h
  | some c => rfl

/-- Running an initializer leaves fewer levels, since its type has been marked. -/
theorem levels_mark_lt {owner : Identity} (hinitializer : m.initializer owner ≠ [])
    (howner : owner ∉ s.started) :
    m.levels { s with started := owner :: s.started } < m.levels s := by
  have hfewer := unstarted_mark_lt (mem_keys_of_initializer hinitializer) howner
  unfold levels
  dsimp only
  omega

/-- Entering a body leaves fewer levels, since there is one more call in progress. -/
theorem levels_deeper_lt (hroom : s.depth < maxDepth) :
    m.levels { s with depth := s.depth + 1 } < m.levels s := by
  have hsame : m.unstarted { s with depth := s.depth + 1 } = m.unstarted s := rfl
  unfold levels
  rw [hsame]
  dsimp only
  omega

end Machine

namespace Eval

variable {m : Machine} {bottom : Surroundings} {s : Machine.State}

theorem unrolled_start_of_mem {owner : Identity} (h : owner ∈ s.started) (n : Nat) :
    (unrolled m bottom (n + 1)).start owner s = .ok () s := by
  show (markStarted owner >>= _) s = _
  rw [bind_of_ok (markStarted_of_mem h)]
  rfl

theorem unrolled_start_of_not_mem {owner : Identity} (h : owner ∉ s.started) (n : Nat) :
    (unrolled m bottom (n + 1)).start owner s =
      statements m (unrolled m bottom n) owner (m.initializer owner)
        { s with started := owner :: s.started } := by
  show (markStarted owner >>= _) s = _
  rw [bind_of_ok (markStarted_of_not_mem h)]
  rfl

theorem startWithin_of_not_mem {enter : Frame → Expr → Eval Value} {owner : Identity}
    (h : owner ∉ s.started) (bound : Nat) :
    startWithin m enter (bound + 1) owner s =
      statements m ⟨enter, startWithin m enter bound⟩ owner (m.initializer owner)
        { s with started := owner :: s.started } := by
  rw [startWithin, bind_of_ok (markStarted_of_not_mem h)]
  rfl

/--
Starting a type on top of enough levels is starting it with a large enough bound, if
entering bodies is the same.  The bound is enough because each initializer that runs
has marked one more class.
-/
theorem startWithin_eq_unrolled {enter : Frame → Expr → Eval Value}
    (hrestores : ∀ frame body, Restores (enter frame body)) {d : Nat}
    (henter : ∀ n s frame body, s.depth = d → m.levels s ≤ n →
      enter frame body s = (unrolled m bottom n).enter frame body s)
    (bound n : Nat) (owner : Identity) (hdepth : s.depth = d)
    (hbound : m.unstarted s ≤ bound) (hn : m.levels s ≤ n) :
    startWithin m enter bound owner s = (unrolled m bottom n).start owner s := by
  induction bound generalizing n s owner with
  | zero =>
    obtain ⟨n, rfl⟩ := Machine.exists_of_levels_le hn
    by_cases hstarted : owner ∈ s.started
    · rw [startWithin_of_mem 0 hstarted, unrolled_start_of_mem hstarted]
    · have hnone : m.initializer owner = [] := by
        by_contra hsome
        have := Machine.unstarted_mark_lt (Machine.mem_keys_of_initializer hsome) hstarted
        omega
      rw [unrolled_start_of_not_mem hstarted, hnone]
      show EStateM.map _ (markStarted owner) s = _
      rw [EStateM.map, markStarted_of_not_mem hstarted]
      rfl
  | succ bound ih =>
    obtain ⟨n, rfl⟩ := Machine.exists_of_levels_le hn
    by_cases hstarted : owner ∈ s.started
    · rw [startWithin_of_mem (bound + 1) hstarted, unrolled_start_of_mem hstarted]
    rw [startWithin_of_not_mem hstarted, unrolled_start_of_not_mem hstarted]
    by_cases hnone : m.initializer owner = []
    · rw [hnone]
      rfl
    have hfewer := Machine.unstarted_mark_lt (Machine.mem_keys_of_initializer hnone) hstarted
    have hlevels : m.levels { s with started := owner :: s.started } ≤ n :=
      Nat.lt_succ_iff.mp ((Machine.levels_mark_lt hnone hstarted).trans_le hn)
    refine sameFrom_statements hrestores (restores_startWithin hrestores bound)
      (fun frame body t ht => ?_) (fun type t ht => ?_) owner _ _ (.refl _)
    · exact henter n t frame body (ht.depth.trans hdepth)
        ((Machine.levels_le_of_returns ht).trans hlevels)
    · refine ih n type (ht.depth.trans hdepth) ?_ ((Machine.levels_le_of_returns ht).trans hlevels)
      have := Machine.unstarted_le_of_returns (m := m) ht
      omega

/-- Entering a body on top of enough levels is entering it with the calls that are left. -/
theorem enterWithin_eq_unrolled (left n : Nat) (frame : Frame) (body : Expr)
    (hleft : Machine.maxDepth - s.depth = left) (hn : m.levels s ≤ n) :
    enterWithin m left frame body s = (unrolled m bottom n).enter frame body s := by
  induction left generalizing n s frame body with
  | zero =>
    obtain ⟨n, rfl⟩ := Machine.exists_of_levels_le hn
    have hfull : Machine.maxDepth ≤ s.depth := by omega
    show _ = (if Machine.maxDepth ≤ s.depth then throw .callDepth else _ : Eval Value) s
    rw [if_pos hfull]
    rfl
  | succ left ih =>
    obtain ⟨n, rfl⟩ := Machine.exists_of_levels_le hn
    have hroom : ¬ Machine.maxDepth ≤ s.depth := by omega
    have hlevels : m.levels { s with depth := s.depth + 1 } ≤ n :=
      Nat.lt_succ_iff.mp ((Machine.levels_deeper_lt (Nat.lt_of_not_le hroom)).trans_le hn)
    have hbody : expr m (surroundings m (enterWithin m left)) frame body
        { s with depth := s.depth + 1 } =
          expr m (unrolled m bottom n) frame body { s with depth := s.depth + 1 } := by
      have hstart (owner : Identity) :
          Restores ((surroundings m (enterWithin m left)).start owner) :=
        restores_startWithin (restores_enterWithin left) m.build.classes.size owner
      have hupkeep := upkeep_returns (m := m) (restores_enterWithin left) hstart
        { s with depth := s.depth + 1 } frame.holes
      refine hupkeep.sameFrom_expr (fun frame body t ht => ?_) (fun owner t ht => ?_) rfl
        (fun _ _ => trivial) _ (.refl _)
      · have hleft' : Machine.maxDepth - t.depth = left := by
          have := ht.depth
          dsimp only at this
          omega
        exact ih n frame body hleft' ((Machine.levels_le_of_returns ht).trans hlevels)
      · refine startWithin_eq_unrolled (d := s.depth + 1) (restores_enterWithin left)
          (fun n t frame body hdepth hn => ih n frame body (by omega) hn) _ n owner ht.depth
          (Machine.unstarted_le_size m t) ((Machine.levels_le_of_returns ht).trans hlevels)
    show _ = (if Machine.maxDepth ≤ s.depth then _ else nested _ : Eval Value) s
    rw [if_neg hroom, enterWithin, nested, nested, hbody]

end Eval

/-! ## Invocations -/

/-- Performs an invocation on top of some level of the recursion. -/
def Invocation.on (m : Machine) (around : Eval.Surroundings) : Invocation → Eval Value
  | expr frame e => Eval.expr m around frame e
  | call method receiver args => Eval.callMethod m around.enter method receiver args
  | apply function args => Eval.applyValue m around.enter function args
  | start owner => do
    around.start owner
    return .undefined

namespace Machine

variable {m : Machine}

/-- An invocation is carried out as on any level that enters and starts in the same way. -/
theorem invoke_eq_on (invocation : Invocation) {s : State} {around : Eval.Surroundings}
    (henter : ∀ frame body,
      Eval.SameFrom s.Returns (Eval.enter m frame body) (around.enter frame body))
    (hstart : ∀ owner, Eval.SameFrom s.Returns (m.start owner) (around.start owner)) :
    m.invoke invocation s = invocation.on m around s := by
  cases invocation with
  | expr frame e =>
    exact (Eval.upkeep_returns Eval.restores_enter m.restores_start s frame.holes).sameFrom_expr
      henter hstart rfl (fun _ _ => trivial) s (.refl s)
  | call method receiver args =>
    exact Eval.sameFrom_callMethod henter method receiver args s (.refl s)
  | apply function args => exact Eval.sameFrom_applyValue henter function args s (.refl s)
  | start owner =>
    exact (hstart owner).bind (m.restores_start owner s) (fun _ => Eval.sameFrom_refl _) s (.refl s)

theorem start_eq_unrolled (m : Machine) (bottom : Eval.Surroundings) {s : State} {n : Nat}
    (hn : m.levels s ≤ n) (owner : Identity) :
    m.start owner s = (Eval.unrolled m bottom n).start owner s :=
  Eval.startWithin_eq_unrolled Eval.restores_enter
    (fun n _ frame body _ hn => Eval.enterWithin_eq_unrolled _ n frame body rfl hn) _ n owner rfl
    (unstarted_le_size m s) hn

/-- An invocation is carried out as on top of enough levels, whatever stands below them. -/
theorem invoke_eq_unrolled (m : Machine) (invocation : Invocation) (s : State)
    (bottom : Eval.Surroundings) {n : Nat} (hn : m.levels s ≤ n) :
    m.invoke invocation s = invocation.on m (Eval.unrolled m bottom n) s := by
  refine invoke_eq_on invocation (fun frame body t ht => ?_) fun owner t ht => ?_
  · exact Eval.enterWithin_eq_unrolled _ n frame body rfl ((levels_le_of_returns ht).trans hn)
  · exact m.start_eq_unrolled bottom ((levels_le_of_returns ht).trans hn) owner

/--
Code comes to what it does on the machine, if bodies are entered as on the machine and as many
initializers may still run as there are classes to start.
-/
theorem expr_eq_evalIn {enter : Frame → Expr → Eval Value} {d : Nat}
    (hrestores : ∀ frame body, Eval.Restores (enter frame body))
    (henter : ∀ s frame body, s.depth = d → enter frame body s = Eval.enter m frame body s)
    {bound : Nat} {s : State} (hdepth : s.depth = d) (hbound : m.unstarted s ≤ bound)
    (frame : Frame) (e : Expr) :
    Eval.expr m ⟨enter, Eval.startWithin m enter bound⟩ frame e s = m.evalIn frame e s := by
  refine (invoke_eq_on (.expr frame e) (fun frame body t ht => ?_) fun owner t ht => ?_).symm
  · exact (henter t frame body (ht.depth.trans hdepth)).symm
  · rw [m.start_eq_unrolled (Eval.surroundings m (Eval.enter m)) le_rfl owner]
    refine (Eval.startWithin_eq_unrolled hrestores (fun n t frame body hd hn => ?_) bound _ owner
      (ht.depth.trans hdepth) ((unstarted_le_of_returns ht).trans hbound) le_rfl).symm
    rw [henter t frame body hd]
    exact Eval.enterWithin_eq_unrolled _ n frame body rfl hn

/-- An invocation is carried out with the calls that are left. -/
theorem invoke_eq_within (m : Machine) (invocation : Invocation) (s : State) :
    m.invoke invocation s =
      invocation.on m (Eval.surroundings m (Eval.enterWithin m (maxDepth - s.depth))) s := by
  refine invoke_eq_on invocation (fun frame body t ht => ?_) fun owner t ht => ?_
  · show Eval.enterWithin m (maxDepth - t.depth) frame body t = _
    rw [ht.depth]
    rfl
  -- Both come to the same on top of enough levels.
  · rw [m.start_eq_unrolled (Eval.surroundings m (Eval.enter m)) le_rfl owner]
    refine (Eval.startWithin_eq_unrolled (Eval.restores_enterWithin _)
      (fun n t frame body hdepth hn => ?_) _ _ owner ht.depth (unstarted_le_size m t) le_rfl).symm
    exact Eval.enterWithin_eq_unrolled _ n frame body (by rw [hdepth]) hn

end Machine

/--
Evaluating an expression, calling a member, applying a function and starting a type
come to their outcome within the calls that are left and the classes that are not
started, whatever would happen further down.  With a value or a fault, as many calls
are in progress afterwards as before, and started types stay so.  After operations
that may all have failed, an invocation has as many calls left as there were before them.
-/
theorem evaluation_finishes_and_restores_depth (m : Machine) (s : Machine.State)
    (invocation : Invocation) (ops : List Operation) :
    (∀ bottom more, invocation.on m (Eval.unrolled m bottom (m.levels s + more)) s =
        m.invoke invocation s) ∧
      Eval.EndsIn s.Returns (fun _ => True) (m.invoke invocation s) ∧
      ∀ next : Invocation,
        let later := (Session.mk m s).after ops
        later.machine.invoke next later.state =
          next.on later.machine
            (Eval.surroundings later.machine
              (Eval.enterWithin later.machine (Machine.maxDepth - s.depth)))
            later.state := by
  refine ⟨fun bottom more => ?_, m.restores_invoke invocation s s (.refl s), fun next => ?_⟩
  · exact (m.invoke_eq_unrolled invocation s bottom (Nat.le_add_right _ more)).symm
  · have hdepth := ((Session.mk m s).returns_after ops).depth
    dsimp only at hdepth ⊢
    rw [← hdepth]
    exact Machine.invoke_eq_within _ next _

end Memberwise
