import Mathlib
import Memberwise.Proofs.EvaluatedStatements

/-!
# States that a session goes through

The outcome of an evaluation does not tell through which states it went.  Here these states
are described by a relation.  An expression evaluates its parts, one after the other; then it
may go on with a branch or with a body, of its own, of a function or of a static initializer.

The moments of an evaluation were listed by following its recursion.  Their states are among
those that it goes through.
-/

namespace Memberwise

namespace Expr

/-- The expressions that are evaluated in any case, in order. -/
def parts : Expr → List Expr
  | letIn _ value _ => [value]
  | lambda _ _ => []
  | ite condition _ _ => [condition]
  | binary .and left _ | binary .or left _ => [left]
  | e => e.children

/-- The expression that is evaluated after a condition with some value. -/
def branch? : Expr → Value → Option Expr
  | ite _ yes no, v => some (if v.truthy then yes else no)
  | binary .and _ right, v => if v.truthy then some right else none
  | binary .or _ right, v => if v.truthy then none else some right
  | _, _ => none

theorem parts_subset_children (e : Expr) : e.parts ⊆ e.children := by
  cases e with
  | letIn name value body | ite condition yes no | lambda params body => simp [parts, children]
  | binary op left right => cases op <;> simp [parts, children]
  | _ => exact List.Subset.refl _

end Expr

namespace Eval

/-- The surroundings of a body that is entered in some state, unless calls are too deep. -/
inductive Opens (m : Machine) (s : Machine.State) :
    (Frame → Expr → Eval Value) → Surroundings → Prop
  | within (left : Nat) :
      Opens m s (enterWithin m (left + 1)) (surroundings m (enterWithin m left))
  | outermost {left : Nat} (h : Machine.maxDepth - s.depth = left + 1) :
      Opens m s (Eval.enter m) (surroundings m (enterWithin m left))

/-- An evaluation of an expression from some state goes through another one. -/
inductive Passes (m : Machine) :
    Surroundings → Frame → Expr → Machine.State → Machine.State → Prop
  /-- Some of its parts have been evaluated. -/
  | parts {around : Surroundings} {frame : Frame} {e : Expr} {s s' : Machine.State}
      {front back : List Expr} {values : List Value} (hparts : e.parts = front ++ back)
      (hfront : exprs m around frame front s = .ok values s') : Passes m around frame e s s'
  | inPart {around : Surroundings} {frame : Frame} {e part : Expr} {s s₁ s' : Machine.State}
      {front back : List Expr} {values : List Value} (hparts : e.parts = front ++ part :: back)
      (hfront : exprs m around frame front s = .ok values s₁)
      (h : Passes m around frame part s₁ s') : Passes m around frame e s s'
  | inBranch {around : Surroundings} {frame : Frame} {e condition branch : Expr}
      {s s₁ s' : Machine.State} {v : Value} (hparts : e.parts = [condition])
      (hcondition : expr m around frame condition s = .ok v s₁)
      (hbranch : e.branch? v = some branch) (h : Passes m around frame branch s₁ s') :
      Passes m around frame e s s'
  | inLet {around : Surroundings} {frame : Frame} {name : String} {value body : Expr}
      {s s₁ s' : Machine.State} {v : Value} (hvalue : expr m around frame value s = .ok v s₁)
      (h : Passes m around (frame.bind name v) body s₁ s') :
      Passes m around frame (.letIn name value body) s s'
  | inClosure {around inner : Surroundings} {frame : Frame} {e function : Expr}
      {args : List Expr} {s s₁ s' : Machine.State} {ref : Nat} {closure : Closure}
      {values : List Value} (he : e = .apply function args ∨ e = .new function args)
      (hparts : exprs m around frame (function :: args) s = .ok (.closure ref :: values) s₁)
      (hclosure : s₁.store.closures[ref]? = some closure) (henter : Opens m s₁ around.enter inner)
      (h : Passes m inner (closure.frame.bindAll closure.params values) closure.body
        { s₁ with depth := s₁.depth + 1 } s') : Passes m around frame e s s'
  | inMethod {around inner : Surroundings} {frame entered : Frame} {receiver : Option Expr}
      {method : MethodRef} {args : List Expr} {s s₁ s' : Machine.State} {target : Option Value}
      {values : List Value} {found : Method} (htarget : target.isSome = receiver.isSome)
      (hparts : exprs m around frame (receiver.toList ++ args) s =
        .ok (target.toList ++ values) s₁)
      (hlookup : m.lookup method = .ok found) (hframe : found.frame? target values = some entered)
      (henter : Opens m s₁ around.enter inner)
      (h : Passes m inner entered found.body { s₁ with depth := s₁.depth + 1 } s') :
      Passes m around frame (.call receiver method args) s s'
  /-- A static initializer has not been started and begins with one of its statements. -/
  | inInitializer {around : Surroundings} {frame : Frame} {owner : Identity}
      {s s₁ s' : Machine.State} {bound : Nat} {statement : Statement} {front back : List Statement}
      (hstart : around.start = startWithin m around.enter (bound + 1)) (hfresh : owner ∉ s.started)
      (hinitializer : m.initializer owner = front ++ statement :: back)
      (hfront : statements m ⟨around.enter, startWithin m around.enter bound⟩ owner front
        { s with started := owner :: s.started } = .ok () s₁)
      (h : Passes m ⟨around.enter, startWithin m around.enter bound⟩ {} statement.code
        { s₁ with begun := (owner, statement) :: s₁.begun } s') :
      Passes m around frame (.start owner) s s'

variable {m : Machine} {around : Surroundings} {below : Tracer} {frame : Frame} {e : Expr}
  {s s₁ s' : Machine.State} {t : Moment}

theorem Passes.refl : Passes m around frame e s s := .parts (List.nil_append _).symm rfl

theorem exprs_cons {es : List Expr} {v : Value} {values : List Value}
    (hv : expr m around frame e s = .ok v s₁)
    (hvalues : exprs m around frame es s₁ = .ok values s') :
    exprs m around frame (e :: es) s = .ok (v :: values) s' := by
  rw [exprs, bind_of_ok hv, bind_of_ok hvalues]
  rfl

/-! ## Moments among the states -/

theorem mem_following_iff {α : Type} {r : EStateM.Result Fault Machine.State α}
    {next : α → Machine.State → List Moment} :
    t ∈ following r next ↔ ∃ a s, r = .ok a s ∧ t ∈ next a s := by
  cases r with
  | ok a s => simp [following]
  | error fault s => simp [following]

theorem mem_momentsOfAll_cons {es : List Expr} :
    t ∈ momentsOfAll m around below frame (e :: es) s ↔
      t ∈ moments m around below frame e s ∨ ∃ v s₁, expr m around frame e s = .ok v s₁ ∧
        t ∈ momentsOfAll m around below frame es s₁ := by
  rw [momentsOfAll, List.mem_append, mem_following_iff]

theorem momentsOfFields_eq (fields : List (String × Expr)) (s : Machine.State) :
    momentsOfFields m around below frame fields s =
      momentsOfAll m around below frame (fields.map Prod.snd) s := by
  induction fields generalizing s with
  | nil => rfl
  | cons field fields ih => simp [momentsOfFields, momentsOfAll, ih]

/-- A moment of some expressions is one of an expression after those before it gave values. -/
theorem exists_of_mem_momentsOfAll {es : List Expr}
    (h : t ∈ momentsOfAll m around below frame es s) :
    ∃ front part back values s₁, es = front ++ part :: back ∧
      exprs m around frame front s = .ok values s₁ ∧ t ∈ moments m around below frame part s₁ := by
  induction es generalizing s with
  | nil => cases h
  | cons e es ih =>
    rcases mem_momentsOfAll_cons.mp h with h | ⟨v, s₂, hv, h⟩
    · exact ⟨[], e, es, [], s, rfl, rfl, h⟩
    · obtain ⟨front, part, back, values, s₁, rfl, hfront, h⟩ := ih h
      exact ⟨e :: front, part, back, v :: values, s₁, rfl, exprs_cons hv hfront, h⟩

/-- A moment of an expression and of what follows its value. -/
theorem mem_moments_following {next : Value → Machine.State → List Moment}
    (h : t ∈ moments m around below frame e s ++ following (expr m around frame e s) next) :
    t ∈ momentsOfAll m around below frame [e] s ∨
      ∃ v s₁, expr m around frame e s = .ok v s₁ ∧ t ∈ next v s₁ := by
  rcases List.mem_append.mp h with h | h
  · exact .inl (mem_momentsOfAll_cons.mpr (.inl h))
  · exact .inr (mem_following_iff.mp h)

theorem mem_momentsOfAll_pair {e' : Expr}
    (h : t ∈ moments m around below frame e s ++
      following (expr m around frame e s) fun _ s => moments m around below frame e' s) :
    t ∈ momentsOfAll m around below frame [e, e'] s := by
  rcases List.mem_append.mp h with h | h
  · exact mem_momentsOfAll_cons.mpr (.inl h)
  · obtain ⟨v, s₁, hv, h⟩ := mem_following_iff.mp h
    exact mem_momentsOfAll_cons.mpr (.inr ⟨v, s₁, hv, mem_momentsOfAll_cons.mpr (.inl h)⟩)

/-- A moment of an expression, of some more, and of what follows all the values. -/
theorem mem_moments_following_all {es : List Expr}
    {next : Value → List Value → Machine.State → List Moment}
    (h : t ∈ moments m around below frame e s ++
      following (expr m around frame e s) fun v s =>
        momentsOfAll m around below frame es s ++
          following (exprs m around frame es s) fun values s => next v values s) :
    t ∈ momentsOfAll m around below frame (e :: es) s ∨
      ∃ v values s₁, exprs m around frame (e :: es) s = .ok (v :: values) s₁ ∧
        t ∈ next v values s₁ := by
  rcases List.mem_append.mp h with h | h
  · exact .inl (mem_momentsOfAll_cons.mpr (.inl h))
  obtain ⟨v, s₁, hv, h⟩ := mem_following_iff.mp h
  rcases List.mem_append.mp h with h | h
  · exact .inl (mem_momentsOfAll_cons.mpr (.inr ⟨v, s₁, hv, h⟩))
  · obtain ⟨values, s₂, hvalues, h⟩ := mem_following_iff.mp h
    exact .inr ⟨v, values, s₂, exprs_cons hv hvalues, h⟩

theorem exists_of_mem_applyMoments {enter : Frame → Expr → Machine.State → List Moment}
    {function : Value} {args : List Value} (h : t ∈ applyMoments enter function args s) :
    ∃ ref closure, function = .closure ref ∧ s.store.closures[ref]? = some closure ∧
      t ∈ enter (closure.frame.bindAll closure.params args) closure.body s := by
  cases function with
  | closure ref =>
    simp only [applyMoments] at h
    cases hclosure : s.store.closures[ref]? with
    | none => simp [hclosure] at h
    | some closure =>
      rw [hclosure] at h
      exact ⟨ref, closure, rfl, hclosure, h⟩
  | _ => simp [applyMoments] at h

theorem exists_of_mem_callMoments {enter : Frame → Expr → Machine.State → List Moment}
    {method : MethodRef} {receiver : Option Value} {args : List Value}
    (h : t ∈ callMoments m enter method receiver args s) :
    ∃ found entered, m.lookup method = .ok found ∧ found.frame? receiver args = some entered ∧
      t ∈ enter entered found.body s := by
  unfold callMoments at h
  cases hlookup : m.lookup method with
  | error fault => simp [hlookup] at h
  | ok found =>
    cases hframe : found.frame? receiver args with
    | none => simp [hlookup, hframe] at h
    | some entered =>
      simp only [hlookup, hframe] at h
      exact ⟨found, entered, rfl, hframe, h⟩

/-- A moment of an initializer belongs to its first statement or comes after it. -/
theorem mem_statementMoments_cons {owner : Identity} {statement : Statement}
    {rest : List Statement}
    (h : t ∈ statementMoments m around below owner (statement :: rest) s) :
    (t.state = { s with begun := (owner, statement) :: s.begun } ∨
        t ∈ moments m around below {} statement.code
          { s with begun := (owner, statement) :: s.begun }) ∨
      ∃ s₁, (∀ more, Eval.statements m around owner (statement :: more) s =
          Eval.statements m around owner more s₁) ∧
        t ∈ statementMoments m around below owner rest s₁ := by
  cases statement with
  | expr e =>
    rcases List.mem_cons.mp h with rfl | h
    · exact .inl (.inl rfl)
    rcases List.mem_append.mp h with h | h
    · exact .inl (.inr h)
    · obtain ⟨v, s₁, hv, h⟩ := mem_following_iff.mp h
      exact .inr ⟨s₁, fun more => bind_of_ok hv, h⟩
  | init field value =>
    rcases List.mem_cons.mp h with rfl | h
    · exact .inl (.inl rfl)
    rcases List.mem_append.mp h with h | h
    · exact .inl (.inr h)
    · obtain ⟨v, s₁, hv, h⟩ := mem_following_iff.mp h
      exact .inr ⟨s₁.write ⟨owner, field, v, true⟩, fun more => bind_of_ok hv, h⟩

/-- A moment of an initializer belongs to a statement after those before it have run. -/
theorem exists_of_mem_statementMoments {owner : Identity} {statements : List Statement}
    (h : t ∈ statementMoments m around below owner statements s) :
    ∃ front statement back s₁, statements = front ++ statement :: back ∧
      Eval.statements m around owner front s = .ok () s₁ ∧
      (t.state = { s₁ with begun := (owner, statement) :: s₁.begun } ∨
        t ∈ moments m around below {} statement.code
          { s₁ with begun := (owner, statement) :: s₁.begun }) := by
  induction statements generalizing s with
  | nil => cases h
  | cons statement rest ih =>
    rcases mem_statementMoments_cons h with h | ⟨s₂, hrun, h⟩
    · exact ⟨[], statement, rest, s, rfl, rfl, h⟩
    · obtain ⟨front, later, back, s₁, rfl, hfront, h⟩ := ih h
      exact ⟨statement :: front, later, back, s₁, rfl, (hrun front).trans hfront, h⟩

/-- A body that is entered goes through the states of its moments. -/
def EntersThrough (m : Machine) (enter : Frame → Expr → Eval Value)
    (trace : Frame → Expr → Machine.State → List Moment) : Prop :=
  ∀ frame body s, ∀ t ∈ trace frame body s, ∃ inner, Opens m s enter inner ∧
    Passes m inner frame body { s with depth := s.depth + 1 } t.state

/-- An evaluation goes through the states of its moments. -/
theorem passes_of_mem_moments (henter : EntersThrough m around.enter below.enter)
    (hstart : ∀ owner frame s, ∀ t ∈ below.start owner s,
      Passes m around frame (.start owner) s t.state)
    (h : t ∈ moments m around below frame e s) : Passes m around frame e s t.state := by
  induction e using Expr.childInduction generalizing frame s with
  | step e ih =>
    have hparts (h : t ∈ momentsOfAll m around below frame e.parts s) :
        Passes m around frame e s t.state := by
      obtain ⟨front, part, back, values, s₁, heq, hfront, h⟩ := exists_of_mem_momentsOfAll h
      exact .inPart heq hfront (ih part (e.parts_subset_children (by simp [heq])) h)
    cases e with
    | letIn name value body =>
      rcases mem_moments_following h with h | ⟨v, s₁, hv, h⟩
      · exact hparts h
      · exact .inLet hv (ih body (by simp [Expr.children]) h)
    | apply function args | new function args =>
      rcases mem_moments_following_all h with h | ⟨v, values, s₁, hvalues, h⟩
      · exact hparts h
      · obtain ⟨ref, closure, rfl, hclosure, h⟩ := exists_of_mem_applyMoments h
        obtain ⟨inner, hopens, h⟩ := henter _ _ _ _ h
        exact .inClosure (by simp) hvalues hclosure hopens h
    | call receiver method args =>
      cases receiver with
      | none =>
        rcases List.mem_append.mp h with h | h
        · exact hparts h
        · obtain ⟨values, s₁, hvalues, h⟩ := mem_following_iff.mp h
          obtain ⟨found, entered, hlookup, hframe, h⟩ := exists_of_mem_callMoments h
          obtain ⟨inner, hopens, h⟩ := henter _ _ _ _ h
          refine .inMethod ?_ ?_ hlookup hframe hopens h
          · rfl
          · exact hvalues
      | some receiver =>
        rcases mem_moments_following_all h with h | ⟨v, values, s₁, hvalues, h⟩
        · exact hparts h
        · obtain ⟨found, entered, hlookup, hframe, h⟩ := exists_of_mem_callMoments h
          obtain ⟨inner, hopens, h⟩ := henter _ _ _ _ h
          refine .inMethod ?_ ?_ hlookup hframe hopens h
          · rfl
          · exact hvalues
    | field target name | setStatic owner name target | unary op target =>
      exact hparts (mem_momentsOfAll_cons.mpr (.inl h))
    | setField target name value | item target value => exact hparts (mem_momentsOfAll_pair h)
    | start owner => exact hstart owner frame s t h
    | ite condition yes no =>
      rcases mem_moments_following h with h | ⟨v, s₁, hv, h⟩
      · exact hparts h
      · refine .inBranch rfl hv rfl ?_
        split_ifs at h ⊢
        · exact ih yes (by simp [Expr.children]) h
        · exact ih no (by simp [Expr.children]) h
    | seq items | array items => exact hparts h
    | object fields => exact hparts (momentsOfFields_eq fields s ▸ h)
    | binary op left right =>
      have hright : right ∈ (Expr.binary op left right).children := by simp [Expr.children]
      cases op with
      | and =>
        rcases mem_moments_following h with h | ⟨v, s₁, hv, h⟩
        · exact hparts h
        · split_ifs at h with htruthy
          · exact .inBranch rfl hv (if_pos htruthy) (ih right hright h)
          · cases h
      | or =>
        rcases mem_moments_following h with h | ⟨v, s₁, hv, h⟩
        · exact hparts h
        · split_ifs at h with htruthy
          · cases h
          · exact .inBranch rfl hv (if_neg htruthy) (ih right hright h)
      | _ => exact hparts (mem_momentsOfAll_pair h)
    | _ => cases h

section Enter

variable {enter : Frame → Expr → Eval Value} {trace : Frame → Expr → Machine.State → List Moment}
  (henter : EntersThrough m enter trace)

include henter

theorem passes_of_mem_startMoments (bound : Nat) (owner : Identity) (frame : Frame)
    (s : Machine.State) (t : Moment) (h : t ∈ startMoments m enter trace bound owner s) :
    Passes m ⟨enter, startWithin m enter bound⟩ frame (.start owner) s t.state := by
  induction bound generalizing owner frame s t with
  | zero => cases h
  | succ bound ih =>
    unfold startMoments at h
    split_ifs at h with hstarted
    · cases h
    · obtain ⟨front, statement, back, s₁, hinitializer, hfront, h⟩ :=
        exists_of_mem_statementMoments h
      refine .inInitializer rfl hstarted hinitializer hfront ?_
      rcases h with h | h
      · rw [h]
        exact .refl
      · refine passes_of_mem_moments ?_ ?_ h
        · exact henter
        · exact ih

theorem passes_of_mem_bodyMoments
    (h : t ∈ moments m (surroundings m enter) (tracer m enter trace) frame e s) :
    Passes m (surroundings m enter) frame e s t.state := by
  refine passes_of_mem_moments ?_ ?_ h
  · exact henter
  · exact passes_of_mem_startMoments henter m.build.classes.size

end Enter

theorem entersThrough_enterWithin (left : Nat) :
    EntersThrough m (enterWithin m left) (enterMoments m left) := by
  induction left with
  | zero =>
    intro frame body s t h
    cases h
  | succ left ih =>
    intro frame body s t h
    exact ⟨_, .within left, passes_of_mem_bodyMoments ih h⟩

theorem entersThrough_enter : EntersThrough m (Eval.enter m) m.enterMoments := by
  intro frame body s t h
  unfold Machine.enterMoments at h
  cases hleft : Machine.maxDepth - s.depth with
  | zero =>
    rw [hleft] at h
    cases h
  | succ left =>
    rw [hleft] at h
    exact ⟨_, .outermost hleft, passes_of_mem_bodyMoments (entersThrough_enterWithin left) h⟩

end Eval

namespace Session

/-- An operation goes through a state. -/
inductive Passes (session : Session) : Operation → Machine.State → Prop
  | eval {e : Expr} {s : Machine.State}
      (h : Eval.Passes session.machine
        (Eval.surroundings session.machine (Eval.enter session.machine)) {} e session.state s) :
      Passes session (.eval e) s
  | runEntryPoint {e : Expr} {s : Machine.State}
      (hentry : session.machine.build.entryPoint = some (.expr e))
      (h : Eval.Passes session.machine
        (Eval.surroundings session.machine (Eval.enter session.machine)) {} e session.state s) :
      Passes session .runEntryPoint s
  | call {method : MethodRef} {receiver : Option Value} {args : List Value} {found : Method}
      {frame : Frame} {inner : Eval.Surroundings} {s : Machine.State}
      (hlookup : session.machine.lookup method = .ok found)
      (hframe : found.frame? receiver args = some frame)
      (henter : Eval.Opens session.machine session.state (Eval.enter session.machine) inner)
      (h : Eval.Passes session.machine inner frame found.body
        { session.state with depth := session.state.depth + 1 } s) :
      Passes session (.call method receiver args) s

variable {session : Session} {t : Moment}

theorem passes_of_mem_momentsOf {op : Operation} (h : t ∈ session.momentsOf op) :
    session.Passes op t.state := by
  cases op with
  | addHost name host | changeStore f | readStatic owner name => cases h
  | eval e => exact .eval (Eval.passes_of_mem_bodyMoments Eval.entersThrough_enter h)
  | call method receiver args =>
    obtain ⟨found, frame, hlookup, hframe, h⟩ := Eval.exists_of_mem_callMoments h
    obtain ⟨inner, hopens, h⟩ := Eval.entersThrough_enter _ _ _ _ h
    exact .call hlookup hframe hopens h
  | runEntryPoint =>
    unfold momentsOf at h
    cases hentry : session.machine.build.entryPoint with
    | none => simp [hentry] at h
    | some statement =>
      rw [hentry] at h
      cases statement with
      | expr e =>
        exact .runEntryPoint hentry (Eval.passes_of_mem_bodyMoments Eval.entersThrough_enter h)
      | init field value => cases h

/-- A moment of some operations is a state that one of them goes through. -/
theorem exists_passes_of_mem_moments {ops : List Operation} (h : t ∈ session.moments ops) :
    ∃ before op, before ++ [op] <+: ops ∧ (session.after before).Passes op t.state := by
  induction ops generalizing session with
  | nil => cases h
  | cons op ops ih =>
    rcases List.mem_append.mp h with h | h
    · exact ⟨[], op, List.prefix_append [op] ops, passes_of_mem_momentsOf h⟩
    · obtain ⟨before, later, ⟨rest, hrest⟩, hpasses⟩ := ih h
      refine ⟨op :: before, later, ⟨rest, ?_⟩, hpasses⟩
      rw [← hrest]
      rfl

end Session

end Memberwise
