import Mathlib
import Memberwise.Proofs.EvaluatedStatements
import Memberwise.Proofs.Unrolling

/-!
# Where the values of static fields come from

A static field shows what was stored in it last.  A value gets there in two ways: a
statement of the static initializer fills the field with what its expression came
to, or an assignment is evaluated.  For fields that no code but the bodies of methods
assigns to, the second way leads through such a body.

The initializer of a type runs once.  A statement fills its field before the next one
is begun, so all but at most the last of the statements that were begun have filled
theirs.  If the last one has not, it stopped with a fault, and neither it nor the
statements after it will ever fill their fields.

The invariant relates the state at hand to an earlier one: what was begun and filled of
the types that were started then has stayed, and those started since are not running.
Whatever was filled, and whatever stopped, was evaluated at one of the moments of the session.
-/

namespace Memberwise

/-- The fields that a statement of a static initializer fills. -/
def Statement.fields : Statement → List String
  | init name _ => [name]
  | expr _ => []

/-- The field in which a value was stored. -/
def StaticWrite.field (w : StaticWrite) : Identity × String := (w.owner, w.name)

namespace Machine.State

/-- The latest value stored in a static field. -/
def lastWrite (s : State) (field : Identity × String) : Option StaticWrite :=
  s.stored.find? fun w => w.field = field

/-- The fields that the static initializer of a type has filled, in order. -/
def filledBy (s : State) (owner : Identity) : List String :=
  (s.stored.reverse.filter fun w => w.fills && w.owner = owner).map StaticWrite.name

theorem lastWrite_write (s : State) (w : StaticWrite) (field : Identity × String) :
    (s.write w).lastWrite field = if w.field = field then some w else s.lastWrite field := by
  simp only [lastWrite, write, List.find?_cons]
  by_cases hfield : w.field = field
  · simp [hfield]
  · simp [hfield]

theorem filledBy_assign (s : State) {w : StaticWrite} (hw : w.fills = false) (type : Identity) :
    (s.write w).filledBy type = s.filledBy type := by
  simp [filledBy, write, hw]

theorem filledBy_fill (s : State) (owner type : Identity) (name : String) (value : Value) :
    (s.write ⟨owner, name, value, true⟩).filledBy type =
      if owner = type then s.filledBy type ++ [name] else s.filledBy type := by
  by_cases howner : owner = type
  · simp [filledBy, write, howner]
  · simp [filledBy, write, howner]

end Machine.State

/-! ## Assignments in methods -/

/-- The body of a method of the build assigns to a static field. -/
def Build.Assigns (b : Build) (field : Identity × String) : Prop :=
  ∃ ref r e, Machine.lookup { build := b } ref = .ok r ∧
    .setStatic field.1 field.2 e ∈ r.body.subterms

/-- A form of expression that assigns to some static fields only if methods of the build do. -/
def Expr.AssignsAs (b : Build) (fields : List (Identity × String)) : Expr → Prop
  | setStatic owner name _ => (owner, name) ∈ fields → b.Assigns (owner, name)
  | _ => True

variable {m : Machine} {M : List Moment} {fields : List (Identity × String)}

theorem Expr.every_assignsAs_of_spares {b : Build} {e : Expr} (h : e.Every (Spares fields)) :
    e.Every (AssignsAs b fields) := by
  refine h.imp fun t ht => ?_
  cases t with
  | setStatic owner name value => exact fun hfield => absurd hfield ht
  | _ => trivial

theorem Machine.every_assignsAs_of_lookup {ref : MethodRef} {r : Method}
    (h : m.lookup ref = .ok r) : r.body.Every (Expr.AssignsAs m.build fields) := by
  intro t ht
  cases t with
  | setStatic owner name e => exact fun _ => ⟨ref, r, e, h, ht⟩
  | _ => trivial

/-- At one of some moments, the expression of a statement came to an outcome. -/
def Statement.Ran (M : List Moment) (owner : Identity) (statement : Statement)
    (outcome : EStateM.Result Fault Machine.State Value) : Prop :=
  ∃ t ∈ M, t.owner = owner ∧ t.statement = statement ∧ t.outcome = outcome

/--
How the values of a log were stored, with the moments when statements were evaluated.  A field
was filled with what the expression of its statement came to, before anything else was stored.
-/
inductive Account (b : Build) (M : List Moment) (fields : List (Identity × String)) :
    List StaticWrite → Prop
  | nil : Account b M fields []
  | assign {w : StaticWrite} {earlier : List StaticWrite} (hw : w.fills = false)
      (hfield : w.field ∈ fields → b.Assigns w.field) (h : Account b M fields earlier) :
      Account b M fields (w :: earlier)
  | fill {owner : Identity} {name : String} {value : Value} {e : Expr} {s : Machine.State}
      {earlier : List StaticWrite}
      (hinit : .init name e ∈ Machine.initializer { build := b } owner)
      (hran : Statement.Ran M owner (.init name e) (.ok value s)) (hstored : s.stored = earlier)
      (h : Account b M fields earlier) :
      Account b M fields (⟨owner, name, value, true⟩ :: earlier)

theorem Account.of_append {b : Build} {later earlier : List StaticWrite}
    (h : Account b M fields (later ++ earlier)) : Account b M fields earlier := by
  induction later with
  | nil => exact h
  | cons w later ih =>
    cases h with
    | assign _ _ h => exact ih h
    | fill _ _ _ h => exact ih h

/-! ## States with a record of their static fields -/

/-- What the static fields show was stored in them, and the log accounts for it. -/
structure Machine.State.Recorded (b : Build) (M : List Moment)
    (fields : List (Identity × String)) (s : State) : Prop where
  statics : ∀ field, s.statics.get? field = (s.lastWrite field).map StaticWrite.value
  account : Account b M fields s.stored
  fresh : ∀ owner, owner ∉ s.started → s.begunBy owner = [] ∧ s.filledBy owner = []
  closures : ∀ closure ∈ s.store.closures, closure.body.Every (Expr.AssignsAs b fields)

/--
The initializer of a type is not running: either all of it has run, or it stopped at a
statement whose expression ended in a fault.
-/
def Machine.Halted (m : Machine) (M : List Moment) (s : State) (owner : Identity) : Prop :=
  ∃ done rest, m.initializer owner = done ++ rest ∧ s.begunBy owner = done ++ rest.take 1 ∧
    s.filledBy owner = done.flatMap Statement.fields ∧
    ∀ statement ∈ rest.head?, ∃ fault s', statement.Ran M owner (.error fault s')

/-- Types that were started are left as they were, and those started since have halted. -/
structure Machine.Advances (m : Machine) (M : List Moment) (s₀ s : State) : Prop where
  returns : s₀.Returns s
  begun : ∀ owner ∈ s₀.started, s.begunBy owner = s₀.begunBy owner
  filled : ∀ owner ∈ s₀.started, s.filledBy owner = s₀.filledBy owner
  halted : ∀ owner ∈ s.started, owner ∉ s₀.started → m.Halted M s owner

/-- A state with a record that came from an earlier one. -/
def Machine.Continues (m : Machine) (M : List Moment) (fields : List (Identity × String))
    (s₀ s : State) : Prop :=
  s.Recorded m.build M fields ∧ m.Advances M s₀ s

namespace Machine

variable {s₀ s s' : State}

theorem Halted.congr {owner : Identity} (h : m.Halted M s owner)
    (hbegun : s'.begunBy owner = s.begunBy owner) (hfilled : s'.filledBy owner = s.filledBy owner) :
    m.Halted M s' owner := by
  unfold Halted
  rw [hbegun, hfilled]
  exact h

theorem Advances.refl (m : Machine) (M : List Moment) (s : State) : m.Advances M s s :=
  ⟨.refl s, fun _ _ => rfl, fun _ _ => rfl, fun _ h h' => absurd h h'⟩

theorem Advances.trans (h : m.Advances M s₀ s) (h' : m.Advances M s s') : m.Advances M s₀ s' := by
  have hstarted {owner : Identity} (howner : owner ∈ s₀.started) : owner ∈ s.started :=
    h.returns.started.subset howner
  refine ⟨h.returns.trans h'.returns, fun owner howner => ?_, fun owner howner => ?_,
    fun owner howner hnew => ?_⟩
  · exact (h'.begun owner (hstarted howner)).trans (h.begun owner howner)
  · exact (h'.filled owner (hstarted howner)).trans (h.filled owner howner)
  · by_cases hold : owner ∈ s.started
    · exact (h.halted owner hold hnew).congr (h'.begun owner hold) (h'.filled owner hold)
    · exact h'.halted owner howner hold

theorem Continues.refl (h : s.Recorded m.build M fields) : m.Continues M fields s s :=
  ⟨h, .refl m M s⟩

theorem Continues.trans (h : m.Continues M fields s₀ s) (h' : m.Continues M fields s s') :
    m.Continues M fields s₀ s' :=
  ⟨h'.1, h.2.trans h'.2⟩

/-- What does not belong to the record does not matter, but for the number of calls. -/
theorem State.Recorded.change {b : Build} (h : s.Recorded b M fields)
    (hstatics : s'.statics = s.statics) (hstored : s'.stored = s.stored)
    (hstarted : s'.started = s.started) (hbegun : s'.begun = s.begun)
    (hclosures : ∀ closure ∈ s'.store.closures, closure.body.Every (Expr.AssignsAs b fields)) :
    s'.Recorded b M fields := by
  refine ⟨fun field => ?_, hstored ▸ h.account, fun owner howner => ?_, hclosures⟩
  · rw [hstatics, State.lastWrite, hstored]
    exact h.statics field
  · rw [hstarted] at howner
    rw [State.begunBy, hbegun, State.filledBy, hstored]
    exact h.fresh owner howner

theorem Advances.change (h : m.Advances M s₀ s) (hstored : s'.stored = s.stored)
    (hstarted : s'.started = s.started) (hbegun : s'.begun = s.begun)
    (hdepth : s'.depth = s.depth) : m.Advances M s₀ s' := by
  have hbegunBy := State.begunBy_congr hbegun
  have hfilledBy (owner : Identity) : s'.filledBy owner = s.filledBy owner := by
    rw [State.filledBy, State.filledBy, hstored]
  refine ⟨h.returns.change hdepth hstarted, fun owner howner => ?_, fun owner howner => ?_,
    fun owner howner hnew => ?_⟩
  · exact (hbegunBy owner).trans (h.begun owner howner)
  · exact (hfilledBy owner).trans (h.filled owner howner)
  · exact (h.halted owner (hstarted ▸ howner) hnew).congr (hbegunBy owner) (hfilledBy owner)

/-- A change of the store that brings no functions but permitted ones. -/
theorem Continues.changeStore (h : m.Continues M fields s₀ s) (calls : List HostCall)
    {store : Store} (hclosures : ∀ closure ∈ store.closures,
      closure.body.Every (Expr.AssignsAs m.build fields)) :
    m.Continues M fields s₀ { s with store, calls } :=
  ⟨h.1.change rfl rfl rfl rfl hclosures, h.2.change rfl rfl rfl rfl⟩

theorem State.Recorded.statics_write {b : Build} (h : s.Recorded b M fields) (w : StaticWrite)
    (field : Identity × String) :
    (s.write w).statics.get? field = ((s.write w).lastWrite field).map StaticWrite.value := by
  rw [State.lastWrite_write, State.write, Table.get?_insert]
  show (if w.field = field then _ else _) = _
  split
  · rfl
  · exact h.statics field

/-- An assignment leaves alone what the initializers have filled. -/
theorem Continues.assign (h : m.Continues M fields s₀ s) {w : StaticWrite} (hw : w.fills = false)
    (hfield : w.field ∈ fields → m.build.Assigns w.field) :
    m.Continues M fields s₀ (s.write w) := by
  have hfilled := s.filledBy_assign hw
  refine ⟨⟨h.1.statics_write w, .assign hw hfield h.1.account, fun owner howner => ?_,
    h.1.closures⟩, h.2.returns.change rfl rfl, h.2.begun, fun owner howner => ?_,
    fun owner howner hnew => (h.2.halted owner howner hnew).congr rfl (hfilled owner)⟩
  · rw [hfilled]
    exact h.1.fresh owner howner
  · exact (hfilled owner).trans (h.2.filled owner howner)

end Machine

/-- The code of a machine assigns to some static fields in methods only. -/
structure Machine.Confines (m : Machine) (fields : List (Identity × String)) : Prop where
  initializer : ∀ owner, ∀ statement ∈ m.initializer owner,
    statement.code.Every (Expr.Spares fields)
  entryPoint : ∀ statement, m.build.entryPoint = some statement →
    statement.code.Every (Expr.Spares fields)
  host : ∀ name host, m.hosts.get? name = some host → host.KeepsClosures

/-! ## Evaluations and their moments -/

namespace Eval

/--
What an evaluation does from a state with a record, at some depth and with so many classes to
start, if its moments are among those known.
-/
def Records (m : Machine) (M : List Moment) (fields : List (Identity × String)) (d bound : Nat)
    (s : Machine.State) (l : List Moment) (_ : Option Fault) (s' : Machine.State) : Prop :=
  s.Recorded m.build M fields → s.depth = d → m.unstarted s ≤ bound → l ⊆ M →
    m.Continues M fields s s'

theorem tells_records_iff {α : Type} {d bound : Nat} {s : Machine.State} {l : List Moment}
    {r : EStateM.Result Fault Machine.State α} :
    Tells (Records m M fields d bound) s l r ↔
      (s.Recorded m.build M fields → s.depth = d → m.unstarted s ≤ bound → l ⊆ M →
        EndsIn (m.Continues M fields s) (fun _ => True) r) := by
  cases r with
  | ok a s' =>
    refine ⟨fun h hs hd hbound hl => .value a (h hs hd hbound hl), fun h hs hd hbound hl => ?_⟩
    cases h hs hd hbound hl with
    | value _ hs' => exact hs'
  | error fault s' =>
    refine ⟨fun h hs hd hbound hl => .fault trivial (h hs hd hbound hl),
      fun h hs hd hbound hl => ?_⟩
    cases h hs hd hbound hl with
    | fault _ hs' => exact hs'

/-- A way to enter bodies at some depth that is the machine's and keeps the record. -/
structure EntersOnRecord (m : Machine) (M : List Moment) (fields : List (Identity × String))
    (d : Nat) (enter : Frame → Expr → Eval Value)
    (trace : Frame → Expr → Machine.State → List Moment) : Prop where
  restores : ∀ frame body, Restores (enter frame body)
  same : ∀ s frame body, s.depth = d → enter frame body s = Eval.enter m frame body s
  records : ∀ bound s frame body, body.Every (Expr.AssignsAs m.build fields) →
    Tells (Records m M fields d bound) s (trace frame body s) (enter frame body s)

namespace EntersOnRecord

variable {d : Nat} {enter : Frame → Expr → Eval Value}
  {trace : Frame → Expr → Machine.State → List Moment} (h : EntersOnRecord m M fields d enter trace)
  (hm : m.Confines fields)

include h

theorem call (bound : Nat) (ref : MethodRef) (receiver : Option Value) (args : List Value)
    (s : Machine.State) :
    Tells (Records m M fields d bound) s (callMoments m trace ref receiver args s)
      (callMethod m enter ref receiver args s) :=
  tells_callMethod_of (fun _ hs _ _ _ => .refl hs) fun r frame hlookup _ =>
    h.records bound s frame r.body (Machine.every_assignsAs_of_lookup hlookup)

include hm

theorem apply (bound : Nat) (function : Value) (args : List Value) (s : Machine.State) :
    Tells (Records m M fields d bound) s (applyMoments trace function args s)
      (applyValue m enter function args s) := by
  refine tells_records_iff.mpr fun hs => tells_records_iff.mp (tells_applyValue_of
    (fun _ hs _ _ _ => .refl hs) (fun name => ?_) fun frame closure hclosure => ?_) hs
  · refine tells_callHost_of (fun _ hs _ _ _ => .refl hs) fun host _ hhost hs _ _ _ => ?_
    refine (Machine.Continues.refl hs).changeStore _ fun closure hclosure => ?_
    rw [hm.host name host hhost] at hclosure
    exact hs.closures closure hclosure
  · exact h.records bound s frame closure.body (hs.closures closure hclosure)

theorem chronicle {bound : Nat}
    (hstart : ∀ owner s, Tells (Records m M fields d bound) s
      (startMoments m enter trace bound owner s) (startWithin m enter bound owner s))
    (holes : List Value) :
    Chronicle (Records m M fields d bound) m ⟨enter, startWithin m enter bound⟩
      ⟨trace, startMoments m enter trace bound⟩ holes (Expr.AssignsAs m.build fields) where
  refl _ hs _ _ _ := .refl hs
  trans hx hf hs hd hbound hl := by
    have hfirst := hx hs hd hbound fun t ht => hl (List.mem_append_left _ ht)
    have hreturns := hfirst.2.returns
    exact hfirst.trans (hf hfirst.1 (hreturns.depth.trans hd)
      ((Machine.unstarted_le_of_returns hreturns).trans hbound)
      fun t ht => hl (List.mem_append_right _ ht))
  fault _ _ _ hs _ _ _ := .refl hs
  hole _ _ _ _ hs _ _ _ := .refl hs
  error _ _ _ hs _ _ _ := .refl hs
  store s store hchange hs _ _ _ := by
    refine (Machine.Continues.refl hs).changeStore s.calls ?_
    rw [hchange.closures]
    exact hs.closures
  lambda s params body frame _ hbody hs _ _ _ := by
    refine (Machine.Continues.refl hs).changeStore s.calls fun closure hclosure => ?_
    rcases Array.mem_push.mp hclosure with hclosure | rfl
    · exact hs.closures closure hclosure
    · exact hbody.child (by simp [Expr.children])
  static s owner name e value hassigns hs _ _ _ :=
    (Machine.Continues.refl hs).assign rfl hassigns
  start := hstart
  call := h.call bound
  apply := h.apply hm bound

end EntersOnRecord

end Eval

/-! ## Running an initializer -/

/--
While the initializer of a type runs that was not started in an earlier state.  Some
statements are done, at most one was begun and is not done, and the rest is to come.
-/
structure Machine.Filling (m : Machine) (M : List Moment) (fields : List (Identity × String))
    (s₀ : State) (owner : Identity) (done current rest : List Statement) (s : State) : Prop where
  recorded : s.Recorded m.build M fields
  returns : State.Returns { s₀ with started := owner :: s₀.started } s
  begunBefore : ∀ type ∈ s₀.started, s.begunBy type = s₀.begunBy type
  filledBefore : ∀ type ∈ s₀.started, s.filledBy type = s₀.filledBy type
  halted : ∀ type ∈ s.started, type ∉ s₀.started → type ≠ owner → m.Halted M s type
  whole : m.initializer owner = done ++ (current ++ rest)
  begun : s.begunBy owner = done ++ current
  filled : s.filledBy owner = done.flatMap Statement.fields

namespace Machine.Filling

variable {s₀ s s' : State} {owner : Identity} {done current rest : List Statement}
  {statement : Statement}

theorem started (h : m.Filling M fields s₀ owner done current rest s) : owner ∈ s.started :=
  h.returns.started.subset List.mem_cons_self

theorem mark (hs₀ : s₀.Recorded m.build M fields) (howner : owner ∉ s₀.started) :
    m.Filling M fields s₀ owner [] [] (m.initializer owner)
      { s₀ with started := owner :: s₀.started } := by
  obtain ⟨hbegun, hfilled⟩ := hs₀.fresh owner howner
  refine ⟨⟨hs₀.statics, hs₀.account, fun type htype => ?_, hs₀.closures⟩, .refl _,
    fun _ _ => rfl, fun _ _ => rfl, fun type htype hnew hne => ?_, rfl, hbegun, hfilled⟩
  · exact hs₀.fresh type fun hmem => htype (List.mem_cons_of_mem owner hmem)
  · exact absurd ((List.mem_cons.mp htype).resolve_left hne) hnew

theorem begin (howner : owner ∉ s₀.started)
    (h : m.Filling M fields s₀ owner done [] (statement :: rest) s) :
    m.Filling M fields s₀ owner done [statement] rest
      { s with begun := (owner, statement) :: s.begun } := by
  have hother {type : Identity} (hne : owner ≠ type) :
      State.begunBy { s with begun := (owner, statement) :: s.begun } type = s.begunBy type := by
    rw [State.begunBy_begin, if_neg hne]
  refine ⟨⟨h.recorded.statics, h.recorded.account, fun type htype => ?_, h.recorded.closures⟩,
    h.returns.change rfl rfl, fun type htype => ?_, h.filledBefore,
    fun type htype hnew hne => ?_, h.whole, ?_, h.filled⟩
  · rw [hother fun heq => htype (heq ▸ h.started)]
    exact h.recorded.fresh type htype
  · rw [hother fun heq => howner (heq ▸ htype)]
    exact h.begunBefore type htype
  · exact (h.halted type htype hnew hne).congr (hother hne.symm) rfl
  · rw [State.begunBy_begin, if_pos rfl, h.begun, List.append_nil]

/-- Evaluating the current statement does not come back to the initializer. -/
theorem after (h : m.Filling M fields s₀ owner done current rest s)
    (h' : m.Continues M fields s s') : m.Filling M fields s₀ owner done current rest s' := by
  obtain ⟨hrecorded, hadvances⟩ := h'
  have hstarted {type : Identity} (htype : type ∈ s₀.started) : type ∈ s.started :=
    h.returns.started.subset (List.mem_cons_of_mem owner htype)
  refine ⟨hrecorded, h.returns.trans hadvances.returns, fun type htype => ?_,
    fun type htype => ?_, fun type htype hnew hne => ?_, h.whole, ?_, ?_⟩
  · exact (hadvances.begun type (hstarted htype)).trans (h.begunBefore type htype)
  · exact (hadvances.filled type (hstarted htype)).trans (h.filledBefore type htype)
  · by_cases hold : type ∈ s.started
    · exact (h.halted type hold hnew hne).congr (hadvances.begun type hold)
        (hadvances.filled type hold)
    · exact hadvances.halted type htype hold
  · exact (hadvances.begun owner h.started).trans h.begun
  · exact (hadvances.filled owner h.started).trans h.filled

theorem finish {e : Expr} (h : m.Filling M fields s₀ owner done [.expr e] rest s) :
    m.Filling M fields s₀ owner (done ++ [.expr e]) [] rest s :=
  { h with
    whole := by simpa using h.whole
    begun := by simpa using h.begun
    filled := by simpa [Statement.fields] using h.filled }

theorem fill {name : String} {e : Expr} {value : Value} (howner : owner ∉ s₀.started)
    (h : m.Filling M fields s₀ owner done [.init name e] rest s)
    (hran : Statement.Ran M owner (.init name e) (.ok value s)) :
    m.Filling M fields s₀ owner (done ++ [.init name e]) [] rest
      (s.write ⟨owner, name, value, true⟩) := by
  have hother {type : Identity} (hne : owner ≠ type) :
      (s.write ⟨owner, name, value, true⟩).filledBy type = s.filledBy type := by
    rw [State.filledBy_fill, if_neg hne]
  have hinit : .init name e ∈ m.initializer owner := by simp [h.whole]
  have haccount := Account.fill hinit hran rfl h.recorded.account
  refine ⟨⟨h.recorded.statics_write _, haccount, fun type htype => ?_, h.recorded.closures⟩,
    h.returns.change rfl rfl, h.begunBefore, fun type htype => ?_,
    fun type htype hnew hne => ?_, ?_, ?_, ?_⟩
  · rw [hother fun heq => htype (heq ▸ h.started)]
    exact h.recorded.fresh type htype
  · rw [hother fun heq => howner (heq ▸ htype)]
    exact h.filledBefore type htype
  · exact (h.halted type htype hnew hne).congr rfl (hother hne.symm)
  · simpa using h.whole
  · exact h.begun.trans (by simp)
  · rw [State.filledBy_fill, if_pos rfl, h.filled, List.flatMap_append, List.flatMap_singleton]
    rfl

/-- Where the initializer is left, at its end or at a fault, the type has halted. -/
theorem leave (h : m.Filling M fields s₀ owner done current rest s)
    (hcurrent : (current ++ rest).take 1 = current)
    (hfault : ∀ statement ∈ current, ∃ fault s', statement.Ran M owner (.error fault s')) :
    m.Continues M fields s₀ s := by
  refine ⟨h.recorded, ((State.Returns.refl s₀).mark owner).trans h.returns, h.begunBefore,
    h.filledBefore, fun type htype hnew => ?_⟩
  by_cases hne : type = owner
  · subst hne
    refine ⟨done, current ++ rest, h.whole, by rw [hcurrent, h.begun], h.filled, ?_⟩
    intro statement hstatement
    have hhead : statement ∈ ((current ++ rest).take 1).head? := by
      rwa [List.head?_take, if_neg one_ne_zero]
    rw [hcurrent] at hhead
    exact hfault statement (List.mem_of_mem_head? hhead)
  · exact h.halted type htype hnew hne

end Machine.Filling

namespace Eval.EntersOnRecord

variable {d : Nat} {enter : Frame → Expr → Eval Value}
  {trace : Frame → Expr → Machine.State → List Moment} (h : EntersOnRecord m M fields d enter trace)
  (hm : m.Confines fields)

include h hm

theorem statements {bound : Nat}
    (hstart : ∀ owner s, Tells (Records m M fields d bound) s
      (startMoments m enter trace bound owner s) (startWithin m enter bound owner s))
    {s₀ : Machine.State} (hdepth : s₀.depth = d) {owner : Identity} (howner : owner ∉ s₀.started)
    (hbound : m.unstarted { s₀ with started := owner :: s₀.started } ≤ bound)
    {done rest : List Statement}
    (hcode : ∀ statement ∈ rest, statement.code.Every (Expr.Spares fields)) {s : Machine.State}
    (hs : m.Filling M fields s₀ owner done [] rest s)
    (hl : statementMoments m ⟨enter, startWithin m enter bound⟩
      ⟨trace, startMoments m enter trace bound⟩ owner rest s ⊆ M) :
    EndsIn (m.Continues M fields s₀) (fun _ => True)
      (Eval.statements m ⟨enter, startWithin m enter bound⟩ owner rest s) := by
  induction rest generalizing done s with
  | nil => exact .value () (hs.leave rfl (List.forall_mem_nil _))
  | cons statement rest ih =>
    obtain ⟨hfirst, hlater⟩ := List.forall_mem_cons.mp hcode
    let s₁ : Machine.State := { s with begun := (owner, statement) :: s.begun }
    have hbegun : m.Filling M fields s₀ owner done [statement] rest s₁ := hs.begin howner
    have hdepth₁ : s₁.depth = d := hbegun.returns.depth.trans hdepth
    have hbound₁ : m.unstarted s₁ ≤ bound :=
      (Machine.unstarted_le_of_returns hbegun.returns).trans hbound
    have hmoment : (⟨m, owner, statement, s₁⟩ : Moment) ∈ M := by
      cases statement <;> exact hl List.mem_cons_self
    have hmoments : moments m ⟨enter, startWithin m enter bound⟩
        ⟨trace, startMoments m enter trace bound⟩ {} statement.code s₁ ⊆ M := by
      cases statement <;>
        exact fun t ht => hl (List.mem_cons_of_mem _ (List.mem_append_left _ ht))
    have hrun := tells_records_iff.mp ((h.chronicle hm hstart []).expr rfl
      (Expr.every_assignsAs_of_spares hfirst) s₁) hbegun.recorded hdepth₁ hbound₁ hmoments
    -- The expression is evaluated as on the machine.
    have hran {outcome : EStateM.Result Fault Machine.State Value}
        (houtcome : Eval.expr m ⟨enter, startWithin m enter bound⟩ {} statement.code s₁ = outcome) :
        statement.Ran M owner outcome := by
      refine ⟨_, hmoment, rfl, rfl, Eq.trans ?_ houtcome⟩
      exact (Machine.expr_eq_evalIn h.restores h.same hdepth₁ hbound₁ {} statement.code).symm
    have hfault (fault : Fault) (s' : Machine.State)
        (houtcome : Eval.expr m ⟨enter, startWithin m enter bound⟩ {} statement.code s₁ =
          .error fault s')
        (hs' : m.Continues M fields s₁ s') : m.Continues M fields s₀ s' := by
      refine (hbegun.after hs').leave rfl fun _ hcurrent => ⟨fault, s', ?_⟩
      rw [List.mem_singleton.mp hcurrent]
      exact hran houtcome
    cases statement with
    | expr e =>
      refine hrun.bind_of_eq hfault fun _ s' houtcome hs' => ?_
      refine ih hlater (hbegun.after hs').finish fun t ht => hl ?_
      refine List.mem_append_right _ ?_
      rw [show Eval.expr m _ {} e s₁ = _ from houtcome]
      exact ht
    | init name e =>
      refine hrun.bind_of_eq (f := fun value => fillStatic owner name value >>= fun _ =>
        Eval.statements m _ owner rest) hfault fun value s' houtcome hs' => ?_
      refine ih hlater ((hbegun.after hs').fill howner (hran houtcome)) fun t ht => hl ?_
      refine List.mem_append_right _ ?_
      rw [show Eval.expr m _ {} e s₁ = _ from houtcome]
      exact ht

/-- The bound is never too small, since each initializer that runs has marked one more class. -/
theorem start (bound : Nat) (owner : Identity) (s : Machine.State) :
    Tells (Records m M fields d bound) s (startMoments m enter trace bound owner s)
      (startWithin m enter bound owner s) := by
  induction bound generalizing owner s with
  | zero =>
    refine tells_records_iff.mpr fun hs _ hbound _ => ?_
    by_cases hstarted : owner ∈ s.started
    · rw [startWithin_of_mem 0 hstarted]
      exact .value () (.refl hs)
    · have hnone : m.initializer owner = [] := by
        by_contra hsome
        have := Machine.unstarted_mark_lt (Machine.mem_keys_of_initializer hsome) hstarted
        omega
      have hmarked := Machine.Filling.mark hs hstarted
      rw [hnone] at hmarked
      show EndsIn _ _ (EStateM.map _ (markStarted owner) s)
      rw [EStateM.map, markStarted_of_not_mem hstarted]
      exact .value () (hmarked.leave rfl (List.forall_mem_nil _))
  | succ bound ih =>
    refine tells_records_iff.mpr fun hs hdepth hbound hl => ?_
    by_cases hstarted : owner ∈ s.started
    · rw [startWithin_of_mem (bound + 1) hstarted]
      exact .value () (.refl hs)
    rw [startWithin_of_not_mem hstarted]
    have hmarked := Machine.Filling.mark hs hstarted
    by_cases hnone : m.initializer owner = []
    · rw [hnone] at hmarked ⊢
      exact .value () (hmarked.leave rfl (List.forall_mem_nil _))
    · have hfewer := Machine.unstarted_mark_lt (Machine.mem_keys_of_initializer hnone) hstarted
      rw [startMoments, if_neg hstarted] at hl
      exact h.statements hm ih hdepth hstarted (by omega) (hm.initializer owner) hmarked hl

theorem expr (bound : Nat) (frame : Frame) {e : Expr} (he : e.Every (Expr.AssignsAs m.build fields))
    (s : Machine.State) :
    Tells (Records m M fields d bound) s
      (moments m ⟨enter, startWithin m enter bound⟩ ⟨trace, startMoments m enter trace bound⟩
        frame e s)
      (Eval.expr m ⟨enter, startWithin m enter bound⟩ frame e s) :=
  (h.chronicle hm (h.start hm bound) frame.holes).expr rfl he s

end Eval.EntersOnRecord

namespace Machine

/-- A body that is entered is evaluated one call deeper, and every class may still be started. -/
theorem entersOnRecord_enterWithin (hm : m.Confines fields) (left : Nat) {d : Nat}
    (hleft : maxDepth - d = left) :
    Eval.EntersOnRecord m M fields d (Eval.enterWithin m left) (Eval.enterMoments m left) := by
  induction left generalizing d with
  | zero =>
    refine ⟨Eval.restores_enterWithin 0, fun s frame body hdepth => ?_,
      fun _ _ _ _ _ hs _ _ _ => .refl hs⟩
    show _ = Eval.enterWithin m (maxDepth - s.depth) frame body s
    rw [hdepth, hleft]
  | succ left ih =>
    have hinner := ih (d := d + 1) (by omega)
    refine ⟨Eval.restores_enterWithin (left + 1), fun s frame body hdepth => ?_,
      fun bound s frame body hbody => Eval.tells_records_iff.mpr fun hs hdepth _ hl => ?_⟩
    · show _ = Eval.enterWithin m (maxDepth - s.depth) frame body s
      rw [hdepth, hleft]
    · have hdeeper : State.Recorded m.build M fields { s with depth := s.depth + 1 } :=
        hs.change rfl rfl rfl rfl hs.closures
      have hends := Eval.tells_records_iff.mp
        (hinner.expr hm m.build.classes.size frame hbody { s with depth := s.depth + 1 }) hdeeper
        (congrArg (· + 1) hdepth) (unstarted_le_size m _) hl
      refine Eval.EndsIn.nested hends fun t ht => ?_
      refine ⟨ht.1.change rfl rfl rfl rfl ht.1.closures, ⟨?_, ht.2.returns.started⟩, ht.2.begun,
        ht.2.filled, ht.2.halted⟩
      simp [ht.2.returns.depth]

theorem entersOnRecord_enter (hm : m.Confines fields) (d : Nat) :
    Eval.EntersOnRecord m M fields d (Eval.enter m) m.enterMoments := by
  refine ⟨Eval.restores_enter, fun _ _ _ _ => rfl, fun bound s frame body hbody => ?_⟩
  refine Eval.tells_records_iff.mpr fun hs hdepth => ?_
  have hwithin := entersOnRecord_enterWithin (M := M) hm (maxDepth - s.depth) rfl
  exact Eval.tells_records_iff.mp (hwithin.records bound s frame body hbody) hs rfl

variable {s : State}

theorem continues_eval (hm : m.Confines fields) {e : Expr} (he : e.Every (Expr.Spares fields))
    (hs : s.Recorded m.build M fields) (hl : m.evalMoments e s ⊆ M) :
    Eval.EndsIn (m.Continues M fields s) (fun _ => True) (m.eval e s) :=
  Eval.tells_records_iff.mp
    ((entersOnRecord_enter hm s.depth).expr hm _ {} (Expr.every_assignsAs_of_spares he) s) hs rfl
    (unstarted_le_size m s) hl

theorem continues_call (hm : m.Confines fields) (ref : MethodRef) (receiver : Option Value)
    (args : List Value) (hs : s.Recorded m.build M fields)
    (hl : Eval.callMoments m m.enterMoments ref receiver args s ⊆ M) :
    Eval.EndsIn (m.Continues M fields s) (fun _ => True) (m.call ref receiver args s) :=
  Eval.tells_records_iff.mp ((entersOnRecord_enter hm s.depth).call _ ref receiver args s) hs rfl
    le_rfl hl

end Machine

/-! ## Reading a static field -/

namespace Machine

variable {b : Build} {s : State}

/-- The last value stored in its field, with what had been stored before. -/
def State.Last (s : State) (w : StaticWrite) (earlier : List StaticWrite) : Prop :=
  ∃ later, s.stored = later ++ w :: earlier ∧ ∀ w' ∈ later, w'.field ≠ w.field

theorem State.Recorded.account_of_last (h : s.Recorded b M fields) {w : StaticWrite}
    {earlier : List StaticWrite} (hlast : s.Last w earlier) :
    Account b M fields (w :: earlier) := by
  obtain ⟨later, hstored, -⟩ := hlast
  have haccount := h.account
  rw [hstored] at haccount
  exact haccount.of_append

/-- A field shows the last value stored in it, or nothing was stored in it. -/
theorem State.Recorded.shows (h : s.Recorded b M fields) (field : Identity × String) :
    (∃ w earlier, s.Last w earlier ∧ w.field = field ∧ s.statics.get? field = some w.value) ∨
      (∀ w ∈ s.stored, w.field ≠ field) ∧ s.statics.get? field = none := by
  rw [h.statics field]
  cases hlast : s.lastWrite field with
  | none =>
    refine .inr ⟨fun w hw => ?_, rfl⟩
    simpa using List.find?_eq_none.mp hlast w hw
  | some w =>
    obtain ⟨hfield, later, earlier, hstored, hlater⟩ := List.find?_eq_some_iff_append.mp hlast
    have hfield : w.field = field := by simpa using hfield
    refine .inl ⟨w, earlier, ⟨later, hstored, fun w' hw' => ?_⟩, hfield, rfl⟩
    simpa [hfield] using hlater w' hw'

theorem State.exists_of_mem_filledBy {owner : Identity} {name : String}
    (h : name ∈ s.filledBy owner) : ∃ w ∈ s.stored, w.field = (owner, name) := by
  obtain ⟨w, hw, rfl⟩ := List.mem_map.mp h
  obtain ⟨hw, hfills⟩ := List.mem_filter.mp hw
  obtain ⟨-, howner⟩ : w.fills = true ∧ w.owner = owner := by simpa using hfills
  exact ⟨w, List.mem_reverse.mp hw, by rw [StaticWrite.field, howner]⟩

/-- If nothing was stored in a field, its initializer stopped before it was filled. -/
theorem Halted.stopped {owner : Identity} {name : String} {e : Expr} (h : m.Halted M s owner)
    (hinit : .init name e ∈ m.initializer owner)
    (hnone : ∀ w ∈ s.stored, w.field ≠ (owner, name)) :
    ∃ done stopped rest fault s', m.initializer owner = done ++ stopped :: rest ∧
      .init name e ∈ stopped :: rest ∧ s.begunBy owner = done ++ [stopped] ∧
      s.filledBy owner = done.flatMap Statement.fields ∧
      stopped.Ran M owner (.error fault s') := by
  obtain ⟨done, rest, hwhole, hbegun, hfilled, hfault⟩ := h
  have hrest : .init name e ∈ rest := by
    rw [hwhole] at hinit
    refine (List.mem_append.mp hinit).resolve_left fun hdone => ?_
    have hname : name ∈ s.filledBy owner := by
      rw [hfilled]
      exact List.mem_flatMap.mpr ⟨_, hdone, List.mem_singleton_self name⟩
    obtain ⟨w, hw, hfield⟩ := State.exists_of_mem_filledBy hname
    exact hnone w hw hfield
  cases rest with
  | nil => cases hrest
  | cons stopped rest =>
    obtain ⟨fault, s', hran⟩ := hfault stopped rfl
    exact ⟨done, stopped, rest, fault, s', hwhole, hrest, hbegun, hfilled, hran⟩

/--
The field that a statement of a started type fills shows the last value stored in it,
or nothing was stored there, since the initializer stopped before.
-/
theorem Continues.shows_or_stopped (h : m.Continues M fields {} s) {owner : Identity}
    (howner : owner ∈ s.started) {name : String} {e : Expr}
    (hinit : .init name e ∈ m.initializer owner) :
    (∃ w earlier, s.Last w earlier ∧ w.field = (owner, name) ∧
      s.statics.get? (owner, name) = some w.value ∧ Account m.build M fields (w :: earlier)) ∨
    s.statics.get? (owner, name) = none ∧ (∀ w ∈ s.stored, w.field ≠ (owner, name)) ∧
      ∃ done stopped rest fault s', m.initializer owner = done ++ stopped :: rest ∧
        .init name e ∈ stopped :: rest ∧ s.begunBy owner = done ++ [stopped] ∧
        s.filledBy owner = done.flatMap Statement.fields ∧
        stopped.Ran M owner (.error fault s') := by
  rcases h.1.shows (owner, name) with ⟨w, earlier, hlast, hfield, hshown⟩ | ⟨hnone, hshown⟩
  · exact .inl ⟨w, earlier, hlast, hfield, hshown, h.1.account_of_last hlast⟩
  · have hhalted := h.2.halted owner howner List.not_mem_nil
    exact .inr ⟨hshown, hnone, hhalted.stopped hinit hnone⟩

end Machine

/-! ## Sessions -/

namespace Session

/-- A session on a build with a record of its static fields since the start. -/
structure Records (session : Session) (b : Build) (M : List Moment)
    (fields : List (Identity × String)) : Prop where
  machine : session.machine.Runs b
  continues : session.machine.Continues M fields {} session.state

variable {b : Build} {session : Session}

theorem records_start (b : Build) (M : List Moment) (fields : List (Identity × String)) :
    (Session.start b).Records b M fields := by
  refine ⟨Machine.runs_new b, .refl ⟨fun _ => rfl, .nil, fun _ _ => ⟨rfl, rfl⟩, ?_⟩⟩
  intro closure hclosure
  exact absurd hclosure (Array.not_mem_empty closure)

theorem Records.run {x : Eval Value} (h : session.Records b M fields)
    (hx : Eval.EndsIn (session.machine.Continues M fields session.state) (fun _ => True)
      (x session.state)) :
    (session.run (some <$> x)).2.Records b M fields := by
  have hsome : Eval.EndsIn (session.machine.Continues M fields session.state) (fun _ => True)
      ((some <$> x) session.state) := by
    rw [map_eq_pure_bind]
    exact hx.bind (fun _ hs => hs) fun a s hs => .value (some a) hs
  obtain ⟨state, hrun, hstate⟩ := run_of_endsIn hsome
  rw [hrun]
  exact ⟨h.machine, h.continues.trans hstate⟩

variable (hconfines : ∀ m : Machine, m.Runs b → m.Confines fields)

include hconfines

theorem Records.perform (h : session.Records b M fields) {op : Operation}
    (hl : session.momentsOf op ⊆ M) (hop : op.Spares fields) :
    (session.perform op).2.Records b M fields := by
  have hm := hconfines session.machine h.machine
  have hs := h.continues.1
  cases op with
  | addHost name host =>
    obtain ⟨hrecorded, hadvances⟩ := h.continues
    exact ⟨h.machine.addHost hop, hrecorded, hadvances.returns, hadvances.begun,
      hadvances.filled, hadvances.halted⟩
  | changeStore f =>
    refine ⟨h.machine, h.continues.changeStore session.state.calls fun closure hclosure => ?_⟩
    rw [hop session.state.store] at hclosure
    exact hs.closures closure hclosure
  | readStatic owner name => exact h
  | eval e => exact h.run (Machine.continues_eval hm hop hs hl)
  | call ref receiver args => exact h.run (Machine.continues_call hm ref receiver args hs hl)
  | runEntryPoint =>
    show (session.run session.machine.runEntryPoint).2.Records b M fields
    unfold momentsOf at hl
    unfold Machine.runEntryPoint
    cases hentry : session.machine.build.entryPoint with
    | none => exact h
    | some statement =>
      rw [hentry] at hl
      cases statement with
      | expr e => exact h.run (Machine.continues_eval hm (hm.entryPoint _ hentry) hs hl)
      | init field value => exact h

/-- All that a session does goes on record, with its moments. -/
theorem Records.after (h : session.Records b M fields) {ops : List Operation}
    (hl : session.moments ops ⊆ M) (hops : ∀ op ∈ ops, op.Spares fields) :
    (session.after ops).Records b M fields := by
  induction ops generalizing session with
  | nil => exact h
  | cons op ops ih =>
    obtain ⟨hop, hlater⟩ := List.forall_mem_cons.mp hops
    have hnext := h.perform hconfines (fun t ht => hl (List.mem_append_left _ ht)) hop
    exact ih hnext (fun t ht => hl (List.mem_append_right _ ht)) hlater

end Session

end Memberwise
