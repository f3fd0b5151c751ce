import Mathlib
import Memberwise.Proofs.EmittedCode
import Memberwise.Proofs.Invariants

/-!
# Bodies without gaps

A gap is a placeholder, or a hole for which a call brings no argument.  If an
assembly compiles without errors, no body and no static initializer has one, and
evaluating a body that is called with matching arguments does not raise a fault
for one of its own.
-/

namespace Memberwise

/-- A form of expression that is no gap where so many arguments are given. -/
def Expr.GapFree (arity : Nat) : Expr → Prop
  | hole index => index < arity
  | error _ => False
  | _ => True

/-- All the code of a member is without gaps. -/
def Member.HasNoGaps (member : Member) : Prop :=
  ∀ e ∈ member.code, e.Every (Expr.GapFree member.arity)

/-! ## Source bodies and their templates -/

namespace Expr

theorem gapFree_of_inSynthesized {arity : Nat} {allowed : Nat → Prop}
    (hallowed : ∀ i, allowed i → i < arity) {e : Expr} (h : e.InSynthesized allowed) :
    e.GapFree arity := by
  cases e <;> first | exact hallowed _ h | exact h | trivial

theorem gapFree_of_no_holes {arity : Nat} {e : Expr} (h : e.GapFree 0) : e.GapFree arity := by
  cases e with
  | hole index => exact absurd h (Nat.not_lt_zero index)
  | error message => exact h.elim
  | _ => trivial

theorem every_gapFree_of_checkBody {name : String} {body : Expr} {span : Span}
    (h : checkBody name body span = .ok ()) : body.Every (GapFree 0) := by
  unfold checkBody at h
  split at h
  · cases h
  · next hhole =>
    split at h
    · cases h
    · next herror =>
      intro t ht
      cases t with
      | hole index =>
        have hany : body.hasHole = true := List.any_eq_true.mpr ⟨_, ht, rfl⟩
        exact absurd hany hhole
      | error message =>
        have hnone := List.findSome?_eq_none_iff.mp herror _ ht
        simp [error?] at hnone
      | _ => exact trivial

theorem every_gapFree_toTemplate (params : List String) (hasReceiver : Bool) {e : Expr}
    (he : e.Every (GapFree 0)) (bound : List String) :
    (e.toTemplate params hasReceiver bound).Every
      (GapFree (params.length + if hasReceiver then 1 else 0)) := by
  refine every_toTemplate (fun e bound hform => ?_) he bound
  cases e with
  | var name =>
    -- A parameter becomes the hole of its position, behind that of the receiver.
    simp only [toTemplate]
    generalize (if hasReceiver then 1 else 0) = offset
    split
    · exact trivial
    · split
      · next i hi =>
        have hlt : i < params.length := (List.findIdx?_eq_some_iff_getElem.mp hi).1
        exact Nat.add_lt_add_right hlt offset
      · exact trivial
  | self =>
    cases hasReceiver with
    | true => exact Nat.succ_pos _
    | false => exact trivial
  | hole index => exact absurd hform (Nat.not_lt_zero index)
  | error message => exact hform.elim
  | call receiver method args => cases receiver <;> exact trivial
  | _ => exact trivial

end Expr

/-! ## Declared members -/

namespace MemberDecl

theorem gapFree_sourceBody {d : MemberDecl} {body : Expr} (h : d.sourceBody = .ok body) :
    body.Every (Expr.GapFree 0) := by
  unfold sourceBody at h
  split at h
  · cases h
  · split at h
    · cases h
    · next hcheck =>
      obtain rfl := Except.ok.inj h
      exact Expr.every_gapFree_of_checkBody hcheck

/-- Emitting a member leaves no gaps. -/
theorem hasNoGaps_of_emit {o : Options} {owner : Owner} {d : MemberDecl} {m : Marking}
    {member : Member} (hvalue : d.takesValue) (h : d.emit o owner m = .ok (some member)) :
    member.HasNoGaps := by
  intro e he
  cases origin_of_emit h e he with
  | source hsource =>
    exact (gapFree_sourceBody hsource).imp fun _ => Expr.gapFree_of_no_holes
  | template hsource harity =>
    have htemplate := Expr.every_gapFree_toTemplate d.paramNames d.hasReceiver
      (gapFree_sourceBody hsource) []
    rwa [paramNames, List.length_map, ← slots_arity, harity] at htemplate
  | synthesized hforms =>
    exact hforms.imp fun _ => Expr.gapFree_of_inSynthesized fun index hindex => hindex hvalue

end MemberDecl

/-! ## Members that unions, records and values bring -/

theorem Member.IsSynthesized.hasNoGaps {member : Member} (h : member.IsSynthesized) :
    member.HasNoGaps := by
  intro e he
  exact (h e he).imp fun _ => Expr.gapFree_of_inSynthesized fun _ hindex => hindex

namespace Startup

theorem hasNoGaps_bindingMembers {owner : Identity} {bm : Binding × Marking} :
    ∀ member ∈ bindingMembers owner bm, member.HasNoGaps := by
  obtain ⟨b, m⟩ := bm
  intro member hmember
  simp only [bindingMembers] at hmember
  split at hmember
  · unfold fieldMembers at hmember
    dsimp only at hmember
    rcases List.mem_cons.mp hmember with rfl | hmember
    · simp [Member.HasNoGaps, Member.code]
    · rcases List.mem_cons.mp hmember with rfl | hmember
      · simp [Member.HasNoGaps, Member.code, getter, Expr.GapFree]
      · split at hmember
        · obtain rfl := List.mem_singleton.mp hmember
          simp [Member.HasNoGaps, Member.code, setter, Expr.GapFree, Member.arity, Member.method?,
            MethodKind.isTemplate, Member.takesReceiver]
        · cases hmember
  · obtain rfl := List.mem_singleton.mp hmember
    simp [Member.HasNoGaps, Member.code, getter, Expr.GapFree]
  · cases hmember

end Startup

/-- What a file brings has no gaps. -/
theorem SourceFile.Brings.hasNoGaps {file : SourceFile} {o : Options} {member : Member}
    (hvalues : ∀ hm ∈ file.marked, ∀ d ∈ hm.1.members, d.takesValue)
    (h : file.Brings o member) : member.HasNoGaps := by
  cases h with
  | declared hhead hd hemit =>
    exact MemberDecl.hasNoGaps_of_emit (hvalues _ hhead _ hd) hemit
  | synthesized h => exact h.hasNoGaps
  | value _ h => exact Startup.hasNoGaps_bindingMembers member h
  | initializer h =>
    intro e he
    obtain ⟨statement, hstatement, rfl⟩ := List.mem_map.mp he
    obtain ⟨bm, -, haccepted, hstatement⟩ := h statement hstatement
    obtain ⟨hcompiled, rfl⟩ := Startup.mem_bindingStatements hstatement
    exact Expr.every_gapFree_of_checkBody (haccepted.usable hcompiled)

/-! ## Evaluation -/

/-- A fault that comes from another body, a static initializer or a host. -/
inductive Eval.Surroundings.Raises (m : Machine) (around : Surroundings) (fault : Fault) : Prop
  | enter {frame : Frame} {body : Expr} {s s' : Machine.State}
      (h : around.enter frame body s = .error fault s')
  | start {owner : Identity} {s s' : Machine.State} (h : around.start owner s = .error fault s')
  | host {name : String} {host : Host} (hhost : m.hosts.get? name = some host)
      {calls : List HostCall} {args : List Value} {store : Store}
      (h : (host calls args store).1 = .error fault)

namespace Eval

variable {m : Machine} {around : Surroundings}

theorem keeps_of_faults {Q : Fault → Prop} {α : Type} {x : Eval α}
    (h : ∀ s fault s', x s = .error fault s' → Q fault) : Keeps (fun _ => True) Q x := by
  intro s _
  cases hx : x s with
  | ok a s' => exact .value a trivial
  | error fault s' => exact .fault (h s fault s' hx) trivial

/-- The faults that a body without gaps lets through. -/
def Expected (m : Machine) (around : Surroundings) (fault : Fault) : Prop :=
  fault.IsGap → around.Raises m fault

theorem not_isGap_lookup {method : MethodRef} {fault : Fault}
    (h : m.lookup method = .error fault) : ¬ fault.IsGap := by
  unfold Machine.lookup at h
  split at h
  · cases h
    exact id
  · dsimp only at h
    split at h <;> cases h
    exact id

theorem keeps_callHost_expected (name : String) (args : List Value) :
    Keeps (fun _ => True) (Expected m around) (callHost m name args) := by
  unfold callHost
  cases hhost : m.hosts.get? name with
  | none => exact keeps_throw fun h => h.elim
  | some host =>
    refine keeps_get_bind fun s _ => ?_
    refine keeps_lift (fun fault hfault _ => ?_) _ trivial
    exact .host hhost hfault

/-- A body without gaps and with enough arguments raises no fault for a gap by itself. -/
theorem upkeep_of_gapFree (m : Machine) (around : Surroundings) {holes : List Value} {arity : Nat}
    (harity : arity ≤ holes.length) :
    Upkeep (fun _ => True) (Expected m around) m around holes (Expr.GapFree arity) where
  fault fault h := fun hgap => absurd hgap h
  hole index hindex hnone := by
    have hlt : index < holes.length := Nat.lt_of_lt_of_le hindex harity
    rw [List.getElem?_eq_getElem hlt] at hnone
    cases hnone
  error message h := h.elim
  store _ _ _ _ := trivial
  lambda _ _ _ _ _ _ _ := trivial
  static _ _ _ _ _ _ _ := trivial
  start owner := keeps_of_faults fun s fault s' h _ => .start h
  call method receiver args := by
    unfold callMethod
    refine Keeps.bind (keeps_lift fun fault hfault hgap => ?_) fun found => ?_
    · exact absurd hgap (not_isGap_lookup hfault)
    · cases found.frame? receiver args with
      | none => exact keeps_throw fun h => h.elim
      | some frame => exact keeps_of_faults fun s fault s' h _ => .enter h
  apply function args := by
    have hrefuse : Keeps (fun _ => True) (Expected m around)
        (do throw (.notCallable ((← get).store.text function)) : Eval Value) :=
      keeps_get_bind fun s _ => .fault (fun h => h.elim) trivial
    unfold applyValue
    cases function with
    | host name => exact keeps_callHost_expected name args
    | closure ref =>
      refine keeps_get_bind fun s _ => ?_
      cases s.store.closures[ref]? with
      | none => exact hrefuse s trivial
      | some closure => exact keeps_of_faults (fun s fault s' h _ => .enter h) s trivial
    | _ => exact hrefuse

end Eval

namespace Member

variable {member : Member} {r : Method}

theorem body_mem_code (hr : member.method? = some r) : r.body ∈ member.code := by
  cases member <;> simp_all [method?, code]

/-- A matching call fills all the holes that a member can have. -/
theorem arity_le_holes (hr : member.method? = some r) {receiver : Option Value}
    {args : List Value} {frame : Frame} (hreceiver : receiver.isSome = member.takesReceiver)
    (hargs : args.length = r.params.length) (hframe : r.frame? receiver args = some frame) :
    member.arity ≤ frame.holes.length := by
  have hcount : receiver.toList.length = if member.takesReceiver then 1 else 0 := by
    rw [← hreceiver]
    cases receiver <;> rfl
  unfold arity
  rw [hr]
  dsimp only
  split
  · next htemplate =>
    have hholes : frame.holes = receiver.toList ++ args := by
      unfold Method.frame? at hframe
      split at hframe
      · next hkind => simp [hkind, MethodKind.isTemplate] at htemplate
      all_goals cases hframe
      all_goals rfl
    rw [hholes, List.length_append, hcount, hargs]
    omega
  · exact Nat.zero_le _

end Member

/--
If an assembly whose setters take a value compiles without errors, then no class
has a member with a gap: nothing in a body or a static initializer is a
placeholder, callable bodies and static initializers have no holes, and the holes
of a template are below the number of its arguments.  So whatever part of a body
is evaluated with the holes that a matching call fills, a fault for a gap comes
from elsewhere: from another body, a static initializer or a host.
-/
theorem compiled_bodies_have_no_gaps (a : Assembly) (prior : Snapshot) (o : Options) (b : Build)
    (hvalues : ∀ file ∈ a.files, ∀ hm ∈ file.marked, ∀ d ∈ hm.1.members, d.takesValue)
    (h : a.compile prior o = .ok b) :
    ∀ c ∈ b.classes.values, ∀ member ∈ c.members,
      (∀ e ∈ member.code, ∀ t ∈ e.subterms,
        (∀ message, t ≠ .error message) ∧ ∀ index, t = .hole index → index < member.arity) ∧
      ∀ r receiver args frame, member.method? = some r →
        receiver.isSome = member.takesReceiver → args.length = r.params.length →
        r.frame? receiver args = some frame →
        ∀ part ∈ r.body.subterms, ∀ (f : Frame), f.holes = frame.holes →
        ∀ m around s fault s', Eval.expr m around f part s = .error fault s' → fault.IsGap →
          around.Raises m fault := by
  intro c hc member hmember
  obtain ⟨file, hfile, hbrings⟩ := (a.compiled_of_compile h).exists_brings hc hmember
  have hgaps := hbrings.hasNoGaps (hvalues file hfile)
  refine ⟨fun e he t ht => ?_, ?_⟩
  · have hform := hgaps e he t ht
    constructor
    · rintro message rfl
      exact hform
    · rintro index rfl
      exact hform
  · intro r receiver args frame hr hreceiver hargs hframe part hpart f hf m around s fault s' hrun
    have harity := Member.arity_le_holes hr hreceiver hargs hframe
    have hkeeps := (Eval.upkeep_of_gapFree m around harity).expr hf
      ((hgaps r.body (Member.body_mem_code hr)).subterm hpart)
    have hends := hkeeps s trivial
    rw [hrun] at hends
    cases hends with
    | fault hexpected _ => exact hexpected

/-- An assembly with a member of every sort that does not need the text of a template. -/
def motleyAssembly : Assembly where
  name := "Motley"
  files := [{
    path := "motley"
    types := [{
      head := {
        name := "Panel", form := .ordinary, attributes := [.stub]
        members := [
          .setter "title" Ty.int32,
          { MemberDecl.getter "hint" Ty.int32 with attributes := [.optionalField] },
          .setter "hint" Ty.int32,
          { MemberDecl.method "shift" [⟨"x", Ty.int32⟩] Ty.int32 with
            attributes := [.inline none]
            body := some (.lambda ["y"] (.binary .add (.var "x") .self)) },
          { MemberDecl.method "post" [⟨"x", Ty.int32⟩] Ty.void with
            attributes := [.remote none] }] }
      nested := [
        { head := {
            name := "Point"
            form := .record [{ name := "x", type := Ty.int32, isMutable := true }]
            attributes := [.javaScript true]
            bindings := [
              { name := "origin", type := Ty.int32, value := .int 0, isMutable := true }] }
          nested := [] },
        { head := {
            name := "Shape"
            form := .union [{ name := "Dot", fields := [] },
              { name := "Disc", fields := [⟨"radius", Ty.int32⟩] }]
            attributes := [.javaScript true] }
          nested := [] }] }] }]

theorem motleyAssembly_has_no_gaps :
    motleyAssembly.compile {} {} = .ok (motleyAssembly.build {} {}) ∧
      ∀ c ∈ (motleyAssembly.build {} {}).classes.values, ∀ member ∈ c.members,
        ∀ e ∈ member.code, ∀ t ∈ e.subterms,
          (∀ message, t ≠ .error message) ∧ ∀ index, t = .hole index → index < member.arity := by
  have hcompile := Assembly.compile_of_clean
    (show (motleyAssembly.build {} {}).hasErrors = false by decide +kernel)
  refine ⟨hcompile, fun c hc member hmember => ?_⟩
  exact (compiled_bodies_have_no_gaps motleyAssembly {} {} _ (by decide +kernel) hcompile
    c hc member hmember).1

example : (motleyAssembly.build {} {}).classes.size = 4 := by decide +kernel

end Memberwise
