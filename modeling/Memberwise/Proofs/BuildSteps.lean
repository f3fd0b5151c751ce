import Mathlib
import Memberwise.Build.Compile

/-!
# The steps of a build

Whatever an assembly declares, and whether or not errors are reported, its build
comes about by a handful of steps.  All but one of them leave the classes alone;
those are the side steps.  A handle is only ever recorded under the member that
it is derived from, and that is part of the step which records it.

An invariant of all builds then needs one proof per step and an induction.
-/

namespace Memberwise

theorem exists_of_bind_eq_ok {ε α β : Type} {x : Except ε α} {f : α → Except ε β} {r : β}
    (h : (x >>= f) = .ok r) : ∃ a, x = .ok a ∧ f a = .ok r := by
  cases x with
  | ok a => exact ⟨a, rfl, h⟩
  | error e => cases h

/-- The handle derived from a member. -/
def MethodRef.handle (ref : MethodRef) (assembly : String) : RemoteHandle :=
  .ofMember assembly (ref.signature.identity ref.owner)

namespace Build

/-- A step that leaves the classes alone. -/
inductive SideStep (b : Build) : Build → Prop
  | error (e : CompileError) : SideStep b (b.error e)
  | warning (w : CompileWarning) : SideStep b (b.warning w)
  | interface {i : InterfaceRecord} {b' : Build} (h : b.addInterface i = .ok b') : SideStep b b'
  | resource {id : Identity} {name : String} {span : Span} {b' : Build}
      (h : b.addResource id name span = .ok b') : SideStep b b'
  | proxy (proxy target : Identity) : SideStep b (b.addProxy proxy target)
  | entryPoint (ref : MethodRef) : SideStep b (b.setEntryPoint (.expr (.call none ref [])))
  | remote (ref : MethodRef) : SideStep b (b.addRemote ref (ref.handle b.options.assemblyName))
  | graph (f : Graph → Graph) : SideStep b (b.mapGraph f)
  | file (path : Option String) : SideStep b { b with file := path }

/-- A step of a build. -/
inductive Step (b : Build) : Build → Prop
  | side {b' : Build} (h : b.SideStep b') : Step b b'
  | addClass {c : ClassRecord} {b' : Build} (h : b.addClass c = .ok b') : Step b b'

/-- Any number of steps that leave the classes alone. -/
def SideSteps : Build → Build → Prop := Relation.ReflTransGen SideStep

/-- Any number of steps. -/
def Steps : Build → Build → Prop := Relation.ReflTransGen Step

variable {b b₁ b₂ : Build}

theorem SideSteps.refl (b : Build) : b.SideSteps b := Relation.ReflTransGen.refl

theorem SideStep.steps (h : b.SideStep b₁) : b.SideSteps b₁ := Relation.ReflTransGen.single h

theorem SideSteps.trans (h : b.SideSteps b₁) (h' : b₁.SideSteps b₂) : b.SideSteps b₂ :=
  Relation.ReflTransGen.trans h h'

theorem SideSteps.toSteps (h : b.SideSteps b₁) : b.Steps b₁ :=
  Relation.ReflTransGen.mono (fun _ _ => Step.side) _ _ h

theorem Step.steps (h : b.Step b₁) : b.Steps b₁ := Relation.ReflTransGen.single h

theorem Steps.refl (b : Build) : b.Steps b := Relation.ReflTransGen.refl

theorem Steps.trans (h : b.Steps b₁) (h' : b₁.Steps b₂) : b.Steps b₂ :=
  Relation.ReflTransGen.trans h h'

theorem sideSteps_attempt {r : Except CompileError Build}
    (h : ∀ b', r = .ok b' → b.SideSteps b') : b.SideSteps (b.attempt r).1 := by
  cases r with
  | ok b' => exact h b' rfl
  | error e => exact (SideStep.error e).steps

theorem steps_attempt {r : Except CompileError Build}
    (h : ∀ b', r = .ok b' → b.Steps b') : b.Steps (b.attempt r).1 := by
  cases r with
  | ok b' => exact h b' rfl
  | error e => exact (SideStep.error e).steps.toSteps

theorem addInterface_ok {i : InterfaceRecord} (h : b.addInterface i = .ok b₁) :
    b₁ = { b with interfaces := b.interfaces.insert i.id i } := by
  obtain ⟨_, -, h⟩ := exists_of_bind_eq_ok h
  exact (Except.ok.inj h).symm

theorem addResource_ok {id : Identity} {name : String} {span : Span}
    (h : b.addResource id name span = .ok b₁) :
    b₁ = { b with resources := b.resources ++ [(id, name)] } := by
  obtain ⟨_, -, h⟩ := exists_of_bind_eq_ok h
  exact (Except.ok.inj h).symm

/-- Registering a class appends it, under an identity that was free, and changes nothing else. -/
theorem addClass_ok {c : ClassRecord} (h : b.addClass c = .ok b₁) :
    c.id ∉ b.classes.keys ∧ b₁ = { b with classes := ⟨b.classes.entries ++ [(c.id, c)]⟩ } := by
  obtain ⟨_, hnew, h⟩ := exists_of_bind_eq_ok h
  have hfree : c.id ∉ b.classes.keys := by
    intro hmem
    have hcontains := (Table.contains_iff b.classes c.id).mpr hmem
    simp [checkNew, declares, hcontains] at hnew
  cases h
  exact ⟨hfree, by rw [Table.insert, Table.insertIn_of_not_mem hfree]⟩

theorem SideStep.options (h : b.SideStep b₁) : b₁.options = b.options := by
  cases h with
  | interface h => rw [addInterface_ok h]
  | resource h => rw [addResource_ok h]
  | _ => rfl

theorem Steps.options (h : b.Steps b₁) : b₁.options = b.options := by
  induction h with
  | refl => rfl
  | tail _ hstep ih =>
    cases hstep with
    | side hside => exact hside.options.trans ih
    | addClass hadd => rw [(addClass_ok hadd).2, ih]

/-- No step assigns names or changes what is known of earlier assemblies. -/
theorem Steps.names_prior (h : b.Steps b₁) : b₁.names = b.names ∧ b₁.prior = b.prior := by
  induction h with
  | refl => exact ⟨rfl, rfl⟩
  | tail _ hstep ih =>
    cases hstep with
    | side hside =>
      cases hside with
      | interface hadd => rwa [addInterface_ok hadd]
      | resource hadd => rwa [addResource_ok hadd]
      | _ => exact ih
    | addClass hadd => rwa [(addClass_ok hadd).2]

end Build

/-! ## Members -/

namespace MemberDecl

variable {o : Options} {owner : Owner} {d : MemberDecl} {m : Marking} {member : Member}

/-- A member is emitted with what its treatment gives, or for the slot that it keeps. -/
theorem emit_cases (h : d.emit o owner m = .ok (some member)) :
    ∃ kind body, d.emittedAs m kind body = member ∧
      ((kind = .abstract ∧ body = .undefined) ∨
        ∃ treatment, d.kindAndBody o owner m treatment = .ok (kind, body)) := by
  unfold emit at h
  split at h
  · split at h
    · exact ⟨.abstract, .undefined, Option.some.inj (Except.ok.inj h), .inl ⟨rfl, rfl⟩⟩
    · cases h
  · next treatment _ =>
    obtain ⟨_, -, h⟩ := exists_of_bind_eq_ok h
    obtain ⟨⟨kind, body⟩, hbody, h⟩ := exists_of_bind_eq_ok h
    exact ⟨kind, body, Option.some.inj (Except.ok.inj h), .inr ⟨treatment, hbody⟩⟩

theorem remoteHandle?_emittedAs {kind : MethodKind} {body : Expr} {handle : RemoteHandle}
    (h : (d.emittedAs m kind body).remoteHandle? = some handle) :
    ∃ style, kind = .remote style handle := by
  have hmethod :
      ∃ method, (d.emittedAs m kind body).method? = some method ∧ method.kind = kind := by
    unfold emittedAs emitted
    split <;> exact ⟨_, rfl, rfl⟩
  obtain ⟨method, hmethod, rfl⟩ := hmethod
  rw [Member.remoteHandle?, hmethod] at h
  split at h
  · next heq =>
    obtain rfl := Option.some.inj heq
    exact ⟨_, by rw [Option.some.inj h]⟩
  · cases h

theorem remote_of_kindAndBody {treatment : Treatment} {style : RemoteStyle} {handle : RemoteHandle}
    {body : Expr} (h : d.kindAndBody o owner m treatment = .ok (.remote style handle, body)) :
    d.form = .method ∧ handle = MethodRef.handle ⟨owner.id, d.signature⟩ o.assemblyName := by
  cases treatment with
  | remote policy =>
    simp only [kindAndBody] at h
    split at h
    · next hform =>
      cases h
      exact ⟨hform, rfl⟩
    · cases h
  | compiled =>
    simp only [kindAndBody] at h
    split at h
    · cases h
    · obtain ⟨_, -, h⟩ := exists_of_bind_eq_ok h
      cases h
  | inline _ | direct _ | compiledInline | optionalSlot =>
    obtain ⟨_, -, h⟩ := exists_of_bind_eq_ok h
    cases h
  | conflict _ _ | noFallback | constant _ | stub | generated _ _ => cases h

/-- A remote member that is emitted carries the handle derived from it. -/
theorem handle_of_emit {handle : RemoteHandle} (hemit : d.emit o owner m = .ok (some member))
    (hremote : member.remoteHandle? = some handle) :
    handle = MethodRef.handle ⟨owner.id, d.signature⟩ o.assemblyName := by
  obtain ⟨kind, body, rfl, hkind⟩ := emit_cases hemit
  obtain ⟨style, rfl⟩ := remoteHandle?_emittedAs hremote
  rcases hkind with ⟨habstract, -⟩ | ⟨treatment, hbody⟩
  · cases habstract
  · exact (remote_of_kindAndBody hbody).2

@[simp]
theorem remoteHandle?_placeholder (d : MemberDecl) (e : CompileError) :
    (d.placeholder e).remoteHandle? = none := by
  unfold placeholder emitted
  split <;> rfl

end MemberDecl

namespace Build

variable (b : Build) (owner : Identity) (d : MemberDecl) (m : Marking)

theorem sideSteps_registerRemote {member : Member}
    (hremote : ∀ handle, member.remoteHandle? = some handle →
      handle = MethodRef.handle ⟨owner, d.signature⟩ b.options.assemblyName) :
    b.SideSteps (b.registerRemote owner d member) := by
  unfold registerRemote
  split
  · next handle hhandle =>
    rw [hremote handle hhandle]
    exact (SideStep.remote _).steps
  · exact .refl b

theorem sideSteps_registerRequired : b.SideSteps (b.registerRequired owner d m) := by
  by_cases hnone : m.requires.isEmpty
  · rw [registerRequired, if_pos hnone]
    exact .refl b
  · rw [registerRequired, if_neg hnone]
    exact (SideStep.graph _).steps

theorem sideSteps_registerEntryPoint : b.SideSteps (b.registerEntryPoint owner d) := by
  by_cases hstatic : (d.form = .method && d.isStatic)
  · rw [registerEntryPoint, if_pos hstatic]
    exact (SideStep.entryPoint _).steps.trans (SideStep.graph _).steps
  · rw [registerEntryPoint, if_neg hstatic]
    exact (SideStep.error _).steps

theorem sideSteps_register {member : Member}
    (hremote : ∀ handle, member.remoteHandle? = some handle →
      handle = MethodRef.handle ⟨owner, d.signature⟩ b.options.assemblyName) :
    b.SideSteps (b.register owner d m member) := by
  have htables := (sideSteps_registerRemote b owner d hremote).trans
    (sideSteps_registerRequired _ owner d m)
  by_cases hentry : m.isEntryPoint
  · rw [register, if_pos hentry]
    exact htables.trans (sideSteps_registerEntryPoint _ owner d)
  · rw [register, if_neg hentry]
    exact htables

end Build

namespace Walk

variable (w : Walk) (c : ClassRecord) (d : MemberDecl) (m : Marking)

theorem sideSteps_addMember {member : Member}
    (hremote : ∀ handle, member.remoteHandle? = some handle →
      handle = MethodRef.handle ⟨c.id, d.signature⟩ w.build.options.assemblyName) :
    w.build.SideSteps (w.addMember c d m member).1.build := by
  unfold addMember
  split
  · exact (Build.SideStep.error _).steps
  · exact Build.sideSteps_register w.build c.id d m hremote

theorem addMember_id (member : Member) : (w.addMember c d m member).2.id = c.id := by
  unfold addMember
  split
  · rfl
  · next hadd => rw [(ClassRecord.add_ok hadd).2]

variable (owner : Owner) (type : Marking) (ds : List MemberDecl)

theorem sideSteps_member (hid : c.id = owner.id) :
    w.build.SideSteps (w.member owner type ds c d).1.build ∧
      (w.member owner type ds c d).2.id = c.id := by
  unfold member
  dsimp only
  split
  · exact ⟨.refl _, rfl⟩
  · next member hemit =>
    let counted : Walk := { w with tally := { w.tally with members := w.tally.members + 1 } }
    refine ⟨sideSteps_addMember counted c d _ ?_, addMember_id ..⟩
    intro handle hhandle
    rw [hid]
    exact MemberDecl.handle_of_emit hemit hhandle
  · next e _ =>
    have hadd : (w.fail e).build.SideSteps
        ((w.fail e).addMember c d (memberMarking type ds d) (d.placeholder e)).1.build :=
      sideSteps_addMember (w.fail e) c d _ (by simp)
    exact ⟨(Build.SideStep.error e).steps.trans hadd, addMember_id ..⟩

theorem sideSteps_members_foldl (l : List MemberDecl) (hid : c.id = owner.id) :
    w.build.SideSteps (l.foldl (fun (w, c) d => w.member owner type ds c d) (w, c)).1.build := by
  induction l generalizing w c with
  | nil => exact .refl _
  | cons d l ih =>
    obtain ⟨hsteps, hid'⟩ := sideSteps_member w c d owner type ds hid
    exact hsteps.trans (ih _ _ (hid'.trans hid))

theorem sideSteps_members (hid : c.id = owner.id) :
    w.build.SideSteps (w.members owner type ds c).1.build :=
  sideSteps_members_foldl w c owner type ds ds hid

omit c d m owner ds

theorem sideSteps_binding (b : Binding) : w.build.SideSteps (binding type w b).build := by
  unfold binding
  dsimp only
  split
  · exact .refl _
  · exact (Build.SideStep.error _).steps

theorem sideSteps_bindings (bs : List Binding) :
    w.build.SideSteps (bs.foldl (binding type) w).build := by
  induction bs generalizing w with
  | nil => exact .refl _
  | cons b bs ih => exact (sideSteps_binding w type b).trans (ih _)

/-! ## Types -/

variable (h : TypeHead) (m : Marking)

theorem sideSteps_proxy : w.build.SideSteps (w.proxy h m).build := by
  unfold proxy
  split
  · exact .refl _
  · next target _ =>
    have hproxy : w.build.SideSteps (w.build.addProxy h.id target.identity) :=
      (Build.SideStep.proxy h.id target.identity).steps
    dsimp only
    split
    · exact hproxy.trans (Build.SideStep.warning _).steps
    · exact hproxy

theorem sideSteps_contents : w.build.SideSteps (w.contents h m).1.build := by
  have hmembers := sideSteps_members (w.proxy h m) (h.newClass m) (h.owner m) m h.members rfl
  exact ((sideSteps_proxy w h m).trans hmembers).trans (sideSteps_bindings _ m h.bindings)

theorem sideSteps_reflected : w.build.SideSteps (w.reflected h).build := by
  by_cases hreflected : h.isReflected
  · rw [reflected, if_pos hreflected]
    exact (Build.SideStep.warning _).steps
  · rw [reflected, if_neg hreflected]
    exact .refl _

theorem sideSteps_interfaceType : w.build.SideSteps (w.interfaceType h m).1.build :=
  Build.sideSteps_attempt fun _ hadd => (Build.SideStep.interface hadd).steps

theorem sideSteps_resourceType : w.build.SideSteps (w.resourceType h m).1.build := by
  have hattempt : w.build.SideSteps
      (w.build.attempt (w.build.addResource h.id h.name h.span)).1 :=
    Build.sideSteps_attempt fun _ hadd => (Build.SideStep.resource hadd).steps
  unfold resourceType
  generalize w.build.attempt (w.build.addResource h.id h.name h.span) = r at hattempt ⊢
  obtain ⟨b, added⟩ := r
  cases added with
  | true => exact hattempt.trans (Build.SideStep.graph fun g => g.addRequiring _ _).steps
  | false => exact hattempt

theorem steps_classType : w.build.Steps (w.classType h m).1.build :=
  (sideSteps_contents w h m).toSteps.trans
    (Build.steps_attempt fun _ hadd => (Build.Step.addClass hadd).steps)

theorem steps_classOrInterface : w.build.Steps (w.classOrInterface h m).1.build := by
  unfold classOrInterface
  split
  · exact (sideSteps_interfaceType w h m).toSteps
  · exact steps_classType w h m

theorem steps_plainType : w.build.Steps (w.plainType h m).1.build := by
  have hregistered := steps_classOrInterface w h m
  unfold plainType
  generalize w.classOrInterface h m = r at hregistered ⊢
  obtain ⟨w₁, added⟩ := r
  cases added with
  | true => exact hregistered.trans (Build.SideStep.graph fun g => g.addRequiring _ _).steps.toSteps
  | false => exact hregistered

theorem steps_typeHead : w.build.Steps (w.typeHead h m).1.build := by
  have hreflected := (sideSteps_reflected w h).toSteps
  by_cases hdeclared : w.build.declares h.id
  · rw [typeHead, if_pos hdeclared]
    exact (Build.SideStep.error _).steps.toSteps
  · rw [typeHead, if_neg hdeclared]
    by_cases hresource : h.isResource
    · rw [if_pos hresource]
      exact hreflected.trans (sideSteps_resourceType _ h m).toSteps
    · rw [if_neg hresource]
      exact hreflected.trans (steps_plainType _ h m)

mutual

theorem steps_typeDecl (enclosing : Marking) (w : Walk) (t : TypeDecl) :
    w.build.Steps (typeDecl enclosing w t).build := by
  obtain ⟨h, nested⟩ := t
  have hhead := steps_typeHead w h (enclosing.within h.attributes)
  rw [typeDecl]
  generalize w.typeHead h (enclosing.within h.attributes) = r at hhead ⊢
  obtain ⟨w₁, added⟩ := r
  dsimp only
  split
  · exact hhead.trans (steps_typeDecls (enclosing.within h.attributes) w₁ nested)
  · exact hhead
termination_by structural t

theorem steps_typeDecls (enclosing : Marking) (w : Walk) (ts : List TypeDecl) :
    w.build.Steps (typeDecls enclosing w ts).build := by
  cases ts with
  | nil => exact .refl _
  | cons t ts =>
    exact (steps_typeDecl enclosing w t).trans (steps_typeDecls enclosing _ ts)
termination_by structural ts

end

end Walk

/-! ## Files -/

namespace Build

theorem steps_addStartup (b : Build) (tally : Tally) (s : Startup) :
    b.Steps (b.addStartup tally s).1 := by
  unfold addStartup
  split
  · exact .refl b
  · split
    · next hadd =>
      exact (Step.addClass hadd).steps.trans
        (SideStep.graph fun g => g.addRequiring _ _).steps.toSteps
    · exact (SideStep.error _).steps.toSteps

theorem steps_compileFile (b : Build) (tally : Tally) (file : SourceFile) :
    b.Steps (b.compileFile tally file).1 := by
  let w : Walk := ⟨{ b with file := some file.path }, .new b.options.assemblyName file.path, tally⟩
  have hopen : b.Steps w.build := (SideStep.file _).steps.toSteps
  exact (hopen.trans (Walk.steps_typeDecls {} w file.types)).trans (steps_addStartup _ _ _)

theorem steps_compileFiles_foldl (files : List SourceFile) (b : Build) (tally : Tally) :
    b.Steps (files.foldl (fun (b, tally) file => b.compileFile tally file) (b, tally)).1 := by
  induction files generalizing b tally with
  | nil => exact .refl b
  | cons file files ih => exact (steps_compileFile b tally file).trans (ih _ _)

theorem steps_compileFiles (b : Build) (a : Assembly) : b.Steps (b.compileFiles a).1 :=
  (steps_compileFiles_foldl a.files b {}).trans (SideStep.file none).steps.toSteps

theorem sideSteps_errors (errors : List CompileError) (b : Build) :
    b.SideSteps (errors.foldl error b) := by
  induction errors generalizing b with
  | nil => exact .refl b
  | cons e errors ih => exact (SideStep.error e).steps.trans (ih _)

/-- Apart from the names, assigning them reports errors only. -/
theorem sideSteps_resolve (b : Build) : b.SideSteps { b.resolve with names := b.names } := by
  by_cases hresolved : b.isResolved
  · rw [resolve, if_pos hresolved]
    exact .refl b
  · rw [resolve, if_neg hresolved]
    dsimp only
    generalize b.typeNames.collisions ++ _ = errors
    have hsteps := sideSteps_errors errors b
    rw [← hsteps.toSteps.names_prior.1]
    exact hsteps

end Build

/-- Apart from the names, the build of an assembly comes about by steps, errors or not. -/
theorem Assembly.steps_build (a : Assembly) (prior : Snapshot) (o : Options) :
    (Build.new prior o).Steps { a.build prior o with names := none } := by
  have hfiles := Build.steps_compileFiles (Build.new prior o) a
  have hresolve := Build.sideSteps_resolve ((Build.new prior o).compileFiles a).1
  rw [hfiles.names_prior.1] at hresolve
  exact hfiles.trans hresolve.toSteps

end Memberwise
