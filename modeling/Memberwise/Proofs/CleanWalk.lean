import Mathlib
import Memberwise.Proofs.BuildSteps
import Memberwise.Proofs.WalkOrder

/-!
# Walks without errors

A walk never stops, so what it leaves behind is hard to say in general.  When no
error was reported it is simple: every declared type was reached and registered,
every member was emitted, every top-level value was accepted.  The classes of such
a build are exactly those of the declared types and the startup types, in the order
of the walk.
-/

namespace Memberwise

/-! ## Members -/

/--
A step that leaves the classes alone.  It can report errors but never removes one.
-/
structure Build.Beside (b b' : Build) : Prop where
  clean : b'.hasErrors = false → b.hasErrors = false
  options : b'.options = b.options
  classes : b'.classes = b.classes

namespace Build

variable (b : Build)

theorem Beside.refl : b.Beside b := ⟨id, rfl, rfl⟩

variable {b}

theorem Beside.trans {b₁ b₂ : Build} (h : b.Beside b₁) (h' : b₁.Beside b₂) : b.Beside b₂ :=
  ⟨fun hclean => h.clean (h'.clean hclean), h'.options.trans h.options,
    h'.classes.trans h.classes⟩

theorem SideStep.beside {b' : Build} (h : b.SideStep b') : b.Beside b' := by
  cases h with
  | error e => exact ⟨fun hclean => by simp at hclean, rfl, rfl⟩
  | warning w => exact ⟨fun hclean => by simpa using hclean, rfl, rfl⟩
  | interface h =>
    rw [addInterface_ok h]
    exact ⟨id, rfl, rfl⟩
  | resource h =>
    rw [addResource_ok h]
    exact ⟨id, rfl, rfl⟩
  | proxy | entryPoint | remote | graph | file => exact ⟨id, rfl, rfl⟩

theorem SideSteps.beside {b' : Build} (h : b.SideSteps b') : b.Beside b' := by
  induction h with
  | refl => exact .refl b
  | tail _ hstep ih => exact ih.trans hstep.beside

end Build

theorem TypeHead.emittedClass_id (h : TypeHead) (o : Options) (m : Marking) :
    (h.emittedClass o m).id = h.id := by
  have hdeclared : ((h.newClass m).addFree (h.declaredMembers o m)).id = h.id :=
    ClassRecord.addFree_id _ _
  unfold emittedClass augment
  split
  · split
    · exact (ClassRecord.addFree_id _ _).trans hdeclared
    · exact (ClassRecord.addFree_id _ _).trans hdeclared
    · exact hdeclared
  · exact hdeclared

namespace Walk

variable (w : Walk) (c : ClassRecord)

theorem addMember_startup (d : MemberDecl) (m : Marking) (member : Member) :
    (w.addMember c d m member).1.startup = w.startup := by
  unfold addMember
  split <;> rfl

theorem addMember_class (d : MemberDecl) (m : Marking) (member : Member) :
    (w.addMember c d m member).2 = c.addFree [member] := by
  unfold addMember ClassRecord.add
  by_cases hfree : c.contains member.key
  · simp [hfree, ClassRecord.addFree]
  · simp [hfree, ClassRecord.addFree]

variable (owner : Owner) (type : Marking) (ds : List MemberDecl)

/-- Emitting a member adds its outcome to the class, if there is one. -/
theorem member_eq (d : MemberDecl) :
    ∃ w₁ : Walk, w₁.startup = w.startup ∧
      w.member owner type ds c d =
        match d.outcome w.build.options owner (memberMarking type ds d) with
        | none => (w₁, c)
        | some member => w₁.addMember c d (memberMarking type ds d) member := by
  unfold member MemberDecl.outcome
  dsimp only
  cases d.emit w.build.options owner (memberMarking type ds d) with
  | error e => exact ⟨w.fail e, rfl, rfl⟩
  | ok outcome =>
    cases outcome with
    | none => exact ⟨w, rfl, rfl⟩
    | some member =>
      exact ⟨{ w with tally := { w.tally with members := w.tally.members + 1 } }, rfl, rfl⟩

theorem member_startup (d : MemberDecl) : (w.member owner type ds c d).1.startup = w.startup := by
  obtain ⟨w₁, hstartup, heq⟩ := member_eq w c owner type ds d
  rw [heq]
  split
  · exact hstartup
  · exact (addMember_startup w₁ c d _ _).trans hstartup

theorem member_class (d : MemberDecl) :
    (w.member owner type ds c d).2 =
      c.addFree (d.outcome w.build.options owner (memberMarking type ds d)).toList := by
  obtain ⟨w₁, -, heq⟩ := member_eq w c owner type ds d
  rw [heq]
  cases d.outcome w.build.options owner (memberMarking type ds d) with
  | none => rfl
  | some member => exact addMember_class w₁ c d _ member

/-- A member that fails is reported. -/
theorem emits_of_member_clean (d : MemberDecl)
    (hclean : (w.member owner type ds c d).1.build.hasErrors = false) :
    ∃ member, d.emit w.build.options owner (memberMarking type ds d) = .ok member := by
  cases hemit : d.emit w.build.options owner (memberMarking type ds d) with
  | ok member => exact ⟨member, rfl⟩
  | error e =>
    simp only [member, hemit] at hclean
    have hfailed := (sideSteps_addMember (w.fail e) c d _ (by simp)).beside.clean hclean
    simp [fail, error] at hfailed

/-- What emitting the members of a type into its class does. -/
structure Members (w w' : Walk) (owner : Owner) (type : Marking) (ds l : List MemberDecl)
    (c c' : ClassRecord) : Prop where
  beside : w.build.Beside w'.build
  startup : w'.startup = w.startup
  result : c' = c.addFree
    (l.filterMap fun d => d.outcome w.build.options owner (memberMarking type ds d))
  emits : w'.build.hasErrors = false →
    ∀ d ∈ l, ∃ member, d.emit w.build.options owner (memberMarking type ds d) = .ok member

theorem members_foldl (l : List MemberDecl) (hid : c.id = owner.id) :
    Members w (l.foldl (fun (w, c) d => w.member owner type ds c d) (w, c)).1 owner type ds l c
      (l.foldl (fun (w, c) d => w.member owner type ds c d) (w, c)).2 := by
  induction l generalizing w c with
  | nil => exact ⟨.refl _, rfl, rfl, by simp⟩
  | cons d l ih =>
    obtain ⟨hsteps, hid'⟩ := sideSteps_member w c d owner type ds hid
    have hstep := hsteps.beside
    have hrest := ih (w.member owner type ds c d).1 (w.member owner type ds c d).2 (hid'.trans hid)
    refine ⟨hstep.trans hrest.beside, hrest.startup.trans (member_startup ..), ?_, ?_⟩
    · rw [List.foldl_cons, hrest.result, member_class, hstep.options,
        ← ClassRecord.addFree_append, List.filterMap_cons]
      cases d.outcome w.build.options owner (memberMarking type ds d) <;> rfl
    · intro hclean d' hd'
      rcases List.mem_cons.mp hd' with rfl | hd'
      · exact emits_of_member_clean w c owner type ds d' (hrest.beside.clean hclean)
      · simpa only [hstep.options] using hrest.emits hclean d' hd'

/-- The members of a type end up in its class. -/
theorem members_spec (hid : c.id = owner.id) :
    Members w (w.members owner type ds c).1 owner type ds ds c (w.members owner type ds c).2 :=
  members_foldl w c owner type ds ds hid

/-! ## Top-level values -/

omit c owner ds

theorem add_of_binding_clean (b : Binding)
    (hclean : (binding type w b).build.hasErrors = false) :
    w.startup.add b (type.within b.attributes) = ((binding type w b).startup, .ok ()) := by
  unfold binding at hclean ⊢
  generalize w.startup.add b (type.within b.attributes) = added at hclean ⊢
  obtain ⟨startup, _ | _⟩ := added
  · simp [fail, error] at hclean
  · rfl

theorem addAll_of_bindings_clean (bs : List Binding)
    (hclean : (bs.foldl (binding type) w).build.hasErrors = false) :
    w.startup.addAll (bs.map fun b => (b, type.within b.attributes)) =
      .ok (bs.foldl (binding type) w).startup := by
  induction bs generalizing w with
  | nil => rfl
  | cons b bs ih =>
    have hfirst := add_of_binding_clean w type b
      ((sideSteps_bindings _ type bs).beside.clean hclean)
    rw [List.map_cons, Startup.addAll, hfirst]
    exact ih (binding type w b) hclean

/-! ## Types -/

end Walk

theorem Build.attempt_clean {b : Build} {r : Except CompileError Build}
    (h : (b.attempt r).1.hasErrors = false) : ∃ b', r = .ok b' ∧ b.attempt r = (b', true) := by
  cases r with
  | ok b' => exact ⟨b', rfl, rfl⟩
  | error e => simp [attempt] at h

/-- What a walk over some types added, given that it reported no error. -/
structure Walk.Adds (w w' : Walk) (heads : List (TypeHead × Marking)) : Prop where
  clean : w.build.hasErrors = false
  options : w'.build.options = w.build.options
  classes : w'.build.classes.entries =
    w.build.classes.entries ++ heads.flatMap fun (h, m) => h.classEntry w.build.options m
  nodup : w.build.classes.keys.Nodup → w'.build.classes.keys.Nodup
  emits : ∀ hm ∈ heads, hm.1.isClass → hm.1.Emits w.build.options hm.2
  startup : w.startup.addAll (heads.flatMap fun (h, m) => h.markedBindings m) = .ok w'.startup

namespace Walk

theorem Adds.refl {w : Walk} (hclean : w.build.hasErrors = false) : w.Adds w [] :=
  ⟨hclean, rfl, by simp, id, by simp, rfl⟩

theorem Adds.trans {w₁ w₂ w₃ : Walk} {heads heads' : List (TypeHead × Marking)}
    (h : w₁.Adds w₂ heads) (h' : w₂.Adds w₃ heads') : w₁.Adds w₃ (heads ++ heads') where
  clean := h.clean
  options := h'.options.trans h.options
  classes := by
    rw [h'.classes, h.classes, h.options, List.flatMap_append, List.append_assoc]
  nodup := fun hnodup => h'.nodup (h.nodup hnodup)
  emits := by
    intro hm hmem hclass
    rcases List.mem_append.mp hmem with hmem | hmem
    · exact h.emits hm hmem hclass
    · simpa only [h.options] using h'.emits hm hmem hclass
  startup := by
    rw [List.flatMap_append, Startup.addAll_append h.startup]
    exact h'.startup

variable (w : Walk) (h : TypeHead) (m : Marking)

theorem proxy_startup : (w.proxy h m).startup = w.startup := by
  unfold proxy
  split <;> rfl

/-- What compiling the contents of a type does. -/
structure Contents (w w' : Walk) (h : TypeHead) (m : Marking) (c : ClassRecord) : Prop where
  beside : w.build.Beside w'.build
  result : c = (h.newClass m).addFree (h.declaredMembers w.build.options m)
  emits : w'.build.hasErrors = false → h.Emits w.build.options m
  startup : w'.build.hasErrors = false →
    w.startup.addAll (h.bindings.map fun b => (b, m.within b.attributes)) = .ok w'.startup

theorem contents_spec : Contents w (w.contents h m).1 h m (w.contents h m).2 := by
  have hproxy := (sideSteps_proxy w h m).beside
  have hmembers := members_spec (w.proxy h m) (h.newClass m) (h.owner m) m h.members rfl
  unfold contents
  generalize (w.proxy h m).members (h.owner m) m h.members (h.newClass m) = r at hmembers ⊢
  obtain ⟨w₁, c⟩ := r
  have hbindings := (sideSteps_bindings w₁ m h.bindings).beside
  refine ⟨(hproxy.trans hmembers.beside).trans hbindings, ?_, ?_, ?_⟩
  · simpa only [hproxy.options, TypeHead.declaredMembers] using hmembers.result
  · intro hclean
    simpa only [hproxy.options, TypeHead.Emits] using hmembers.emits (hbindings.clean hclean)
  · intro hclean
    have haccepted := addAll_of_bindings_clean w₁ m h.bindings hclean
    rwa [hmembers.startup, proxy_startup] at haccepted

theorem classType_adds (hclass : h.isClass)
    (hclean : (w.classType h m).1.build.hasErrors = false) :
    (w.classType h m).2 = true ∧ w.Adds (w.classType h m).1 [(h, m)] := by
  have hcontents := contents_spec w h m
  unfold classType at hclean ⊢
  generalize w.contents h m = r at hcontents hclean ⊢
  obtain ⟨w₁, c⟩ := r
  have hbeside : w.build.Beside w₁.build := hcontents.beside
  -- An attempt that fails leaves an error behind, so this one added the class.
  obtain ⟨b, hb, hadded⟩ := Build.attempt_clean hclean
  simp only [hadded, true_and] at hclean ⊢
  have hentry : h.augment w₁.build.options m c = h.emittedClass w.build.options m := by
    have hresult : c = _ := hcontents.result
    rw [hbeside.options, hresult, TypeHead.emittedClass]
  obtain ⟨hfree, hb⟩ := Build.addClass_ok hb
  rw [hentry, h.emittedClass_id, hbeside.classes] at hfree hb
  have hclean₁ : w₁.build.hasErrors = false := by
    rw [hb] at hclean
    exact hclean
  refine ⟨hbeside.clean hclean₁, ?_, ?_, ?_, ?_, ?_⟩
  · rw [hb]
    exact hbeside.options
  · simp [hb, TypeHead.classEntry, hclass]
  · intro hnodup
    rw [hb]
    exact Table.nodup_keys_append hnodup hfree _
  · simpa using fun _ => hcontents.emits hclean₁
  · simpa [TypeHead.markedBindings, hclass] using hcontents.startup hclean₁

/-- A step that registers a type which is no class. -/
theorem adds_of_not_class {w' : Walk} (hclass : h.isClass = false)
    (hbeside : w.build.Beside w'.build) (hstartup : w'.startup = w.startup)
    (hclean : w'.build.hasErrors = false) :
    w.Adds w' [(h, m)] where
  clean := hbeside.clean hclean
  options := hbeside.options
  classes := by simp [TypeHead.classEntry, hclass, hbeside.classes]
  nodup := by rw [hbeside.classes]; exact id
  emits := by simp [hclass]
  startup := by simp [TypeHead.markedBindings, hclass, Startup.addAll, hstartup]

end Walk

namespace Walk

variable (w : Walk) (h : TypeHead) (m : Marking)

/-- Adding to the tables beside the classes afterwards changes nothing here. -/
theorem Adds.beside {w w' w'' : Walk} {heads : List (TypeHead × Marking)} (hadds : w.Adds w' heads)
    (hbeside : w'.build.Beside w''.build) (hstartup : w''.startup = w'.startup) :
    w.Adds w'' heads where
  clean := hadds.clean
  options := hbeside.options.trans hadds.options
  classes := by rw [hbeside.classes, hadds.classes]
  nodup := by rw [hbeside.classes]; exact hadds.nodup
  emits := hadds.emits
  startup := by rw [hstartup, hadds.startup]

/-- Nor does adding to them before. -/
theorem Adds.after {w w' w'' : Walk} {heads : List (TypeHead × Marking)}
    (hbeside : w.build.Beside w'.build) (hstartup : w'.startup = w.startup)
    (hadds : w'.Adds w'' heads) : w.Adds w'' heads where
  clean := hbeside.clean hadds.clean
  options := hadds.options.trans hbeside.options
  classes := by rw [hadds.classes, hbeside.classes, hbeside.options]
  nodup := by rw [← hbeside.classes]; exact hadds.nodup
  emits := by simpa only [hbeside.options] using hadds.emits
  startup := by rw [← hstartup, hadds.startup]

theorem resourceType_adds (hresource : h.isResource = true)
    (hclean : (w.resourceType h m).1.build.hasErrors = false) :
    (w.resourceType h m).2 = true ∧ w.Adds (w.resourceType h m).1 [(h, m)] := by
  have hclass : h.isClass = false := by simp [TypeHead.isClass, hresource]
  unfold resourceType at hclean ⊢
  cases hadd : w.build.addResource h.id h.name h.span with
  | error e => simp [hadd, Build.attempt] at hclean
  | ok b =>
    simp only [hadd, Build.attempt, if_true, true_and] at hclean ⊢
    refine adds_of_not_class w h m hclass ?_ rfl hclean
    exact (Build.SideStep.resource hadd).beside.trans ⟨id, rfl, rfl⟩

theorem interfaceType_adds (hclass : h.isClass = false)
    (hclean : (w.interfaceType h m).1.build.hasErrors = false) :
    (w.interfaceType h m).2 = true ∧ w.Adds (w.interfaceType h m).1 [(h, m)] := by
  unfold interfaceType at hclean ⊢
  cases hadd : w.build.addInterface (h.newInterface m) with
  | error e => simp [hadd, Build.attempt] at hclean
  | ok b =>
    simp only [hadd, Build.attempt, true_and] at hclean ⊢
    exact adds_of_not_class w h m hclass (Build.SideStep.interface hadd).beside rfl hclean

theorem classOrInterface_adds (hresource : h.isResource = false)
    (hclean : (w.classOrInterface h m).1.build.hasErrors = false) :
    (w.classOrInterface h m).2 = true ∧ w.Adds (w.classOrInterface h m).1 [(h, m)] := by
  unfold classOrInterface at hclean ⊢
  split at hclean
  · next hform =>
    exact interfaceType_adds w h m (by simp [TypeHead.isClass, hform]) hclean
  · next hform =>
    have hclass : h.isClass = true := by
      unfold TypeHead.isClass
      split <;> simp_all
    exact classType_adds w h m hclass hclean

theorem plainType_adds (hresource : h.isResource = false)
    (hclean : (w.plainType h m).1.build.hasErrors = false) :
    (w.plainType h m).2 = true ∧ w.Adds (w.plainType h m).1 [(h, m)] := by
  have hregistered := classOrInterface_adds w h m hresource
  unfold plainType at hclean ⊢
  generalize w.classOrInterface h m = r at hclean hregistered ⊢
  obtain ⟨w₁, added⟩ := r
  have hclean₁ : w₁.build.hasErrors = false := by
    cases added <;> exact hclean
  obtain ⟨rfl, hadds⟩ := hregistered hclean₁
  exact ⟨rfl, hadds.beside ⟨id, rfl, rfl⟩ rfl⟩

theorem reflected_startup : (w.reflected h).startup = w.startup := by
  unfold reflected
  split <;> rfl

/-- A type is registered with all it brings, unless an error is reported. -/
theorem typeHead_adds (hclean : (w.typeHead h m).1.build.hasErrors = false) :
    (w.typeHead h m).2 = true ∧ w.Adds (w.typeHead h m).1 [(h, m)] := by
  have hbeside := (sideSteps_reflected w h).beside
  have hstartup := reflected_startup w h
  by_cases hnew : w.build.declares h.id
  · simp [typeHead, hnew, error] at hclean
  · cases hresource : h.isResource with
    | true =>
      simp only [typeHead, hnew, hresource, if_true] at hclean ⊢
      obtain ⟨hadded, hadds⟩ := resourceType_adds _ h m hresource hclean
      exact ⟨hadded, hadds.after hbeside hstartup⟩
    | false =>
      simp only [typeHead, hnew, hresource] at hclean ⊢
      obtain ⟨hadded, hadds⟩ := plainType_adds _ h m hresource hclean
      exact ⟨hadded, hadds.after hbeside hstartup⟩

mutual

theorem typeDecl_adds (enclosing : Marking) (w : Walk) (t : TypeDecl)
    (hclean : (typeDecl enclosing w t).build.hasErrors = false) :
    w.Adds (typeDecl enclosing w t) (t.marked enclosing) := by
  obtain ⟨h, nested⟩ := t
  have hhead := typeHead_adds w h (enclosing.within h.attributes)
  simp only [typeDecl, TypeDecl.marked] at hclean ⊢
  generalize w.typeHead h (enclosing.within h.attributes) = r at hclean hhead ⊢
  obtain ⟨w₁, added⟩ := r
  cases added with
  | false => exact absurd (hhead hclean).1 (by simp)
  | true =>
    have hnested := typeDecls_adds (enclosing.within h.attributes) w₁ nested hclean
    exact (hhead hnested.clean).2.trans hnested
termination_by structural t

theorem typeDecls_adds (enclosing : Marking) (w : Walk) (ts : List TypeDecl)
    (hclean : (typeDecls enclosing w ts).build.hasErrors = false) :
    w.Adds (typeDecls enclosing w ts) (TypeDecl.markedAll enclosing ts) := by
  cases ts with
  | nil => exact .refl hclean
  | cons t ts =>
    -- From the end backwards: errors are never taken back, so the walk was clean before.
    have hrest := typeDecls_adds enclosing (typeDecl enclosing w t) ts hclean
    exact (typeDecl_adds enclosing w t hrest.clean).trans hrest
termination_by structural ts

end

end Walk

/-! ## Files -/

/-- What compiling some files added, given that no error was reported. -/
structure Build.AddsFiles (b b' : Build) (files : List SourceFile) : Prop where
  clean : b.hasErrors = false
  options : b'.options = b.options
  classes : b'.classes.entries =
    b.classes.entries ++ files.flatMap (SourceFile.classEntries b.options)
  nodup : b.classes.keys.Nodup → b'.classes.keys.Nodup
  emits : ∀ file ∈ files, ∀ hm ∈ file.marked, hm.1.isClass → hm.1.Emits b.options hm.2
  startups : ∀ file ∈ files, ∃ s, file.startup? b.options.assemblyName = .ok s

namespace Build

theorem AddsFiles.refl {b : Build} (hclean : b.hasErrors = false) : b.AddsFiles b [] :=
  ⟨hclean, rfl, by simp, id, by simp, by simp⟩

theorem AddsFiles.trans {b₁ b₂ b₃ : Build} {files files' : List SourceFile}
    (h : b₁.AddsFiles b₂ files) (h' : b₂.AddsFiles b₃ files') :
    b₁.AddsFiles b₃ (files ++ files') where
  clean := h.clean
  options := h'.options.trans h.options
  classes := by
    rw [h'.classes, h.classes, h.options, List.flatMap_append, List.append_assoc]
  nodup := fun hnodup => h'.nodup (h.nodup hnodup)
  emits := by
    intro file hmem
    rcases List.mem_append.mp hmem with hmem | hmem
    · exact h.emits file hmem
    · simpa only [h.options] using h'.emits file hmem
  startups := by
    intro file hmem
    rcases List.mem_append.mp hmem with hmem | hmem
    · exact h.startups file hmem
    · simpa only [h.options] using h'.startups file hmem

/-- The startup type is registered if there is one, unless an error is reported. -/
theorem addStartup_adds (b : Build) (tally : Tally) (s : Startup)
    (hclean : (b.addStartup tally s).1.hasErrors = false) :
    b.hasErrors = false ∧ (b.addStartup tally s).1.options = b.options ∧
      (b.addStartup tally s).1.classes.entries =
        b.classes.entries ++ s.finish.toList.map (fun c => (c.id, c)) ∧
      (b.classes.keys.Nodup → (b.addStartup tally s).1.classes.keys.Nodup) := by
  unfold addStartup at hclean ⊢
  cases hfinish : s.finish with
  | none =>
    rw [hfinish] at hclean
    exact ⟨hclean, rfl, by simp, id⟩
  | some type =>
    simp only [hfinish] at hclean ⊢
    cases hadd : b.addClass type with
    | error e => simp [hadd] at hclean
    | ok b' =>
      obtain ⟨hfree, hb'⟩ := addClass_ok hadd
      simp only [hadd, hb'] at hclean ⊢
      refine ⟨hclean, rfl, rfl, fun hnodup => ?_⟩
      exact Table.nodup_keys_append hnodup hfree type

theorem compileFile_adds (b : Build) (tally : Tally) (file : SourceFile)
    (hclean : (b.compileFile tally file).1.hasErrors = false) :
    b.AddsFiles (b.compileFile tally file).1 [file] := by
  unfold compileFile at hclean ⊢
  dsimp only at hclean ⊢
  obtain ⟨hclean₁, hoptions, hclasses, hnodup⟩ := addStartup_adds _ _ _ hclean
  have hwalk := Walk.typeDecls_adds {} _ file.types hclean₁
  have hstartup : file.startup? b.options.assemblyName = .ok _ := hwalk.startup
  refine ⟨hwalk.clean, hoptions.trans hwalk.options, ?_, fun h => hnodup (hwalk.nodup h), ?_, ?_⟩
  · rw [hclasses, hwalk.classes, List.append_assoc, List.flatMap_singleton,
      SourceFile.classEntries, hstartup]
    rfl
  · simpa [SourceFile.marked] using hwalk.emits
  · simpa using ⟨_, hstartup⟩

theorem compileFiles_adds (files : List SourceFile) (b : Build) (tally : Tally)
    (hclean : (files.foldl (fun (b, tally) file => b.compileFile tally file)
      (b, tally)).1.hasErrors = false) :
    b.AddsFiles (files.foldl (fun (b, tally) file => b.compileFile tally file) (b, tally)).1
      files := by
  induction files generalizing b tally with
  | nil => exact .refl hclean
  | cons file files ih =>
    have hrest := ih (b.compileFile tally file).1 (b.compileFile tally file).2 hclean
    exact (compileFile_adds b tally file hrest.clean).trans hrest

end Build

/-- What is known of a build without errors. -/
structure Assembly.Compiled (a : Assembly) (o : Options) (b : Build) : Prop where
  options : b.options = o
  classes : b.classes.entries = a.files.flatMap (SourceFile.classEntries o)
  nodup : b.classes.keys.Nodup
  emits : ∀ file ∈ a.files, ∀ hm ∈ file.marked, hm.1.isClass → hm.1.Emits o hm.2
  startups : ∀ file ∈ a.files, ∃ s, file.startup? o.assemblyName = .ok s

theorem Assembly.compile_of_clean {a : Assembly} {prior : Snapshot} {o : Options}
    (hclean : (a.build prior o).hasErrors = false) :
    a.compile prior o = .ok (a.build prior o) := by
  simp [compile, hclean]

theorem Assembly.build_of_compile {a : Assembly} {prior : Snapshot} {o : Options} {b : Build}
    (h : a.compile prior o = .ok b) : b = a.build prior o := by
  unfold compile at h
  dsimp only at h
  split at h
  · cases h
  · exact (Except.ok.inj h).symm

/-- A build without errors holds exactly the classes of the declared types and the startup types. -/
theorem Assembly.compiled_of_compile {a : Assembly} {prior : Snapshot} {o : Options} {b : Build}
    (h : a.compile prior o = .ok b) : a.Compiled o b := by
  unfold compile at h
  dsimp only at h
  split at h
  · cases h
  · next hclean =>
    obtain rfl := Except.ok.inj h
    have hresolve := (Build.sideSteps_resolve ((Build.new prior o).compileFiles a).1).beside
    have hfiles := Build.compileFiles_adds a.files (Build.new prior o) {}
      (hresolve.clean (Bool.eq_false_of_not_eq_true hclean))
    refine ⟨hresolve.options.trans hfiles.options, ?_, ?_, hfiles.emits, hfiles.startups⟩
    · rw [build, hresolve.classes]
      exact hfiles.classes
    · rw [build, hresolve.classes]
      exact hfiles.nodup List.nodup_nil

/-- A class of the build is that of a declared type or the startup type of a file. -/
theorem Assembly.Compiled.class_cases {a : Assembly} {o : Options} {b : Build}
    (hb : a.Compiled o b) {c : ClassRecord} (hc : c ∈ b.classes.values) :
    ∃ file ∈ a.files,
      (∃ h m, (h, m) ∈ file.marked ∧ h.isClass ∧ h.emittedClass o m = c) ∨
        ∃ s, file.startup? o.assemblyName = .ok s ∧ s.finish = some c := by
  obtain ⟨⟨id, c⟩, hentry, rfl⟩ := List.mem_map.mp hc
  rw [hb.classes] at hentry
  obtain ⟨file, hfile, hentry⟩ := List.mem_flatMap.mp hentry
  refine ⟨file, hfile, ?_⟩
  rcases List.mem_append.mp hentry with hentry | hentry
  · obtain ⟨⟨h, m⟩, hhead, hentry⟩ := List.mem_flatMap.mp hentry
    simp only [TypeHead.classEntry] at hentry
    split at hentry
    · next hclass =>
      obtain ⟨rfl, rfl⟩ := Prod.mk.inj (List.mem_singleton.mp hentry)
      exact .inl ⟨h, m, hhead, hclass, rfl⟩
    · cases hentry
  · split at hentry
    · next s hs =>
      obtain ⟨c', hc', heq⟩ := List.mem_map.mp hentry
      obtain ⟨rfl, rfl⟩ := Prod.mk.inj heq
      exact .inr ⟨s, hs, by simpa using hc'⟩
    · cases hentry

end Memberwise
