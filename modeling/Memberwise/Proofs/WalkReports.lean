import Mathlib
import Memberwise.Proofs.Registrants

/-!
# What a walk reports

A walk never looks at what it has reported.  What it reports for a type that it registers can be
read off the declaration, its marking and the top-level values that came before; for a type whose
identity is taken it reports one error and nothing else.  The report of a build consists of these
parts in the order of the walk.
-/

namespace Memberwise

/-! ## What is reported for one type -/

/-- The error of a step that failed. -/
def errorsOf {α : Type} : Except CompileError α → List CompileError
  | .error e => [e]
  | .ok _ => []

namespace MemberDecl

/-- What is reported for a member that asks to be the entry point and cannot be. -/
def entryErrors (d : MemberDecl) (m : Marking) : List CompileError :=
  if m.isEntryPoint && !(d.form = .method && d.isStatic) then
    [.illegalTreatment "EntryPoint" d.name "entry point must be a static method" d.span]
  else []

/-- What is reported when a member is added to a class. -/
def additionErrors (c : ClassRecord) (d : MemberDecl) (m : Marking) (member : Member) :
    List CompileError :=
  match c.add member d.span with
  | .error e => [e]
  | .ok _ => d.entryErrors m

/-- What is reported for a member: why it cannot be emitted, and why what it becomes cannot be
added to its class. -/
def complaints (o : Options) (owner : Owner) (c : ClassRecord) (d : MemberDecl) (m : Marking) :
    List CompileError :=
  errorsOf (d.emit o owner m) ++ (d.outcome o owner m).toList.flatMap (d.additionErrors c m)

/-- What is reported for members of a type, each added to its class after those before it. -/
def complaintsAll (o : Options) (owner : Owner) (type : Marking) (ds : List MemberDecl) :
    ClassRecord → List MemberDecl → List CompileError
  | _, [] => []
  | c, d :: l =>
    let m := memberMarking type ds d
    d.complaints o owner c m ++
      complaintsAll o owner type ds (c.addFree (d.outcome o owner m).toList) l

end MemberDecl

namespace Startup

/-- What is reported for top-level values, each added after those before it. -/
def complaints : Startup → List (Binding × Marking) → List CompileError
  | _, [] => []
  | s, entry :: rest => errorsOf (s.add entry.1 entry.2).2 ++ (s.take entry).complaints rest

/-- The startup type once it has got the values of some types. -/
def takeAll (s : Startup) (heads : List (TypeHead × Marking)) : Startup :=
  (heads.flatMap fun (h, m) => h.markedBindings m).foldl take s

/-- What is reported for a startup type when some identities are taken. -/
def refusal (taken : Finset Identity) (s : Startup) : List CompileError :=
  match s.finish with
  | some c => if c.id ∈ taken then [.duplicateType c.name c.span] else []
  | none => []

end Startup

namespace TypeHead

/-- The warning for a type that was recovered from compiled code. -/
def reflectedWarnings (h : TypeHead) : List CompileWarning :=
  if h.isReflected then [.reflectedDefinition h.name h.span] else []

/-- The warning for a proxy that is visible everywhere. -/
def proxyWarnings (h : TypeHead) (m : Marking) : List CompileWarning :=
  if m.proxyOf.isSome && h.visibility = .exported then [.publicProxy h.name h.span] else []

/-- The errors in the contents of a class. -/
def errors (h : TypeHead) (o : Options) (m : Marking) (s : Startup) : List CompileError :=
  MemberDecl.complaintsAll o (h.owner m) m h.members (h.newClass m) h.members ++
    s.complaints (h.markedBindings m)

/-- What is reported for the contents of a type; only those of classes are looked at. -/
def contentDiagnostics (h : TypeHead) (o : Options) (m : Marking) (s : Startup)
    (file : Option String) : List Diagnostic :=
  if h.isClass then
    (h.proxyWarnings m).map (.ofWarning · file) ++ (h.errors o m s).map (.ofError · file)
  else []

/-- What is reported for a type that is registered. -/
def diagnostics (h : TypeHead) (o : Options) (m : Marking) (s : Startup) (file : Option String) :
    List Diagnostic :=
  h.reflectedWarnings.map (.ofWarning · file) ++ h.contentDiagnostics o m s file

/-- What is reported for a type whose identity is taken. -/
def duplicate (h : TypeHead) (file : Option String) : Diagnostic :=
  .ofError (.duplicateType h.name h.span) file

end TypeHead

/-! ## What is reported for an assembly -/

mutual

/-- What is reported for a type and the types nested in it. -/
def TypeDecl.diagnostics (o : Options) (file : Option String) (taken : Finset Identity)
    (enclosing : Marking) (s : Startup) : TypeDecl → List Diagnostic
  | ⟨h, nested⟩ =>
    let m := enclosing.within h.attributes
    if h.id ∈ taken then [h.duplicate file]
    else
      h.diagnostics o m s file ++
        TypeDecl.diagnosticsAll o file (insert h.id taken) m (s.takeAll [(h, m)]) nested
termination_by structural t => t

/-- What is reported for some types and the types nested in them. -/
def TypeDecl.diagnosticsAll (o : Options) (file : Option String) (taken : Finset Identity)
    (enclosing : Marking) (s : Startup) : List TypeDecl → List Diagnostic
  | [] => []
  | t :: ts =>
    let first := t.registered taken enclosing
    t.diagnostics o file taken enclosing s ++
      TypeDecl.diagnosticsAll o file (taken ∪ (first.map (·.1.id)).toFinset) enclosing
        (s.takeAll first) ts
termination_by structural ts => ts

end

namespace SourceFile

/-- What is reported for a file. -/
def diagnostics (o : Options) (taken : Finset Identity) (file : SourceFile) : List Diagnostic :=
  let heads := TypeDecl.registeredAll taken {} file.types
  TypeDecl.diagnosticsAll o (some file.path) taken {} (.new o.assemblyName file.path) file.types ++
    ((file.startupOf o.assemblyName heads).refusal (taken ∪ (heads.map (·.1.id)).toFinset)).map
      (.ofError · (some file.path))

/-- What is reported for some files in order. -/
def diagnosticsAll (o : Options) (taken : Finset Identity) : List SourceFile → List Diagnostic
  | [] => []
  | file :: files =>
    file.diagnostics o taken ++
      diagnosticsAll o (taken ∪ ((file.registrants o taken).map Registrant.id).toFinset) files

end SourceFile

namespace Assembly

/-- What is reported for an assembly. -/
def diagnostics (o : Options) (a : Assembly) : List Diagnostic :=
  SourceFile.diagnosticsAll o ∅ a.files

end Assembly

/-! ## Steps that report -/

/-- A build whose report grew by some diagnostics while the file stayed the same. -/
structure Build.Reports (b b₁ : Build) (ds : List Diagnostic) : Prop where
  items : b₁.report.items = b.report.items ++ ds
  file : b₁.file = b.file

namespace Build

variable {b b₁ b₂ : Build}

theorem Reports.refl (b : Build) : b.Reports b [] := ⟨(List.append_nil _).symm, rfl⟩

theorem Reports.trans {ds ds' : List Diagnostic} (h : b.Reports b₁ ds) (h' : b₁.Reports b₂ ds') :
    b.Reports b₂ (ds ++ ds') :=
  ⟨by rw [h'.items, h.items, List.append_assoc], h'.file.trans h.file⟩

/-- Errors that follow other errors. -/
theorem Reports.errors {es es' : List CompileError}
    (h : b.Reports b₁ (es.map (.ofError · b.file)))
    (h' : b₁.Reports b₂ (es'.map (.ofError · b₁.file))) :
    b.Reports b₂ ((es ++ es').map (.ofError · b.file)) := by
  rw [h.file] at h'
  rw [List.map_append]
  exact h.trans h'

/-- A step that reports nothing. -/
theorem Reports.silent {ds : List Diagnostic} (h : b.Reports b₁ ds)
    (hreport : b₂.report = b₁.report) (hfile : b₂.file = b₁.file) : b.Reports b₂ ds :=
  ⟨by rw [hreport, h.items], hfile.trans h.file⟩

theorem Reports.mapGraph {ds : List Diagnostic} (h : b.Reports b₁ ds) (f : Graph → Graph) :
    b.Reports (b₁.mapGraph f) ds :=
  h.silent rfl rfl

theorem reports_error (b : Build) (e : CompileError) :
    b.Reports (b.error e) ([e].map (.ofError · b.file)) := ⟨rfl, rfl⟩

theorem reports_warning (b : Build) (w : CompileWarning) :
    b.Reports (b.warning w) ([w].map (.ofWarning · b.file)) := ⟨rfl, rfl⟩

variable (b) (owner : Identity) (d : MemberDecl) (m : Marking)

theorem reports_registerEntryPoint :
    b.Reports (if m.isEntryPoint then b.registerEntryPoint owner d else b)
      ((d.entryErrors m).map (.ofError · b.file)) := by
  rw [registerEntryPoint, MemberDecl.entryErrors]
  by_cases hentry : m.isEntryPoint = true
  · by_cases hstatic : (d.form = .method && d.isStatic) = true
    · rw [if_pos hentry, if_pos hstatic, if_neg (by simp [hstatic])]
      refine Reports.mapGraph ?_ _
      exact (Reports.refl b).silent rfl rfl
    · rw [if_pos hentry, if_neg hstatic, if_pos (by simp [hentry, hstatic])]
      exact b.reports_error _
  · rw [if_neg hentry, if_neg (by simp [hentry])]
    exact .refl b

theorem reports_register (member : Member) :
    b.Reports (b.register owner d m member) ((d.entryErrors m).map (.ofError · b.file)) := by
  have hremote : b.Reports (b.registerRemote owner d member) [] := by
    rw [registerRemote]
    split
    · exact (Reports.refl b).silent rfl rfl
    · exact .refl b
  have hrequired (b : Build) : b.Reports (b.registerRequired owner d m) [] := by
    rw [registerRequired]
    split_ifs
    · exact .refl b
    · exact (Reports.refl b).mapGraph _
  have htables := hremote.trans (hrequired _)
  have hentry := reports_registerEntryPoint
    ((b.registerRemote owner d member).registerRequired owner d m) owner d m
  rw [htables.file] at hentry
  exact htables.trans hentry

end Build

/-! ## Members and values -/

namespace Walk

variable (w : Walk) (owner : Owner) (type : Marking) (ds : List MemberDecl) (c : ClassRecord)

theorem reports_addMember (d : MemberDecl) (m : Marking) (member : Member) :
    w.build.Reports (w.addMember c d m member).1.build
      ((d.additionErrors c m member).map (.ofError · w.build.file)) := by
  rw [addMember, MemberDecl.additionErrors]
  cases c.add member d.span with
  | error e => exact w.build.reports_error e
  | ok next => exact w.build.reports_register c.id d m member

theorem reports_member (d : MemberDecl) :
    w.build.Reports (w.member owner type ds c d).1.build
      ((d.complaints w.build.options owner c (memberMarking type ds d)).map
        (.ofError · w.build.file)) := by
  rw [member, MemberDecl.complaints, MemberDecl.outcome]
  dsimp only
  cases hemit : d.emit w.build.options owner (memberMarking type ds d) with
  | error e =>
    have hadd := reports_addMember (w.fail e) c d (memberMarking type ds d) (d.placeholder e)
    simpa [errorsOf] using (w.build.reports_error e).errors hadd
  | ok outcome =>
    cases outcome with
    | none => exact .refl _
    | some member =>
      let counted : Walk := { w with tally := { w.tally with members := w.tally.members + 1 } }
      simpa [errorsOf] using reports_addMember counted c d (memberMarking type ds d) member

theorem member_options (d : MemberDecl) :
    (w.member owner type ds c d).1.build.options = w.build.options :=
  (alike_member w owner type ds c d).options.trans (Build.registerAll_options ..)

theorem reports_members_foldl (l : List MemberDecl) :
    w.build.Reports (l.foldl (fun (w, c) d => w.member owner type ds c d) (w, c)).1.build
      ((MemberDecl.complaintsAll w.build.options owner type ds c l).map
        (.ofError · w.build.file)) := by
  induction l generalizing w c with
  | nil => exact .refl _
  | cons d l ih =>
    have hfirst := reports_member w owner type ds c d
    have hrest := ih (w.member owner type ds c d).1 (w.member owner type ds c d).2
    rw [member_options] at hrest
    rw [MemberDecl.complaintsAll, ← member_class]
    exact hfirst.errors hrest

theorem reports_bindings (bs : List Binding) :
    w.build.Reports (bs.foldl (binding type) w).build
      ((w.startup.complaints (bs.map fun b => (b, type.within b.attributes))).map
        (.ofError · w.build.file)) := by
  induction bs generalizing w with
  | nil => exact .refl _
  | cons b bs ih =>
    have hfirst : w.build.Reports (binding type w b).build
        ((errorsOf (w.startup.add b (type.within b.attributes)).2).map
          (.ofError · w.build.file)) := by
      rw [binding]
      generalize w.startup.add b (type.within b.attributes) = added
      obtain ⟨startup, _ | _⟩ := added
      · exact w.build.reports_error _
      · exact .refl _
    have hstartup : (binding type w b).startup = w.startup.take (b, type.within b.attributes) :=
      startup_bindings w type [b]
    have hrest := ih (binding type w b)
    rw [hstartup] at hrest
    exact hfirst.errors hrest

/-! ## Types -/

omit owner type ds c

variable (h : TypeHead) (m : Marking)

theorem reports_proxy :
    w.build.Reports (w.proxy h m).build
      ((h.proxyWarnings m).map (.ofWarning · w.build.file)) := by
  rw [proxy, TypeHead.proxyWarnings]
  cases m.proxyOf with
  | none => exact .refl _
  | some target =>
    have hadd : w.build.Reports (w.build.addProxy h.id target.identity) [] :=
      (Build.Reports.refl w.build).silent rfl rfl
    by_cases hexported : h.visibility = .exported
    · simp only [hexported, Option.isSome_some, Bool.and_self, decide_true, if_true]
      exact hadd.trans (Build.reports_warning _ (.publicProxy h.name h.span))
    · simp only [hexported, decide_false, Bool.and_false]
      exact hadd

theorem reports_contents (hclass : h.isClass = true) :
    w.build.Reports (w.contents h m).1.build
      (h.contentDiagnostics w.build.options m w.startup w.build.file) := by
  have hproxy := reports_proxy w h m
  have hoptions : (w.proxy h m).build.options = w.build.options :=
    (sideSteps_proxy w h m).beside.options
  have hmembers := reports_members_foldl (w.proxy h m) (h.owner m) m h.members (h.newClass m)
    h.members
  have hbindings := reports_bindings
    ((w.proxy h m).members (h.owner m) m h.members (h.newClass m)).1 m h.bindings
  have hstartup := (members_spec (w.proxy h m) (h.newClass m) (h.owner m) m h.members rfl).startup
  rw [hstartup, proxy_startup] at hbindings
  rw [hoptions] at hmembers
  have herrors := hmembers.errors hbindings
  rw [hproxy.file] at herrors
  rw [TypeHead.contentDiagnostics, if_pos hclass, TypeHead.errors, TypeHead.markedBindings,
    if_pos hclass]
  exact hproxy.trans herrors

/-- A class at a free identity reports what its contents report. -/
theorem reports_classType (hclass : h.isClass = true) (hnew : w.build.declares h.id = false) :
    w.build.Reports (w.classType h m).1.build
      (h.contentDiagnostics w.build.options m w.startup w.build.file) := by
  have hreports := reports_contents w h m hclass
  have hcontents := contents_spec w h m
  have hsame := sameTypes_contents w h m
  rw [classType]
  generalize w.contents h m = r at hreports hcontents hsame ⊢
  obtain ⟨w₁, c⟩ := r
  dsimp only at hreports hcontents hsame ⊢
  have hid : (h.augment w₁.build.options m c).id = h.id := by
    rw [hcontents.result, hcontents.beside.options]
    exact h.emittedClass_id w.build.options m
  have hfree : w₁.build.declares (h.augment w₁.build.options m c).id = false := by
    rw [hid, hsame.declares, hnew]
  rw [Build.addClass_of_free hfree]
  exact hreports.silent rfl rfl

theorem reports_classOrInterface (hresource : h.isResource = false)
    (hnew : w.build.declares h.id = false) :
    w.build.Reports (w.classOrInterface h m).1.build
      (h.contentDiagnostics w.build.options m w.startup w.build.file) := by
  rw [classOrInterface]
  split
  · next hform =>
    have hclass : h.isClass = false := by simp [TypeHead.isClass, hform]
    rw [interfaceType, Build.addInterface_of_free hnew, TypeHead.contentDiagnostics, hclass]
    exact (Build.Reports.refl w.build).silent rfl rfl
  · next hform =>
    have hclass : h.isClass = true := by
      rw [TypeHead.isClass, hresource]
      split
      · next hinterface => exact absurd hinterface hform
      · rfl
    exact reports_classType w h m hclass hnew

theorem reports_plainType (hresource : h.isResource = false)
    (hnew : w.build.declares h.id = false) :
    w.build.Reports (w.plainType h m).1.build
      (h.contentDiagnostics w.build.options m w.startup w.build.file) := by
  have hreports := reports_classOrInterface w h m hresource hnew
  rw [plainType]
  generalize w.classOrInterface h m = r at hreports ⊢
  obtain ⟨w₁, added⟩ := r
  dsimp only at hreports ⊢
  split_ifs
  · exact hreports.silent rfl rfl
  · exact hreports

theorem reports_resourceType (hresource : h.isResource = true)
    (hnew : w.build.declares h.id = false) :
    w.build.Reports (w.resourceType h m).1.build
      (h.contentDiagnostics w.build.options m w.startup w.build.file) := by
  have hclass : h.isClass = false := by simp [TypeHead.isClass, hresource]
  rw [resourceType, Build.addResource_of_free hnew, TypeHead.contentDiagnostics, hclass]
  exact (Build.Reports.refl w.build).silent rfl rfl

theorem reports_reflected :
    w.build.Reports (w.reflected h).build
      (h.reflectedWarnings.map (.ofWarning · w.build.file)) := by
  rw [reflected, TypeHead.reflectedWarnings]
  split_ifs
  · exact w.build.reports_warning _
  · exact .refl _

/-- What a type at a free identity reports. -/
theorem reports_typeHead (hnew : w.build.declares h.id = false) :
    w.build.Reports (w.typeHead h m).1.build
      (h.diagnostics w.build.options m w.startup w.build.file) := by
  have hreflected := reports_reflected w h
  have halike := alike_reflected w h
  have hnew' : (w.reflected h).build.declares h.id = false := (halike.declares h.id).trans hnew
  have hcontents (w' : Walk) (hreports : (w.reflected h).build.Reports w'.build
      (h.contentDiagnostics (w.reflected h).build.options m (w.reflected h).startup
        (w.reflected h).build.file)) :
      w.build.Reports w'.build (h.diagnostics w.build.options m w.startup w.build.file) := by
    rw [halike.options, reflected_startup, hreflected.file] at hreports
    exact hreflected.trans hreports
  rw [typeHead, if_neg (by simp [hnew])]
  by_cases hresource : h.isResource = true
  · rw [if_pos hresource]
    exact hcontents _ (reports_resourceType _ h m hresource hnew')
  · rw [if_neg hresource]
    exact hcontents _ (reports_plainType _ h m (Bool.eq_false_of_not_eq_true hresource) hnew')

theorem typeHead_of_taken (hold : w.build.declares h.id = true) :
    w.typeHead h m = (w.error (.duplicateType h.name h.span), false) := by
  rw [typeHead, if_pos hold]

mutual

theorem reports_typeDecl (enclosing : Marking) (w : Walk) (t : TypeDecl) :
    w.build.Reports (typeDecl enclosing w t).build
      (t.diagnostics w.build.options w.build.file w.build.declared.toFinset enclosing
        w.startup) := by
  obtain ⟨h, nested⟩ := t
  have hdeclares := Build.declares_iff w.build h.id
  rw [typeDecl, TypeDecl.diagnostics]
  dsimp only
  by_cases hold : w.build.declares h.id = true
  · rw [if_pos (List.mem_toFinset.mpr (hdeclares.mp hold)), typeHead_of_taken w h _ hold]
    exact w.build.reports_error _
  · have hnew := Bool.eq_false_of_not_eq_true hold
    obtain ⟨hadded, hhead⟩ := typeHead_enters w h (enclosing.within h.attributes) hnew
    have hreports := reports_typeHead w h (enclosing.within h.attributes) hnew
    rw [if_neg fun hmem => hold (hdeclares.mpr (List.mem_toFinset.mp hmem))]
    generalize w.typeHead h (enclosing.within h.attributes) = r at hadded hhead hreports ⊢
    obtain ⟨w₁, added⟩ := r
    obtain rfl : added = true := hadded
    have hnested := reports_typeDecls (enclosing.within h.attributes) w₁ nested
    have htaken : w₁.build.declared.toFinset = insert h.id w.build.declared.toFinset := by
      rw [hhead.taken, Finset.union_comm]
      rfl
    have hoptions := hhead.build.options.trans (Build.enterAll_options ..)
    rw [htaken, hoptions, hreports.file, hhead.startup] at hnested
    exact hreports.trans hnested
termination_by structural t

theorem reports_typeDecls (enclosing : Marking) (w : Walk) (ts : List TypeDecl) :
    w.build.Reports (typeDecls enclosing w ts).build
      (TypeDecl.diagnosticsAll w.build.options w.build.file w.build.declared.toFinset enclosing
        w.startup ts) := by
  cases ts with
  | nil => exact .refl _
  | cons t ts =>
    have hfirst := reports_typeDecl enclosing w t
    have hregisters := typeDecl_registers enclosing w t
    have hrest := reports_typeDecls enclosing (typeDecl enclosing w t) ts
    have hoptions := hregisters.build.options.trans (Build.enterAll_options ..)
    rw [hregisters.taken, hoptions, hfirst.file, hregisters.startup] at hrest
    exact hfirst.trans hrest
termination_by structural ts

end

end Walk

/-! ## Files -/

namespace Build

theorem reports_addStartup (b : Build) (tally : Tally) (s : Startup) :
    b.Reports (b.addStartup tally s).1
      ((s.refusal b.declared.toFinset).map (.ofError · b.file)) := by
  rw [addStartup, Startup.refusal]
  cases s.finish with
  | none => exact .refl b
  | some c =>
    dsimp only
    have hdeclares := declares_iff b c.id
    by_cases hold : b.declares c.id = true
    · rw [if_pos (List.mem_toFinset.mpr (hdeclares.mp hold)), addClass_of_taken hold]
      exact b.reports_error _
    · rw [if_neg fun hmem => hold (hdeclares.mpr (List.mem_toFinset.mp hmem)),
        addClass_of_free (Bool.eq_false_of_not_eq_true hold)]
      exact (Reports.refl b).silent rfl rfl

theorem report_compileFile (b : Build) (tally : Tally) (file : SourceFile) :
    (b.compileFile tally file).1.report.items =
      b.report.items ++ file.diagnostics b.options b.declared.toFinset := by
  let w : Walk := ⟨{ b with file := some file.path }, .new b.options.assemblyName file.path, tally⟩
  have hwalk := Walk.typeDecls_registers {} w file.types
  have htypes := Walk.reports_typeDecls {} w file.types
  have hstartup := reports_addStartup (Walk.typeDecls {} w file.types).build
    (Walk.typeDecls {} w file.types).tally (Walk.typeDecls {} w file.types).startup
  have hrefusal : (Walk.typeDecls {} w file.types).startup.refusal
      (Walk.typeDecls {} w file.types).build.declared.toFinset =
        (file.startupOf b.options.assemblyName
          (TypeDecl.registeredAll b.declared.toFinset {} file.types)).refusal
            (b.declared.toFinset ∪ ((TypeDecl.registeredAll b.declared.toFinset {} file.types).map
              (·.1.id)).toFinset) := by
    rw [hwalk.startup, hwalk.taken]
    rfl
  rw [hrefusal, htypes.file] at hstartup
  exact (htypes.trans hstartup).items

theorem report_compileFiles_foldl (files : List SourceFile) (b : Build) (tally : Tally) :
    (files.foldl (fun (b, tally) file => b.compileFile tally file) (b, tally)).1.report.items =
      b.report.items ++ SourceFile.diagnosticsAll b.options b.declared.toFinset files := by
  induction files generalizing b tally with
  | nil => exact (List.append_nil _).symm
  | cons file files ih =>
    have hfile := alike_compileFile b tally file
    have hoptions := hfile.options.trans (enterAll_options ..)
    have htaken := congrArg List.toFinset hfile.declared
    rw [taken_enterAll] at htaken
    have hrest := ih (b.compileFile tally file).1 (b.compileFile tally file).2
    rw [hoptions, htaken, report_compileFile, List.append_assoc] at hrest
    exact hrest

end Build

theorem Report.hasErrors_of_mem {r : Report} {d : Diagnostic} (hd : d ∈ r.items)
    (herror : d.isError = true) : r.hasErrors = true := by
  rw [hasErrors, decide_eq_true_eq, errorCount, List.length_pos_iff_exists_mem]
  exact ⟨d, List.mem_filter.mpr ⟨hd, herror⟩⟩

/-- The report of a build, as it can be read off the assembly. -/
theorem Assembly.report_draft (a : Assembly) (prior : Snapshot) (o : Options) :
    (a.draft prior o).report.items = a.diagnostics o :=
  Build.report_compileFiles_foldl a.files (Build.new prior o) {}

end Memberwise
