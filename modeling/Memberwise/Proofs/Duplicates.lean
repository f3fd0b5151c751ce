import Mathlib
import Memberwise.Proofs.WalkReports

/-!
# Duplicate declarations

A type whose identity is taken when the walk comes to it leaves one diagnostic behind.  Nothing of
the declaration, and nothing that is nested in it, has any other effect: without the declaration
the same build comes out, less that diagnostic.

The declaration may stand anywhere, so the assembly around it is a place that is filled with it or
with nothing.
-/

namespace Memberwise

/-! ## Places -/

/-- A place for types among others, at any depth. -/
inductive Place where
  /-- Between types of one list. -/
  | here (before after : List TypeDecl)
  /-- At a place among the types nested in one. -/
  | inside (before : List TypeDecl) (head : TypeHead) (place : Place) (after : List TypeDecl)

namespace Place

/-- The types with some more at the place. -/
def fill : Place → List TypeDecl → List TypeDecl
  | here before after, ts => before ++ (ts ++ after)
  | inside before head place after, ts => before ++ ⟨head, place.fill ts⟩ :: after

/-- The walk as it comes to the place, unless a type around the place is not registered. -/
def reach (enclosing : Marking) (w : Walk) : Place → Option Walk
  | here before _ => some (Walk.typeDecls enclosing w before)
  | inside before head place _ =>
    let m := enclosing.within head.attributes
    let (w, added) := (Walk.typeDecls enclosing w before).typeHead head m
    if added then place.reach m w else none

end Place

/-- A place for types in an assembly. -/
structure Site where
  assembly : String
  before : List SourceFile
  path : String
  place : Place
  after : List SourceFile

namespace Site

/-- The assembly with some types at the site. -/
def fill (site : Site) (ts : List TypeDecl) : Assembly where
  name := site.assembly
  files := site.before ++ ⟨site.path, site.place.fill ts⟩ :: site.after

/-- The walk over the file of the site before its first type. -/
def start (site : Site) (prior : Snapshot) (o : Options) : Walk :=
  let (b, tally) := site.before.foldl (fun (b, tally) file => b.compileFile tally file)
    (Build.new prior o, {})
  { build := { b with file := some site.path }
    startup := .new b.options.assemblyName site.path
    tally }

/-- The walk as it comes to the site, unless a type around it is not registered. -/
def reach (site : Site) (prior : Snapshot) (o : Options) : Option Walk :=
  site.place.reach {} (site.start prior o)

end Site

/-- The build that comes out after the file at hand and some more. -/
def Walk.complete (w : Walk) (files : List SourceFile) : Build :=
  { (files.foldl (fun (b, tally) file => b.compileFile tally file)
      (w.build.addStartup w.tally w.startup)).1 with file := none }

theorem Site.draft_fill (site : Site) (prior : Snapshot) (o : Options) (ts : List TypeDecl) :
    (site.fill ts).draft prior o =
      (Walk.typeDecls {} (site.start prior o) (site.place.fill ts)).complete site.after := by
  rw [Assembly.draft, Build.compileFiles, fill]
  dsimp only
  rw [List.foldl_append]
  rfl

/-! ## One more diagnostic -/

/-- A build that is another one but for one more diagnostic, after those of some report. -/
def Build.Notes (start : List Diagnostic) (d : Diagnostic) (b b' : Build) : Prop :=
  ∃ later, b.report.items = start ++ later ∧ b' = { b with report := ⟨start ++ d :: later⟩ }

namespace Build

variable {start : List Diagnostic} {d : Diagnostic} {b b' b₁ b₁' : Build}

theorem notes_error (b : Build) (e : CompileError) :
    Notes b.report.items (.ofError e b.file) b (b.error e) :=
  ⟨[], (List.append_nil _).symm, rfl⟩

theorem Notes.alike (h : Notes start d b b') : b.Alike b' := by
  obtain ⟨later, -, rfl⟩ := h
  rfl

theorem Notes.file (h : Notes start d b b') : b'.file = b.file := by
  obtain ⟨later, -, rfl⟩ := h
  rfl

theorem Notes.withFile (h : Notes start d b b') (path : Option String) :
    Notes start d { b with file := path } { b' with file := path } := by
  obtain ⟨later, hitems, rfl⟩ := h
  exact ⟨later, hitems, rfl⟩

theorem eq_of_alike (h : b.Alike b₁) (hfile : b₁.file = b.file) :
    b₁ = { b with report := b₁.report } := by
  calc
    b₁ = { b₁.quiet with report := b₁.report, file := b₁.file } := rfl
    _ = { b.quiet with report := b₁.report, file := b.file } := by rw [hfile, h]
    _ = { b with report := b₁.report } := rfl

/-- Builds that are alike stay so if the same is registered in both. -/
theorem Alike.of_enterAll {o : Options} {items : List Registrant} (h : b.Alike b')
    (hb : (b.enterAll o items).Alike b₁) (hb' : (b'.enterAll o items).Alike b₁') :
    b₁.Alike b₁' :=
  (hb.symm.trans (h.enterAll o items)).trans hb'

/-- A step that does the same to both builds and reports the same keeps them related. -/
theorem Notes.step {ds : List Diagnostic} (h : Notes start d b b') (halike : b₁.Alike b₁')
    (hreports : b.Reports b₁ ds) (hreports' : b'.Reports b₁' ds) : Notes start d b₁ b₁' := by
  obtain ⟨later, hitems, rfl⟩ := h
  have hfile : b₁'.file = b₁.file := hreports'.file.trans hreports.file.symm
  have hitems' : b₁'.report = ⟨start ++ d :: (later ++ ds)⟩ := by
    rw [← List.cons_append, ← List.append_assoc]
    exact congrArg Report.mk hreports'.items
  refine ⟨later ++ ds, ?_, ?_⟩
  · rw [hreports.items, hitems, List.append_assoc]
  · rw [← hitems']
    exact eq_of_alike halike hfile

end Build

/-- Walks whose builds differ by one diagnostic. -/
structure Walk.Notes (start : List Diagnostic) (d : Diagnostic) (w w' : Walk) : Prop where
  build : w.build.Notes start d w'.build
  startup : w'.startup = w.startup

namespace Walk

variable {start : List Diagnostic} {d : Diagnostic} {w w' : Walk}

theorem notes_error (w : Walk) (e : CompileError) :
    Notes w.build.report.items (.ofError e w.build.file) w (w.error e) :=
  ⟨w.build.notes_error e, rfl⟩

/-- A walk does not look at what was reported before. -/
theorem Notes.typeDecls (h : Notes start d w w') (enclosing : Marking) (ts : List TypeDecl) :
    Notes start d (typeDecls enclosing w ts) (typeDecls enclosing w' ts) := by
  have halike := h.build.alike
  have hregisters := typeDecls_registers enclosing w ts
  have hregisters' := typeDecls_registers enclosing w' ts
  have hreports := reports_typeDecls enclosing w ts
  have hreports' := reports_typeDecls enclosing w' ts
  rw [halike.declared, halike.options, h.build.file, h.startup] at hreports'
  rw [halike.declared] at hregisters'
  have hsame := hregisters'.build
  rw [halike.options] at hsame
  refine ⟨h.build.step (halike.of_enterAll hregisters.build hsame) hreports hreports', ?_⟩
  rw [hregisters'.startup, hregisters.startup, h.startup]

theorem typeDecl_of_taken {t : TypeDecl} (hold : w.build.declares t.head.id = true)
    (enclosing : Marking) :
    typeDecl enclosing w t = w.error (.duplicateType t.head.name t.head.span) := by
  obtain ⟨h, nested⟩ := t
  rw [typeDecl, typeHead_of_taken w h _ hold]
  rfl

theorem typeDecls_append (enclosing : Marking) (w : Walk) (ts ts' : List TypeDecl) :
    Walk.typeDecls enclosing w (ts ++ ts') =
      Walk.typeDecls enclosing (Walk.typeDecls enclosing w ts) ts' := by
  induction ts generalizing w with
  | nil => rfl
  | cons t ts ih => exact ih (Walk.typeDecl enclosing w t)

end Walk

namespace Build

variable {start : List Diagnostic} {d : Diagnostic} {b b' : Build}

theorem Notes.addStartup (h : Notes start d b b') (tally tally' : Tally) {s s' : Startup}
    (hs : s' = s) : Notes start d (b.addStartup tally s).1 (b'.addStartup tally' s').1 := by
  subst hs
  have halike := h.alike
  have hreports := b.reports_addStartup tally s'
  have hreports' := b'.reports_addStartup tally' s'
  have hsame := b'.alike_addStartup tally' s'
  rw [halike.declared, h.file] at hreports'
  rw [halike.declared, halike.options] at hsame
  exact h.step (halike.of_enterAll (b.alike_addStartup tally s') hsame) hreports hreports'

theorem Notes.compileFile (h : Notes start d b b') (tally tally' : Tally) (file : SourceFile) :
    Notes start d (b.compileFile tally file).1 (b'.compileFile tally' file).1 := by
  let w : Walk := ⟨{ b with file := some file.path }, .new b.options.assemblyName file.path, tally⟩
  let w' : Walk :=
    ⟨{ b' with file := some file.path }, .new b'.options.assemblyName file.path, tally'⟩
  have hstartup : w'.startup = w.startup := by
    change Startup.new b'.options.assemblyName _ = Startup.new b.options.assemblyName _
    rw [h.alike.options]
  have hstart : Walk.Notes start d w w' := ⟨h.withFile _, hstartup⟩
  have htypes := hstart.typeDecls {} file.types
  exact htypes.build.addStartup _ _ htypes.startup

theorem Notes.compileFiles_foldl (files : List SourceFile) (h : Notes start d b b')
    (tally tally' : Tally) :
    Notes start d (files.foldl (fun (b, tally) file => b.compileFile tally file) (b, tally)).1
      (files.foldl (fun (b, tally) file => b.compileFile tally file) (b', tally')).1 := by
  induction files generalizing b b' tally tally' with
  | nil => exact h
  | cons file files ih => exact ih (h.compileFile tally tally' file) _ _

end Build

theorem Walk.Notes.complete {start : List Diagnostic} {d : Diagnostic} {w w' : Walk}
    (h : Notes start d w w') (files : List SourceFile) :
    (w.complete files).Notes start d (w'.complete files) := by
  have hstartup := h.build.addStartup w.tally w'.tally h.startup
  exact (hstartup.compileFiles_foldl files _ _).withFile none

/-! ## The walk around a place -/

theorem Walk.file_typeDecls (enclosing : Marking) (w : Walk) (ts : List TypeDecl) :
    (Walk.typeDecls enclosing w ts).build.file = w.build.file :=
  (Walk.reports_typeDecls enclosing w ts).file

theorem Walk.file_of_typeHead {w w₁ : Walk} {h : TypeHead} {m : Marking}
    (hhead : w.typeHead h m = (w₁, true)) : w₁.build.file = w.build.file := by
  have hnew : w.build.declares h.id = false := by
    apply Bool.eq_false_of_not_eq_true
    intro hold
    rw [typeHead_of_taken w h m hold] at hhead
    exact absurd (congrArg Prod.snd hhead) Bool.false_ne_true
  have hreports := reports_typeHead w h m hnew
  rw [hhead] at hreports
  exact hreports.file

namespace Place

variable {enclosing : Marking} {w w₁ : Walk} {place : Place}

theorem reach_inside {before after : List TypeDecl} {head : TypeHead}
    (hreach : (inside before head place after).reach enclosing w = some w₁) :
    ∃ w₂, (Walk.typeDecls enclosing w before).typeHead head (enclosing.within head.attributes) =
        (w₂, true) ∧
      place.reach (enclosing.within head.attributes) w₂ = some w₁ := by
  rw [reach] at hreach
  generalize (Walk.typeDecls enclosing w before).typeHead head
    (enclosing.within head.attributes) = r at hreach ⊢
  obtain ⟨w₂, added⟩ := r
  cases added with
  | true => exact ⟨w₂, rfl, hreach⟩
  | false => exact absurd hreach (Option.some_ne_none w₁).symm

theorem typeDecls_here (before after ts : List TypeDecl) :
    Walk.typeDecls enclosing w ((here before after).fill ts) =
      Walk.typeDecls enclosing (Walk.typeDecls enclosing (Walk.typeDecls enclosing w before) ts)
        after := by
  rw [fill, Walk.typeDecls_append, Walk.typeDecls_append]

/-- What the walk makes of the types around a place, given what it makes of those inside. -/
theorem typeDecls_inside {before after : List TypeDecl} {head : TypeHead} {w₂ : Walk}
    (hhead : (Walk.typeDecls enclosing w before).typeHead head (enclosing.within head.attributes) =
      (w₂, true)) (ts : List TypeDecl) :
    Walk.typeDecls enclosing w ((inside before head place after).fill ts) =
      Walk.typeDecls enclosing
        (Walk.typeDecls (enclosing.within head.attributes) w₂ (place.fill ts)) after := by
  rw [fill, Walk.typeDecls_append, Walk.typeDecls, Walk.typeDecl, hhead]
  rfl

theorem notes_fill {t : TypeDecl} (hreach : place.reach enclosing w = some w₁)
    (hold : w₁.build.declares t.head.id = true) :
    Walk.Notes w₁.build.report.items (t.head.duplicate w.build.file)
      (Walk.typeDecls enclosing w (place.fill []))
      (Walk.typeDecls enclosing w (place.fill [t])) := by
  induction place generalizing enclosing w with
  | here before after =>
    obtain rfl : Walk.typeDecls enclosing w before = w₁ := Option.some.inj hreach
    have hskipped : Walk.typeDecls enclosing (Walk.typeDecls enclosing w before) [t] =
        (Walk.typeDecls enclosing w before).error (.duplicateType t.head.name t.head.span) :=
      Walk.typeDecl_of_taken hold enclosing
    rw [typeDecls_here, typeDecls_here, hskipped, ← Walk.file_typeDecls enclosing w before]
    exact (Walk.notes_error _ _).typeDecls enclosing after
  | inside before head place after ih =>
    obtain ⟨w₂, hhead, hinner⟩ := reach_inside hreach
    have hfile : w₂.build.file = w.build.file :=
      (Walk.file_of_typeHead hhead).trans (Walk.file_typeDecls enclosing w before)
    rw [typeDecls_inside hhead, typeDecls_inside hhead, ← hfile]
    exact (ih hinner).typeDecls enclosing after

end Place

/--
A type whose identity is taken when the walk comes to it adds exactly one diagnostic, after those
that were reported before.  Everything else in the build is as if the type and all that is nested
in it were not there.
-/
theorem duplicate_type_adds_one_diagnostic (site : Site) (t : TypeDecl) (prior : Snapshot)
    (o : Options) {w : Walk} (hreach : site.reach prior o = some w)
    (hold : w.build.declares t.head.id = true) :
    ∃ later, ((site.fill []).draft prior o).report.items = w.build.report.items ++ later ∧
      (site.fill [t]).draft prior o =
        { (site.fill []).draft prior o with
          report := ⟨w.build.report.items ++
            .ofError (.duplicateType t.head.name t.head.span) (some site.path) :: later⟩ } := by
  have htypes := Place.notes_fill hreach hold
  rw [site.draft_fill, site.draft_fill]
  exact htypes.complete site.after

/-- A place among the types nested in a yard, with a file before and after. -/
def yardSite : Site where
  assembly := "Yard"
  before := [{ path := "gate", types := [⟨{ name := "Gate", form := .ordinary }, []⟩] }]
  path := "yard"
  place := .inside [] { name := "Yard", form := .module, attributes := [.javaScript true] }
    (.here [] [⟨{ name := "Yard.Lamp", form := .ordinary }, []⟩]) []
  after := [{ path := "shed", types := [⟨{ name := "Shed", form := .ordinary }, []⟩] }]

/-- A type that repeats the one around it, with an entry point, a value and a nested type. -/
def yardCopy : TypeDecl where
  head := {
    name := "Yard", form := .module
    members := [{ MemberDecl.method "Main" [] Ty.void with
      modifiers := { isStatic := true }, attributes := [.remote none, .entryPoint] }]
    bindings := [{ name := "size", type := Ty.int32, value := .literal (.int 2) }]
    span := .point 3 1 }
  nested := [⟨{ name := "Shed", form := .ordinary }, []⟩]

theorem yardCopy_adds_one_diagnostic :
    (yardSite.reach {} {}).any (fun w => w.build.declares yardCopy.head.id) = true ∧
      (yardSite.fill [yardCopy]).draft {} {} =
        { (yardSite.fill []).draft {} {} with
          report := ⟨[.ofError (.duplicateType "Yard" (.point 3 1)) (some "yard")]⟩ } := by
  have hany : (yardSite.reach {} {}).any (fun w => w.build.declares yardCopy.head.id) = true := by
    decide +kernel
  have hquiet : ((yardSite.fill []).draft {} {}).report.items = [] := by decide +kernel
  obtain ⟨w, hreach, hold⟩ := (Option.any_eq_true _ _).mp hany
  obtain ⟨later, hitems, hdraft⟩ :=
    duplicate_type_adds_one_diagnostic yardSite yardCopy {} {} hreach hold
  obtain ⟨hbefore, hlater⟩ := List.append_eq_nil_iff.mp (hitems.symm.trans hquiet)
  rw [hbefore, hlater] at hdraft
  exact ⟨hany, hdraft⟩

end Memberwise
