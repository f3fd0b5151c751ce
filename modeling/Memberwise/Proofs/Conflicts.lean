import Mathlib
import Memberwise.Proofs.OutputNames
import Memberwise.Proofs.WalkReports

/-!
# Conflicting attributes

Attributes conflict if two of them ask for treatments that are not the same.  Whatever else is
wrong with a member or a top-level value of a class that is registered, its conflict is reported,
once and where it stands, so that the build fails.  A conflict among the attributes of a type
itself is not reported: a type is never emitted by a treatment, and what its treatment passes on
to the members is then nothing.
-/

namespace Memberwise

/-! ## Sameness of treatments -/

theorem Literal.same_of_common {a b c : Literal} (hb : a.same b = true) (hc : a.same c = true) :
    b.same c = true := by
  cases a <;> cases b <;> simp only [same, Bool.false_eq_true] at hb <;>
    cases c <;> simp_all [same, Number.same]

namespace Treatment

theorem same_refl (t : Treatment) : t.same t = true := by
  have hparameter (p : Option Literal) : sameParameter p p = true := by
    cases p <;> simp [sameParameter, Literal.same_refl]
  cases t <;> simp [same, Literal.same_refl, hparameter]

theorem sameParameter_of_common {p q r : Option Literal} (hq : sameParameter p q = true)
    (hr : sameParameter p r = true) : sameParameter q r = true := by
  cases p <;> cases q <;> simp only [sameParameter, Bool.false_eq_true] at hq <;>
    cases r <;> simp_all [sameParameter]
  exact Literal.same_of_common hq hr

theorem same_of_common {t u v : Treatment} (hu : t.same u = true) (hv : t.same v = true) :
    u.same v = true := by
  cases t <;> cases u <;> simp only [same, Bool.false_eq_true] at hu <;>
    cases v <;> simp only [same, Bool.false_eq_true] at hv ⊢
  all_goals grind [Literal.same_of_common, sameParameter_of_common]

def isConflict : Treatment → Bool
  | conflict .. => true
  | _ => false

theorem isConflict_ofAttribute? {a : Attribute} {t : Treatment} (h : ofAttribute? a = some t) :
    t.isConflict = false := by
  rw [ofAttribute?.eq_def] at h
  split at h <;> simp only [Option.some.injEq, reduceCtorEq] at h <;> subst h <;> rfl

theorem isConflict_memberDefault {t u : Treatment} (h : t.memberDefault = some u) :
    u.isConflict = false := by
  rw [memberDefault.eq_def] at h
  split at h <;> simp only [Option.some.injEq, reduceCtorEq] at h <;> subst h <;> rfl

theorem isConflict_of_passesToSetter {t : Treatment} (h : t.passesToSetter = true) :
    t.isConflict = false := by
  cases t <;> simp_all [passesToSetter, isConflict]

/-- Requests settle to a conflict exactly if two of them differ. -/
theorem isConflict_settle?_iff {ts : List Treatment} (hts : ∀ t ∈ ts, t.isConflict = false) :
    (settle? ts).any isConflict = true ↔ ∃ t ∈ ts, ∃ u ∈ ts, t.same u = false := by
  cases ts with
  | nil => simp [settle?]
  | cons first rest =>
    rw [settle?]
    cases hfind : rest.find? fun other => !first.same other with
    | some second =>
      have hdiffers : first.same second = false := by simpa using List.find?_some hfind
      have hsecond : second ∈ first :: rest :=
        List.mem_cons_of_mem _ (List.mem_of_find?_eq_some hfind)
      simp only [Option.any_some, isConflict, true_iff]
      exact ⟨first, List.mem_cons_self, second, hsecond, hdiffers⟩
    | none =>
      have hrest : ∀ t ∈ rest, first.same t = true := by simpa using List.find?_eq_none.mp hfind
      have hall : ∀ t ∈ first :: rest, first.same t = true :=
        List.forall_mem_cons.mpr ⟨first.same_refl, hrest⟩
      simp only [Option.any_some, hts first List.mem_cons_self, Bool.false_eq_true, false_iff]
      rintro ⟨t, ht, u, hu, hdiffers⟩
      rw [same_of_common (hall t ht) (hall u hu)] at hdiffers
      exact absurd hdiffers (by decide)

end Treatment

/-! ## Markings in conflict -/

/-- Two of some attributes ask for treatments that are not the same. -/
def Attribute.Conflicting (attributes : List Attribute) : Prop :=
  ∃ t ∈ attributes.filterMap Treatment.ofAttribute?,
    ∃ u ∈ attributes.filterMap Treatment.ofAttribute?, t.same u = false

instance (attributes : List Attribute) : Decidable (Attribute.Conflicting attributes) :=
  inferInstanceAs (Decidable (∃ t ∈ attributes.filterMap Treatment.ofAttribute?,
    ∃ u ∈ attributes.filterMap Treatment.ofAttribute?, t.same u = false))

namespace Marking

def isConflict (m : Marking) : Bool := m.treatment.any Treatment.isConflict

theorem isConflict_ofAttributes_iff (attributes : List Attribute) :
    (ofAttributes attributes).isConflict = true ↔ Attribute.Conflicting attributes := by
  have hasked : ∀ t ∈ attributes.filterMap Treatment.ofAttribute?, t.isConflict = false := by
    intro t ht
    obtain ⟨a, -, ha⟩ := List.mem_filterMap.mp ht
    exact Treatment.isConflict_ofAttribute? ha
  rw [Attribute.Conflicting, ← Treatment.isConflict_settle?_iff hasked, isConflict, ofAttributes,
    ownTreatment]
  cases Treatment.settle? (attributes.filterMap Treatment.ofAttribute?) with
  | some t => rfl
  | none => cases asksForSource attributes <;> rfl

/-- What is inherited is no conflict. -/
theorem isConflict_within (enclosing : Marking) (attributes : List Attribute) :
    (enclosing.within attributes).isConflict = true ↔ Attribute.Conflicting attributes := by
  rw [← isConflict_ofAttributes_iff, within]
  split_ifs with hinherits
  · have hnone : (ofAttributes attributes).treatment = none := by simp_all
    rw [isConflict, isConflict, hnone, memberDefault]
    cases hdefault : enclosing.treatment.bind Treatment.memberDefault with
    | none => rfl
    | some t =>
      obtain ⟨u, -, hu⟩ := Option.bind_eq_some_iff.mp hdefault
      rw [Option.any_some, Treatment.isConflict_memberDefault hu, Option.any_none]
  · rfl

/-- A setter in conflict does not look at its getter, and takes no conflict over from it. -/
theorem isConflict_followGetter (enclosing getter : Marking) (attributes : List Attribute) :
    ((enclosing.within attributes).followGetter getter).isConflict =
      (enclosing.within attributes).isConflict := by
  rw [followGetter]
  split_ifs with hown
  · rfl
  · have hnone : (ofAttributes attributes).treatment = none := by
      rw [within] at hown
      split_ifs at hown <;> simp_all [ofAttributes]
    have hcalm : (enclosing.within attributes).isConflict = false := by
      rw [Bool.eq_false_iff, ne_eq, isConflict_within, ← isConflict_ofAttributes_iff, isConflict,
        hnone]
      decide
    cases htreatment : getter.treatment with
    | none => rfl
    | some t =>
      dsimp only
      split_ifs with hpasses
      · rw [hcalm, isConflict, Option.any_some]
        exact Treatment.isConflict_of_passesToSetter hpasses
      · rfl

end Marking

theorem isConflict_memberMarking (type : Marking) (ds : List MemberDecl) (d : MemberDecl) :
    (memberMarking type ds d).isConflict = true ↔ Attribute.Conflicting d.attributes := by
  rw [memberMarking]
  split
  · cases getterMarking? type ds _ with
    | none => exact type.isConflict_within d.attributes
    | some getter =>
      dsimp only
      rw [Marking.isConflict_followGetter]
      exact type.isConflict_within d.attributes
  · exact type.isConflict_within d.attributes

/-! ## Steps that fail -/

/-- The kinds of errors that a member or a value can have by itself, conflicts aside. -/
def DiagnosticKind.isPlain : DiagnosticKind → Bool
  | illegalTreatment | misplacedOptional | malformedTemplate | unusableBody | duplicateMember =>
    true
  | _ => false

/-- A step that fails, if it does, for a plain reason. -/
def FailsPlainly {α : Type} (x : Except CompileError α) : Prop :=
  ∀ e, x = .error e → e.kind.isPlain = true

section FailsPlainly

variable {α β : Type} {x : Except CompileError α} {f : α → Except CompileError β}

theorem failsPlainly_ok (a : α) : FailsPlainly (.ok a) := by
  intro e he
  exact absurd he (by simp)

theorem failsPlainly_error {e : CompileError} (he : e.kind.isPlain = true) :
    FailsPlainly (.error e : Except CompileError α) := by
  rintro _ ⟨⟩
  exact he

theorem FailsPlainly.bind (hx : FailsPlainly x) (hf : ∀ a, FailsPlainly (f a)) :
    FailsPlainly (x >>= f) := by
  cases x with
  | error e => exact failsPlainly_error (hx e rfl)
  | ok a => exact hf a

end FailsPlainly

theorem failsPlainly_checkBody (member : String) (body : Expr) (span : Span) :
    FailsPlainly (checkBody member body span) := by
  rw [checkBody]
  split_ifs
  · exact failsPlainly_error rfl
  · split
    · exact failsPlainly_error rfl
    · exact failsPlainly_ok ()

theorem failsPlainly_parseAt (slots : Template.Slots) (code : String) (span : Span) :
    FailsPlainly (Template.parseAt slots code span) := by
  rw [Template.parseAt]
  split
  · exact failsPlainly_error rfl
  · exact failsPlainly_ok _

namespace MemberDecl

variable (o : Options) (owner : Owner) (d : MemberDecl) (m : Marking)

theorem failsPlainly_sourceBody : FailsPlainly d.sourceBody := by
  rw [sourceBody]
  split
  · exact failsPlainly_error rfl
  · next body _ =>
    have hcheck := failsPlainly_checkBody d.name body d.span
    split
    · next e he => exact failsPlainly_error (hcheck e he)
    · exact failsPlainly_ok _

theorem failsPlainly_optionalBody : FailsPlainly (d.optionalBody o m) := by
  rw [optionalBody]
  split_ifs
  · exact failsPlainly_error rfl
  · split
    · exact failsPlainly_ok _
    · exact failsPlainly_ok _
    · exact failsPlainly_error rfl

theorem failsPlainly_checkSlot (t : Treatment) : FailsPlainly (d.checkSlot o owner t) := by
  rw [checkSlot]
  split_ifs
  · split
    · exact failsPlainly_error rfl
    · exact failsPlainly_ok ()
  · exact failsPlainly_ok ()

/-- A treatment that is no conflict can fail for other reasons only. -/
theorem failsPlainly_kindAndBody {t : Treatment} (ht : t.isConflict = false) :
    FailsPlainly (d.kindAndBody o owner m t) := by
  cases t with
  | conflict first second => exact absurd ht.symm Bool.false_ne_true
  | inline code => exact (failsPlainly_parseAt d.slots code d.span).bind fun _ => failsPlainly_ok _
  | direct code => exact (failsPlainly_parseAt d.slots code d.span).bind fun _ => failsPlainly_ok _
  | compiled =>
    rw [kindAndBody]
    split_ifs
    · exact failsPlainly_ok _
    · exact d.failsPlainly_sourceBody.bind fun _ => failsPlainly_ok _
  | compiledInline => exact d.failsPlainly_sourceBody.bind fun _ => failsPlainly_ok _
  | optionalSlot => exact (d.failsPlainly_optionalBody o m).bind fun _ => failsPlainly_ok _
  | remote policy =>
    rw [kindAndBody]
    split_ifs
    · exact failsPlainly_ok _
    · exact failsPlainly_error rfl
  | noFallback => exact failsPlainly_ok _
  | constant value => exact failsPlainly_ok _
  | stub => exact failsPlainly_ok _
  | generated generator parameter => exact failsPlainly_ok _

theorem failsPlainly_emit {m : Marking} (hm : m.isConflict = false) :
    FailsPlainly (d.emit o owner m) := by
  rw [emit]
  cases ht : m.treatment with
  | none =>
    dsimp only
    split_ifs
    · exact failsPlainly_ok _
    · exact failsPlainly_ok _
  | some t =>
    have hcalm : t.isConflict = false := by simpa [Marking.isConflict, ht] using hm
    exact (d.failsPlainly_checkSlot o owner t).bind fun _ =>
      (d.failsPlainly_kindAndBody o owner m hcalm).bind fun _ => failsPlainly_ok _

end MemberDecl

namespace Startup

theorem failsPlainly_addMembers (span : Span) (members : List Member) (c : ClassRecord) :
    FailsPlainly (addMembers c span members).2 := by
  induction members generalizing c with
  | nil => exact failsPlainly_ok ()
  | cons member rest ih =>
    rw [addMembers]
    by_cases hold : c.contains member.key = true
    · simp only [ClassRecord.add, hold, if_true]
      exact failsPlainly_error rfl
    · simp only [ClassRecord.add, hold]
      exact ih _

theorem failsPlainly_addField (s : Startup) (b : Binding) (m : Marking) :
    FailsPlainly (s.addField b m).2 := by
  have hcheck := failsPlainly_checkBody b.name b.value b.span
  have hmembers := failsPlainly_addMembers b.span (fieldMembers s.id b m) (s.typeAt b.span)
  rw [addField]
  split
  · next e he => exact failsPlainly_error (hcheck e he)
  · split
    · next e he => exact failsPlainly_error (hmembers e (by rw [he]))
    · exact failsPlainly_ok ()

theorem failsPlainly_add {m : Marking} (hm : m.isConflict = false) (s : Startup) (b : Binding) :
    FailsPlainly (s.add b m).2 := by
  rw [add]
  split
  · exact failsPlainly_ok ()
  · exact s.failsPlainly_addField b m
  · next value _ =>
    exact failsPlainly_addMembers b.span [getter b m (.literal value)] (s.typeAt b.span)
  · next first second ht => simp [Marking.isConflict, ht, Treatment.isConflict] at hm
  · exact failsPlainly_error rfl

end Startup

/-! ## What is reported -/

/-- The places of the conflicts among some errors. -/
def conflictsIn (es : List CompileError) : List Span :=
  (es.filter fun e => e.kind = .attributeConflict).map CompileError.span

theorem conflictsIn_append (es es' : List CompileError) :
    conflictsIn (es ++ es') = conflictsIn es ++ conflictsIn es' := by
  simp [conflictsIn]

theorem conflictsIn_eq_nil {es : List CompileError} (h : ∀ e ∈ es, e.kind ≠ .attributeConflict) :
    conflictsIn es = [] := by
  simpa [conflictsIn] using h

theorem FailsPlainly.conflictsIn {α : Type} {x : Except CompileError α} (h : FailsPlainly x) :
    conflictsIn (errorsOf x) = [] := by
  cases x with
  | ok a => rfl
  | error e =>
    apply conflictsIn_eq_nil
    intro e' he' hkind
    obtain rfl := List.mem_singleton.mp he'
    have hplain := h e' rfl
    rw [hkind] at hplain
    exact Bool.false_ne_true hplain

theorem Marking.exists_of_isConflict {m : Marking} (hm : m.isConflict = true) :
    ∃ first second, m.treatment = some (.conflict first second) := by
  obtain ⟨t, ht, hconflict⟩ := (Option.any_eq_true _ _).mp hm
  cases t with
  | conflict first second => exact ⟨first, second, ht⟩
  | _ => exact absurd hconflict Bool.false_ne_true

namespace MemberDecl

variable (o : Options) (owner : Owner) (c : ClassRecord) (d : MemberDecl) (m : Marking)

theorem conflictsIn_emit :
    conflictsIn (errorsOf (d.emit o owner m)) = if m.isConflict then [d.span] else [] := by
  split_ifs with hm
  · obtain ⟨first, second, ht⟩ := Marking.exists_of_isConflict hm
    rw [emit, ht]
    rfl
  · exact (d.failsPlainly_emit o owner (Bool.eq_false_of_not_eq_true hm)).conflictsIn

theorem conflictsIn_additionErrors (member : Member) :
    conflictsIn (d.additionErrors c m member) = [] := by
  rw [additionErrors, ClassRecord.add, entryErrors]
  split_ifs <;> rfl

theorem conflictsIn_complaints :
    conflictsIn (d.complaints o owner c m) = if m.isConflict then [d.span] else [] := by
  rw [complaints, conflictsIn_append, conflictsIn_emit]
  cases d.outcome o owner m with
  | none => exact List.append_nil _
  | some member =>
    rw [Option.toList_some, List.flatMap_singleton, conflictsIn_additionErrors, List.append_nil]

theorem conflictsIn_complaintsAll (type : Marking) (ds l : List MemberDecl) :
    conflictsIn (complaintsAll o owner type ds c l) =
      (l.filter fun d => Attribute.Conflicting d.attributes).map MemberDecl.span := by
  induction l generalizing c with
  | nil => rfl
  | cons d l ih =>
    rw [complaintsAll, conflictsIn_append, conflictsIn_complaints, ih]
    by_cases hconflict : Attribute.Conflicting d.attributes
    · rw [if_pos ((isConflict_memberMarking type ds d).mpr hconflict),
        List.filter_cons_of_pos (by simpa using hconflict)]
      rfl
    · rw [if_neg (mt (isConflict_memberMarking type ds d).mp hconflict),
        List.filter_cons_of_neg (by simpa using hconflict)]
      rfl

end MemberDecl

theorem Startup.conflictsIn_complaints (type : Marking) (bs : List Binding) (s : Startup) :
    conflictsIn (s.complaints (bs.map fun b => (b, type.within b.attributes))) =
      (bs.filter fun b => Attribute.Conflicting b.attributes).map Binding.span := by
  induction bs generalizing s with
  | nil => rfl
  | cons b bs ih =>
    rw [List.map_cons, complaints, conflictsIn_append, ih]
    by_cases hconflict : Attribute.Conflicting b.attributes
    · have hmarking := (type.isConflict_within b.attributes).mpr hconflict
      obtain ⟨first, second, ht⟩ := Marking.exists_of_isConflict hmarking
      rw [List.filter_cons_of_pos (by simpa using hconflict), add, ht]
      rfl
    · have hmarking := Bool.eq_false_of_not_eq_true
        (mt (type.isConflict_within b.attributes).mp hconflict)
      rw [List.filter_cons_of_neg (by simpa using hconflict),
        (failsPlainly_add hmarking s b).conflictsIn]
      rfl

/-- The places of the conflicts among some diagnostics. -/
def conflictSpans (ds : List Diagnostic) : List Span :=
  (ds.filter fun d => d.kind = .attributeConflict).map Diagnostic.span

theorem conflictSpans_append (ds ds' : List Diagnostic) :
    conflictSpans (ds ++ ds') = conflictSpans ds ++ conflictSpans ds' := by
  simp [conflictSpans]

theorem conflictSpans_errors (es : List CompileError) (file : Option String) :
    conflictSpans (es.map (.ofError · file)) = conflictsIn es := by
  rw [conflictSpans, List.filter_map, List.map_map]
  rfl

theorem conflictSpans_warnings (ws : List CompileWarning) (file : Option String) :
    conflictSpans (ws.map (.ofWarning · file)) = [] := by
  have hkind (w : CompileWarning) : w.kind ≠ .attributeConflict := by
    cases w <;> simp [CompileWarning.kind]
  simp [conflictSpans, Diagnostic.ofWarning, hkind]

/-- The places of the members and values of a class whose attributes conflict. -/
def TypeHead.conflicts (h : TypeHead) : List Span :=
  if h.isClass then
    (h.members.filter fun d => Attribute.Conflicting d.attributes).map MemberDecl.span ++
      (h.bindings.filter fun b => Attribute.Conflicting b.attributes).map Binding.span
  else []

namespace TypeHead

variable (h : TypeHead) (o : Options) (m : Marking) (s : Startup) (file : Option String)

theorem conflictSpans_diagnostics : conflictSpans (h.diagnostics o m s file) = h.conflicts := by
  rw [diagnostics, conflictSpans_append, conflictSpans_warnings, List.nil_append,
    contentDiagnostics, conflicts]
  split_ifs with hclass
  · rw [conflictSpans_append, conflictSpans_warnings, conflictSpans_errors, errors,
      conflictsIn_append, MemberDecl.conflictsIn_complaintsAll, markedBindings, if_pos hclass,
      Startup.conflictsIn_complaints, List.nil_append]
  · rfl

variable {h} in
theorem exists_mem_conflicts (hclass : h.isClass = true)
    (hconflicting : (∃ d ∈ h.members, Attribute.Conflicting d.attributes) ∨
      ∃ b ∈ h.bindings, Attribute.Conflicting b.attributes) : ∃ span, span ∈ h.conflicts := by
  rw [conflicts, if_pos hclass]
  rcases hconflicting with ⟨d, hd, hattributes⟩ | ⟨b, hb, hattributes⟩
  · refine ⟨d.span, List.mem_append_left _ (List.mem_map_of_mem ?_)⟩
    exact List.mem_filter.mpr ⟨hd, decide_eq_true hattributes⟩
  · refine ⟨b.span, List.mem_append_right _ (List.mem_map_of_mem ?_)⟩
    exact List.mem_filter.mpr ⟨hb, decide_eq_true hattributes⟩

end TypeHead

mutual

theorem TypeDecl.conflictSpans_diagnostics (o : Options) (file : Option String)
    (taken : Finset Identity) (enclosing : Marking) (s : Startup) (t : TypeDecl) :
    conflictSpans (t.diagnostics o file taken enclosing s) =
      (t.registered taken enclosing).flatMap fun hm => hm.1.conflicts := by
  obtain ⟨h, nested⟩ := t
  rw [TypeDecl.diagnostics, TypeDecl.registered]
  split_ifs
  · rfl
  · rw [conflictSpans_append, TypeHead.conflictSpans_diagnostics,
      conflictSpans_diagnosticsAll, List.flatMap_cons]
termination_by structural t

theorem TypeDecl.conflictSpans_diagnosticsAll (o : Options) (file : Option String)
    (taken : Finset Identity) (enclosing : Marking) (s : Startup) (ts : List TypeDecl) :
    conflictSpans (TypeDecl.diagnosticsAll o file taken enclosing s ts) =
      (TypeDecl.registeredAll taken enclosing ts).flatMap fun hm => hm.1.conflicts := by
  cases ts with
  | nil => rfl
  | cons t ts =>
    rw [TypeDecl.diagnosticsAll, TypeDecl.registeredAll, conflictSpans_append,
      conflictSpans_diagnostics, conflictSpans_diagnosticsAll, List.flatMap_append]
termination_by structural ts

end

/-- The places of the conflicts in what is registered. -/
def Registrant.conflicts : Registrant → List Span
  | .type h _ => h.conflicts
  | .startup _ => []

/-- The places of the members and values whose attributes conflict, in the order of the walk. -/
def Assembly.conflicts (o : Options) (a : Assembly) : List Span :=
  (a.registrants o).flatMap Registrant.conflicts

theorem SourceFile.conflictSpans_diagnostics (o : Options) (taken : Finset Identity)
    (file : SourceFile) :
    conflictSpans (file.diagnostics o taken) =
      (file.registrants o taken).flatMap Registrant.conflicts := by
  have hstartup (taken : Finset Identity) (s : Startup) :
      conflictsIn (s.refusal taken) = (s.registrants taken).flatMap Registrant.conflicts := by
    rw [Startup.refusal, Startup.registrants]
    cases s.finish with
    | none => rfl
    | some c =>
      dsimp only
      split_ifs <;> rfl
  rw [diagnostics, registrants, conflictSpans_append, conflictSpans_errors,
    TypeDecl.conflictSpans_diagnosticsAll, hstartup, List.flatMap_append, Registrant.types,
    List.flatMap_map]
  rfl

theorem SourceFile.conflictSpans_diagnosticsAll (o : Options) (taken : Finset Identity)
    (files : List SourceFile) :
    conflictSpans (diagnosticsAll o taken files) =
      (registrantsAll o taken files).flatMap Registrant.conflicts := by
  induction files generalizing taken with
  | nil => rfl
  | cons file files ih =>
    rw [diagnosticsAll, registrantsAll, conflictSpans_append, conflictSpans_diagnostics, ih,
      List.flatMap_append]

/-! ## Names -/

namespace Scope

variable {κ : Type} [DecidableEq κ] (scope : String)

theorem kind_of_mem_claimExplicit {s : State κ} (hs : ∀ e ∈ s.collisions, e.kind = .nameCollision)
    (entry : Nameable κ) :
    ∀ e ∈ (claimExplicit scope s entry).collisions, e.kind = .nameCollision := by
  rcases claimExplicit_cases scope s entry with ⟨-, heq⟩ | ⟨name, -, ⟨-, heq⟩ | ⟨-, heq⟩⟩
  · rwa [heq]
  · rw [heq]
    simpa [or_imp, forall_and, CompileError.kind] using hs
  · rwa [heq]

theorem kind_of_mem_claimExplicit_foldl (entries : List (Nameable κ)) {s : State κ}
    (hs : ∀ e ∈ s.collisions, e.kind = .nameCollision) :
    ∀ e ∈ (entries.foldl (claimExplicit scope) s).collisions, e.kind = .nameCollision := by
  induction entries generalizing s with
  | nil => exact hs
  | cons entry entries ih => exact ih (kind_of_mem_claimExplicit scope hs entry)

/-- A name that is derived collides with nothing. -/
theorem collisions_claimDerived_foldl (entries : List (Nameable κ)) (s : State κ) :
    (entries.foldl claimDerived s).collisions = s.collisions := by
  induction entries generalizing s with
  | nil => rfl
  | cons entry entries ih =>
    rw [List.foldl_cons, ih, claimDerived]
    split_ifs <;> rfl

/-- Assigning names reports collisions of names only. -/
theorem kind_of_mem_collisions (taken : List String) (entries : List (Nameable κ)) :
    ∀ e ∈ (assign scope taken entries).collisions, e.kind = .nameCollision := by
  rw [assign, collisions_claimDerived_foldl]
  exact kind_of_mem_claimExplicit_foldl scope entries fun e he => absurd he List.not_mem_nil

end Scope

namespace Build

theorem conflictSpans_resolve (b : Build) :
    conflictSpans b.resolve.report.items = conflictSpans b.report.items := by
  rw [resolve]
  split_ifs
  · rfl
  · dsimp only
    rw [report_foldl_error, conflictSpans_append, conflictSpans_errors, conflictsIn_eq_nil,
      List.append_nil]
    intro e he
    have hkind : e.kind = .nameCollision := by
      rcases List.mem_append.mp he with htypes | hmembers
      · exact Scope.kind_of_mem_collisions _ _ _ e htypes
      · obtain ⟨scope, hscope, he⟩ := List.mem_flatMap.mp hmembers
        obtain ⟨source, -, rfl⟩ := List.mem_map.mp hscope
        exact Scope.kind_of_mem_collisions _ _ _ e he
    rw [hkind]
    decide

/-- Every conflict that is reported is reported as an error. -/
def GraveConflicts (b : Build) : Prop :=
  ∀ d ∈ b.report.items, d.kind = .attributeConflict → d.isError = true

variable {b b₁ : Build}

theorem SideStep.graveConflicts (h : b.SideStep b₁) (hb : b.GraveConflicts) :
    b₁.GraveConflicts := by
  have hpush {d : Diagnostic} (hd : d.kind = .attributeConflict → d.isError = true) :
      ∀ d' ∈ b.report.items ++ [d], d'.kind = .attributeConflict → d'.isError = true := by
    intro d' hd'
    rcases List.mem_append.mp hd' with hold | hnew
    · exact hb d' hold
    · rwa [List.mem_singleton.mp hnew]
  cases h with
  | error e => exact hpush fun _ => rfl
  | warning w =>
    apply hpush
    intro hkind
    cases w <;> cases hkind
  | interface hadd => rwa [addInterface_ok hadd]
  | resource hadd => rwa [addResource_ok hadd]
  | _ => exact hb

theorem Steps.graveConflicts (h : b.Steps b₁) (hb : b.GraveConflicts) : b₁.GraveConflicts := by
  induction h with
  | refl => exact hb
  | tail _ hstep ih =>
    cases hstep with
    | side hside => exact hside.graveConflicts ih
    | addClass hadd => rwa [(addClass_ok hadd).2]

end Build

/--
Of the declarations in the classes that are registered, exactly the members and values whose
attributes conflict are reported as conflicts, each once and where it stands.  If there are any,
the report has an error and no build comes out.
-/
theorem member_and_value_conflicts_reported (a : Assembly) (prior : Snapshot) (o : Options) :
    ((a.build prior o).report.ofKind .attributeConflict).map Diagnostic.span = a.conflicts o ∧
      ∀ h m, .type h m ∈ a.registrants o → h.isClass = true →
        ((∃ d ∈ h.members, Attribute.Conflicting d.attributes) ∨
          ∃ b ∈ h.bindings, Attribute.Conflicting b.attributes) →
        (∃ d ∈ (a.build prior o).report.items, d.isError = true ∧ d.kind = .attributeConflict) ∧
          a.compile prior o = .error (.failed a.name (a.build prior o).report) := by
  have hspans : conflictSpans (a.build prior o).report.items = a.conflicts o := by
    have hresolve := (a.draft prior o).conflictSpans_resolve
    rw [a.report_draft prior o, Assembly.diagnostics,
      SourceFile.conflictSpans_diagnosticsAll] at hresolve
    exact hresolve
  refine ⟨hspans, ?_⟩
  intro h m hregistered hclass hconflicting
  obtain ⟨span, hspan⟩ := TypeHead.exists_mem_conflicts hclass hconflicting
  have hreported : span ∈ conflictSpans (a.build prior o).report.items := by
    rw [hspans]
    exact List.mem_flatMap.mpr ⟨_, hregistered, hspan⟩
  obtain ⟨d, hd, -⟩ := List.mem_map.mp hreported
  obtain ⟨hitem, hkind⟩ := List.mem_filter.mp hd
  have hnew : (Build.new prior o).GraveConflicts := fun d hd => absurd hd List.not_mem_nil
  have herror := (a.steps_build prior o).graveConflicts hnew d hitem (of_decide_eq_true hkind)
  have hfails : (a.build prior o).hasErrors = true := Report.hasErrors_of_mem hitem herror
  refine ⟨⟨d, hitem, herror, of_decide_eq_true hkind⟩, ?_⟩
  rw [Assembly.compile, if_pos hfails]

/-- A static method that returns a number, at a line. -/
def plainMethod (name : String) (attributes : List Attribute) (line : Nat) : MemberDecl :=
  { MemberDecl.method name [] Ty.int32 with
    modifiers := { isStatic := true }, attributes, body := some (.literal (.int 1)),
    span := .point line 1 }

/-- A module with a conflict in a member, in a type nested in it, and in a value. -/
def signalHead : TypeHead where
  name := "Signal"
  form := .module
  attributes := [.javaScript true]
  members := [plainMethod "Red" [.stub, .inline none] 2, plainMethod "Green" [.stub, .stub] 3]
  bindings := [{
    name := "amber", type := Ty.int32, value := .literal (.int 2)
    attributes := [.constant (.int 1), .constant (.int 2)]
    span := .point 4 1 }]

def lampHead : TypeHead :=
  { name := "Signal.Lamp", form := .ordinary, members := [plainMethod "On" [.direct "1", .stub] 6] }

def signalAssembly : Assembly where
  name := "Signal"
  files := [{ path := "signal", types := [{ head := signalHead, nested := [⟨lampHead, []⟩] }] }]

theorem signal_conflicts_reported :
    Attribute.Conflicting [.stub, .inline none] ∧
      signalAssembly.conflicts {} = [.point 2 1, .point 4 1, .point 6 1] ∧
      ((signalAssembly.build {} {}).report.ofKind .attributeConflict).map Diagnostic.span =
        [.point 2 1, .point 4 1, .point 6 1] ∧
      signalAssembly.compile {} {} =
        .error (.failed "Signal" (signalAssembly.build {} {}).report) := by
  have hconflicting : Attribute.Conflicting [.stub, .inline none] := by decide +kernel
  have hconflicts : signalAssembly.conflicts {} = [.point 2 1, .point 4 1, .point 6 1] := by
    decide +kernel
  obtain ⟨hspans, hfails⟩ := member_and_value_conflicts_reported signalAssembly {} {}
  have hred := hfails signalHead (.within {} signalHead.attributes) List.mem_cons_self rfl
    (.inl ⟨_, List.mem_cons_self, hconflicting⟩)
  exact ⟨hconflicting, hconflicts, hspans.trans hconflicts, hred.2⟩

/-- A class whose own attributes conflict. -/
def panelHead : TypeHead :=
  { name := "Panel", form := .ordinary, attributes := [.stub, .inline none],
    members := [plainMethod "Open" [] 2] }

def panelAssembly : Assembly where
  name := "Panel"
  files := [{ path := "panel", types := [{ head := panelHead, nested := [] }] }]

/-- The conflict of a class goes unreported, and its method is left out. -/
theorem panel_conflict_unreported :
    .type panelHead (.within {} panelHead.attributes) ∈ panelAssembly.registrants {} ∧
      panelHead.isClass = true ∧ Attribute.Conflicting panelHead.attributes ∧
      panelAssembly.compile {} {} = .ok (panelAssembly.build {} {}) ∧
      (panelAssembly.build {} {}).report.items = [] ∧
      (panelAssembly.build {} {}).classes.values.map ClassRecord.keys = [[]] := by
  have hreport : (panelAssembly.build {} {}).report.items = [] := by decide +kernel
  have hclean : (panelAssembly.build {} {}).hasErrors = false := by decide +kernel
  refine ⟨List.mem_cons_self, rfl, by decide +kernel, ?_, hreport, by decide +kernel⟩
  rw [Assembly.compile, hclean]
  rfl

end Memberwise
