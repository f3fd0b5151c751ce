import Mathlib
import Memberwise.Proofs.SideTables
import Memberwise.Proofs.SynthesizedMembers
import Memberwise.Proofs.WalkReports

/-!
# Finding declared members

A declared member that was added to its class is found there under its signature.  A machine looks
for a constructor exactly if the name in the reference is that of constructors, so the name of a
declaration has to agree with its form.

Where no error was reported, every member of every registered class was emitted, and whatever it
became was added.  For this only the errors of members are looked at, not those of top-level values.
-/

namespace Memberwise

/-! ## Looking members up -/

/-- A constructor is found in a class whose members have different keys. -/
theorem ClassRecord.constructor?_of_mem {c : ClassRecord} (hnodup : c.keys.Nodup)
    {signature : Signature} {r : Method} (h : .constructor signature r ∈ c.members) :
    c.constructor? signature = some r := by
  refine constructor?_of_agree h fun r' hother => ?_
  exact (Member.constructor.inj (List.inj_on_of_nodup_map hnodup hother h rfl)).2

/-- The name of a declaration is that of constructors exactly if it declares one. -/
def MemberDecl.NameFits (d : MemberDecl) : Prop :=
  d.signature.isConstructor = true ↔ d.form = .constructor

instance (d : MemberDecl) : Decidable d.NameFits :=
  inferInstanceAs (Decidable (d.signature.isConstructor = true ↔ d.form = .constructor))

theorem MemberDecl.emitted_of_ne {d : MemberDecl} (hform : d.form ≠ .constructor) (r : Method) :
    d.emitted r = .method d.signature r := by
  rw [emitted]
  split
  · next hconstructor => exact absurd hconstructor hform
  · rfl

theorem TypeHead.constructor?_of_mem_added {h : TypeHead} {o : Options} {m : Marking}
    {d : MemberDecl} {r : Method} (hp : (d, .constructor d.signature r) ∈ h.added o m) :
    (h.emittedClass o m).constructor? d.signature = some r := by
  refine ClassRecord.constructor?_of_mem (h.nodup_keys_emittedClass o m) ?_
  obtain ⟨extra, shape, heq, -⟩ := h.emittedClass_eq o m
  rw [heq]
  exact List.mem_append_left _ (List.mem_map_of_mem hp)

/-- What a declaration became is what a machine of the build finds for it. -/
theorem Machine.lookup_added {machine : Machine} {a : Assembly} {prior : Snapshot} {o : Options}
    (hbuild : machine.build = a.build prior o) {h : TypeHead} {m : Marking}
    (hregistered : .type h m ∈ a.registrants o) (hclass : h.isClass = true) {d : MemberDecl}
    {r : Method} (hadded : (d, d.emitted r) ∈ h.added o m) (hname : d.NameFits) :
    machine.lookup ⟨h.id, d.signature⟩ = .ok r := by
  have hget := get?_registered hbuild hregistered hclass
  by_cases hform : d.form = .constructor
  · have hmember : d.emitted r = .constructor d.signature r := by rw [MemberDecl.emitted, hform]
    rw [hmember] at hadded
    simp [lookup, hget, hname.mpr hform, TypeHead.constructor?_of_mem_added hadded]
  · rw [MemberDecl.emitted_of_ne hform] at hadded
    refine lookup_method hget ?_ (TypeHead.method?_of_mem_added hadded)
    exact Bool.eq_false_of_not_eq_true (mt hname.mp hform)

/-! ## Members of clean builds -/

/-- There is no error among some diagnostics. -/
def NoErrors (ds : List Diagnostic) : Prop := ∀ d ∈ ds, d.isError = false

theorem NoErrors.of_append {ds ds' : List Diagnostic} (h : NoErrors (ds ++ ds')) :
    NoErrors ds ∧ NoErrors ds' :=
  List.forall_mem_append.mp h

theorem NoErrors.eq_nil {es : List CompileError} {file : Option String}
    (h : NoErrors (es.map (.ofError · file))) : es = [] := by
  cases es with
  | nil => rfl
  | cons e es =>
    have herror := h _ List.mem_cons_self
    cases herror

/-- Every member of a class is emitted, and what it becomes is added. -/
structure TypeHead.Complete (h : TypeHead) (o : Options) (m : Marking) : Prop where
  emits : ∀ d ∈ h.members, ∃ outcome,
    d.emit o (h.owner m) (memberMarking m h.members d) = .ok outcome
  adds : h.added o m = MemberDecl.outcomes o (h.owner m) m h.members h.members

namespace MemberDecl

variable {o : Options} {owner : Owner} {type : Marking} {ds : List MemberDecl}

/-- Members that nothing is reported for are emitted and have keys of their own. -/
theorem complete_of_no_complaints {l : List MemberDecl} {c : ClassRecord}
    (h : complaintsAll o owner type ds c l = []) :
    (∀ d ∈ l, ∃ outcome, d.emit o owner (memberMarking type ds d) = .ok outcome) ∧
      firstOfKey c.keys (outcomes o owner type ds l) = outcomes o owner type ds l := by
  -- The class holds what the members before became, so its keys are those that are taken.
  induction l generalizing c with
  | nil => exact ⟨by simp, rfl⟩
  | cons d l ih =>
    obtain ⟨hfirst, hrest⟩ := List.append_eq_nil_iff.mp h
    obtain ⟨hemit, haddition⟩ := List.append_eq_nil_iff.mp hfirst
    obtain ⟨hemits, hkeys⟩ := ih hrest
    cases houtcome : d.emit o owner (memberMarking type ds d) with
    | error e =>
      rw [houtcome] at hemit
      cases hemit
    | ok outcome =>
      refine ⟨List.forall_mem_cons.mpr ⟨⟨outcome, houtcome⟩, hemits⟩, ?_⟩
      have hmember : d.outcome o owner (memberMarking type ds d) = outcome := by
        rw [MemberDecl.outcome, houtcome]
      rw [hmember] at haddition hkeys
      cases outcome with
      | none =>
        have hskip : outcomes o owner type ds (d :: l) = outcomes o owner type ds l := by
          rw [outcomes, List.filterMap_cons, hmember]
          rfl
        rw [hskip]
        exact hkeys
      | some member =>
        have htake : outcomes o owner type ds (d :: l) =
            (d, member) :: outcomes o owner type ds l := by
          rw [outcomes, List.filterMap_cons, hmember]
          rfl
        have hfree : c.contains member.key = false := by
          by_contra htaken
          rw [Option.toList_some, List.flatMap_singleton, additionErrors, ClassRecord.add,
            if_pos (Bool.eq_true_of_not_eq_false htaken)] at haddition
          cases haddition
        have hnext : (c.addFree (some member).toList).keys = c.keys ++ [member.key] := by
          simp [ClassRecord.addFree, hfree, ClassRecord.keys]
        rw [hnext] at hkeys
        have hnew : member.key ∉ c.keys := by simpa [ClassRecord.contains] using hfree
        rw [htake, firstOfKey, if_neg hnew, hkeys]

end MemberDecl

/-- A class that no error is reported for is complete. -/
theorem TypeHead.complete_of_noErrors {h : TypeHead} {o : Options} {m : Marking} {s : Startup}
    {file : Option String} (hclean : NoErrors (h.diagnostics o m s file))
    (hclass : h.isClass = true) : h.Complete o m := by
  have hcontents := hclean.of_append.2
  rw [contentDiagnostics, if_pos hclass] at hcontents
  have hnone := (List.append_eq_nil_iff.mp hcontents.of_append.2.eq_nil).1
  obtain ⟨hemits, hkeys⟩ := MemberDecl.complete_of_no_complaints hnone
  exact ⟨hemits, hkeys⟩

mutual

theorem TypeDecl.complete_of_noErrors {o : Options} {file : Option String}
    {taken : Finset Identity} {enclosing : Marking} {s : Startup} (t : TypeDecl)
    (hclean : NoErrors (t.diagnostics o file taken enclosing s)) :
    ∀ hm ∈ t.registered taken enclosing, hm.1.isClass = true → hm.1.Complete o hm.2 := by
  obtain ⟨h, nested⟩ := t
  rw [TypeDecl.diagnostics] at hclean
  rw [TypeDecl.registered]
  split_ifs at hclean ⊢ with htaken
  · simp
  · obtain ⟨hhead, hnested⟩ := hclean.of_append
    exact List.forall_mem_cons.mpr
      ⟨TypeHead.complete_of_noErrors hhead, TypeDecl.complete_of_noErrors_all nested hnested⟩
termination_by structural t

theorem TypeDecl.complete_of_noErrors_all {o : Options} {file : Option String}
    {taken : Finset Identity} {enclosing : Marking} {s : Startup} (ts : List TypeDecl)
    (hclean : NoErrors (TypeDecl.diagnosticsAll o file taken enclosing s ts)) :
    ∀ hm ∈ TypeDecl.registeredAll taken enclosing ts, hm.1.isClass = true →
      hm.1.Complete o hm.2 := by
  cases ts with
  | nil => simp [TypeDecl.registeredAll]
  | cons t ts =>
    rw [TypeDecl.diagnosticsAll] at hclean
    rw [TypeDecl.registeredAll]
    obtain ⟨hfirst, hrest⟩ := hclean.of_append
    exact List.forall_mem_append.mpr ⟨TypeDecl.complete_of_noErrors t hfirst,
      TypeDecl.complete_of_noErrors_all ts hrest⟩
termination_by structural ts

end

theorem SourceFile.complete_of_noErrors {o : Options} {taken : Finset Identity}
    {files : List SourceFile} (hclean : NoErrors (diagnosticsAll o taken files)) {h : TypeHead}
    {m : Marking} (hregistered : .type h m ∈ registrantsAll o taken files)
    (hclass : h.isClass = true) : h.Complete o m := by
  induction files generalizing taken with
  | nil => cases hregistered
  | cons file files ih =>
    obtain ⟨hfile, hrest⟩ := hclean.of_append
    rcases List.mem_append.mp hregistered with hfirst | hlater
    · rcases List.mem_append.mp hfirst with htype | hstartup
      · obtain ⟨⟨h', m'⟩, hhead, heq⟩ := List.mem_map.mp htype
        obtain ⟨rfl, rfl⟩ := Registrant.type.inj heq
        exact TypeDecl.complete_of_noErrors_all file.types hfile.of_append.1 _ hhead hclass
      · rw [Startup.registrants] at hstartup
        split at hstartup
        · split_ifs at hstartup
          · cases hstartup
          · cases List.mem_singleton.mp hstartup
        · cases hstartup
    · exact ih hrest hlater

/-- The registered classes of a build without errors are complete. -/
theorem Assembly.complete_of_compile {a : Assembly} {prior : Snapshot} {o : Options} {b : Build}
    (hcompile : a.compile prior o = .ok b) {h : TypeHead} {m : Marking}
    (hregistered : .type h m ∈ a.registrants o) (hclass : h.isClass = true) : h.Complete o m := by
  have hbuild : (a.build prior o).hasErrors = false := by
    by_contra herrors
    rw [Assembly.compile, if_pos (Bool.eq_true_of_not_eq_false herrors)] at hcompile
    cases hcompile
  have hdraft : (a.draft prior o).hasErrors = false :=
    (Build.sideSteps_resolve _).beside.clean hbuild
  have hclean : NoErrors (SourceFile.diagnosticsAll o ∅ a.files) := by
    intro d hd
    by_contra herror
    have hitem : d ∈ (a.draft prior o).report.items := by
      rw [a.report_draft prior o]
      exact hd
    have hfails : (a.draft prior o).hasErrors = true :=
      Report.hasErrors_of_mem hitem (Bool.eq_true_of_not_eq_false herror)
    rw [hdraft] at hfails
    cases hfails
  exact SourceFile.complete_of_noErrors hclean hregistered hclass

/-- What a member of a complete class becomes is among the added members. -/
theorem TypeHead.Complete.mem_added {h : TypeHead} {o : Options} {m : Marking}
    (hcomplete : h.Complete o m) {d : MemberDecl} (hd : d ∈ h.members) {member : Member}
    (hemit : d.emit o (h.owner m) (memberMarking m h.members d) = .ok (some member)) :
    (d, member) ∈ h.added o m := by
  rw [hcomplete.adds]
  refine List.mem_filterMap.mpr ⟨d, hd, ?_⟩
  rw [MemberDecl.outcome, hemit]
  rfl

end Memberwise
