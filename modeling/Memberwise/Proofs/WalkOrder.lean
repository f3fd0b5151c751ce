import Mathlib
import Memberwise.Build.Compile

/-!
# Declarations in the order of a walk

A walk visits the types of a file in order, each before the types nested in it.
Here is the list of what it comes by, with the markings that it computes on the
way, and what each declared type and each file become when nothing fails.
-/

namespace Memberwise

mutual

/-- A type and the types nested in it, each with its marking. -/
def TypeDecl.marked (enclosing : Marking) : TypeDecl → List (TypeHead × Marking)
  | ⟨h, nested⟩ =>
    let m := enclosing.within h.attributes
    (h, m) :: TypeDecl.markedAll m nested
termination_by structural t => t

/-- Types and the types nested in them, each with its marking. -/
def TypeDecl.markedAll (enclosing : Marking) : List TypeDecl → List (TypeHead × Marking)
  | [] => []
  | t :: ts => t.marked enclosing ++ TypeDecl.markedAll enclosing ts
termination_by structural ts => ts

end

/-- The types of a file, each with its marking. -/
def SourceFile.marked (file : SourceFile) : List (TypeHead × Marking) :=
  TypeDecl.markedAll {} file.types

/-- The member that a declared one becomes, with a placeholder for one that fails. -/
def MemberDecl.outcome (o : Options) (owner : Owner) (d : MemberDecl) (m : Marking) :
    Option Member :=
  match d.emit o owner m with
  | .ok member => member
  | .error e => some (d.placeholder e)

namespace TypeHead

/-- Whether a type becomes a class, which resources and interfaces do not. -/
def isClass (h : TypeHead) : Bool :=
  !h.isResource && match h.form with
    | .interface => false
    | _ => true

/-- The members that the declared ones become. -/
def declaredMembers (h : TypeHead) (o : Options) (m : Marking) : List Member :=
  h.members.filterMap fun d => d.outcome o (h.owner m) (memberMarking m h.members d)

/-- The class that a type becomes. -/
def emittedClass (h : TypeHead) (o : Options) (m : Marking) : ClassRecord :=
  h.augment o m ((h.newClass m).addFree (h.declaredMembers o m))

/-- A member of the class was declared or comes with the form of the type. -/
theorem mem_emittedClass {h : TypeHead} {o : Options} {m : Marking} {member : Member}
    (hmember : member ∈ (h.emittedClass o m).members) :
    member ∈ h.declaredMembers o m ∨
      (∃ cases, h.form = .union cases ∧
        member ∈ UnionCase.members o m (Ty.named h.name) cases) ∨
      ∃ fields, h.form = .record fields ∧
        member ∈ RecordSlot.members o (fields.map (RecordField.slot m)) := by
  have hdeclared (hmem : member ∈ ((h.newClass m).addFree (h.declaredMembers o m)).members) :
      member ∈ h.declaredMembers o m := by
    simpa [newClass] using ClassRecord.mem_addFree hmem
  unfold emittedClass augment at hmember
  split at hmember
  · split at hmember
    · next cases hform =>
      rcases ClassRecord.mem_addFree hmember with hmem | hmem
      · exact .inl (hdeclared hmem)
      · exact .inr (.inl ⟨cases, hform, hmem⟩)
    · next fields hform =>
      rcases ClassRecord.mem_addFree hmember with hmem | hmem
      · exact .inl (hdeclared hmem)
      · exact .inr (.inr ⟨fields, hform, hmem⟩)
    · exact .inl (hdeclared hmember)
  · exact .inl (hdeclared hmember)

/-- All declared members can be emitted. -/
def Emits (h : TypeHead) (o : Options) (m : Marking) : Prop :=
  ∀ d ∈ h.members, ∃ member, d.emit o (h.owner m) (memberMarking m h.members d) = .ok member

/-- The entry of a type in the table of classes, if it becomes a class. -/
def classEntry (h : TypeHead) (o : Options) (m : Marking) : List (Identity × ClassRecord) :=
  if h.isClass then [(h.id, h.emittedClass o m)] else []

/-- The top-level values that a type brings, each with its marking. -/
def markedBindings (h : TypeHead) (m : Marking) : List (Binding × Marking) :=
  if h.isClass then h.bindings.map fun b => (b, m.within b.attributes) else []

end TypeHead

/-- Adds top-level values as long as they are accepted. -/
def Startup.addAll : Startup → List (Binding × Marking) → Except CompileError Startup
  | s, [] => .ok s
  | s, (b, m) :: rest =>
    match s.add b m with
    | (s, .ok ()) => s.addAll rest
    | (_, .error e) => .error e

theorem Startup.addAll_append {s s' : Startup} {bs : List (Binding × Marking)}
    (h : s.addAll bs = .ok s') (bs' : List (Binding × Marking)) :
    s.addAll (bs ++ bs') = s'.addAll bs' := by
  induction bs generalizing s with
  | nil =>
    obtain rfl := Except.ok.inj h
    rfl
  | cons entry bs ih =>
    obtain ⟨b, m⟩ := entry
    rw [List.cons_append, addAll]
    rw [addAll] at h
    split at h
    · exact ih h
    · cases h

namespace SourceFile

/-- The top-level values of a file, each with its marking. -/
def markedBindings (file : SourceFile) : List (Binding × Marking) :=
  file.marked.flatMap fun (h, m) => h.markedBindings m

/-- The startup type of a file, if all of its values are accepted. -/
def startup? (file : SourceFile) (assembly : String) : Except CompileError Startup :=
  (Startup.new assembly file.path).addAll file.markedBindings

/-- The entries of a file in the table of classes, its startup type last. -/
def classEntries (o : Options) (file : SourceFile) : List (Identity × ClassRecord) :=
  (file.marked.flatMap fun (h, m) => h.classEntry o m) ++
    match file.startup? o.assemblyName with
    | .ok s => s.finish.toList.map fun c => (c.id, c)
    | .error _ => []

end SourceFile

end Memberwise
