import Mathlib
import Memberwise.Proofs.CleanWalk
import Memberwise.Proofs.StartupTypes
import Memberwise.Proofs.TemplateForms

/-!
# The code of emitted members

The code of a member is a source body, the template of one, or it is made up: a
parsed template, a call that a stub or a remote method stands for, or what a union,
a record or a top-level value brings.  Made-up code has no placeholder, writes no
static field but for the setters of top-level values, and has holes only for what
a call brings.  A declared setter without a parameter is the exception to the last.

Every member of a class in a build without errors is brought by one of its files,
in one of four ways.  What holds of all code is shown for each of them.
-/

namespace Memberwise

/-- Whether a method of this kind has a template for its body. -/
def MethodKind.isTemplate : MethodKind → Bool
  | inline | direct | stub | remote _ _ => true
  | callable | abstract | noFallback | generated _ _ => false

namespace Member

/-- The expressions of a member: its body, or those of a static initializer. -/
def code : Member → List Expr
  | method _ r | constructor _ r => [r.body]
  | field _ => []
  | initializer statements => statements.map Statement.code

/-- Whether a member is called with a receiver. -/
def takesReceiver : Member → Bool
  | method _ r => !r.isStatic
  | _ => false

/-- How many arguments the holes of a member can refer to. -/
def arity (member : Member) : Nat :=
  match member.method? with
  | some r =>
    if r.kind.isTemplate then r.params.length + (if member.takesReceiver then 1 else 0) else 0
  | none => 0

end Member

/-- A form of expression in made-up code, with the holes that are allowed. -/
def Expr.InSynthesized (allowed : Nat → Prop) : Expr → Prop
  | hole index => allowed index
  | error _ | setStatic .. => False
  | _ => True

theorem Expr.inSynthesized_of_inTemplate {arity : Nat} {allowed : Nat → Prop}
    (hallowed : ∀ i < arity, allowed i) {e : Expr} (h : e.InTemplate arity) :
    e.InSynthesized allowed := by
  cases e <;> first | exact hallowed _ h | exact h | trivial

/-! ## Declared members -/

namespace MemberDecl

theorem slots_arity (d : MemberDecl) :
    d.slots.arity = d.params.length + if d.hasReceiver then 1 else 0 := by
  rw [slots, Template.Slots.arity, paramNames, List.length_map]
  rfl

theorem emittedAs_arity (d : MemberDecl) (m : Marking) (kind : MethodKind) (body : Expr) :
    (d.emittedAs m kind body).arity = if kind.isTemplate then d.slots.arity else 0 := by
  rw [slots_arity]
  unfold emittedAs emitted
  split <;>
    simp_all [Member.arity, Member.method?, Member.takesReceiver, hasReceiver, paramNames]

theorem emittedAs_code (d : MemberDecl) (m : Marking) (kind : MethodKind) (body : Expr) :
    (d.emittedAs m kind body).code = [body] := by
  unfold emittedAs emitted
  split <;> rfl

/-- A setter declares the parameter that takes the value. -/
def takesValue (d : MemberDecl) : Bool :=
  match d.form with
  | .setter _ => !d.params.isEmpty
  | _ => true

/-- The holes of a declared member, which all have arguments if setters take a value. -/
def allowsHole (d : MemberDecl) (index : Nat) : Prop := d.takesValue → index < d.slots.arity

theorem allowsHole_receiver {d : MemberDecl} (h : d.hasReceiver) : d.allowsHole 0 := by
  intro _
  simp [slots_arity, h]

theorem allowsHole_value {d : MemberDecl} {property : String} (hform : d.form = .setter property) :
    d.allowsHole (if d.hasReceiver then 1 else 0) := by
  intro hvalue
  have hlength : 0 < d.params.length := by
    rw [List.length_pos_iff]
    simpa [takesValue, hform] using hvalue
  rw [slots_arity]
  omega

theorem synthesized_paramHoles (d : MemberDecl) :
    ∀ e ∈ d.paramHoles, e.Every (Expr.InSynthesized d.allowsHole) := by
  intro e he
  obtain ⟨i, hi, rfl⟩ := List.mem_map.mp he
  rw [Expr.every_hole]
  intro _
  rw [slots_arity]
  exact Nat.add_lt_add_right (List.mem_range.mp hi) _

theorem synthesized_optionalBody {o : Options} {d : MemberDecl} {m : Marking} {body : Expr}
    (h : d.optionalBody o m = .ok body) : body.Every (Expr.InSynthesized d.allowsHole) := by
  unfold optionalBody at h
  dsimp only at h
  split at h
  · cases h
  · next hstatic =>
    split at h
    · next property hform =>
      have hreceiver : d.hasReceiver := by simp_all [hasReceiver]
      obtain rfl := Except.ok.inj h
      simpa [Expr.InSynthesized, Expr.string] using allowsHole_receiver hreceiver
    · next property hform =>
      have hreceiver : d.hasReceiver := by simp_all [hasReceiver]
      have hvalue := allowsHole_value hform
      rw [if_pos hreceiver] at hvalue
      obtain rfl := Except.ok.inj h
      simpa [Expr.InSynthesized, Expr.string, hvalue] using allowsHole_receiver hreceiver
    · cases h

theorem synthesized_stubBody (owner : Owner) (d : MemberDecl) (m : Marking) :
    (d.stubBody owner m).Every (Expr.InSynthesized d.allowsHole) := by
  have hholes := synthesized_paramHoles d
  unfold stubBody
  dsimp only
  split
  · simpa [Expr.InSynthesized] using hholes
  · next hreceiver =>
    simpa [Expr.InSynthesized, allowsHole_receiver hreceiver] using hholes
  · simpa [Expr.InSynthesized] using hholes
  · next hreceiver => simpa [Expr.InSynthesized] using allowsHole_receiver hreceiver
  · simp [Expr.InSynthesized]
  · next hform hreceiver =>
    have hvalue := allowsHole_value hform
    rw [if_pos hreceiver] at hvalue
    simpa [Expr.InSynthesized, hvalue] using allowsHole_receiver hreceiver
  · next hform hreceiver =>
    have hvalue := allowsHole_value hform
    rw [hreceiver] at hvalue
    simpa [Expr.InSynthesized] using hvalue

theorem synthesized_remoteBody (o : Options) (owner : Owner) (d : MemberDecl)
    (policy : Option String) :
    (d.remoteBody o owner policy).Every (Expr.InSynthesized d.allowsHole) := by
  have hholes := synthesized_paramHoles d
  unfold remoteBody
  cases hreceiver : d.hasReceiver with
  | true =>
    have hself := allowsHole_receiver hreceiver
    cases policy <;> simpa [Expr.InSynthesized, Expr.string, hself] using hholes
  | false => cases policy <;> simpa [Expr.InSynthesized, Expr.string] using hholes

/-- Where the code of an emitted member comes from; its holes can refer to so many arguments. -/
inductive Origin (d : MemberDecl) (arity : Nat) : Expr → Prop
  | source {body : Expr} (h : d.sourceBody = .ok body) : Origin d arity body
  | template {body : Expr} (h : d.sourceBody = .ok body) (harity : d.slots.arity = arity) :
      Origin d arity (body.toTemplate d.paramNames d.hasReceiver [])
  | synthesized {e : Expr}
      (h : e.Every (Expr.InSynthesized fun index => d.takesValue → index < arity)) :
      Origin d arity e

theorem origin_of_kindAndBody {o : Options} {owner : Owner} {d : MemberDecl} {m : Marking}
    {treatment : Treatment} {kind : MethodKind} {body : Expr}
    (h : d.kindAndBody o owner m treatment = .ok (kind, body)) :
    d.Origin (if kind.isTemplate then d.slots.arity else 0) body := by
  cases treatment with
  | conflict first second => cases h
  | noFallback | constant value | generated generator parameter =>
    cases h
    exact .synthesized (by simp [Expr.InSynthesized])
  | inline code | direct code =>
    obtain ⟨template, hparse, hresult⟩ := exists_of_bind_eq_ok h
    cases hresult
    refine .synthesized ((Template.isTemplate_of_parseAt hparse).imp fun e => ?_)
    exact Expr.inSynthesized_of_inTemplate fun index hindex _ => hindex
  | compiled =>
    simp only [kindAndBody] at h
    split at h
    · cases h
      exact .synthesized (by simp [Expr.InSynthesized])
    · obtain ⟨source, hsource, hresult⟩ := exists_of_bind_eq_ok h
      cases hresult
      exact .source hsource
  | compiledInline =>
    obtain ⟨source, hsource, hresult⟩ := exists_of_bind_eq_ok h
    cases hresult
    exact .template hsource rfl
  | optionalSlot =>
    obtain ⟨slot, hslot, hresult⟩ := exists_of_bind_eq_ok h
    cases hresult
    exact .synthesized (synthesized_optionalBody hslot)
  | stub =>
    cases h
    exact .synthesized (synthesized_stubBody owner d m)
  | remote policy =>
    simp only [kindAndBody] at h
    split at h
    · cases h
      exact .synthesized (synthesized_remoteBody o owner d policy)
    · cases h

theorem origin_of_emit {o : Options} {owner : Owner} {d : MemberDecl} {m : Marking}
    {member : Member} (h : d.emit o owner m = .ok (some member)) :
    ∀ e ∈ member.code, d.Origin member.arity e := by
  intro e he
  obtain ⟨kind, body, rfl, hcases⟩ := emit_cases h
  rw [emittedAs_code, List.mem_singleton] at he
  rw [he, emittedAs_arity]
  rcases hcases with ⟨-, rfl⟩ | ⟨treatment, hbody⟩
  · exact .synthesized (by simp [Expr.InSynthesized])
  · exact origin_of_kindAndBody hbody

end MemberDecl

/-! ## Members that unions and records bring -/

/-- All the code of a member is made up. -/
def Member.IsSynthesized (member : Member) : Prop :=
  ∀ e ∈ member.code, e.Every (Expr.InSynthesized (· < member.arity))

theorem Member.isSynthesized_synthesized {signature : Signature} {body : Expr}
    {params : List String} {isStatic : Bool}
    (hbody : body.Every
      (Expr.InSynthesized (· < params.length + if isStatic then 0 else 1))) :
    (synthesized signature body params isStatic).IsSynthesized := by
  intro e he
  simp only [synthesized, code, List.mem_singleton] at he
  subst he
  cases isStatic <;> exact hbody

namespace CaseShape

theorem synthesized_constantTags (shapes : List CaseShape) :
    (constantTags shapes).Every (Expr.InSynthesized (· < 1)) := by
  induction shapes with
  | nil => simp [constantTags, Expr.InSynthesized]
  | cons s rest ih =>
    unfold constantTags
    split
    · simpa [Expr.InSynthesized, isValue, tagExpr, Expr.int] using ih
    · exact ih

theorem synthesized_tagBody (shapes : List CaseShape) :
    (tagBody shapes).Every (Expr.InSynthesized (· < 1)) := by
  have htags := synthesized_constantTags shapes
  unfold tagBody
  split
  · simpa [Expr.InSynthesized, isValue, tagExpr, Expr.int] using htags
  · exact htags

end CaseShape

namespace UnionCase

theorem length_of_form_tagged {c : UnionCase} {m : Marking} {nullCase : Option Nat} {tag : Nat}
    {fields : List CaseField} (h : c.form m nullCase tag = .tagged fields) :
    fields.length = c.fields.length := by
  unfold form at h
  split at h
  · cases h
  · split at h
    · cases h
    · cases h
      simp

/-- The factory of a case has a hole for each field of the case. -/
theorem synthesized_factoryBody {c : UnionCase} {m : Marking} {nullCase : Option Nat} {tag : Nat}
    {shape : CaseShape} (hshape : shape.form = c.form m nullCase tag) :
    shape.factoryBody.Every (Expr.InSynthesized (· < c.fields.length)) := by
  unfold CaseShape.factoryBody
  split
  · simp [Expr.InSynthesized]
  · simp [Expr.InSynthesized, Expr.null]
  · next fields hform =>
    have hlength := length_of_form_tagged (hshape ▸ hform)
    refine (Expr.every_object _).mpr ⟨trivial, fun f hf => ?_⟩
    rcases List.mem_cons.mp hf with rfl | hf
    · simp [CaseShape.tagExpr, Expr.int, Expr.InSynthesized]
    · obtain ⟨i, hi, rfl⟩ := List.mem_mapIdx.mp hf
      simpa [Expr.InSynthesized, hlength] using hi

theorem isSynthesized_members {o : Options} {m : Marking} {type : Ty} {cases : List UnionCase} :
    ∀ member ∈ members o m type cases, member.IsSynthesized := by
  intro member hmember
  unfold members at hmember
  rcases List.mem_cons.mp hmember with rfl | hmember
  · exact Member.isSynthesized_synthesized (CaseShape.synthesized_tagBody _)
  · obtain ⟨⟨c, shape⟩, hzip, hmember⟩ := List.mem_flatMap.mp hmember
    rcases List.mem_cons.mp hmember with rfl | hmember
    · obtain ⟨i, hi, hpair⟩ := List.mem_iff_getElem.mp hzip
      have hshape : shape.form = c.form m (nullCase? o.caseLimit cases) i := by
        simp only [shapes, List.getElem_zip, List.getElem_mapIdx, Prod.mk.injEq] at hpair
        rw [← hpair.1, ← hpair.2]
      refine Member.isSynthesized_synthesized ?_
      simpa using synthesized_factoryBody hshape
    · unfold CaseShape.getters at hmember
      split at hmember
      · obtain ⟨f, -, rfl⟩ := List.mem_map.mp hmember
        exact Member.isSynthesized_synthesized (by simp [Expr.InSynthesized])
      · cases hmember

end UnionCase

namespace RecordSlot

theorem synthesized_constructorBody (o : Options) (slots : List RecordSlot) :
    (constructorBody o slots).Every (Expr.InSynthesized (· < slots.length)) := by
  have hlt {slot : RecordSlot} {i : Nat} (h : (slot, i) ∈ numbered slots) : i < slots.length := by
    simpa using (List.mem_zipIdx h).2.1
  have hrequired : (requiredObject slots).Every (Expr.InSynthesized (· < slots.length)) := by
    refine (Expr.every_object _).mpr ⟨trivial, fun f hf => ?_⟩
    obtain ⟨⟨slot, i⟩, hslot, hf⟩ := List.mem_filterMap.mp hf
    dsimp only at hf
    split at hf
    · cases hf
    · cases hf
      simpa [Expr.InSynthesized] using hlt hslot
  have hwrites : ∀ e ∈ optionalWrites o slots, e.Every (Expr.InSynthesized (· < slots.length)) := by
    intro e he
    obtain ⟨⟨slot, i⟩, hslot, he⟩ := List.mem_filterMap.mp he
    dsimp only at he
    split at he
    · cases he
      simpa [Expr.InSynthesized, Expr.string] using hlt hslot
    · cases he
  unfold constructorBody
  split
  · simp only [Expr.every_letIn, Expr.every_seq, List.mem_append, List.mem_singleton]
    refine ⟨trivial, hrequired, trivial, fun e he => ?_⟩
    rcases he with he | rfl
    · exact hwrites e he
    · simp [Expr.InSynthesized]
  · exact hrequired

theorem isSynthesized_members {o : Options} {slots : List RecordSlot} :
    ∀ member ∈ members o slots, member.IsSynthesized := by
  intro member hmember
  unfold members at hmember
  rcases List.mem_cons.mp hmember with rfl | hmember
  · intro e he
    simp only [constructor, Member.code, List.mem_singleton] at he
    subst he
    simpa [Member.arity, Member.method?, constructor, MethodKind.isTemplate, Member.takesReceiver]
      using synthesized_constructorBody o slots
  · obtain ⟨slot, -, hmember⟩ := List.mem_flatMap.mp hmember
    rcases List.mem_cons.mp hmember with rfl | hmember
    · refine Member.isSynthesized_synthesized ?_
      cases slot.isOptional <;> simp [Expr.InSynthesized, Expr.string]
    · split at hmember
      · obtain rfl := List.mem_singleton.mp hmember
        refine Member.isSynthesized_synthesized ?_
        cases slot.isOptional <;> simp [Expr.InSynthesized, Expr.string]
      · cases hmember

end RecordSlot

/-! ## Members of a build -/

/-- What a file can bring to a class. -/
inductive SourceFile.Brings (file : SourceFile) (o : Options) : Member → Prop
  | declared {head : TypeHead} {m m' : Marking} {owner : Owner} {d : MemberDecl} {member : Member}
      (hhead : (head, m) ∈ file.marked) (hd : d ∈ head.members)
      (h : d.emit o owner m' = .ok (some member)) : Brings file o member
  | synthesized {member : Member} (h : member.IsSynthesized) : Brings file o member
  | value {bm : Binding × Marking} {member : Member} (hbm : bm ∈ file.markedBindings)
      (h : member ∈ Startup.bindingMembers (file.startupId o.assemblyName) bm) :
      Brings file o member
  | initializer {statements : List Statement}
      (h : ∀ statement ∈ statements, ∃ bm ∈ file.markedBindings,
        Startup.Accepted bm ∧ statement ∈ Startup.bindingStatements bm) :
      Brings file o (.initializer statements)

theorem TypeHead.brings_emittedClass {file : SourceFile} {o : Options} {h : TypeHead} {m : Marking}
    (hhead : (h, m) ∈ file.marked) (hemits : h.Emits o m) :
    ∀ member ∈ (h.emittedClass o m).members, file.Brings o member := by
  intro member hmember
  rcases mem_emittedClass hmember with hmember | ⟨cases, -, hmember⟩ | ⟨slots, -, hmember⟩
  · obtain ⟨d, hd, houtcome⟩ := List.mem_filterMap.mp hmember
    obtain ⟨outcome, hemit⟩ := hemits d hd
    rw [MemberDecl.outcome, hemit] at houtcome
    obtain rfl : outcome = some member := houtcome
    exact .declared hhead hd hemit
  · exact .synthesized (UnionCase.isSynthesized_members member hmember)
  · exact .synthesized (RecordSlot.isSynthesized_members member hmember)

theorem SourceFile.brings_startup {file : SourceFile} {o : Options} {s : Startup}
    (hs : file.startup? o.assemblyName = .ok s) {c : ClassRecord} (hc : s.finish = some c) :
    ∀ member ∈ c.members, file.Brings o member := by
  intro member hmember
  obtain ⟨hid, hholds⟩ := startup_holds hs
  rw [(hholds.finish hc).2, hid] at hmember
  rcases List.mem_append.mp hmember with hmember | hmember
  · obtain ⟨bm, hbm, hmember⟩ := List.mem_flatMap.mp hmember
    exact .value hbm hmember
  · split at hmember
    · cases hmember
    · obtain rfl := List.mem_singleton.mp hmember
      refine .initializer fun statement hstatement => ?_
      rw [hholds.statements] at hstatement
      obtain ⟨bm, hbm, hstatement⟩ := List.mem_flatMap.mp hstatement
      exact ⟨bm, hbm, hholds.accepted bm hbm, hstatement⟩

/-- In a build without errors, all members of classes are brought by the files. -/
theorem Assembly.Compiled.exists_brings {a : Assembly} {o : Options} {b : Build}
    (hb : a.Compiled o b) {c : ClassRecord} (hc : c ∈ b.classes.values) {member : Member}
    (hmember : member ∈ c.members) : ∃ file ∈ a.files, file.Brings o member := by
  obtain ⟨file, hfile, hsource⟩ := hb.class_cases hc
  rcases hsource with ⟨h, m, hhead, hclass, rfl⟩ | ⟨s, hs, hfinish⟩
  · have hemits := hb.emits file hfile (h, m) hhead hclass
    exact ⟨file, hfile, TypeHead.brings_emittedClass hhead hemits member hmember⟩
  · exact ⟨file, hfile, SourceFile.brings_startup hs hfinish member hmember⟩

end Memberwise
