import Mathlib
import Memberwise.Proofs.WalkOrder

/-!
# What a startup type holds

A startup type that accepted some top-level values holds exactly the members that
these values bring, one after the other, and initializes the fields in the same
order.  No two of its members have the same key.
-/

namespace Memberwise

/-- Where nothing is repeated, what two elements have in common shows that they are one. -/
theorem eq_of_nodup_flatMap {α β : Type} {l : List α} {f : α → List β} (h : (l.flatMap f).Nodup)
    {x y : α} (hx : x ∈ l) (hy : y ∈ l) {b : β} (hbx : b ∈ f x) (hby : b ∈ f y) : x = y := by
  by_contra hne
  have hsymm : Std.Symm (Function.onFun List.Disjoint f) := ⟨fun _ _ hdisjoint => hdisjoint.symm⟩
  exact (List.nodup_flatMap.mp h).2.forall hx hy hne hbx hby

namespace Startup

/-- The members that an accepted value brings. -/
def bindingMembers (owner : Identity) : Binding × Marking → List Member
  | (b, m) =>
    match m.treatment with
    | some .compiled => fieldMembers owner b m
    | some (.constant value) => [getter b m (.literal value)]
    | _ => []

/-- The statement that fills the field of an accepted value, if it has one. -/
def bindingStatements : Binding × Marking → List Statement
  | (b, m) =>
    match m.treatment with
    | some .compiled => [.init b.name b.value]
    | _ => []

/-- The values that a startup type accepts. -/
def Accepted : Binding × Marking → Prop
  | (b, m) =>
    match m.treatment with
    | none | some (.constant _) => True
    | some .compiled => checkBody b.name b.value b.span = .ok ()
    | some _ => False

theorem Accepted.usable {bm : Binding × Marking} (h : Accepted bm)
    (hcompiled : bm.2.treatment = some .compiled) :
    checkBody bm.1.name bm.1.value bm.1.span = .ok () := by
  simpa only [Accepted, hcompiled] using h

/-- A startup type that accepted exactly some values, in order. -/
structure Holds (s : Startup) (bs : List (Binding × Marking)) : Prop where
  id : ∀ span, (s.typeAt span).id = s.id
  members : ∀ span, (s.typeAt span).members = bs.flatMap (bindingMembers s.id)
  nodup : ∀ span, (s.typeAt span).keys.Nodup
  statements : s.statements = bs.flatMap bindingStatements
  accepted : ∀ bm ∈ bs, Accepted bm

theorem holds_new (assembly path : String) : (new assembly path).Holds [] where
  id _ := rfl
  members _ := rfl
  nodup _ := List.nodup_nil
  statements := rfl
  accepted := by simp

theorem addMembers_ok {type type' : ClassRecord} {span : Span} {members : List Member}
    (h : addMembers type span members = (type', .ok ())) :
    type' = { type with members := type.members ++ members } ∧
      (type.keys.Nodup → type'.keys.Nodup) := by
  induction members generalizing type with
  | nil =>
    cases h
    simp
  | cons member rest ih =>
    unfold addMembers at h
    split at h
    · cases h
    · next next hadd =>
      obtain ⟨hfree, rfl⟩ := ClassRecord.add_ok hadd
      obtain ⟨htype', hnodup⟩ := ih h
      refine ⟨by simpa using htype', fun hkeys => hnodup ?_⟩
      simpa [ClassRecord.keys] using hkeys.concat hfree

theorem Holds.accepted_append {s : Startup} {bs : List (Binding × Marking)} (hs : s.Holds bs)
    {bm : Binding × Marking} (hbm : Accepted bm) : ∀ bm' ∈ bs ++ [bm], Accepted bm' := by
  intro bm' hbm'
  rcases List.mem_append.mp hbm' with hbm' | hbm'
  · exact hs.accepted bm' hbm'
  · obtain rfl := List.mem_singleton.mp hbm'
    exact hbm

/-- A value whose members were added joins those before it. -/
theorem Holds.addAs {s : Startup} {bs : List (Binding × Marking)} (hs : s.Holds bs)
    {b : Binding} {m : Marking} {type : ClassRecord} {statements : List Statement}
    (hadd : addMembers (s.typeAt b.span) b.span (bindingMembers s.id (b, m)) = (type, .ok ()))
    (hstatements : statements = s.statements ++ bindingStatements (b, m))
    (haccepted : Accepted (b, m)) :
    { s with type := some type, statements }.Holds (bs ++ [(b, m)]) := by
  obtain ⟨rfl, hnodup⟩ := addMembers_ok hadd
  refine ⟨fun _ => hs.id b.span, fun _ => ?_, fun _ => hnodup (hs.nodup b.span), ?_,
    hs.accepted_append haccepted⟩
  · rw [List.flatMap_append, List.flatMap_singleton]
    exact congrArg (· ++ bindingMembers s.id (b, m)) (hs.members b.span)
  · rw [hstatements, hs.statements, List.flatMap_append, List.flatMap_singleton]

/-- A value that was accepted joins those before it. -/
theorem Holds.add {s s' : Startup} {bs : List (Binding × Marking)} (hs : s.Holds bs)
    {b : Binding} {m : Marking} (h : s.add b m = (s', .ok ())) :
    s'.name = s.name ∧ s'.Holds (bs ++ [(b, m)]) := by
  unfold Startup.add at h
  split at h
  · next hnone =>
    cases h
    refine ⟨rfl, hs.id, ?_, hs.nodup, ?_, hs.accepted_append (by simp [Accepted, hnone])⟩
    · simpa [bindingMembers, hnone] using hs.members
    · simpa [bindingStatements, hnone] using hs.statements
  · next hcompiled =>
    unfold addField at h
    split at h
    · cases h
    · next husable =>
      split at h
      · cases h
      · next hadd =>
        cases h
        refine ⟨rfl, hs.addAs ?_ ?_ (by simpa [Accepted, hcompiled] using husable)⟩
        · simpa [bindingMembers, hcompiled] using hadd
        · simp [bindingStatements, hcompiled]
  · next value hconstant =>
    rcases hadd : addMembers (s.typeAt b.span) b.span [getter b m (.literal value)]
      with ⟨type, result⟩
    simp only [addConstant, hadd, Prod.mk.injEq] at h
    obtain ⟨rfl, rfl⟩ := h
    refine ⟨rfl, hs.addAs ?_ ?_ (by simp [Accepted, hconstant])⟩
    · simpa [bindingMembers, hconstant] using hadd
    · simp [bindingStatements, hconstant]
  · cases h
  · cases h

theorem Holds.addAll {s s' : Startup} {bs : List (Binding × Marking)} (hs : s.Holds bs)
    {bs' : List (Binding × Marking)} (h : s.addAll bs' = .ok s') :
    s'.name = s.name ∧ s'.Holds (bs ++ bs') := by
  induction bs' generalizing s bs with
  | nil =>
    cases h
    simpa using hs
  | cons bm bs' ih =>
    obtain ⟨b, m⟩ := bm
    rw [Startup.addAll] at h
    split at h
    · next hadd =>
      obtain ⟨hname, hnext⟩ := hs.add hadd
      obtain ⟨hname', hlast⟩ := ih hnext h
      exact ⟨hname'.trans hname, by simpa using hlast⟩
    · cases h

/-- The members of a finished startup type. -/
theorem Holds.finish {s : Startup} {bs : List (Binding × Marking)} (hs : s.Holds bs)
    {c : ClassRecord} (h : s.finish = some c) :
    c.id = s.id ∧ c.members = bs.flatMap (bindingMembers s.id) ++
      (if s.statements.isEmpty then [] else [.initializer s.statements]) := by
  obtain ⟨type, htype, rfl⟩ := Option.map_eq_some_iff.mp h
  have hat : s.typeAt {} = type := by simp [typeAt, htype]
  have hid := hs.id {}
  have hmembers := hs.members {}
  rw [hat] at hid hmembers
  split
  · exact ⟨hid, by simpa using hmembers⟩
  · exact ⟨hid, congrArg (· ++ _) hmembers⟩

/-! ## Reading a startup type -/

theorem key_ne_initializer {owner : Identity} {bm : Binding × Marking} {member : Member}
    (h : member ∈ bindingMembers owner bm) : member.key ≠ .initializer := by
  obtain ⟨b, m⟩ := bm
  simp only [bindingMembers] at h
  split at h
  · simp only [fieldMembers, List.mem_cons] at h
    rcases h with rfl | rfl | h
    · simp [Member.key]
    · simp [Member.key, getter]
    · split at h
      · obtain rfl := List.mem_singleton.mp h
        simp [Member.key, setter]
      · cases h
  · obtain rfl := List.mem_singleton.mp h
    simp [Member.key, getter]
  · cases h

section Holds

variable {s : Startup} {bs : List (Binding × Marking)}

theorem Holds.nodup_keys (hs : s.Holds bs) :
    (bs.flatMap fun bm => (bindingMembers s.id bm).map Member.key).Nodup := by
  have hnodup := hs.nodup {}
  rwa [ClassRecord.keys, hs.members, List.map_flatMap] at hnodup

theorem field_key_mem (owner : Identity) {bm : Binding × Marking}
    (h : bm.2.treatment = some .compiled) :
    .field bm.1.name ∈ (bindingMembers owner bm).map Member.key := by
  obtain ⟨b, m⟩ := bm
  simp_all [bindingMembers, fieldMembers, Member.key]

/-- The values with fields have different names. -/
theorem Holds.eq_of_name_eq (hs : s.Holds bs) {bm bm' : Binding × Marking} (hbm : bm ∈ bs)
    (hbm' : bm' ∈ bs) (h : bm.2.treatment = some .compiled)
    (h' : bm'.2.treatment = some .compiled) (hname : bm.1.name = bm'.1.name) : bm = bm' := by
  exact eq_of_nodup_flatMap hs.nodup_keys hbm hbm' (field_key_mem s.id h)
    (hname ▸ field_key_mem s.id h')

theorem mem_bindingStatements {bm : Binding × Marking} {statement : Statement}
    (h : statement ∈ bindingStatements bm) :
    bm.2.treatment = some .compiled ∧ statement = .init bm.1.name bm.1.value := by
  obtain ⟨b, m⟩ := bm
  simp only [bindingStatements] at h
  split at h
  · next hcompiled => exact ⟨hcompiled, List.mem_singleton.mp h⟩
  · cases h

/-- No field is filled by two statements. -/
theorem Holds.nodup_statements (hs : s.Holds bs) : (bs.flatMap bindingStatements).Nodup := by
  refine List.nodup_flatMap.mpr ⟨fun bm _ => ?_, ?_⟩
  · unfold bindingStatements
    split
    split <;> simp
  · have hkeys := (List.nodup_flatMap.mp hs.nodup_keys).2
    refine hkeys.imp fun {bm bm'} hdisjoint statement h h' => ?_
    obtain ⟨hcompiled, rfl⟩ := mem_bindingStatements h
    obtain ⟨hcompiled', heq⟩ := mem_bindingStatements h'
    have hname : bm.1.name = bm'.1.name := (Statement.init.inj heq).1
    exact hdisjoint (field_key_mem s.id hcompiled) (hname ▸ field_key_mem s.id hcompiled')

theorem Holds.exists_finish (hs : s.Holds bs) {bm : Binding × Marking} (hbm : bm ∈ bs)
    {member : Member} (hmember : member ∈ bindingMembers s.id bm) : ∃ c, s.finish = some c := by
  cases htype : s.type with
  | some type => exact ⟨_, by rw [Startup.finish, htype]; rfl⟩
  | none =>
    have hmembers := hs.members {}
    rw [typeAt, htype] at hmembers
    have hmem : member ∈ bs.flatMap (bindingMembers s.id) :=
      List.mem_flatMap.mpr ⟨bm, hbm, hmember⟩
    rw [← hmembers] at hmem
    cases hmem

/-- The initializer of a finished startup type fills the fields in order. -/
theorem Holds.initializer (hs : s.Holds bs) {c : ClassRecord} (h : s.finish = some c) :
    c.initializer?.getD [] = bs.flatMap bindingStatements := by
  have hkeys : ∀ member ∈ bs.flatMap (bindingMembers s.id), member.key ≠ .initializer := by
    intro member hmember
    obtain ⟨bm, -, hmember⟩ := List.mem_flatMap.mp hmember
    exact key_ne_initializer hmember
  rw [← hs.statements, ClassRecord.initializer?_append (hs.finish h).2 hkeys]
  split
  · next hempty => simp [ClassRecord.initializer?, List.isEmpty_iff.mp hempty]
  · rfl

/-- The methods that the values bring are found in a finished startup type. -/
theorem Holds.method? (hs : s.Holds bs) {c : ClassRecord} (h : s.finish = some c)
    {bm : Binding × Marking} (hbm : bm ∈ bs) {signature : Signature} {r : Method}
    (hmember : .method signature r ∈ bindingMembers s.id bm) : c.method? signature = some r := by
  have hnodup := hs.nodup_keys
  rw [← List.map_flatMap] at hnodup
  exact ClassRecord.method?_of_mem (hs.finish h).2 hnodup
    (List.mem_flatMap.mpr ⟨bm, hbm, hmember⟩)

end Holds

end Startup

/-- The identity of the startup type of a file. -/
def SourceFile.startupId (assembly : String) (file : SourceFile) : Identity :=
  Identity.ofName (Startup.typeName assembly file.path)

/-- The startup type of a file holds the values of the file. -/
theorem SourceFile.startup_holds {file : SourceFile} {assembly : String} {s : Startup}
    (h : file.startup? assembly = .ok s) :
    s.id = file.startupId assembly ∧ s.Holds file.markedBindings := by
  obtain ⟨hname, hholds⟩ := (Startup.holds_new assembly file.path).addAll h
  exact ⟨congrArg Identity.ofName hname, by simpa using hholds⟩

end Memberwise
