import Mathlib
import Memberwise.Proofs.Runs
import Memberwise.Proofs.StartupIdentities

/-!
# Values that a startup type refuses

A value in a static field brings a field, a getter and maybe a setter, which are added one after
the other.  The first of them whose key is taken ends the addition, and those before it stay.

A setter is only ever added after the field of its name, so it cannot be the one that is refused.
A getter can: a constant has a getter and no field.  A value that comes after a constant of its
name and type therefore leaves its field behind when it is refused.  In all other cases a refused
value leaves the startup type as it was.
-/

namespace Memberwise

namespace Startup

/-! ## One value -/

theorem addMembers_of_mem {c : ClassRecord} {member : Member} (h : member.key ∈ c.keys)
    (span : Span) (l : List Member) :
    addMembers c span (member :: l) =
      (c, .error (.duplicateMember c.name member.key.text span)) := by
  simp [addMembers, ClassRecord.add, ClassRecord.contains, h]

theorem addMembers_of_not_mem {c : ClassRecord} {member : Member} (h : member.key ∉ c.keys)
    (span : Span) (l : List Member) :
    addMembers c span (member :: l) =
      addMembers { c with members := c.members ++ [member] } span l := by
  simp [addMembers, ClassRecord.add, ClassRecord.contains, h]

theorem keys_append (c : ClassRecord) (member : Member) :
    ClassRecord.keys { c with members := c.members ++ [member] } = c.keys ++ [member.key] := by
  simp [ClassRecord.keys]

/-- Members are added up to the first one whose key is taken. -/
theorem addMembers_error {c c' : ClassRecord} {span : Span} {l : List Member} {e : CompileError}
    (hl : (l.map Member.key).Nodup) (h : addMembers c span l = (c', .error e)) :
    ∃ front member back, l = front ++ member :: back ∧
      (∀ added ∈ front, added.key ∉ c.keys) ∧ member.key ∈ c.keys ∧
      c' = { c with members := c.members ++ front } := by
  induction l generalizing c with
  | nil => cases h
  | cons first l ih =>
    obtain ⟨hfirst, hrest⟩ := List.nodup_cons.mp hl
    by_cases htaken : first.key ∈ c.keys
    · rw [addMembers_of_mem htaken] at h
      cases h
      exact ⟨[], first, l, rfl, by simp, htaken, by simp⟩
    · rw [addMembers_of_not_mem htaken] at h
      obtain ⟨front, member, back, rfl, hfront, hmember, hc'⟩ := ih hrest h
      rw [keys_append] at hfront hmember
      refine ⟨first :: front, member, back, rfl, ?_, ?_, by simpa using hc'⟩
      · rintro added (_ | ⟨_, hadded⟩)
        · exact htaken
        · exact fun hmem => hfront added hadded (List.mem_append_left _ hmem)
      · refine (List.mem_append.mp hmember).resolve_right fun hsame => hfirst ?_
        rw [← List.mem_singleton.mp hsame]
        exact List.mem_map_of_mem (List.mem_append_right _ List.mem_cons_self)

variable {s : Startup} {b : Binding} {m : Marking}

/-- The keys of the members collected so far. -/
def keys (s : Startup) : List MemberKey := (s.typeAt {}).keys

theorem keys_typeAt (s : Startup) (span : Span) : (s.typeAt span).keys = s.keys := by
  unfold keys typeAt
  cases s.type <;> rfl

/-- Nothing is done, or the members of the value are added to the type as it stands; a statement is
added only if none of them is refused. -/
theorem take_eq_or (s : Startup) (b : Binding) (m : Marking) :
    s.take (b, m) = s ∨
      ∃ type result statements,
        addMembers (s.typeAt b.span) b.span (bindingMembers s.id (b, m)) = (type, result) ∧
        s.add b m = ({ s with type := some type, statements }, result) ∧
        (result ≠ .ok () → statements = s.statements) := by
  cases htreatment : m.treatment with
  | none => exact .inl (by simp [take, add, htreatment])
  | some treatment =>
    cases treatment with
    | compiled =>
      have hmembers : bindingMembers s.id (b, m) = fieldMembers s.id b m := by
        simp [bindingMembers, htreatment]
      rw [hmembers]
      simp only [take, add, htreatment, addField]
      cases checkBody b.name b.value b.span with
      | error e => exact .inl rfl
      | ok _ =>
        refine .inr ?_
        rcases addMembers (s.typeAt b.span) b.span (fieldMembers s.id b m) with ⟨type, e | _⟩
        · exact ⟨type, _, _, rfl, rfl, fun _ => rfl⟩
        · exact ⟨type, _, _, rfl, rfl, fun hne => absurd rfl hne⟩
    | constant value =>
      have hmembers : bindingMembers s.id (b, m) = [getter b m (.literal value)] := by
        simp [bindingMembers, htreatment]
      refine .inr ⟨_, _, s.statements, rfl, ?_, fun _ => rfl⟩
      rw [hmembers]
      simp only [add, htreatment, addConstant]
    | _ => exact .inl (by simp [take, add, htreatment])

/-- A value adds the keys of its first members. -/
theorem keys_take (s : Startup) (b : Binding) (m : Marking) :
    ∃ front, front <+: bindingMembers s.id (b, m) ∧
      (s.take (b, m)).keys = s.keys ++ front.map Member.key := by
  rcases s.take_eq_or b m with hsame | ⟨type, result, statements, hadd, htake, -⟩
  · exact ⟨[], List.nil_prefix, by simp [hsame]⟩
  · have hkeys : (s.take (b, m)).keys = type.keys := by
      rw [take, htake]
      rfl
    rw [hkeys, ← s.keys_typeAt b.span]
    cases result with
    | ok _ =>
      obtain ⟨rfl, -⟩ := addMembers_ok hadd
      exact ⟨_, List.prefix_refl _, by simp [ClassRecord.keys]⟩
    | error e =>
      obtain ⟨front, member, back, hl, -, -, rfl⟩ :=
        addMembers_error (nodup_bindingMembers s.id (b, m)) hadd
      exact ⟨front, hl ▸ List.prefix_append _ _, by simp [ClassRecord.keys]⟩

/-! ## The keys of a startup type -/

/-- The accessors have their fields, but the getters of constants among the values that came. -/
structure Backed (s : Startup) (bs : List (Binding × Marking)) : Prop where
  setter : ∀ name type, .method (.setter name type) ∈ s.keys → .field name ∈ s.keys
  getter : ∀ name type, .method (.getter name type) ∈ s.keys → .field name ∈ s.keys ∨
    ∃ bm ∈ bs, bm.1.name = name ∧ bm.1.type = type ∧
      ∃ value, bm.2.treatment = some (.constant value)

theorem backed_new (assembly path : String) : (new assembly path).Backed [] where
  setter _ _ h := absurd h List.not_mem_nil
  getter _ _ h := absurd h List.not_mem_nil

/-- Among the first members of a value, the field stands before the accessors. -/
theorem field_mem_of_prefix {owner : Identity} {front : List Member}
    (hfront : front <+: bindingMembers owner (b, m)) {signature : Signature}
    (hmem : .method signature ∈ front.map Member.key) :
    (m.treatment = some .compiled ∧ .field b.name ∈ front.map Member.key ∧
        (signature = .getter b.name b.type ∨ signature = .setter b.name b.type)) ∨
      (∃ value, m.treatment = some (.constant value)) ∧ signature = .getter b.name b.type := by
  obtain ⟨member, hmember, hkey⟩ := List.mem_map.mp hmem
  have hall : member ∈ bindingMembers owner (b, m) := hfront.subset hmember
  cases htreatment : m.treatment with
  | none => simp [bindingMembers, htreatment] at hall
  | some treatment =>
    cases treatment with
    | compiled =>
      simp only [bindingMembers, htreatment, fieldMembers] at hfront hall
      obtain ⟨first, front, rfl⟩ := List.exists_cons_of_ne_nil (List.ne_nil_of_mem hmember)
      obtain ⟨rfl, -⟩ := List.cons_prefix_cons.mp hfront
      refine .inl ⟨rfl, by simp [Member.key], ?_⟩
      rcases List.mem_cons.mp hall with rfl | hall
      · cases hkey
      rcases List.mem_cons.mp hall with rfl | hall
      · exact .inl (MemberKey.method.inj hkey).symm
      · split at hall
        · rw [List.mem_singleton.mp hall] at hkey
          exact .inr (MemberKey.method.inj hkey).symm
        · exact absurd hall List.not_mem_nil
    | constant value =>
      simp only [bindingMembers, htreatment] at hall
      rw [List.mem_singleton.mp hall] at hkey
      exact .inr ⟨⟨value, rfl⟩, (MemberKey.method.inj hkey).symm⟩
    | _ => simp [bindingMembers, htreatment] at hall

theorem getter_ne_setter (name name' : String) (type type' : Ty) :
    Signature.getter name type ≠ Signature.setter name' type' := by
  intro heq
  exact List.cons_ne_nil _ _ (Signature.mk.inj heq).2.1.symm

theorem setter_name_injective {name name' : String} {type type' : Ty}
    (h : Signature.setter name type = .setter name' type') : name = name' :=
  (String.append_right_inj _).mp (Signature.mk.inj h).1

theorem Backed.take {bs : List (Binding × Marking)} (hs : s.Backed bs) (b : Binding)
    (m : Marking) : (s.take (b, m)).Backed (bs ++ [(b, m)]) := by
  obtain ⟨front, hfront, hkeys⟩ := s.keys_take b m
  constructor
  · intro name type hmem
    rw [hkeys] at hmem ⊢
    rcases List.mem_append.mp hmem with hold | hnew
    · exact List.mem_append_left _ (hs.setter name type hold)
    · rcases field_mem_of_prefix hfront hnew with ⟨-, hfield, hget | hset⟩ | ⟨-, hget⟩
      · exact absurd hget.symm (getter_ne_setter _ _ _ _)
      · rw [setter_name_injective hset]
        exact List.mem_append_right _ hfield
      · exact absurd hget.symm (getter_ne_setter _ _ _ _)
  · intro name type hmem
    rw [hkeys] at hmem ⊢
    rcases List.mem_append.mp hmem with hold | hnew
    · rcases hs.getter name type hold with hfield | ⟨bm, hbm, hconstant⟩
      · exact .inl (List.mem_append_left _ hfield)
      · exact .inr ⟨bm, List.mem_append_left _ hbm, hconstant⟩
    · rcases field_mem_of_prefix hfront hnew with ⟨-, hfield, hget | hset⟩ | ⟨hconstant, hget⟩
      · rw [(Signature.getter_injective hget).1]
        exact .inl (List.mem_append_right _ hfield)
      · exact absurd hset (getter_ne_setter _ _ _ _)
      · obtain ⟨hname, htype⟩ := Signature.getter_injective hget
        exact .inr ⟨(b, m), by simp, hname.symm, htype.symm, hconstant⟩

theorem backed_foldl_take (assembly path : String) (bs : List (Binding × Marking)) :
    (bs.foldl Startup.take (.new assembly path)).Backed bs := by
  induction bs using List.reverseRecOn with
  | nil => exact backed_new assembly path
  | append_singleton bs bm ih =>
    rw [List.foldl_append]
    exact ih.take bm.1 bm.2

/-! ## Refused values -/

/-- The field of a value. -/
def fieldOf (b : Binding) : Member := .field { name := b.name, type := b.type, isStatic := true }

/-- A compiled value whose field can be added while its getter cannot. -/
structure Strands (s : Startup) (b : Binding) (m : Marking) : Prop where
  compiled : m.treatment = some .compiled
  usable : checkBody b.name b.value b.span = .ok ()
  field : .field b.name ∉ s.keys
  getter : .method (.getter b.name b.type) ∈ s.keys

/-- The static initializer at the end of the finished type, if a value needs it. -/
def ending (s : Startup) : List Member :=
  if s.statements.isEmpty then [] else [.initializer s.statements]

theorem finish_eq (s : Startup) :
    s.finish = s.type.map fun c => { c with members := c.members ++ s.ending } := by
  unfold finish ending
  split <;> simp

/-- As long as there is no type, all keys are free. -/
theorem typeAt_of_mem_keys {key : MemberKey} (h : key ∈ s.keys) (span : Span) :
    s.type = some (s.typeAt span) := by
  unfold keys typeAt at h
  cases htype : s.type with
  | some c => rw [typeAt, htype, Option.getD_some]
  | none =>
    rw [htype] at h
    exact absurd h List.not_mem_nil

/-- The field is added, then the getter is refused. -/
theorem Strands.add_eq (h : s.Strands b m) :
    s.add b m =
      ({ s with
          type := some { s.typeAt b.span with
            members := (s.typeAt b.span).members ++ [fieldOf b] } },
        .error (.duplicateMember (s.typeAt b.span).name
          (MemberKey.method (.getter b.name b.type)).text b.span)) := by
  have hfield : (fieldOf b).key ∉ (s.typeAt b.span).keys := by
    rw [s.keys_typeAt]
    exact h.field
  have hgetter (body : Expr) : (Startup.getter b m body).key ∈
      ClassRecord.keys { s.typeAt b.span with
        members := (s.typeAt b.span).members ++ [fieldOf b] } := by
    rw [keys_append, s.keys_typeAt]
    exact List.mem_append_left _ h.getter
  have hadd (body : Expr) (rest : List Member) :
      addMembers (s.typeAt b.span) b.span (fieldOf b :: Startup.getter b m body :: rest) =
        ({ s.typeAt b.span with members := (s.typeAt b.span).members ++ [fieldOf b] },
          .error (.duplicateMember (s.typeAt b.span).name
            (MemberKey.method (.getter b.name b.type)).text b.span)) := by
    rw [addMembers_of_not_mem hfield]
    exact addMembers_of_mem (hgetter body) b.span rest
  simp only [Startup.add, h.compiled, addField, h.usable]
  rw [fieldMembers, ← fieldOf, hadd]

/-- The first member of a value that is refused is the very first one, or the getter. -/
theorem Backed.refused_cases {bs : List (Binding × Marking)} (hs : s.Backed bs)
    {front back : List Member} {member : Member}
    (hl : bindingMembers s.id (b, m) = front ++ member :: back)
    (hfront : ∀ added ∈ front, added.key ∉ s.keys) (hmember : member.key ∈ s.keys) :
    front = [] ∨ m.treatment = some .compiled ∧ .field b.name ∉ s.keys ∧
      .method (.getter b.name b.type) ∈ s.keys := by
  cases htreatment : m.treatment with
  | none => simp [bindingMembers, htreatment] at hl
  | some treatment =>
    cases treatment with
    | compiled =>
      simp only [bindingMembers, htreatment, fieldMembers] at hl
      rcases front with _ | ⟨first, _ | ⟨second, front⟩⟩
      · exact .inl rfl
      · simp only [List.cons_append, List.nil_append, List.cons.injEq] at hl
        obtain ⟨rfl, rfl, -⟩ := hl
        exact .inr ⟨rfl, hfront _ List.mem_cons_self, hmember⟩
      · -- The setter cannot be taken while the field is free.
        simp only [List.cons_append, List.cons.injEq] at hl
        obtain ⟨rfl, -, hl⟩ := hl
        have hlast : member ∈ front ++ member :: back := by simp
        rw [← hl] at hlast
        split at hlast
        · rw [List.mem_singleton.mp hlast] at hmember
          exact absurd (hs.setter b.name b.type hmember) (hfront _ List.mem_cons_self)
        · exact absurd hlast List.not_mem_nil
    | constant value =>
      cases front with
      | nil => exact .inl rfl
      | cons first front => simp [bindingMembers, htreatment] at hl
    | _ => simp [bindingMembers, htreatment] at hl

/-- A refused value changes nothing unless its field was added before its getter was refused. -/
theorem Backed.take_of_error {bs : List (Binding × Marking)} (hs : s.Backed bs) {e : CompileError}
    (h : (s.add b m).2 = .error e) (hstrands : ¬ s.Strands b m) : s.take (b, m) = s := by
  rcases s.take_eq_or b m with hsame | ⟨type, result, statements, hadd, htake, hstatements⟩
  · exact hsame
  · obtain rfl : result = .error e := by rw [← h, htake]
    obtain rfl := hstatements (by simp)
    obtain ⟨front, member, back, hl, hfront, hmember, rfl⟩ :=
      addMembers_error (nodup_bindingMembers s.id (b, m)) hadd
    rw [s.keys_typeAt] at hmember hfront
    have htype := typeAt_of_mem_keys hmember b.span
    rcases hs.refused_cases hl hfront hmember with rfl | ⟨hcompiled, hfield, hgetter⟩
    · rw [Startup.take, htake, List.append_nil, ← htype]
    · cases husable : checkBody b.name b.value b.span with
      | ok _ => exact absurd ⟨hcompiled, husable, hfield, hgetter⟩ hstrands
      | error e => simp [Startup.take, Startup.add, hcompiled, addField, husable]

end Startup

/--
Values are added to a startup type one after the other, and some may be refused.  A refused value
leaves the finished type as it was, unless the value is compiled, its field is new and its getter
is not.  Then an earlier value of its name and type is a constant, and the field stays behind the
members there were, before the static initializer; nothing else changes.
-/
theorem refused_value_leaves_at_most_its_field (assembly path : String)
    (bs : List (Binding × Marking)) (b : Binding) (m : Marking) (e : CompileError)
    (h : ((bs.foldl Startup.take (.new assembly path)).add b m).2 = .error e) :
    let s := bs.foldl Startup.take (.new assembly path)
    (¬ s.Strands b m → (s.take (b, m)).finish = s.finish) ∧
      (s.Strands b m →
        (∃ bm ∈ bs, bm.1.name = b.name ∧ bm.1.type = b.type ∧
          ∃ value, bm.2.treatment = some (.constant value)) ∧
        ∃ c : ClassRecord, s.finish = some { c with members := c.members ++ s.ending } ∧
          (s.take (b, m)).finish =
            some { c with members := c.members ++ Startup.fieldOf b :: s.ending }) := by
  intro s
  have hs := Startup.backed_foldl_take assembly path bs
  refine ⟨fun hstrands => ?_, fun hstrands => ⟨?_, s.typeAt b.span, ?_, ?_⟩⟩
  · rw [hs.take_of_error h hstrands]
  · exact (hs.getter b.name b.type hstrands.getter).resolve_left hstrands.field
  · rw [s.finish_eq, Startup.typeAt_of_mem_keys hstrands.getter b.span]
    rfl
  · rw [Startup.take, hstrands.add_eq, Startup.finish_eq]
    simp [Startup.ending]

/-- A limit that is a constant or, by another marking, a value. -/
def limitBinding : Binding := { name := "limit", type := Ty.int32, value := .int 4 }

/-- A startup type with a value and a constant limit. -/
def limitStartup : Startup :=
  [({ limitBinding with name := "first" }, { treatment := some .compiled }),
    (limitBinding, { treatment := some (.constant (.int 3)) })].foldl Startup.take
      (.new "App" "limits")

theorem limit_field_left_behind :
    let m : Marking := { treatment := some .compiled }
    (limitStartup.add limitBinding m).2 =
        .error (.duplicateMember "StartupCode$App$limits" "get_limit(): System.Int32" {}) ∧
      limitStartup.Strands limitBinding m ∧
      ∃ c : ClassRecord,
        limitStartup.finish =
          some { c with members := c.members ++ [.initializer [.init "first" (.int 4)]] } ∧
        (limitStartup.take (limitBinding, m)).finish =
          some { c with
            members := c.members ++ [Startup.fieldOf limitBinding,
              .initializer [.init "first" (.int 4)]] } := by
  intro m
  have herror : (limitStartup.add limitBinding m).2 =
      .error (.duplicateMember "StartupCode$App$limits" "get_limit(): System.Int32" {}) := by
    rfl
  have hstrands : limitStartup.Strands limitBinding m :=
    ⟨rfl, rfl, by decide +kernel, by decide +kernel⟩
  obtain ⟨-, hleft⟩ :=
    refused_value_leaves_at_most_its_field "App" "limits" _ limitBinding m _ herror
  exact ⟨herror, hstrands, (hleft hstrands).2⟩

/-- A constant limit has no field, but it gets one from a refused value of its name and type. -/
theorem refused_value_changes_type :
    let refused := limitStartup.add limitBinding { treatment := some .compiled }
    refused.2.isOk = false ∧
      (limitStartup.finish.map ClassRecord.keys) = some [.field "first",
        .method (.getter "first" Ty.int32), .method (.getter "limit" Ty.int32), .initializer] ∧
      (refused.1.finish.map ClassRecord.keys) = some [.field "first",
        .method (.getter "first" Ty.int32), .method (.getter "limit" Ty.int32), .field "limit",
        .initializer] := by
  decide +kernel

end Memberwise
