import Mathlib
import Memberwise.Proofs.SynthesizedMembers

/-!
# Values of unions

A value of a union case that was made by the factory of the case is recognized by the getter of the
tag, and the getters of the fields give back what the factory was given.

The getter of the tag tests for null first, then for the constants in order, and otherwise reads the
tag of an object.  Null stands for at most one case, and then no case is the constant null; so what
the tests find is decided by the constants alone.
-/

namespace Memberwise

namespace UnionCase

/-- The names and constants of a union tell its cases apart, and the names of fields those of a
case. -/
structure Distinguished (cases : List UnionCase) : Prop where
  names : (cases.map UnionCase.name).Nodup
  fields : ∀ c ∈ cases, (c.fields.map Param.name).Nodup
  tagFree : ∀ c ∈ cases, ∀ f ∈ c.fields,
    f.name ≠ tagField ∧ ¬(f.name = "Tag" ∧ f.type = Ty.int32)
  constants : ∀ i j : Fin cases.length, ∀ x ∈ cases[i].constant?, ∀ y ∈ cases[j].constant?,
    ((Value.ofLiteral x).strictEq (.ofLiteral y) = true ↔ i = j)

/-- The signature of the factory of a case. -/
def factory (type : Ty) (c : UnionCase) : Signature :=
  ⟨"New" ++ c.name, c.fields.map Param.type, type, 0⟩

/-- The shape of the case at a position. -/
def shape (o : Options) (m : Marking) (cases : List UnionCase) (k : Nat) (c : UnionCase) :
    CaseShape :=
  ⟨c.name, k, c.form m (nullCase? o.caseLimit cases) k⟩

variable {o : Options} {m : Marking} {type : Ty} {cases : List UnionCase} {c : UnionCase} {k : Nat}

/-! ## The forms of cases -/

theorem form_of_constant {nullCase : Option Nat} {value : Literal} (h : c.constant? = some value) :
    c.form m nullCase k = .constant value := by
  rw [form, h]

theorem constant?_of_form {nullCase : Option Nat} {value : Literal}
    (h : c.form m nullCase k = .constant value) : c.constant? = some value := by
  unfold form at h
  split at h
  · next hvalue => rw [hvalue, CaseForm.constant.inj h]
  · split_ifs at h

theorem nullCase_of_form {nullCase : Option Nat} (h : c.form m nullCase k = .null) :
    nullCase = some k := by
  unfold form at h
  split at h
  · cases h
  · split_ifs at h with hnull
    exact hnull

theorem fields_of_form {nullCase : Option Nat} {fields : List CaseField}
    (h : c.form m nullCase k = .tagged fields) :
    fields = c.fields.map fun f => ⟨f.name, f.type, m.dateFormat? f.name⟩ := by
  unfold form at h
  split at h
  · cases h
  · split_ifs at h
    exact (CaseForm.tagged.inj h).symm

theorem getElem?_shapes (k : Nat) : (shapes o m cases)[k]? = cases[k]?.map (shape o m cases k) :=
  List.getElem?_mapIdx

theorem shape_mem_shapes (hc : cases[k]? = some c) : shape o m cases k c ∈ shapes o m cases := by
  refine List.mem_of_getElem? (i := k) ?_
  rw [getElem?_shapes, hc]
  rfl

theorem exists_of_mem_shapes {s : CaseShape} (hs : s ∈ shapes o m cases) :
    ∃ k c, cases[k]? = some c ∧ s = shape o m cases k c := by
  obtain ⟨k, hk⟩ := List.mem_iff_getElem?.mp hs
  rw [getElem?_shapes] at hk
  obtain ⟨c, hc, rfl⟩ := Option.map_eq_some_iff.mp hk
  exact ⟨k, c, hc, rfl⟩

theorem mem_zip_shapes {s : CaseShape} :
    (c, s) ∈ cases.zip (shapes o m cases) ↔
      ∃ k, cases[k]? = some c ∧ s = shape o m cases k c := by
  rw [List.mem_iff_getElem?]
  simp only [List.getElem?_zip_eq_some, getElem?_shapes, Option.map_eq_some_iff]
  constructor
  · rintro ⟨k, hc, c', hc', rfl⟩
    obtain rfl := Option.some.inj (hc.symm.trans hc')
    exact ⟨k, hc, rfl⟩
  · rintro ⟨k, hc, rfl⟩
    exact ⟨k, hc, c, hc, rfl⟩

/-- The methods of a union are the getter of the tag, the factories and the getters of fields. -/
theorem mem_members {member : Member} :
    member ∈ members o m type cases ↔
      member = .synthesized (.getter "Tag" Ty.int32) (CaseShape.tagBody (shapes o m cases)) []
          false ∨
        ∃ k c, cases[k]? = some c ∧
          (member = .synthesized (c.factory type) (shape o m cases k c).factoryBody
              (c.fields.map Param.name) true ∨
            member ∈ (shape o m cases k c).getters) := by
  unfold members
  simp only [List.mem_cons, List.mem_flatMap, Prod.exists, mem_zip_shapes]
  refine or_congr Iff.rfl ⟨?_, ?_⟩
  · rintro ⟨c, s, ⟨k, hc, rfl⟩, hmember⟩
    exact ⟨k, c, hc, hmember⟩
  · rintro ⟨k, c, hc, hmember⟩
    exact ⟨c, _, ⟨k, hc, rfl⟩, hmember⟩

/-! ## Finding the members -/

theorem factory_ne_getter {property : String} {result : Ty} :
    c.factory type ≠ .getter property result := by
  intro heq
  have hname := congrArg (fun s => String.toList s.name) heq
  simp [factory, Signature.getter] at hname

theorem name_eq_of_factory_eq {c' : UnionCase} (h : c.factory type = c'.factory type) :
    c.name = c'.name :=
  (String.append_right_inj _).mp (Signature.mk.inj h).1

/-- A getter of a field of a case has the name and the type of the field. -/
theorem mem_getters {member : Member}
    (h : member ∈ (shape o m cases k c).getters) :
    ∃ f ∈ c.fields, member =
      .synthesized (.getter f.name f.type) (.field (.hole 0) f.name) [] false := by
  unfold CaseShape.getters at h
  split at h
  · next fields hform =>
    obtain ⟨field, hfield, rfl⟩ := List.mem_map.mp h
    rw [fields_of_form hform] at hfield
    obtain ⟨f, hf, rfl⟩ := List.mem_map.mp hfield
    exact ⟨f, hf, rfl⟩
  · cases h

theorem getter_mem_getters {fields : List CaseField}
    (hform : c.form m (nullCase? o.caseLimit cases) k = .tagged fields) {f : Param}
    (hf : f ∈ c.fields) :
    .synthesized (.getter f.name f.type) (.field (.hole 0) f.name) [] false ∈
      (shape o m cases k c).getters := by
  have hgetters : (shape o m cases k c).getters = fields.map fun f =>
      .synthesized (.getter f.name f.type) (.field (.hole 0) f.name) [] false := by
    rw [CaseShape.getters, shape, hform]
  rw [hgetters, fields_of_form hform, List.map_map]
  exact List.mem_map_of_mem hf

theorem Distinguished.eq_of_name_eq (hcases : Distinguished cases) {k' : Nat} {c' : UnionCase}
    (hc : cases[k]? = some c) (hc' : cases[k']? = some c') (hname : c.name = c'.name) : k = k' := by
  have hget : (cases.map UnionCase.name)[k]? = (cases.map UnionCase.name)[k']? := by
    rw [List.getElem?_map, List.getElem?_map, hc, hc', Option.map_some, Option.map_some, hname]
  obtain ⟨hk, -⟩ := List.getElem?_eq_some_iff.mp hc
  exact (List.getElem?_inj (by simpa using hk) hcases.names).mp hget

/-- The getter of the tag is the only member of its signature. -/
theorem Distinguished.tag_unique (hcases : Distinguished cases) {r : Method}
    (h : .method (.getter "Tag" Ty.int32) r ∈ members o m type cases) :
    Member.method (.getter "Tag" Ty.int32) r = .synthesized (.getter "Tag" Ty.int32)
      (CaseShape.tagBody (shapes o m cases)) [] false := by
  rcases mem_members.mp h with htag | ⟨k, c, hc, hfactory | hgetter⟩
  · exact htag
  · exact absurd (Member.method.inj hfactory).1.symm factory_ne_getter
  · obtain ⟨f, hf, heq⟩ := mem_getters hgetter
    obtain ⟨hname, htype⟩ := Signature.getter_injective (Member.method.inj heq).1
    exact absurd ⟨hname.symm, htype.symm⟩
      (hcases.tagFree c (List.mem_of_getElem? hc) f hf).2

/-- The factory of a case is the only member of its signature. -/
theorem Distinguished.factory_unique (hcases : Distinguished cases) (hc : cases[k]? = some c)
    {r : Method}
    (h : .method (c.factory type) r ∈ members o m type cases) :
    Member.method (c.factory type) r = .synthesized (c.factory type)
      (shape o m cases k c).factoryBody (c.fields.map Param.name) true := by
  rcases mem_members.mp h with htag | ⟨k', c', hc', hfactory | hgetter⟩
  · exact absurd (Member.method.inj htag).1 factory_ne_getter
  · have hname := name_eq_of_factory_eq (Member.method.inj hfactory).1
    obtain rfl := hcases.eq_of_name_eq hc hc' hname
    obtain rfl := Option.some.inj (hc.symm.trans hc')
    exact hfactory
  · obtain ⟨f, -, heq⟩ := mem_getters hgetter
    exact absurd (Member.method.inj heq).1 factory_ne_getter

/-- Fields of one name and type in several cases share their getter. -/
theorem Distinguished.getter_unique (hcases : Distinguished cases) (hc : c ∈ cases)
    {f : Param} (hf : f ∈ c.fields) {r : Method}
    (h : .method (.getter f.name f.type) r ∈ members o m type cases) :
    Member.method (.getter f.name f.type) r =
      .synthesized (.getter f.name f.type) (.field (.hole 0) f.name) [] false := by
  rcases mem_members.mp h with htag | ⟨k', c', hc', hfactory | hgetter⟩
  · exact absurd (Signature.getter_injective (Member.method.inj htag).1)
      (hcases.tagFree c hc f hf).2
  · exact absurd (Member.method.inj hfactory).1.symm factory_ne_getter
  · obtain ⟨f', -, heq⟩ := mem_getters hgetter
    obtain ⟨hname, htype⟩ := Signature.getter_injective (Member.method.inj heq).1
    rw [heq, hname, htype]

end UnionCase

/-! ## Recognizing values -/

namespace CaseShape

/-- The tag of the first constant that a value is the same as. -/
def constantTag? (v : Value) (shapes : List CaseShape) : Option Nat :=
  shapes.findSome? fun s =>
    match s.form with
    | .constant value => if v.strictEq (.ofLiteral value) then some s.tag else none
    | _ => none

variable {machine : Machine} {around : Eval.Surroundings} {frame : Frame} {s : Machine.State}
  {v : Value}

theorem expr_isValue (hv : frame.holes[0]? = some v) (constant : Literal) :
    Eval.expr machine around frame (isValue constant) s =
      .ok (.bool (v.strictEq (.ofLiteral constant))) s := by
  rw [isValue, Eval.expr, Eval.bind_of_ok (Eval.expr_hole hv)]
  · rw [Eval.expr]
    rfl
  · simp
  · simp

theorem expr_constantTags (hv : frame.holes[0]? = some v) (shapes : List CaseShape) :
    Eval.expr machine around frame (constantTags shapes) s =
      match constantTag? v shapes with
      | some tag => .ok (.int (Int64.ofNat tag)) s
      | none => Eval.expr machine around frame (.field (.hole 0) tagField) s := by
  induction shapes with
  | nil => rfl
  | cons first shapes ih =>
    rw [constantTags, constantTag?, List.findSome?_cons]
    cases hform : first.form with
    | constant value =>
      simp only
      rw [Eval.expr_ite (expr_isValue hv value)]
      by_cases hsame : v.strictEq (.ofLiteral value) = true
      · simp only [hsame, Value.truthy, if_true]
        rfl
      · simp only [hsame, Value.truthy]
        exact ih
    | null | tagged => exact ih

/-- A value that is neither null nor a constant of the union is recognized by its tag. -/
theorem expr_tagBody_of_none (hv : frame.holes[0]? = some v) {shapes : List CaseShape}
    (hnull : v.strictEq .null = false) (hconstants : constantTag? v shapes = none) :
    Eval.expr machine around frame (tagBody shapes) s =
      Eval.expr machine around frame (.field (.hole 0) tagField) s := by
  unfold tagBody
  split
  · rw [Eval.expr_ite (expr_isValue hv .null), expr_constantTags hv, hconstants]
    simp [Value.ofLiteral, hnull, Value.truthy]
  · rw [expr_constantTags hv, hconstants]

/-- A constant is recognized by being the first that is the same, unless it is null. -/
theorem expr_tagBody_of_constant (hv : frame.holes[0]? = some v) {shapes : List CaseShape} {k : Nat}
    (hnull : v.strictEq .null = true → shapes.find? isNull = none)
    (hconstants : constantTag? v shapes = some k) :
    Eval.expr machine around frame (tagBody shapes) s = .ok (.int (Int64.ofNat k)) s := by
  unfold tagBody
  split
  · next hfound =>
    have hother : v.strictEq .null = false := by
      by_contra hsame
      rw [hnull (by simpa using hsame)] at hfound
      cases hfound
    rw [Eval.expr_ite (expr_isValue hv .null), expr_constantTags hv, hconstants]
    simp [Value.ofLiteral, hother, Value.truthy]
  · rw [expr_constantTags hv, hconstants]

/-- Null is recognized before anything else. -/
theorem expr_tagBody_of_null (hv : frame.holes[0]? = some .null) {shapes : List CaseShape}
    {shape : CaseShape} (hfound : shapes.find? isNull = some shape) :
    Eval.expr machine around frame (tagBody shapes) s = .ok (.int (Int64.ofNat shape.tag)) s := by
  rw [tagBody, hfound]
  show Eval.expr machine around frame (.ite (isValue .null) (tagExpr shape.tag) _) s = _
  rw [Eval.expr_ite (expr_isValue hv .null)]
  rfl

end CaseShape

/-! ## Null and the constants -/

namespace UnionCase

variable {o : Options} {m : Marking} {cases : List UnionCase} {c : UnionCase} {k : Nat}

/-- Null stands for the case at one position only. -/
theorem tag_of_find_isNull {s : CaseShape}
    (hs : (shapes o m cases).find? CaseShape.isNull = some s) :
    nullCase? o.caseLimit cases = some s.tag := by
  obtain ⟨k, c, -, rfl⟩ := exists_of_mem_shapes (List.mem_of_find?_eq_some hs)
  have hnull : (shape o m cases k c).isNull = true := List.find?_some hs
  unfold CaseShape.isNull at hnull
  split at hnull
  · next hform => exact nullCase_of_form hform
  · cases hnull

/-- Null stands for no case if a case is declared to be the constant null. -/
theorem find_isNull_of_explicit (hc : c ∈ cases) (hnull : c.constant? = some .null) :
    (shapes o m cases).find? CaseShape.isNull = none := by
  cases hfound : (shapes o m cases).find? CaseShape.isNull with
  | none => rfl
  | some s =>
    have hany : cases.any isExplicitNull = true := by
      refine List.any_eq_true.mpr ⟨c, hc, ?_⟩
      rw [isExplicitNull, hnull]
    have htag := tag_of_find_isNull hfound
    simp [nullCase?, hany] at htag

theorem Distinguished.strictEq_iff (hcases : Distinguished cases) {k' : Nat} {c' : UnionCase}
    (hc : cases[k]? = some c) (hc' : cases[k']? = some c') {value value' : Literal}
    (hvalue : c.constant? = some value) (hvalue' : c'.constant? = some value') :
    (Value.ofLiteral value).strictEq (.ofLiteral value') = true ↔ k = k' := by
  obtain ⟨hk, rfl⟩ := List.getElem?_eq_some_iff.mp hc
  obtain ⟨hk', rfl⟩ := List.getElem?_eq_some_iff.mp hc'
  have hconstants := hcases.constants ⟨k, hk⟩ ⟨k', hk'⟩ value hvalue value' hvalue'
  rwa [Fin.mk.injEq] at hconstants

theorem Distinguished.constantTag? (hcases : Distinguished cases) (hc : cases[k]? = some c)
    {value : Literal} (hvalue : c.constant? = some value) :
    CaseShape.constantTag? (.ofLiteral value) (shapes o m cases) = some k := by
  have hself := (hcases.strictEq_iff hc hc hvalue hvalue).mpr rfl
  refine ClassRecord.findSome?_eq_some_of_agree (shape_mem_shapes hc) ?_ fun s hs tag htag => ?_
  · simp only [shape, form_of_constant hvalue, hself, if_true]
  · obtain ⟨k', c', hc', rfl⟩ := exists_of_mem_shapes hs
    split at htag
    · next value' hform =>
      have hvalue' := constant?_of_form hform
      split_ifs at htag with hsame
      rw [← Option.some.inj htag]
      exact ((hcases.strictEq_iff hc hc' hvalue hvalue').mp hsame).symm
    · cases htag

theorem constantTag?_object (ref : Nat) (shapes : List CaseShape) :
    CaseShape.constantTag? (.object ref) shapes = none := by
  refine List.findSome?_eq_none_iff.mpr fun s _ => ?_
  split
  · next value _ => cases value <;> rfl
  · rfl

/-! ## Making values and taking them apart -/

/-- The fields of the object that the factory of a case makes. -/
def objectFields (k : Nat) (c : UnionCase) (args : List Value) : List (String × Value) :=
  (tagField, .int (Int64.ofNat k)) ::
    c.fields.zipIdx.map fun (f, i) => (f.name, args.getD i .undefined)

/-- The value that the factory of a case makes. -/
def made (o : Options) (m : Marking) (cases : List UnionCase) (k : Nat) (c : UnionCase)
    (args : List Value) (store : Store) : Value × Store :=
  match c.form m (nullCase? o.caseLimit cases) k with
  | .constant value => (.ofLiteral value, store)
  | .null => (.null, store)
  | .tagged _ => store.newObject (c.objectFields k args)

variable {machine : Machine} {around : Eval.Surroundings} {s : Machine.State} {args : List Value}

theorem expr_factoryBody (hargs : args.length = c.fields.length) :
    Eval.expr machine around { holes := args } (shape o m cases k c).factoryBody s =
      .ok (made o m cases k c args s.store).1
        { s with store := (made o m cases k c args s.store).2 } := by
  unfold CaseShape.factoryBody made
  dsimp only [shape]
  cases hform : c.form m (nullCase? o.caseLimit cases) k with
  | constant value => rfl
  | null => rfl
  | tagged fields =>
    have hlist : (fields.mapIdx fun i f => (f.name, Expr.hole i)) =
        c.fields.zipIdx.map fun p => (p.1.name, Expr.hole p.2) := by
      rw [List.mapIdx_eq_zipIdx_map, fields_of_form hform, List.zipIdx_map, List.map_map]
      rfl
    have hholes (p : Param × Nat) (hp : p ∈ c.fields.zipIdx) :
        Eval.expr machine around { holes := args } (.hole p.2) s =
          .ok (args.getD p.2 .undefined) s :=
      Eval.expr_hole (getElem?_of_mem_zipIdx hargs hp)
    have htag : Eval.expr machine around { holes := args } (CaseShape.tagExpr k) s =
        .ok (.int (Int64.ofNat k)) s := rfl
    have hnamed : Eval.namedExprs machine around { holes := args }
        ((tagField, CaseShape.tagExpr k) :: fields.mapIdx fun i f => (f.name, Expr.hole i)) s =
          .ok (c.objectFields k args) s := by
      rw [hlist, Eval.namedExprs, Eval.bind_of_ok htag,
        Eval.bind_of_ok (Eval.namedExprs_map hholes)]
      rfl
    show Eval.expr machine around { holes := args } (.object _) s = _
    rw [Eval.expr, Eval.bind_of_ok hnamed]
    rfl

theorem made_of_tagged {fields : List CaseField} (args : List Value) (store : Store)
    (hform : c.form m (nullCase? o.caseLimit cases) k = .tagged fields) :
    made o m cases k c args store = store.newObject (c.objectFields k args) := by
  rw [made, hform]

/-- The getter of the tag gives the position of the case that made a value. -/
theorem Distinguished.expr_tagBody (hcases : Distinguished cases) (hc : cases[k]? = some c)
    {store : Store} (hstore : s.store = (made o m cases k c args store).2) :
    Eval.expr machine around { holes := [(made o m cases k c args store).1] }
      (CaseShape.tagBody (shapes o m cases)) s = .ok (.int (Int64.ofNat k)) s := by
  cases hform : c.form m (nullCase? o.caseLimit cases) k with
  | constant value =>
    have hvalue := constant?_of_form hform
    have hmade : made o m cases k c args store = (.ofLiteral value, store) := by
      rw [made, hform]
    rw [hmade]
    refine CaseShape.expr_tagBody_of_constant rfl ?_ (hcases.constantTag? hc hvalue)
    intro hnull
    refine find_isNull_of_explicit (List.mem_of_getElem? hc) ?_
    cases value with
    | null => exact hvalue
    | bool | int | float | string => cases hnull
  | null =>
    have hmade : made o m cases k c args store = (.null, store) := by
      rw [made, hform]
    have hisNull : (shape o m cases k c).isNull = true := by
      rw [CaseShape.isNull, shape, hform]
    obtain ⟨s', hs'⟩ := Option.isSome_iff_exists.mp
      (List.find?_isSome.mpr ⟨_, shape_mem_shapes hc, hisNull⟩)
    have htag : s'.tag = k :=
      Option.some.inj ((tag_of_find_isNull hs').symm.trans (nullCase_of_form hform))
    rw [hmade, ← htag]
    exact CaseShape.expr_tagBody_of_null rfl hs'
  | tagged fields =>
    rw [made_of_tagged args store hform] at hstore ⊢
    refine (CaseShape.expr_tagBody_of_none rfl rfl (constantTag?_object _ _)).trans ?_
    refine Eval.expr_field rfl ?_
    rw [hstore, Store.read_newObject]
    rfl

/-- The object of a case holds the argument of a field under the name of the field. -/
theorem Distinguished.lookupIn_objectFields (hcases : Distinguished cases) (hc : c ∈ cases)
    (hargs : args.length = c.fields.length) {i : Nat} {f : Param} (hf : c.fields[i]? = some f) :
    Table.lookupIn f.name (c.objectFields k args) = args[i]? := by
  have hmem : (f, i) ∈ c.fields.zipIdx := List.mem_zipIdx_iff_getElem?.mpr hf
  have hkeys : ((c.fields.zipIdx.map fun p => (p.1.name, args.getD p.2 .undefined)).map
      Prod.fst).Nodup := by
    have hnames : ((c.fields.zipIdx.map fun p => (p.1.name, args.getD p.2 Value.undefined)).map
        Prod.fst) = (c.fields.zipIdx.map Prod.fst).map Param.name := by
      rw [List.map_map, List.map_map]
      rfl
    rw [hnames, List.zipIdx_map_fst]
    exact hcases.fields c hc
  have hother : tagField ≠ f.name :=
    (hcases.tagFree c hc f (List.mem_of_getElem? hf)).1.symm
  rw [objectFields, Table.lookupIn, if_neg hother, getElem?_of_mem_zipIdx hargs hmem]
  exact (Table.lookupIn_eq_some_iff hkeys _ _).mpr (List.mem_map_of_mem hmem)

end UnionCase

/-! ## Calls -/

theorem UnionCase.isConstructor_factory (c : UnionCase) (type : Ty) :
    (c.factory type).isConstructor = false := by
  refine beq_eq_false_iff_ne.mpr fun heq => ?_
  have hchars := congrArg String.toList heq
  simp [factory, Signature.constructorName] at hchars

/-- A method that a compiled union brings is what a machine of the build expands. -/
theorem Machine.expands_of_union {machine : Machine} {a : Assembly} {prior : Snapshot}
    {o : Options} (hbuild : machine.build = a.build prior o) {h : TypeHead} {m : Marking}
    (hregistered : .type h m ∈ a.registrants o) (hplain : h.isResource = false)
    {cases : List UnionCase} (hform : h.form = .union cases) (hnone : h.members = [])
    (hcompiled : m.isCompiled = true) {signature : Signature}
    (hmethod : signature.isConstructor = false) {r : Method} (hkind : r.kind = .inline)
    (hr : .method signature r ∈ UnionCase.members o m (.named h.name) cases)
    (hunique : ∀ r', .method signature r' ∈ UnionCase.members o m (.named h.name) cases → r' = r) :
    machine.Expands ⟨h.id, signature⟩ r.body := by
  have hclass : h.isClass = true := by simp [TypeHead.isClass, hplain, hform]
  have hget := get?_registered hbuild hregistered hclass
  have hemitted : h.emittedClass o m =
      { (h.newClass m).addFree (UnionCase.members o m (.named h.name) cases) with
        shape := some (.union (UnionCase.shapes o m cases)) } := by
    rw [TypeHead.emittedClass_of_no_members hnone, TypeHead.augment, if_pos hcompiled, hform]
  have hfound : (h.emittedClass o m).method? signature = some r := by
    rw [hemitted]
    exact ClassRecord.method?_addFree rfl hr hunique
  exact ⟨r, lookup_method hget hmethod hfound, hkind, rfl⟩

/-- What the factory of a case makes is recognized as a value of the case, and if it is an object
the getters of the fields give back the arguments. -/
theorem union_values_round_trip {machine : Machine} {a : Assembly} {prior : Snapshot} {o : Options}
    (hbuild : machine.build = a.build prior o) {h : TypeHead} {m : Marking}
    (hregistered : .type h m ∈ a.registrants o) (hplain : h.isResource = false)
    {cases : List UnionCase} (hform : h.form = .union cases) (hnone : h.members = [])
    (hcompiled : m.isCompiled = true) (hcases : UnionCase.Distinguished cases)
    {k : Nat} {c : UnionCase} (hc : cases[k]? = some c) {args : List Value}
    (hargs : args.length = c.fields.length) {s : Machine.State}
    (hdepth : s.depth < Machine.maxDepth) :
    ∃ v s', machine.call ⟨h.id, c.factory (.named h.name)⟩ none args s = .ok v s' ∧
      machine.call ⟨h.id, .getter "Tag" Ty.int32⟩ (some v) [] s' = .ok (.int (Int64.ofNat k)) s' ∧
      ∀ fields, c.form m (UnionCase.nullCase? o.caseLimit cases) k = .tagged fields →
        ∀ (i : Nat) (f : Param), c.fields[i]? = some f → ∃ arg, args[i]? = some arg ∧
          machine.call ⟨h.id, .getter f.name f.type⟩ (some v) [] s' = .ok arg s' := by
  have hcmem := List.mem_of_getElem? hc
  have hexpands := @Machine.expands_of_union machine a prior o hbuild h m hregistered hplain cases
    hform hnone hcompiled
  let made := UnionCase.made o m cases k c args s.store
  have hdepth' : ({ s with store := made.2 } : Machine.State).depth < Machine.maxDepth := hdepth
  refine ⟨made.1, { s with store := made.2 }, ?_, ?_, ?_⟩
  · have hfactory := hexpands (c.isConstructor_factory _) rfl
      (UnionCase.mem_members.mpr (.inr ⟨k, c, hc, .inl rfl⟩))
      fun r' hr' => (Member.method.inj (hcases.factory_unique hc hr')).2
    exact hfactory.call_of_ok hdepth none args fun around => UnionCase.expr_factoryBody hargs
  · have htag := hexpands (Signature.isConstructor_getter ..) rfl
      (UnionCase.mem_members.mpr (.inl rfl))
      fun r' hr' => (Member.method.inj (hcases.tag_unique hr')).2
    exact htag.call_of_ok hdepth' (some made.1) [] fun around => hcases.expr_tagBody hc rfl
  · intro fields htagged i f hf
    have hfmem := List.mem_of_getElem? hf
    have hposition : (f, i) ∈ c.fields.zipIdx := List.mem_zipIdx_iff_getElem?.mpr hf
    have harg := getElem?_of_mem_zipIdx hargs hposition
    have hgetter : Member.synthesized (.getter f.name f.type) (.field (.hole 0) f.name) [] false ∈
        UnionCase.members o m (.named h.name) cases := by
      refine UnionCase.mem_members.mpr (.inr ⟨k, c, hc, .inr ?_⟩)
      exact UnionCase.getter_mem_getters htagged hfmem
    have hfield := hexpands (Signature.isConstructor_getter ..) rfl hgetter
      fun r' hr' => (Member.method.inj (hcases.getter_unique hcmem hfmem hr')).2
    refine ⟨_, harg, hfield.call_of_ok hdepth' (some made.1) [] fun around => ?_⟩
    refine Eval.expr_field rfl ?_
    show made.2.read made.1 f.name = _
    rw [show made = _ from UnionCase.made_of_tagged args s.store htagged, Store.read_newObject,
      hcases.lookupIn_objectFields hcmem hargs hf, harg]
    rfl

/-- A case with two fields, one of them named like the tag. -/
def fullCase : UnionCase :=
  { name := "Full", fields := [⟨"by", Ty.int32⟩, ⟨"Tag", .named "System.String"⟩] }

/-- The cases of a load: one that null stands for, two constants and one with fields. -/
def loadCases : List UnionCase := [
  { name := "Empty", fields := [] },
  { name := "Lost", fields := [], attributes := [.constant (.int 0)] },
  fullCase,
  { name := "Broken", fields := [], attributes := [.constant (.bool false)] }]

def loadHead : TypeHead :=
  { name := "Load", form := .union loadCases, attributes := [.javaScript true] }

def loadAssembly : Assembly where
  name := "Load"
  files := [{ path := "load", types := [{ head := loadHead, nested := [] }] }]

def loadMachine : Machine := { build := loadAssembly.build {} { caseLimit := 5 } }

theorem load_full_round_trip :
    UnionCase.Distinguished loadCases ∧
      ∃ v s', loadMachine.call ⟨loadHead.id, fullCase.factory (.named "Load")⟩ none
          [.int 7, .string "noon"] {} = .ok v s' ∧
        loadMachine.call ⟨loadHead.id, .getter "Tag" Ty.int32⟩ (some v) [] s' = .ok (.int 2) s' ∧
        loadMachine.call ⟨loadHead.id, .getter "Tag" (.named "System.String")⟩ (some v) [] s' =
          .ok (.string "noon") s' := by
  have hcases : UnionCase.Distinguished loadCases :=
    ⟨by decide, by decide, by decide, by decide +kernel⟩
  have hbuild : loadMachine.build = loadAssembly.build {} { caseLimit := 5 } := rfl
  have hregistered : .type loadHead (Marking.within {} loadHead.attributes) ∈
      loadAssembly.registrants { caseLimit := 5 } := List.mem_cons_self
  have hfull : loadCases[2]? = some fullCase := rfl
  have hargs : [Value.int 7, .string "noon"].length = fullCase.fields.length := rfl
  have hdepth : ({} : Machine.State).depth < Machine.maxDepth := by decide
  obtain ⟨v, s', hnew, htag, hfields⟩ := union_values_round_trip hbuild hregistered rfl rfl rfl rfl
    hcases hfull hargs hdepth
  obtain ⟨arg, harg, hgetter⟩ := hfields _ rfl 1 _ rfl
  obtain rfl := Option.some.inj harg
  exact ⟨hcases, v, s', hnew, htag, hgetter⟩

end Memberwise
