import Mathlib
import Memberwise.Proofs.DeclaredMembers
import Memberwise.Proofs.NestedMarkings
import Memberwise.Proofs.RecordValues

/-!
# Accessors of optional properties

A setter without a wish of its own follows its getter, wherever the two stand among the members of
their type and whatever the type passes on.  The accessors of an optional property then use one slot
of the receiver, under the name that was asked for on the getter or else that of the property.

The slot is stored like that of an optional field of a record, so what is known of such fields
applies.
-/

namespace Memberwise

/-! ## Markings of the accessors -/

theorem Treatment.eq_of_same_optionalSlot {t : Treatment} (h : t.same .optionalSlot = true) :
    t = .optionalSlot := by
  cases t <;> simp_all [same]

/-- Of requests with one for an optional slot comes such a slot, unless they conflict. -/
theorem Treatment.settle?_of_optionalSlot_mem {ts : List Treatment} (hmem : .optionalSlot ∈ ts) :
    settle? ts = some .optionalSlot ∨
      ∃ first second, settle? ts = some (.conflict first second) := by
  cases ts with
  | nil => cases hmem
  | cons first rest =>
    rw [settle?]
    cases hfind : rest.find? fun other => !first.same other with
    | some second => exact .inr ⟨_, _, rfl⟩
    | none =>
      refine .inl (congrArg some ?_)
      rcases List.mem_cons.mp hmem with hfirst | hrest
      · exact hfirst.symm
      · have hsame : first.same .optionalSlot = true := by
          simpa using List.find?_eq_none.mp hfind _ hrest
        exact eq_of_same_optionalSlot hsame

namespace Marking

theorem within_of_treatment {attributes : List Attribute} {t : Treatment}
    (h : (ofAttributes attributes).treatment = some t) (enclosing : Marking) :
    enclosing.within attributes = ofAttributes attributes := by
  simp [within, h]

theorem name_within (enclosing : Marking) (attributes : List Attribute) :
    (enclosing.within attributes).name = (ofAttributes attributes).name := by
  rw [within]
  split_ifs <;> rfl

theorem optionalSlot_of_mem {attributes : List Attribute} (h : .optionalField ∈ attributes) :
    (ofAttributes attributes).treatment = some .optionalSlot ∨
      ∃ first second, (ofAttributes attributes).treatment = some (.conflict first second) := by
  have hasked : .optionalSlot ∈ attributes.filterMap Treatment.ofAttribute? :=
    List.mem_filterMap.mpr ⟨_, h, rfl⟩
  rcases Treatment.settle?_of_optionalSlot_mem hasked with hslot | ⟨first, second, hconflict⟩
  · exact .inl (by rw [ofAttributes, ownTreatment, hslot]; rfl)
  · exact .inr ⟨first, second, by rw [ofAttributes, ownTreatment, hconflict]; rfl⟩

/-- The attributes ask for no treatment, no exclusion and no name. -/
structure Silent (attributes : List Attribute) : Prop where
  treatment : (ofAttributes attributes).treatment = none
  optedOut : (ofAttributes attributes).optedOut = false
  name : (ofAttributes attributes).name = none

/-- A silent setter takes the slot of its getter over, not what its type passes on. -/
theorem Silent.followGetter {attributes : List Attribute} (h : Silent attributes)
    (enclosing : Marking) {getter : Marking} (hgetter : getter.treatment = some .optionalSlot) :
    ((enclosing.within attributes).followGetter getter).treatment = some .optionalSlot ∧
      ((enclosing.within attributes).followGetter getter).name = getter.name := by
  have hown : (ofAttributes attributes).hasOwn = false := by
    rw [hasOwn_ofAttributes, h.treatment]
    rfl
  have hwithin : ((enclosing.within attributes).hasOwn ||
      (enclosing.within attributes).optedOut) = false := by
    rw [within]
    split_ifs <;> exact Bool.or_eq_false_iff.mpr ⟨hown, h.optedOut⟩
  have hname : (enclosing.within attributes).name = none := by rw [name_within, h.name]
  simp [Marking.followGetter, hwithin, hgetter, Treatment.passesToSetter, hname]

end Marking

theorem getterMarking?_of_only {type : Marking} {ds : List MemberDecl} {getter : MemberDecl}
    {property : String} (hmem : getter ∈ ds) (hform : getter.form = .getter property)
    (honly : ∀ d ∈ ds, d.form = .getter property → d = getter) :
    getterMarking? type ds property = some (type.within getter.attributes) := by
  rw [getterMarking?]
  cases hfind : ds.reverse.find? fun d => d.form = .getter property with
  | none =>
    have habsent := List.find?_eq_none.mp hfind getter (List.mem_reverse.mpr hmem)
    exact absurd (decide_eq_true hform) habsent
  | some d =>
    have hd : d ∈ ds := List.mem_reverse.mp (List.mem_of_find?_eq_some hfind)
    have hgets : d.form = .getter property := by simpa using List.find?_some hfind
    rw [honly d hd hgets]
    rfl

/-! ## Bodies of the accessors -/

/-- The slot of an optional property, whatever the type of its values. -/
def RecordSlot.ofProperty (name : String) : RecordSlot where
  name
  type := Ty.named Ty.objectName
  isOptional := true
  isMutable := true
  dateFormat := none

namespace MemberDecl

variable {o : Options} {owner : Owner} {d : MemberDecl} {m : Marking}

theorem emit_optionalSlot (htreatment : m.treatment = some .optionalSlot) {outcome : Option Member}
    (hemit : d.emit o owner m = .ok outcome) :
    ∃ body, d.optionalBody o m = .ok body ∧ outcome = some (d.emittedAs m .inline body) := by
  rw [emit, htreatment] at hemit
  change (d.optionalBody o m >>= fun body => Except.ok (MethodKind.inline, body)) >>= _ = _ at hemit
  cases hbody : d.optionalBody o m with
  | error e =>
    rw [hbody] at hemit
    cases hemit
  | ok body =>
    rw [hbody] at hemit
    exact ⟨body, rfl, (Except.ok.inj hemit).symm⟩

theorem emit_conflict {first second : String} (h : m.treatment = some (.conflict first second))
    (outcome : Option Member) : d.emit o owner m ≠ .ok outcome := by
  rw [emit, h]
  intro hemit
  cases hemit

/-- The body of a getter over an optional slot reads the slot as that of a record field. -/
theorem eq_getterBody {property : String} (hform : d.form = .getter property) {body : Expr}
    (hbody : d.optionalBody o m = .ok body) :
    body = (RecordSlot.ofProperty (m.name.getD property)).getterBody o := by
  rw [optionalBody, hform] at hbody
  split_ifs at hbody
  exact (Except.ok.inj hbody).symm

/-- The body of a setter over an optional slot writes the slot as that of a record field. -/
theorem eq_setterBody {property : String} (hform : d.form = .setter property) {body : Expr}
    (hbody : d.optionalBody o m = .ok body) :
    body = (RecordSlot.ofProperty (m.name.getD property)).setterBody o := by
  rw [optionalBody, hform] at hbody
  split_ifs at hbody
  exact (Except.ok.inj hbody).symm

end MemberDecl

/-- A machine finds the access to the slot under the signature of an accessor. -/
theorem Machine.expands_optionalSlot {machine : Machine} {a : Assembly} {prior : Snapshot}
    {o : Options} (hcompile : a.compile prior o = .ok machine.build) {h : TypeHead} {m : Marking}
    (hregistered : .type h m ∈ a.registrants o) (hclass : h.isClass = true) {d : MemberDecl}
    (hd : d ∈ h.members) (hname : d.NameFits)
    (htreatment : (memberMarking m h.members d).treatment = some .optionalSlot) :
    ∃ body, d.optionalBody o (memberMarking m h.members d) = .ok body ∧
      machine.Expands ⟨h.id, d.signature⟩ body := by
  have hcomplete := Assembly.complete_of_compile hcompile hregistered hclass
  obtain ⟨outcome, hemit⟩ := hcomplete.emits d hd
  obtain ⟨body, hbody, rfl⟩ := MemberDecl.emit_optionalSlot htreatment hemit
  have hlookup := lookup_added (Assembly.build_of_compile hcompile) hregistered hclass
    (hcomplete.mem_added hd hemit) hname
  exact ⟨body, hbody, _, hlookup, rfl, rfl⟩

/-- A value that is written to an optional slot and read again, with the other fields of the
object left alone. -/
theorem Machine.KeepsPrimitives.write_read {machine : Machine} {o : Options}
    (hkeeps : machine.KeepsPrimitives o) {name : String} {setter getter : MethodRef}
    (hset : machine.Expands setter ((RecordSlot.ofProperty name).setterBody o))
    (hget : machine.Expands getter ((RecordSlot.ofProperty name).getterBody o))
    {s : Machine.State} (hdepth : s.depth < maxDepth) {ref : Nat} {t : Table String Value}
    (hobject : s.store.objects[ref]? = some t) (v : Value) :
    ∃ s₁ s₂, machine.call setter (some (.object ref)) [v] s = .ok .undefined s₁ ∧
      machine.call getter (some (.object ref)) [] s₁ =
        .ok (if v.isNullish then .undefined else v) s₂ ∧
      ∀ key, key ≠ name →
        s₂.store.field? (.object ref) key = s.store.field? (.object ref) key := by
  obtain ⟨s₁, hwritten, hdepth₁, hobject₁⟩ := hset.exists_call hdepth (some (.object ref)) [v]
    (P := fun store => store.objects[ref]? = some ((RecordSlot.ofProperty name).put v t))
    fun around =>
      RecordSlot.expr_setterBody hkeeps (s := { s with depth := s.depth + 1 }) hobject
  obtain ⟨s₂, hread, -, hstore⟩ := hget.exists_call (hdepth₁ ▸ hdepth) (some (.object ref)) []
    (P := fun store => store = s₁.store) fun around =>
      RecordSlot.expr_getterBody hkeeps (s := { s₁ with depth := s₁.depth + 1 }) hobject₁
  refine ⟨s₁, s₂, hwritten, ?_, ?_⟩
  · rw [hread, RecordSlot.get?_put, if_pos rfl, RecordSlot.getD_cell]
    rfl
  · intro key hkey
    have hother : (RecordSlot.ofProperty name).name ≠ key := hkey.symm
    simp only [hstore, Store.field?, Store.fields, hobject, hobject₁, Option.getD_some]
    rw [RecordSlot.get?_put, if_neg hother]

/--
What a setter stored is what the getter of the property returns, with undefined for null, and
nothing else of the receiver changes.  The getter asks for an optional slot, under a name or not,
and the setter for nothing; the two may stand in any order among other members.
-/
theorem optional_accessors_share_slot {machine : Machine} {a : Assembly} {prior : Snapshot}
    {o : Options} (hcompile : a.compile prior o = .ok machine.build)
    (hkeeps : machine.KeepsPrimitives o) {h : TypeHead} {m : Marking}
    (hregistered : .type h m ∈ a.registrants o) (hclass : h.isClass = true)
    {getter setter : MemberDecl} (hgetter : getter ∈ h.members) (hsetter : setter ∈ h.members)
    {property : String} (hreads : getter.form = .getter property)
    (hwrites : setter.form = .setter property)
    (honly : ∀ d ∈ h.members, d.form = .getter property → d = getter)
    (hnames : getter.NameFits ∧ setter.NameFits)
    (hoptional : .optionalField ∈ getter.attributes) (hsilent : Marking.Silent setter.attributes)
    {s : Machine.State} (hdepth : s.depth < Machine.maxDepth) {ref : Nat}
    (hobject : ref < s.store.objects.size) (v : Value) :
    ∃ s₁ s₂,
      machine.call ⟨h.id, setter.signature⟩ (some (.object ref)) [v] s = .ok .undefined s₁ ∧
      machine.call ⟨h.id, getter.signature⟩ (some (.object ref)) [] s₁ =
        .ok (if v.isNullish then .undefined else v) s₂ ∧
      ∀ key, key ≠ (Marking.ofAttributes getter.attributes).name.getD property →
        s₂.store.field? (.object ref) key = s.store.field? (.object ref) key := by
  -- A conflict among the attributes of the getter would have been an error.
  have hmarking : memberMarking m h.members getter = m.within getter.attributes := by
    rw [memberMarking, hreads]
  have hasked : (Marking.ofAttributes getter.attributes).treatment = some .optionalSlot := by
    rcases Marking.optionalSlot_of_mem hoptional with hslot | ⟨first, second, hconflict⟩
    · exact hslot
    · obtain ⟨outcome, hemit⟩ :=
        (Assembly.complete_of_compile hcompile hregistered hclass).emits getter hgetter
      rw [hmarking, Marking.within_of_treatment hconflict] at hemit
      exact absurd hemit (MemberDecl.emit_conflict hconflict outcome)
  rw [Marking.within_of_treatment hasked] at hmarking
  -- The setter has the treatment and the name of the getter, so both bodies name one slot.
  have hfollows : memberMarking m h.members setter =
      (m.within setter.attributes).followGetter (Marking.ofAttributes getter.attributes) := by
    rw [memberMarking, hwrites]
    dsimp only
    rw [getterMarking?_of_only hgetter hreads honly, Marking.within_of_treatment hasked]
  obtain ⟨htaken, hname⟩ := hsilent.followGetter m hasked
  rw [← hfollows] at htaken hname
  obtain ⟨_, hbody, hget⟩ := Machine.expands_optionalSlot hcompile hregistered hclass hgetter
    hnames.1 (by rw [hmarking, hasked])
  rw [MemberDecl.eq_getterBody hreads hbody, hmarking] at hget
  obtain ⟨_, hbody, hset⟩ := Machine.expands_optionalSlot hcompile hregistered hclass hsetter
    hnames.2 htaken
  rw [MemberDecl.eq_setterBody hwrites hbody, hname] at hset
  exact hkeeps.write_read hset hget hdepth (Array.getElem?_eq_getElem hobject) v

def badgeSetter : MemberDecl := .setter "Owner" Ty.int32

def badgeGetter : MemberDecl :=
  { MemberDecl.getter "Owner" Ty.int32 with attributes := [.name "owner", .optionalField] }

/-- A stub whose setter stands before the getter, with a method in between. -/
def badgeHead : TypeHead where
  name := "Badge"
  form := .ordinary
  attributes := [.stub]
  members := [badgeSetter, .method "Print" [] Ty.void, badgeGetter]

def badgeAssembly : Assembly where
  name := "Badge"
  files := [{ path := "badge", types := [⟨badgeHead, []⟩] }]

/-- A store with an object that has an owner and a color. -/
def badgeState : Machine.State :=
  { store := { objects := #[⟨[("owner", .int 1), ("color", .int 2)]⟩] } }

theorem badge_accessors_share_slot :
    badgeAssembly.compile {} {} = .ok (Machine.new (badgeAssembly.build {} {})).build ∧
      ∃ s₁ s₂,
        (Machine.new (badgeAssembly.build {} {})).call ⟨badgeHead.id, badgeSetter.signature⟩
          (some (.object 0)) [.null] badgeState = .ok .undefined s₁ ∧
        (Machine.new (badgeAssembly.build {} {})).call ⟨badgeHead.id, badgeGetter.signature⟩
          (some (.object 0)) [] s₁ = .ok .undefined s₂ ∧
        s₂.store.field? (.object 0) "color" = some (.int 2) := by
  have hclean : (badgeAssembly.build {} {}).hasErrors = false := by decide +kernel
  have hcompile : badgeAssembly.compile {} {} =
      .ok (Machine.new (badgeAssembly.build {} {})).build := Assembly.compile_of_clean hclean
  have hkeeps : (Machine.new (badgeAssembly.build {} {})).KeepsPrimitives {} := ⟨rfl, rfl⟩
  have hregistered : .type badgeHead (.within {} badgeHead.attributes) ∈
      badgeAssembly.registrants {} := List.mem_cons_self
  have hgetter : badgeGetter ∈ badgeHead.members := by simp [badgeHead]
  have hsetter : badgeSetter ∈ badgeHead.members := by simp [badgeHead]
  have honly : ∀ d ∈ badgeHead.members, d.form = .getter "Owner" → d = badgeGetter := by
    simp [badgeHead, badgeSetter, MemberDecl.setter, MemberDecl.method]
  have hsilent : Marking.Silent badgeSetter.attributes := ⟨rfl, rfl, rfl⟩
  obtain ⟨s₁, s₂, hset, hget, hothers⟩ := optional_accessors_share_slot hcompile hkeeps hregistered
    rfl hgetter hsetter rfl rfl honly (by decide) (by simp [badgeGetter]) hsilent
    (show badgeState.depth < Machine.maxDepth by decide)
    (show 0 < badgeState.store.objects.size by decide) .null
  exact ⟨hcompile, s₁, s₂, hset, hget, hothers "color" (by decide)⟩

end Memberwise
