import Mathlib
import Memberwise.Proofs.Conflicts

/-!
# Markings by sets of attributes

How a declaration is treated is decided by which attributes it has, not by their order and not by
how often they stand there.  Attributes are compared as constants are, by what they show, so that
the two zeros are one attribute; what is the same for attributes is then the same for treatments.
Only the two names that a conflict is reported with are those of the attributes that come first.

A request for compilation, or against it, has no say beside any other treatment.  It may be added
and left out anywhere, and no part of the marking changes.
-/

namespace Memberwise

/-! ## Attributes that are the same -/

namespace Attribute

/-- Whether two attributes are the same, with constants compared by what they show. -/
def same : Attribute → Attribute → Bool
  | javaScript a, javaScript b => a == b
  | inline a, inline b => a == b
  | direct a, direct b => a == b
  | constant a, constant b => a.same b
  | stub, stub => true
  | noFallback, noFallback => true
  | optionalField, optionalField => true
  | remote a, remote b => a == b
  | generated g p, generated g' p' => g == g' && Treatment.sameParameter p p'
  | name a, name b => a == b
  | require a, require b => a == b
  | expand e p, expand e' p' => e == e' && Treatment.sameParameter p p'
  | pure, pure => true
  | entryPoint, entryPoint => true
  | proxy a, proxy b => a == b
  | dateFormat a b, dateFormat a' b' => a == a' && b == b'
  | other a, other b => a == b
  | _, _ => false

/-- Two lists have the same attributes, in whatever order and however often. -/
def SameSet (l l' : List Attribute) : Prop :=
  (∀ a ∈ l, ∃ b ∈ l', a.same b = true) ∧ ∀ b ∈ l', ∃ a ∈ l, b.same a = true

instance (l l' : List Attribute) : Decidable (SameSet l l') :=
  inferInstanceAs (Decidable (_ ∧ _))

/-- The same attributes ask for the same treatment, or for none. -/
theorem rel_ofAttribute? {a b : Attribute} (h : a.same b = true) :
    Option.Rel (fun t u => t.same u = true) (Treatment.ofAttribute? a)
      (Treatment.ofAttribute? b) := by
  by_cases heq : a = b
  · subst heq
    cases Treatment.ofAttribute? a with
    | none => exact .none
    | some t => exact .some t.same_refl
  · -- only attributes with a constant can be the same without being equal
    cases a <;> cases b <;> simp_all [same]
    case constant.constant => exact .some h
    case generated.generated => exact .some (by simp [Treatment.same, h])
    case expand.expand => exact .none

theorem SameSet.symm {l l' : List Attribute} (h : SameSet l l') : SameSet l' l := ⟨h.2, h.1⟩

/-- Whether an attribute without a constant is there is the same for lists with the same
attributes. -/
theorem SameSet.any_eq {l l' : List Attribute} (h : SameSet l l') {x : Attribute}
    {p : Attribute → Bool} (hp : ∀ a, p a = true ↔ a = x) (hx : ∀ b, x.same b = true → b = x) :
    l.any p = l'.any p := by
  have hany {l l' : List Attribute} (h : SameSet l l') (hl : l.any p = true) :
      l'.any p = true := by
    obtain ⟨a, ha, hpa⟩ := List.any_eq_true.mp hl
    obtain rfl := (hp a).mp hpa
    obtain ⟨b, hb, hsame⟩ := h.1 a ha
    obtain rfl := hx b hsame
    exact List.any_eq_true.mpr ⟨b, hb, hpa⟩
  exact Bool.eq_iff_iff.mpr ⟨hany h, hany h.symm⟩

theorem SameSet.exists_treatment {l l' : List Attribute} (h : SameSet l l') {t : Treatment}
    (ht : t ∈ l.filterMap Treatment.ofAttribute?) :
    ∃ u ∈ l'.filterMap Treatment.ofAttribute?, t.same u = true := by
  obtain ⟨a, ha, hat⟩ := List.mem_filterMap.mp ht
  obtain ⟨b, hb, hsame⟩ := h.1 a ha
  have hrel := rel_ofAttribute? hsame
  rw [hat] at hrel
  cases hbu : Treatment.ofAttribute? b with
  | none => simp [hbu] at hrel
  | some u => exact ⟨u, List.mem_filterMap.mpr ⟨b, hb, hbu⟩, by simpa [hbu] using hrel⟩

end Attribute

/-! ## What requests settle to -/

namespace Treatment

theorem same_symm {t u : Treatment} (h : t.same u = true) : u.same t = true :=
  same_of_common h t.same_refl

theorem same_trans {t u v : Treatment} (h : t.same u = true) (h' : u.same v = true) :
    t.same v = true :=
  same_of_common (same_symm h) h'

/-- Whether two treatments are the same or both conflicts, whatever is in conflict. -/
def agrees (t u : Treatment) : Bool := t.same u || (t.isConflict && u.isConflict)

/-- Requests settle to one of them, unless they conflict. -/
theorem mem_of_settle? {ts : List Treatment} {t : Treatment} (h : settle? ts = some t)
    (hcalm : t.isConflict = false) : t ∈ ts := by
  cases ts with
  | nil => cases h
  | cons first rest =>
    rw [settle?] at h
    split at h
    · cases h
      exact List.mem_cons_self
    · cases h
      cases hcalm

theorem isSome_settle? (ts : List Treatment) : (settle? ts).isSome = !ts.isEmpty := by
  cases ts with
  | nil => rfl
  | cons first rest =>
    rw [settle?]
    split <;> rfl

/-- Requests that all occur among others. -/
def Covered (ts us : List Treatment) : Prop := ∀ t ∈ ts, ∃ u ∈ us, t.same u = true

section Covered

variable {ts us : List Treatment} (hts : Covered ts us)

include hts

theorem Covered.ne_nil (h : ts ≠ []) : us ≠ [] := by
  obtain ⟨t, ht⟩ := List.exists_mem_of_ne_nil ts h
  obtain ⟨u, hu, -⟩ := hts t ht
  exact List.ne_nil_of_mem hu

theorem Covered.exists_differing (h : ∃ t ∈ ts, ∃ t' ∈ ts, t.same t' = false) :
    ∃ u ∈ us, ∃ u' ∈ us, u.same u' = false := by
  obtain ⟨t, ht, t', ht', hdiffers⟩ := h
  obtain ⟨u, hu, hsame⟩ := hts t ht
  obtain ⟨u', hu', hsame'⟩ := hts t' ht'
  refine ⟨u, hu, u', hu', ?_⟩
  by_contra hus
  have htt' : t.same t' = true :=
    same_trans (same_trans hsame (Bool.eq_true_of_not_eq_false hus)) (same_symm hsame')
  rw [htt'] at hdiffers
  cases hdiffers

/-- Requests that occur among each other settle to the same treatment, or both to a conflict. -/
theorem Covered.rel_settle? (hus : Covered us ts) (hcalm : ∀ t ∈ ts, t.isConflict = false)
    (hcalm' : ∀ u ∈ us, u.isConflict = false) :
    Option.Rel (fun t u => t.agrees u = true) (settle? ts) (settle? us) := by
  have hsome : (settle? ts).isSome = (settle? us).isSome := by
    rw [isSome_settle?, isSome_settle?, Bool.eq_iff_iff]
    simpa using ⟨hts.ne_nil, hus.ne_nil⟩
  have hboth : (settle? ts).any isConflict = (settle? us).any isConflict := by
    rw [Bool.eq_iff_iff, isConflict_settle?_iff hcalm, isConflict_settle?_iff hcalm']
    exact ⟨hts.exists_differing, hus.exists_differing⟩
  cases ht : settle? ts with
  | none =>
    cases hu : settle? us with
    | none => exact .none
    | some u => simp [ht, hu] at hsome
  | some t =>
    cases hu : settle? us with
    | none => simp [ht, hu] at hsome
    | some u =>
      rw [ht, hu, Option.any_some, Option.any_some] at hboth
      refine .some ?_
      cases hconflict : u.isConflict with
      | true => simp [agrees, hboth, hconflict]
      | false =>
        obtain ⟨u', hu', hsame⟩ := hts t (mem_of_settle? ht (hboth.trans hconflict))
        have hsame' : u'.same u = true := by
          by_contra hdiffers
          have hus := (isConflict_settle?_iff hcalm').mpr
            ⟨u', hu', u, mem_of_settle? hu hconflict, Bool.eq_false_of_not_eq_true hdiffers⟩
          rw [hu, Option.any_some, hconflict] at hus
          cases hus
        simp [agrees, same_trans hsame hsame']

end Covered

end Treatment

/-! ## Requests for compilation -/

/-- Whether an attribute asks for compilation or against it. -/
def Attribute.concernsSource : Attribute → Bool
  | javaScript _ => true
  | _ => false

theorem Attribute.filterMap_filter_source {β : Type} {f : Attribute → Option β}
    (hf : ∀ enabled, f (.javaScript enabled) = none) (l : List Attribute) :
    (l.filter fun a => !a.concernsSource).filterMap f = l.filterMap f := by
  rw [List.filterMap_filter]
  congr 1
  funext a
  cases a <;> simp [concernsSource, hf]

theorem Attribute.any_filter_source {p : Attribute → Bool}
    (hp : ∀ enabled, p (.javaScript enabled) = false) (l : List Attribute) :
    (l.filter fun a => !a.concernsSource).any p = l.any p := by
  rw [List.any_filter]
  congr 1
  funext a
  cases a <;> simp [concernsSource, hp]

namespace Marking

/-- Some attribute asks for another treatment than compilation from source. -/
def AsksForOther (l : List Attribute) : Prop :=
  ∃ a ∈ l, (Treatment.ofAttribute? a).isSome = true

instance (l : List Attribute) : Decidable (AsksForOther l) :=
  inferInstanceAs (Decidable (∃ a ∈ l, (Treatment.ofAttribute? a).isSome = true))

theorem ownTreatment_of_other {l : List Attribute} (h : AsksForOther l) :
    ownTreatment l = Treatment.settle? (l.filterMap Treatment.ofAttribute?) ∧
      (ownTreatment l).isSome = true := by
  obtain ⟨a, ha, hsome⟩ := h
  obtain ⟨t, ht⟩ := Option.isSome_iff_exists.mp hsome
  have hsettled : (Treatment.settle? (l.filterMap Treatment.ofAttribute?)).isSome = true := by
    have hne : l.filterMap Treatment.ofAttribute? ≠ [] :=
      List.ne_nil_of_mem (List.mem_filterMap.mpr ⟨a, ha, ht⟩)
    simpa [Treatment.isSome_settle?] using hne
  obtain ⟨settled, hsettled⟩ := Option.isSome_iff_exists.mp hsettled
  simp [ownTreatment, hsettled]

theorem asksForOther_filter_iff {l : List Attribute} :
    AsksForOther (l.filter fun a => !a.concernsSource) ↔ AsksForOther l := by
  constructor
  · rintro ⟨a, ha, hsome⟩
    exact ⟨a, List.mem_of_mem_filter ha, hsome⟩
  · rintro ⟨a, ha, hsome⟩
    have hother : a.concernsSource = false := by
      cases a with
      | javaScript => cases hsome
      | _ => rfl
    exact ⟨a, List.mem_filter.mpr ⟨ha, by simp [hother]⟩, hsome⟩

/-- Beside other requests those for compilation count for nothing. -/
theorem ofAttributes_filter {l : List Attribute} (h : AsksForOther l) :
    ofAttributes (l.filter fun a => !a.concernsSource) = ofAttributes l := by
  obtain ⟨hsettled, hsome⟩ := ownTreatment_of_other h
  have hown : ownTreatment (l.filter fun a => !a.concernsSource) = ownTreatment l := by
    rw [hsettled, (ownTreatment_of_other (asksForOther_filter_iff.mpr h)).1,
      Attribute.filterMap_filter_source fun _ => rfl]
  unfold ofAttributes
  rw [hown]
  congr 1
  case e_optedOut => simp [Option.isNone_eq_false_iff.mpr hsome]
  case e_isPure | e_isEntryPoint => exact Attribute.any_filter_source (fun _ => rfl) l
  case e_name | e_proxyOf =>
    exact congrArg List.getLast? (Attribute.filterMap_filter_source (fun _ => rfl) l)
  case e_requires | e_expansions | e_dateFormats =>
    exact Attribute.filterMap_filter_source (fun _ => rfl) l

/-! ## Markings of the same attributes -/

/-- Two markings treat a declaration in the same way, up to what a conflict is between. -/
structure AgreesWith (m m' : Marking) : Prop where
  treatment : Option.Rel (fun t u => t.agrees u = true) m.treatment m'.treatment
  hasOwn : m.hasOwn = m'.hasOwn
  optedOut : m.optedOut = m'.optedOut
  isPure : m.isPure = m'.isPure
  isEntryPoint : m.isEntryPoint = m'.isEntryPoint

section SameSet

variable {l l' : List Attribute} (h : Attribute.SameSet l l')

include h

theorem asksForSource_eq : asksForSource l = asksForSource l' := by
  refine h.any_eq (fun a => ?_) (fun b hb => ?_) (x := .javaScript true)
  · cases a with
    | javaScript enabled => cases enabled <;> simp
    | _ => simp
  · cases b <;> simp_all [Attribute.same]

theorem asksForExclusion_eq : asksForExclusion l = asksForExclusion l' := by
  refine h.any_eq (fun a => ?_) (fun b hb => ?_) (x := .javaScript false)
  · cases a with
    | javaScript enabled => cases enabled <;> simp
    | _ => simp
  · cases b <;> simp_all [Attribute.same]

theorem isPure_eq : (ofAttributes l).isPure = (ofAttributes l').isPure := by
  refine h.any_eq (fun a => ?_) (fun b hb => ?_) (x := .pure)
  · cases a <;> simp
  · cases b <;> simp_all [Attribute.same]

theorem isEntryPoint_eq : (ofAttributes l).isEntryPoint = (ofAttributes l').isEntryPoint := by
  refine h.any_eq (fun a => ?_) (fun b hb => ?_) (x := .entryPoint)
  · cases a <;> simp
  · cases b <;> simp_all [Attribute.same]

theorem rel_ownTreatment :
    Option.Rel (fun t u => t.agrees u = true) (ownTreatment l) (ownTreatment l') := by
  have hcalm {l : List Attribute} :
      ∀ t ∈ l.filterMap Treatment.ofAttribute?, t.isConflict = false := by
    intro t ht
    obtain ⟨a, -, hat⟩ := List.mem_filterMap.mp ht
    exact Treatment.isConflict_ofAttribute? hat
  have hsettled := Treatment.Covered.rel_settle? (fun _ => h.exists_treatment)
    (fun _ => h.symm.exists_treatment) hcalm hcalm
  unfold ownTreatment
  rw [asksForSource_eq h]
  generalize Treatment.settle? (l.filterMap Treatment.ofAttribute?) = settled at hsettled ⊢
  generalize Treatment.settle? (l'.filterMap Treatment.ofAttribute?) = settled' at hsettled ⊢
  cases hsettled with
  | some hagrees => exact .some hagrees
  | none =>
    cases asksForSource l' with
    | true => exact .some rfl
    | false => exact .none

theorem agreesWith_ofAttributes : (ofAttributes l).AgreesWith (ofAttributes l') := by
  have htreatment := rel_ownTreatment h
  have hsome : (ownTreatment l).isSome = (ownTreatment l').isSome := by
    generalize ownTreatment l = t at htreatment ⊢
    generalize ownTreatment l' = t' at htreatment ⊢
    cases htreatment <;> rfl
  refine ⟨htreatment, hsome, ?_, isPure_eq h, isEntryPoint_eq h⟩
  simp only [ofAttributes, asksForExclusion_eq h, ← Option.not_isSome, hsome]

end SameSet

/--
Lists with the same attributes, in whatever order and however often, make markings that agree: on
the treatment, up to what a conflict is between, on whether it is the declaration's own wish, on
opting out, on purity and on being an entry point.  The treatment is a conflict exactly if two
attributes ask for treatments that are not the same.  Beside a request for another treatment those
for compilation and against it change nothing in the marking, wherever and however often they
stand.
-/
theorem marking_by_set_of_attributes (l : List Attribute) :
    (∀ l', Attribute.SameSet l l' → (ofAttributes l).AgreesWith (ofAttributes l')) ∧
      ((ofAttributes l).isConflict = true ↔ Attribute.Conflicting l) ∧
      (AsksForOther l → ∀ l' : List Attribute,
        (l'.filter fun a => !a.concernsSource) = (l.filter fun a => !a.concernsSource) →
          ofAttributes l' = ofAttributes l) := by
  refine ⟨fun l' h => agreesWith_ofAttributes h, isConflict_ofAttributes_iff l, ?_⟩
  intro hother l' hfilter
  have hother' : AsksForOther l' := by
    rw [← asksForOther_filter_iff, hfilter, asksForOther_filter_iff]
    exact hother
  rw [← ofAttributes_filter hother', hfilter, ofAttributes_filter hother]

/-- A pure stub that is also a constant, and the same attributes in another order. -/
theorem stub_and_constant_agree :
    let l : List Attribute := [.javaScript false, .stub, .constant (.int 3), .pure, .stub]
    let l' : List Attribute := [.constant (.int 3), .pure, .javaScript false, .pure, .stub]
    Attribute.SameSet l l' ∧ (ofAttributes l).AgreesWith (ofAttributes l') ∧
      (ofAttributes l).treatment = some (.conflict "Stub" "Constant") ∧
      (ofAttributes l').treatment = some (.conflict "Constant" "Stub") ∧
      Attribute.Conflicting l ∧
      AsksForOther l ∧
      ofAttributes [.stub, .javaScript true, .constant (.int 3), .pure, .stub, .javaScript false] =
        ofAttributes l := by
  intro l l'
  obtain ⟨hset, hconflict, hsource⟩ := marking_by_set_of_attributes l
  have hsame : Attribute.SameSet l l' := by decide
  have hother : AsksForOther l := by decide
  exact ⟨hsame, hset l' hsame, rfl, rfl, hconflict.mp rfl, hother, hsource hother _ rfl⟩

end Marking

end Memberwise
