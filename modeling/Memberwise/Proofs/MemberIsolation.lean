import Mathlib
import Memberwise.Proofs.Duplicates
import Memberwise.Proofs.SideTables

/-!
# What one member can affect

A member fails, is left out or is emitted by itself.  Whatever becomes of it, the class around it
keeps all other members in order, and all other types stay as they are.  Only two kinds of members
depend on it: those under its own key, since the first of a key is the one that is taken, and, if
it is a getter, the setters of its property, since they may follow it.

An assembly with a type at a site is looked at as a function of the members of that type.
-/

namespace Memberwise

/-! ## Members under other keys -/

/-- The key of what a declared member becomes. -/
def MemberDecl.key (d : MemberDecl) : MemberKey :=
  match d.form with
  | .constructor => .constructor d.signature
  | _ => .method d.signature

/-- The keys that a member of a type can have an effect on. -/
def MemberDecl.affected (ds : List MemberDecl) (d : MemberDecl) : List MemberKey :=
  d.key :: match d.form with
    | .getter property => (ds.filter fun s => s.form = .setter property).map key
    | _ => []

namespace ClassRecord

/-- A class without the members that have certain keys. -/
def outside (keys : List MemberKey) (c : ClassRecord) : ClassRecord :=
  { c with members := c.members.filter fun member => member.key ∉ keys }

variable (keys : List MemberKey) (c : ClassRecord)

theorem contains_outside {key : MemberKey} (hkey : key ∉ keys) :
    (c.outside keys).contains key = c.contains key := by
  rw [Bool.eq_iff_iff]
  simp only [contains, ClassRecord.keys, outside, List.contains_iff_mem, List.mem_map,
    List.mem_filter, decide_eq_true_eq]
  constructor
  · rintro ⟨member, ⟨hmember, -⟩, rfl⟩
    exact ⟨member, hmember, rfl⟩
  · rintro ⟨member, hmember, rfl⟩
    exact ⟨member, ⟨hmember, hkey⟩, rfl⟩

/-- Which members are added under other keys does not depend on those under the keys. -/
theorem outside_addFree (l : List Member) :
    (c.addFree l).outside keys =
      (c.outside keys).addFree (l.filter fun member => member.key ∉ keys) := by
  induction l generalizing c with
  | nil => rfl
  | cons member l ih =>
    rw [addFree, List.foldl_cons]
    refine (ih _).trans ?_
    by_cases hkey : member.key ∈ keys
    · have hsame : (if c.contains member.key then c
          else { c with members := c.members ++ [member] }).outside keys = c.outside keys := by
        split_ifs
        · rfl
        · simp [outside, hkey]
      rw [hsame, List.filter_cons_of_neg (by simpa using hkey)]
    · rw [List.filter_cons_of_pos (by simpa using hkey), addFree, addFree, List.foldl_cons,
        c.contains_outside keys hkey]
      congr 1
      split_ifs
      · rfl
      · simp [outside, hkey]

end ClassRecord

namespace MemberDecl

variable {o : Options} {owner : Owner} {type : Marking}

theorem key_of_outcome {d : MemberDecl} {m : Marking} {member : Member}
    (h : d.outcome o owner m = some member) : member.key = d.key := by
  obtain ⟨method, rfl, -⟩ := outcome_cases h
  rw [emitted, key]
  cases d.form with
  | constructor => rfl
  | _ => rfl

/-- A setter that follows no getter among some members depends on none of them. -/
theorem memberMarking_congr {ds ds' : List MemberDecl} {x : MemberDecl}
    (h : ∀ property, x.form = .setter property →
      getterMarking? type ds' property = getterMarking? type ds property) :
    memberMarking type ds' x = memberMarking type ds x := by
  rw [memberMarking, memberMarking]
  split
  · next property hform => rw [h property hform]
  · rfl

/-- What one of the declared members of a type becomes, unless it is under certain keys. -/
def outcomeOutside (keys : List MemberKey) (o : Options) (owner : Owner) (type : Marking)
    (ds : List MemberDecl) (x : MemberDecl) : Option Member :=
  (x.outcome o owner (memberMarking type ds x)).filter fun member => member.key ∉ keys

theorem outcomeOutside_of_mem {keys : List MemberKey} {x : MemberDecl} (hkey : x.key ∈ keys)
    (ds : List MemberDecl) : outcomeOutside keys o owner type ds x = none := by
  rw [outcomeOutside, Option.filter_eq_none_iff]
  intro member hmember
  simpa [key_of_outcome hmember] using hkey

end MemberDecl

/-- What the form of a type adds to its class under other keys does not depend on the members
under the keys. -/
theorem TypeHead.outside_augment (h : TypeHead) (o : Options) (m : Marking) {keys : List MemberKey}
    {c c' : ClassRecord} (hc : c'.outside keys = c.outside keys) :
    (h.augment o m c').outside keys = (h.augment o m c).outside keys := by
  have hadd (l : List Member) (shape : Option Shape) :
      ({ c'.addFree l with shape } : ClassRecord).outside keys =
        ({ c.addFree l with shape } : ClassRecord).outside keys := by
    have hmembers : (c'.addFree l).outside keys = (c.addFree l).outside keys := by
      rw [ClassRecord.outside_addFree, hc, ← ClassRecord.outside_addFree]
    exact congrArg (fun c : ClassRecord => { c with shape }) hmembers
  rw [augment, augment]
  split_ifs
  · split
    · exact hadd _ _
    · exact hadd _ _
    · exact hc
  · exact hc

/-- A type with other members. -/
def TypeHead.withMembers (h : TypeHead) (ds : List MemberDecl) : TypeHead :=
  { h with members := ds }

/-- Members that are the same but for the attributes, the body and the span of one of them. -/
def MemberDecl.Revises (d : MemberDecl) (ds ds' : List MemberDecl) : Prop :=
  ∃ before after attributes body span,
    ds = before ++ d :: after ∧ ds' = before ++ { d with attributes, body, span } :: after

namespace MemberDecl.Revises

variable {d : MemberDecl} {ds ds' : List MemberDecl} (hrev : d.Revises ds ds')
include hrev

/-- Where all other members give the same and the revised one gives nothing, the lists agree. -/
theorem filterMap_eq {β : Type} {f f' : MemberDecl → Option β} (hsame : ∀ x ∈ ds, f' x = f x)
    (hown : ∀ x : MemberDecl, x.key = d.key → f x = none ∧ f' x = none) :
    ds'.filterMap f' = ds.filterMap f := by
  obtain ⟨before, after, attributes, body, span, rfl, rfl⟩ := hrev
  have hbefore : before.filterMap f' = before.filterMap f :=
    List.filterMap_congr fun x hx => hsame x (by simp [hx])
  have hafter : after.filterMap f' = after.filterMap f :=
    List.filterMap_congr fun x hx => hsame x (by simp [hx])
  rw [List.filterMap_append, List.filterMap_append, List.filterMap_cons_none (hown _ rfl).1,
    List.filterMap_cons_none (hown { d with attributes, body, span } rfl).2, hbefore, hafter]

/-- Only a getter of a property can be the one that its setters follow. -/
theorem getterMarking?_eq (type : Marking) {property : String} (hd : d.form ≠ .getter property) :
    getterMarking? type ds' property = getterMarking? type ds property := by
  obtain ⟨before, after, attributes, body, span, rfl, rfl⟩ := hrev
  simp [getterMarking?, List.find?_append, hd]

variable (o : Options) (owner : Owner) (type : Marking)

/-- A member under another key becomes the same in both types. -/
theorem outcome_eq {x : MemberDecl} (hx : x ∈ ds) (hkey : x.key ∉ d.affected ds) :
    x.outcome o owner (memberMarking type ds' x) = x.outcome o owner (memberMarking type ds x) := by
  refine congrArg (x.outcome o owner) (memberMarking_congr fun property hsetter => ?_)
  apply hrev.getterMarking?_eq type
  intro hform
  have hmem : x ∈ ds.filter fun s => s.form = .setter property := by simp [hx, hsetter]
  apply hkey
  rw [affected, hform]
  exact List.mem_cons_of_mem _ (List.mem_map_of_mem hmem)

theorem outcomeOutside_eq {x : MemberDecl} (hx : x ∈ ds) :
    outcomeOutside (d.affected ds) o owner type ds' x =
      outcomeOutside (d.affected ds) o owner type ds x := by
  by_cases hkey : x.key ∈ d.affected ds
  · rw [outcomeOutside_of_mem hkey, outcomeOutside_of_mem hkey]
  · exact congrArg (Option.filter _) (hrev.outcome_eq o owner type hx hkey)

/-- Under other keys, the declared members become the same in both types. -/
theorem filter_outcomes_eq :
    (ds'.filterMap fun x => x.outcome o owner (memberMarking type ds' x)).filter
        (fun member => member.key ∉ d.affected ds) =
      (ds.filterMap fun x => x.outcome o owner (memberMarking type ds x)).filter
        (fun member => member.key ∉ d.affected ds) := by
  rw [List.filter_filterMap, List.filter_filterMap]
  refine hrev.filterMap_eq (fun x hx => hrev.outcomeOutside_eq o owner type hx) ?_
  intro x hkey
  have hmem : x.key ∈ d.affected ds := by
    rw [hkey]
    exact List.mem_cons_self
  exact ⟨outcomeOutside_of_mem hmem ds, outcomeOutside_of_mem hmem ds'⟩

/-- Under other keys, the classes of both types agree. -/
theorem outside_emittedClass (h : TypeHead) :
    ((h.withMembers ds').emittedClass o type).outside (d.affected ds) =
      ((h.withMembers ds).emittedClass o type).outside (d.affected ds) := by
  apply h.outside_augment o type
  rw [ClassRecord.outside_addFree, ClassRecord.outside_addFree]
  exact congrArg (((h.newClass type).outside (d.affected ds)).addFree ·)
    (hrev.filter_outcomes_eq o (h.owner type) type)

end MemberDecl.Revises

/-! ## What is registered, as a function of the members of one type -/

/-- A list that depends on some members only where the items made of them stand. -/
def Around {α : Type} (item : List MemberDecl → Marking → α) (f : List MemberDecl → List α) :
    Prop :=
  ∃ (before : List α) (markings : List Marking) (after : List α),
    ∀ ds, f ds = before ++ markings.map (item ds) ++ after

namespace Around

variable {α β : Type} {item : List MemberDecl → Marking → α} {f : List MemberDecl → List α}

theorem const (l : List α) : Around item fun _ => l := ⟨l, [], [], by simp⟩

theorem append_left (h : Around item f) (l : List α) : Around item fun ds => l ++ f ds := by
  obtain ⟨before, markings, after, hf⟩ := h
  exact ⟨l ++ before, markings, after, by simp [hf]⟩

theorem append_right (h : Around item f) (l : List α) : Around item fun ds => f ds ++ l := by
  obtain ⟨before, markings, after, hf⟩ := h
  exact ⟨before, markings, after ++ l, by simp [hf]⟩

theorem map (h : Around item f) (g : α → β) :
    Around (fun ds m => g (item ds m)) fun ds => (f ds).map g := by
  obtain ⟨before, markings, after, hf⟩ := h
  exact ⟨before.map g, markings, after.map g, by simp [hf]⟩

/-- What does not tell the items for two lists of members apart does not tell the lists apart. -/
theorem flatMap_eq (h : Around item f) (ds ds' : List MemberDecl) {g : α → List β}
    (hg : ∀ m, g (item ds' m) = g (item ds m)) : (f ds').flatMap g = (f ds).flatMap g := by
  obtain ⟨before, markings, after, hf⟩ := h
  simp [hf, List.flatMap_map, hg]

theorem map_eq (h : Around item f) (ds ds' : List MemberDecl) {g : α → β}
    (hg : ∀ m, g (item ds' m) = g (item ds m)) : (f ds').map g = (f ds).map g := by
  rw [List.map_eq_flatMap, List.map_eq_flatMap]
  exact h.flatMap_eq ds ds' fun m => by rw [hg]

end Around

theorem TypeDecl.registeredAll_append (taken : Finset Identity) (enclosing : Marking)
    (ts ts' : List TypeDecl) :
    registeredAll taken enclosing (ts ++ ts') = registeredAll taken enclosing ts ++
      registeredAll (taken ∪ ((registeredAll taken enclosing ts).map (·.1.id)).toFinset) enclosing
        ts' := by
  induction ts generalizing taken with
  | nil => simp [registeredAll]
  | cons t ts ih =>
    rw [List.cons_append, registeredAll, registeredAll, ih, List.append_assoc, List.map_append,
      List.toFinset_append, Finset.union_assoc]

theorem SourceFile.registrantsAll_append (o : Options) (taken : Finset Identity)
    (files files' : List SourceFile) :
    registrantsAll o taken (files ++ files') = registrantsAll o taken files ++
      registrantsAll o (taken ∪ ((registrantsAll o taken files).map Registrant.id).toFinset)
        files' := by
  induction files generalizing taken with
  | nil => simp [registrantsAll]
  | cons file files ih =>
    rw [List.cons_append, registrantsAll, registrantsAll, ih, List.append_assoc, List.map_append,
      List.toFinset_append, Finset.union_assoc]

section

variable (h : TypeHead)

/-- A type with its marking, as a function of its members. -/
def TypeHead.marked (ds : List MemberDecl) (m : Marking) : TypeHead × Marking :=
  (h.withMembers ds, m)

/-- The types after some whose identities do not depend on the members. -/
theorem Around.then {f : List MemberDecl → List (TypeHead × Marking)} (hf : Around h.marked f)
    (taken : Finset Identity) (enclosing : Marking) (ts : List TypeDecl) :
    Around h.marked fun ds => f ds ++
      TypeDecl.registeredAll (taken ∪ ((f ds).map (·.1.id)).toFinset) enclosing ts := by
  have hids (ds : List MemberDecl) : (f ds).map (·.1.id) = (f []).map (·.1.id) :=
    hf.map_eq [] ds fun _ => rfl
  simp only [hids]
  exact hf.append_right _

theorem TypeDecl.around_registered (taken : Finset Identity) (enclosing : Marking)
    (nested : List TypeDecl) :
    Around h.marked fun ds => TypeDecl.registered taken enclosing ⟨h.withMembers ds, nested⟩ := by
  by_cases hold : h.id ∈ taken
  · refine ⟨[], [], [], fun ds => ?_⟩
    dsimp only
    rw [TypeDecl.registered]
    exact if_pos hold
  · refine ⟨[], [enclosing.within h.attributes],
      TypeDecl.registeredAll (insert h.id taken) (enclosing.within h.attributes) nested,
      fun ds => ?_⟩
    dsimp only
    rw [TypeDecl.registered]
    exact if_neg hold

/-- A type has its effect on what is registered where it stands. -/
theorem Place.around_registeredAll (nested : List TypeDecl) (place : Place)
    (taken : Finset Identity) (enclosing : Marking) :
    Around h.marked fun ds =>
      TypeDecl.registeredAll taken enclosing (place.fill [⟨h.withMembers ds, nested⟩]) := by
  induction place generalizing taken enclosing with
  | here before after =>
    simp only [fill, TypeDecl.registeredAll_append, List.singleton_append, TypeDecl.registeredAll]
    exact ((TypeDecl.around_registered h _ enclosing nested).then h _ enclosing after).append_left _
  | inside before head place after ih =>
    simp only [fill, TypeDecl.registeredAll_append, TypeDecl.registeredAll]
    refine (Around.then h ?_ _ enclosing after).append_left _
    simp only [TypeDecl.registered]
    split_ifs
    · exact .const []
    · exact (ih _ _).append_left [(head, enclosing.within head.attributes)]

/-- A type as it is registered, as a function of its members. -/
def TypeHead.registrant (ds : List MemberDecl) (m : Marking) : Registrant :=
  .type (h.withMembers ds) m

theorem SourceFile.around_registrants (nested : List TypeDecl) (place : Place) (path : String)
    (o : Options) (taken : Finset Identity) :
    Around h.registrant fun ds => SourceFile.registrants o taken
      ⟨path, place.fill [⟨h.withMembers ds, nested⟩]⟩ := by
  have hheads := place.around_registeredAll h nested taken {}
  have hids (ds : List MemberDecl) := hheads.map_eq [] ds (g := fun hm => hm.1.id) fun _ => rfl
  have hbindings (ds : List MemberDecl) := hheads.flatMap_eq [] ds
    (g := fun hm => hm.1.markedBindings hm.2) fun _ => rfl
  simp only [SourceFile.registrants, SourceFile.startupOf, hids, hbindings]
  exact (hheads.map fun hm => Registrant.type hm.1 hm.2).append_right _

/-- A type has its effect on what an assembly registers where it stands. -/
theorem Site.around_registrants (nested : List TypeDecl) (site : Site) (o : Options) :
    Around h.registrant fun ds => (site.fill [⟨h.withMembers ds, nested⟩]).registrants o := by
  simp only [Assembly.registrants, fill, SourceFile.registrantsAll_append,
    SourceFile.registrantsAll]
  refine Around.append_left ?_ _
  generalize (∅ : Finset Identity) ∪ _ = taken
  have hfile := SourceFile.around_registrants h nested site.place site.path o taken
  have hids (ds : List MemberDecl) := hfile.map_eq [] ds (g := Registrant.id) fun _ => rfl
  simp only [hids]
  exact hfile.append_right _

end

/-! ## Builds -/

/-- An entry of the table of classes without the members of one class that have certain keys. -/
def ClassRecord.entryOutside (id : Identity) (keys : List MemberKey)
    (entry : Identity × ClassRecord) : Identity × ClassRecord :=
  if entry.1 = id then (entry.1, entry.2.outside keys) else entry

/-- Builds that agree on their types and proxies in order, up to the members of one class that have
certain keys. -/
structure Build.AgreesOutside (id : Identity) (keys : List MemberKey) (b b' : Build) : Prop where
  classes : b'.classes.entries.map (ClassRecord.entryOutside id keys) =
    b.classes.entries.map (ClassRecord.entryOutside id keys)
  interfaces : b'.interfaces = b.interfaces
  resources : b'.resources = b.resources
  proxies : b'.proxies = b.proxies

/-- The startup types that an assembly registers, in order. -/
def Assembly.startupTypes (o : Options) (a : Assembly) : List ClassRecord :=
  (a.registrants o).flatMap fun
    | .type _ _ => []
    | .startup c => [c]

/-- A startup type is one of the classes. -/
theorem Assembly.mem_values_of_startupTypes {a : Assembly} {prior : Snapshot} {o : Options}
    {c : ClassRecord} (hc : c ∈ a.startupTypes o) : c ∈ (a.draft prior o).classes.values := by
  obtain ⟨r, hr, hc⟩ := List.mem_flatMap.mp hc
  cases r with
  | type h m => exact absurd hc List.not_mem_nil
  | startup c' =>
    obtain rfl := List.mem_singleton.mp hc
    rw [Table.values, (a.grows_draft prior o).classes]
    refine List.mem_map.mpr ⟨(c.id, c), List.mem_append_right _ ?_, rfl⟩
    exact List.mem_flatMap.mpr ⟨_, hr, List.mem_singleton_self _⟩

/-- A type that is no interface becomes a resource or a class. -/
theorem Registrant.interfaces_of_form {h : TypeHead} (hform : h.form ≠ .interface) (m : Marking) :
    (Registrant.type h m).interfaces = [] := by
  rw [interfaces, if_pos]
  rw [TypeHead.isClass]
  cases h.isResource with
  | true => rfl
  | false =>
    cases hkind : h.form with
    | interface => exact absurd hkind hform
    | _ => rfl

section

variable {site : Site} {h : TypeHead} {nested : List TypeDecl} {d : MemberDecl}
  {ds ds' : List MemberDecl} (prior : Snapshot) (o : Options)

/-- Under other keys, the entries of both types in the table of classes agree. -/
theorem MemberDecl.Revises.classes_eq (hrev : d.Revises ds ds') (m : Marking) :
    ((h.registrant ds' m).classes o).map (ClassRecord.entryOutside h.id (d.affected ds)) =
      ((h.registrant ds m).classes o).map (ClassRecord.entryOutside h.id (d.affected ds)) := by
  cases hclass : h.isClass with
  | true =>
    have hentry (ds₁ : List MemberDecl) :
        ((h.registrant ds₁ m).classes o).map (ClassRecord.entryOutside h.id (d.affected ds)) =
          [(h.id, ((h.withMembers ds₁).emittedClass o m).outside (d.affected ds))] := by
      rw [TypeHead.registrant, Registrant.classes_of_class (h := h.withMembers ds₁) hclass]
      exact congrArg ([·]) (if_pos rfl)
    rw [hentry, hentry, hrev.outside_emittedClass o m h]
  | false =>
    have hnone (ds : List MemberDecl) : (h.registrant ds m).classes o = [] :=
      Registrant.classes_of_not_class (h := h.withMembers ds) hclass o m
    rw [hnone, hnone]

theorem MemberDecl.Revises.agreesOutside (hrev : d.Revises ds ds') (hform : h.form ≠ .interface) :
    Build.AgreesOutside h.id (d.affected ds)
      ((site.fill [⟨h.withMembers ds, nested⟩]).draft prior o)
      ((site.fill [⟨h.withMembers ds', nested⟩]).draft prior o) := by
  have haround := site.around_registrants h nested o
  have hgrows (ds : List MemberDecl) :=
    (site.fill [⟨h.withMembers ds, nested⟩]).grows_draft prior o
  have hrecords (ds : List MemberDecl) :=
    (site.fill [⟨h.withMembers ds, nested⟩]).records_draft prior o
  refine ⟨?_, ?_, ?_, ?_⟩
  · rw [(hgrows ds').classes, (hgrows ds).classes, List.map_append, List.map_append,
      List.map_flatMap, List.map_flatMap]
    exact congrArg _ (haround.flatMap_eq ds ds' (hrev.classes_eq o))
  · have hnone (ds : List MemberDecl) (m : Marking) : (h.registrant ds m).interfaces = [] :=
      Registrant.interfaces_of_form (h := h.withMembers ds) hform m
    have hentries := haround.flatMap_eq ds ds' (g := Registrant.interfaces) fun m => by
      rw [hnone, hnone]
    have htable := (hgrows ds').interfaces.trans ((congrArg _ hentries).trans
      (hgrows ds).interfaces.symm)
    exact congrArg Table.mk htable
  · rw [(hgrows ds').resources, (hgrows ds).resources]
    exact congrArg _ (haround.flatMap_eq ds ds' fun m => rfl)
  · rw [(hrecords ds').proxies, (hrecords ds).proxies]
    refine congrArg _ ?_
    simp only [Assembly.footprint, Footprint.join, List.flatMap_map]
    refine haround.flatMap_eq ds ds' fun m => ?_
    exact ((h.withMembers ds').proxies_footprint o m).trans
      ((h.withMembers ds).proxies_footprint o m).symm

end

/--
However one member of a type is revised, in its attributes, its body or its place in the text, the
builds agree on everything but the members under its own key and, if it is a getter, those under
the keys of the setters of its property.
-/
theorem member_affects_own_keys_only (site : Site) (h : TypeHead) (nested : List TypeDecl)
    (hform : h.form ≠ .interface) {d : MemberDecl} {ds ds' : List MemberDecl}
    (hrev : d.Revises ds ds') (prior : Snapshot) (o : Options) :
    Build.AgreesOutside h.id (d.affected ds)
        ((site.fill [⟨h.withMembers ds, nested⟩]).draft prior o)
        ((site.fill [⟨h.withMembers ds', nested⟩]).draft prior o) ∧
      (site.fill [⟨h.withMembers ds', nested⟩]).startupTypes o =
        (site.fill [⟨h.withMembers ds, nested⟩]).startupTypes o ∧
      ∀ c ∈ (site.fill [⟨h.withMembers ds, nested⟩]).startupTypes o,
        c ∈ ((site.fill [⟨h.withMembers ds, nested⟩]).draft prior o).classes.values ∧
        c ∈ ((site.fill [⟨h.withMembers ds', nested⟩]).draft prior o).classes.values := by
  have hsame : (site.fill [⟨h.withMembers ds', nested⟩]).startupTypes o =
      (site.fill [⟨h.withMembers ds, nested⟩]).startupTypes o :=
    (site.around_registrants h nested o).flatMap_eq ds ds' fun _ => rfl
  refine ⟨hrev.agreesOutside prior o hform, hsame, ?_⟩
  intro c hc
  refine ⟨Assembly.mem_values_of_startupTypes hc, Assembly.mem_values_of_startupTypes ?_⟩
  rw [hsame]
  exact hc

def gaugeHead : TypeHead := { name := "Gauge", form := .ordinary, attributes := [.javaScript true] }

/-- The getter of a property whose slot may be absent. -/
def levelGetter : MemberDecl :=
  { MemberDecl.getter "level" Ty.int32 with attributes := [.optionalField] }

/-- A setter that follows the getter after it, and a method. -/
def gaugeMembers (getter : MemberDecl) : List MemberDecl :=
  [.setter "level" Ty.int32, getter,
    { MemberDecl.method "Reset" [] Ty.int32 with body := some (.literal (.int 0)) }]

/-- A file for the gauge, before one with a top-level value. -/
def gaugeSite : Site where
  assembly := "Gauge"
  before := []
  path := "gauge"
  place := .here [] []
  after := [{
    path := "limits"
    types := [⟨{
      name := "Limits", form := .module, attributes := [.javaScript true]
      bindings := [{ name := "top", type := Ty.int32, value := .literal (.int 9) }] }, []⟩] }]

theorem gauge_agrees_outside_level :
    gaugeHead.form ≠ .interface ∧
      levelGetter.affected (gaugeMembers levelGetter) =
        [.method (.getter "level" Ty.int32), .method (.setter "level" Ty.int32)] ∧
      Build.AgreesOutside gaugeHead.id
        [.method (.getter "level" Ty.int32), .method (.setter "level" Ty.int32)]
        ((gaugeSite.fill [⟨gaugeHead.withMembers (gaugeMembers levelGetter), []⟩]).draft {} {})
        ((gaugeSite.fill [⟨gaugeHead.withMembers (gaugeMembers
          { levelGetter with attributes := [.stub, .inline none] }), []⟩]).draft {} {}) := by
  have hform : gaugeHead.form ≠ .interface := by simp [gaugeHead]
  have haffected : levelGetter.affected (gaugeMembers levelGetter) =
      [.method (.getter "level" Ty.int32), .method (.setter "level" Ty.int32)] := by decide +kernel
  have hrev : levelGetter.Revises (gaugeMembers levelGetter)
      (gaugeMembers { levelGetter with attributes := [.stub, .inline none] }) :=
    ⟨[.setter "level" Ty.int32], _, _, _, _, rfl, rfl⟩
  have hagrees := (member_affects_own_keys_only gaugeSite gaugeHead [] hform hrev {} {}).1
  rw [haffected] at hagrees
  exact ⟨hform, haffected, hagrees⟩

end Memberwise
