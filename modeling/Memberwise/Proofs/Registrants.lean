import Mathlib
import Memberwise.Proofs.Registration

/-!
# What a walk registers

Whatever errors are reported, a walk registers the first type of each identity, in
its order, and after each file the file's startup type if its identity is free.  A
type that is not registered hides the types nested in it.

Registering a type enters it into all tables of the build at once.  A build is thus
a fold over what was registered; only diagnostics are left out of this picture.
-/

namespace Memberwise

/-! ## Builds alike -/

namespace Build

/-- A build without its diagnostics. -/
def quiet (b : Build) : Build := { b with report := {}, file := none }

/-- Two builds that differ in diagnostics only. -/
def Alike (b b₁ : Build) : Prop := b₁.quiet = b.quiet

variable {b b₁ b₂ : Build}

theorem Alike.refl (b : Build) : b.Alike b := rfl

theorem Alike.symm (h : b.Alike b₁) : b₁.Alike b := Eq.symm h

theorem Alike.trans (h : b.Alike b₁) (h' : b₁.Alike b₂) : b.Alike b₂ := Eq.trans h' h

theorem alike_error (b : Build) (e : CompileError) : b.Alike (b.error e) := rfl

theorem alike_warning (b : Build) (w : CompileWarning) : b.Alike (b.warning w) := rfl

theorem alike_file (b : Build) (path : Option String) : b.Alike { b with file := path } := rfl

/-- What does not depend on diagnostics is the same in builds alike. -/
theorem Alike.same {α : Type} (h : b.Alike b₁) {f : Build → α}
    (hf : ∀ b : Build, f b.quiet = f b) : f b₁ = f b := by
  rw [← hf b₁, ← hf b, h]

theorem Alike.options (h : b.Alike b₁) : b₁.options = b.options :=
  h.same (f := Build.options) fun _ => rfl

theorem Alike.declared (h : b.Alike b₁) : b₁.declared = b.declared :=
  h.same (f := Build.declared) fun _ => rfl

theorem Alike.declares (h : b.Alike b₁) (id : Identity) : b₁.declares id = b.declares id :=
  h.same (f := fun b => b.declares id) fun _ => rfl

/-- An operation that looks at no diagnostics keeps builds alike. -/
theorem Alike.map (h : b.Alike b₁) {f : Build → Build}
    (hf : ∀ b : Build, (f b.quiet).quiet = (f b).quiet) : (f b).Alike (f b₁) := by
  rw [Alike, ← hf b₁, ← hf b, h]

theorem Alike.mapGraph (h : b.Alike b₁) (f : Graph → Graph) :
    (b.mapGraph f).Alike (b₁.mapGraph f) :=
  h.map (f := fun b => b.mapGraph f) fun _ => rfl

theorem Alike.registerRemote (h : b.Alike b₁) (owner : Identity) (d : MemberDecl)
    (member : Member) :
    (b.registerRemote owner d member).Alike (b₁.registerRemote owner d member) := by
  unfold Build.registerRemote
  cases member.remoteHandle? with
  | none => exact h
  | some handle => exact h.map (f := fun b => b.addRemote _ handle) fun _ => rfl

theorem Alike.registerRequired (h : b.Alike b₁) (owner : Identity) (d : MemberDecl) (m : Marking) :
    (b.registerRequired owner d m).Alike (b₁.registerRequired owner d m) := by
  unfold Build.registerRequired
  split_ifs
  · exact h
  · exact h.mapGraph _

theorem Alike.registerEntryPoint (h : b.Alike b₁) (owner : Identity) (d : MemberDecl) :
    (b.registerEntryPoint owner d).Alike (b₁.registerEntryPoint owner d) := by
  unfold Build.registerEntryPoint
  split_ifs
  · have hset := h.map (f := fun b => b.setEntryPoint (.expr (.call none ⟨owner, d.signature⟩ [])))
      fun _ => rfl
    exact hset.mapGraph _
  · exact h

theorem Alike.register (h : b.Alike b₁) (owner : Identity) (d : MemberDecl) (m : Marking)
    (member : Member) : (b.register owner d m member).Alike (b₁.register owner d m member) := by
  have hrequired := (h.registerRemote owner d member).registerRequired owner d m
  unfold Build.register
  dsimp only
  split_ifs
  · exact hrequired.registerEntryPoint owner d
  · exact hrequired

end Build

/-! ## What is registered -/

/-- Of members with what they become, the first of each key that is not taken. -/
def firstOfKey (taken : List MemberKey) : List (MemberDecl × Member) → List (MemberDecl × Member)
  | [] => []
  | (d, member) :: rest =>
    if member.key ∈ taken then firstOfKey taken rest
    else (d, member) :: firstOfKey (taken ++ [member.key]) rest

/-- Declared members with what they become. -/
def MemberDecl.outcomes (o : Options) (owner : Owner) (type : Marking) (ds l : List MemberDecl) :
    List (MemberDecl × Member) :=
  l.filterMap fun d => (d.outcome o owner (memberMarking type ds d)).map (d, ·)

/-- Registers members of a type that were added to its class. -/
def Build.registerAll (id : Identity) (type : Marking) (ds : List MemberDecl) (b : Build)
    (added : List (MemberDecl × Member)) : Build :=
  added.foldl (fun b (d, member) => b.register id d (memberMarking type ds d) member) b

theorem Build.register_options (b : Build) (owner : Identity) (d : MemberDecl) (m : Marking)
    (member : Member) : (b.register owner d m member).options = b.options := by
  have hremote : (b.registerRemote owner d member).options = b.options := by
    unfold registerRemote
    cases member.remoteHandle? <;> rfl
  have hgraph (b : Build) (f : Graph → Graph) : (b.mapGraph f).options = b.options := rfl
  have hrequired (b : Build) : (b.registerRequired owner d m).options = b.options := by
    unfold registerRequired
    split_ifs
    · rfl
    · exact hgraph b _
  have hentry (b : Build) : (b.registerEntryPoint owner d).options = b.options := by
    unfold registerEntryPoint
    split_ifs
    · exact hgraph _ _
    · rfl
  unfold register
  dsimp only
  split_ifs
  · rw [hentry, hrequired, hremote]
  · rw [hrequired, hremote]

theorem Build.registerAll_options (b : Build) (id : Identity) (type : Marking)
    (ds : List MemberDecl) (added : List (MemberDecl × Member)) :
    (b.registerAll id type ds added).options = b.options := by
  induction added generalizing b with
  | nil => rfl
  | cons p added ih => exact (ih _).trans (b.register_options id p.1 _ p.2)

theorem Build.Alike.registerAll {b b₁ : Build} (h : b.Alike b₁) (id : Identity) (type : Marking)
    (ds : List MemberDecl) (added : List (MemberDecl × Member)) :
    (b.registerAll id type ds added).Alike (b₁.registerAll id type ds added) := by
  induction added generalizing b b₁ with
  | nil => exact h
  | cons p added ih => exact ih (h.register id p.1 _ p.2)

namespace TypeHead

/-- The declared members that are added to the class of a type. -/
def added (h : TypeHead) (o : Options) (m : Marking) : List (MemberDecl × Member) :=
  firstOfKey [] (MemberDecl.outcomes o (h.owner m) m h.members h.members)

/-- Enters what stands beside the class of a type: its proxy and its members. -/
def enterMembers (h : TypeHead) (o : Options) (m : Marking) (b : Build) : Build :=
  let b := match m.proxyOf with
    | some target => b.addProxy h.id target.identity
    | none => b
  b.registerAll h.id m h.members (h.added o m)

end TypeHead

namespace Build

variable (b : Build) (required : List Identity)

/-- A build with one more class. -/
def withClass (c : ClassRecord) : Build := { b with classes := b.classes.insert c.id c }

/-- A build with one more interface. -/
def withInterface (i : InterfaceRecord) : Build :=
  { b with interfaces := b.interfaces.insert i.id i }

/-- Enters a class with the resources it requires. -/
def enterClass (c : ClassRecord) : Build :=
  (b.withClass c).mapGraph fun g => g.addRequiring (.type c.id) required

/-- Enters an interface with the resources it requires. -/
def enterInterface (i : InterfaceRecord) : Build :=
  (b.withInterface i).mapGraph fun g => g.addRequiring (.type i.id) required

/-- Enters a resource with the resources it requires. -/
def enterResource (id : Identity) (name : String) : Build :=
  { b with resources := b.resources ++ [(id, name)] }.mapGraph fun g =>
    g.addRequiring (.resource id) required

end Build

/-- Enters a type. -/
def TypeHead.enter (h : TypeHead) (o : Options) (m : Marking) (b : Build) : Build :=
  let required := m.requires.map Ty.identity
  if h.isResource then b.enterResource required h.id h.name
  else if h.isClass then (h.enterMembers o m b).enterClass required (h.emittedClass o m)
  else b.enterInterface required (h.newInterface m)

/-- What is registered in a build: a declared type, or the startup type of a file. -/
inductive Registrant where
  | type (h : TypeHead) (m : Marking)
  | startup (c : ClassRecord)

namespace Registrant

def id : Registrant → Identity
  | type h _ => h.id
  | startup c => c.id

/-- Enters what is registered into a build. -/
def enter (o : Options) (b : Build) : Registrant → Build
  | type h m => h.enter o m b
  | startup c => b.enterClass [] c

end Registrant

/-- Enters what is registered, in order. -/
def Build.enterAll (b : Build) (o : Options) (items : List Registrant) : Build :=
  items.foldl (Registrant.enter o) b

/-- Types with their markings, as they are registered. -/
def Registrant.types (heads : List (TypeHead × Marking)) : List Registrant :=
  heads.map fun hm => type hm.1 hm.2

theorem Registrant.map_id_types (heads : List (TypeHead × Marking)) :
    (types heads).map Registrant.id = heads.map (·.1.id) := by
  rw [types, List.map_map]
  rfl

mutual

/-- Of a type and the types nested in it, those that are registered when some identities are
taken. -/
def TypeDecl.registered (taken : Finset Identity) (enclosing : Marking) :
    TypeDecl → List (TypeHead × Marking)
  | ⟨h, nested⟩ =>
    let m := enclosing.within h.attributes
    if h.id ∈ taken then [] else (h, m) :: TypeDecl.registeredAll (insert h.id taken) m nested
termination_by structural t => t

/-- Of some types and the types nested in them, those that are registered when some identities
are taken. -/
def TypeDecl.registeredAll (taken : Finset Identity) (enclosing : Marking) :
    List TypeDecl → List (TypeHead × Marking)
  | [] => []
  | t :: ts =>
    let first := t.registered taken enclosing
    first ++ TypeDecl.registeredAll (taken ∪ (first.map (·.1.id)).toFinset) enclosing ts
termination_by structural ts => ts

end

/-- Adds a top-level value if it is accepted. -/
def Startup.take (s : Startup) (entry : Binding × Marking) : Startup := (s.add entry.1 entry.2).1

/-- A walk that registered some types, and nothing else. -/
structure Walk.Registers (w w' : Walk) (heads : List (TypeHead × Marking)) : Prop where
  build : (w.build.enterAll w.build.options (Registrant.types heads)).Alike w'.build
  startup : w'.startup =
    (heads.flatMap fun (h, m) => h.markedBindings m).foldl Startup.take w.startup

/-! ## Entering -/

namespace TypeHead

variable (h : TypeHead) (o : Options) (m : Marking)

theorem sameTypes_registerAll (added : List (MemberDecl × Member)) (b : Build) :
    b.SameTypes (b.registerAll h.id m h.members added) := by
  induction added generalizing b with
  | nil => exact .refl b
  | cons p added ih => exact (b.sameTypes_register h.id p.1 _ p.2).trans (ih _)

theorem sameTypes_enterMembers (b : Build) : b.SameTypes (h.enterMembers o m b) := by
  unfold enterMembers
  cases m.proxyOf with
  | none => exact sameTypes_registerAll h m _ b
  | some target =>
    have hproxy : b.SameTypes (b.addProxy h.id target.identity) := ⟨rfl, rfl, rfl⟩
    exact hproxy.trans (sameTypes_registerAll h m _ _)

theorem enterMembers_options (b : Build) : (h.enterMembers o m b).options = b.options := by
  unfold enterMembers
  cases m.proxyOf <;> exact Build.registerAll_options ..

theorem alike_enterMembers {b b₁ : Build} (hb : b.Alike b₁) :
    (h.enterMembers o m b).Alike (h.enterMembers o m b₁) := by
  unfold enterMembers
  cases m.proxyOf with
  | none => exact hb.registerAll ..
  | some target =>
    have hproxy := hb.map (f := fun b => b.addProxy h.id target.identity) fun _ => rfl
    exact hproxy.registerAll ..

end TypeHead

theorem Table.mem_keys_insert {κ α : Type} [DecidableEq κ] (t : Table κ α) (k k' : κ) (a : α) :
    k' ∈ (t.insert k a).keys ↔ k' = k ∨ k' ∈ t.keys := by
  rw [Table.keys_insert]
  split_ifs with hmem
  · exact ⟨.inr, fun h => h.elim (fun h => h ▸ hmem) id⟩
  · rw [List.mem_append, List.mem_singleton, or_comm]

theorem Table.mem_keys_insertAll {κ α : Type} [DecidableEq κ] (t : Table κ α) (k : κ)
    (pairs : List (κ × α)) :
    k ∈ (t.insertAll pairs).keys ↔ k ∈ t.keys ∨ k ∈ pairs.map Prod.fst := by
  induction pairs generalizing t with
  | nil => simp [insertAll]
  | cons pair pairs ih =>
    have hstep : t.insertAll (pair :: pairs) = (t.insert pair.1 pair.2).insertAll pairs := rfl
    rw [hstep, ih, mem_keys_insert, List.map_cons, List.mem_cons]
    tauto

namespace Build

variable {b b₁ : Build} (required : List Identity)

theorem addClass_of_free {c : ClassRecord} (h : b.declares c.id = false) :
    b.addClass c = .ok (b.withClass c) := by
  unfold addClass checkNew
  rw [h]
  rfl

theorem addClass_of_taken {c : ClassRecord} (h : b.declares c.id = true) :
    b.addClass c = .error (.duplicateType c.name c.span) := by
  unfold addClass checkNew
  rw [h]
  rfl

theorem addInterface_of_free {i : InterfaceRecord} (h : b.declares i.id = false) :
    b.addInterface i = .ok (b.withInterface i) := by
  unfold addInterface checkNew
  rw [h]
  rfl

theorem addResource_of_free {id : Identity} (h : b.declares id = false) (name : String)
    (span : Span) :
    b.addResource id name span = .ok { b with resources := b.resources ++ [(id, name)] } := by
  unfold addResource checkNew
  rw [h]
  rfl

theorem Alike.enterClass (h : b.Alike b₁) (c : ClassRecord) :
    (b.enterClass required c).Alike (b₁.enterClass required c) :=
  h.map (f := fun b => b.enterClass required c) fun _ => rfl

theorem Alike.enterInterface (h : b.Alike b₁) (i : InterfaceRecord) :
    (b.enterInterface required i).Alike (b₁.enterInterface required i) :=
  h.map (f := fun b => b.enterInterface required i) fun _ => rfl

theorem Alike.enterResource (h : b.Alike b₁) (id : Identity) (name : String) :
    (b.enterResource required id name).Alike (b₁.enterResource required id name) :=
  h.map (f := fun b => b.enterResource required id name) fun _ => rfl

variable (b) (id : Identity)

theorem mem_declared_enterClass (c : ClassRecord) :
    id ∈ (b.enterClass required c).declared ↔ id = c.id ∨ id ∈ b.declared := by
  simp only [Build.enterClass, withClass, mapGraph, declared, List.mem_append,
    Table.mem_keys_insert]
  tauto

theorem mem_declared_enterInterface (i : InterfaceRecord) :
    id ∈ (b.enterInterface required i).declared ↔ id = i.id ∨ id ∈ b.declared := by
  simp only [Build.enterInterface, withInterface, mapGraph, declared, List.mem_append,
    Table.mem_keys_insert]
  tauto

theorem mem_declared_enterResource (id' : Identity) (name : String) :
    id ∈ (b.enterResource required id' name).declared ↔ id = id' ∨ id ∈ b.declared := by
  simp only [Build.enterResource, mapGraph, declared, List.mem_append, List.map_append,
    List.map_cons, List.map_nil, List.mem_singleton]
  tauto

end Build

theorem Build.SameTypes.declared {b b₁ : Build} (h : b.SameTypes b₁) :
    b₁.declared = b.declared := by
  rw [Build.declared, h.classes, h.interfaces, h.resources, Build.declared]

namespace Registrant

variable (o : Options) (r : Registrant)

theorem enter_options (b : Build) : (r.enter o b).options = b.options := by
  cases r with
  | startup c => rfl
  | type h m =>
    rw [enter, TypeHead.enter]
    split_ifs
    · rfl
    · exact h.enterMembers_options o m b
    · rfl

/-- Whatever is registered is registered under its identity. -/
theorem mem_declared_enter (b : Build) (id : Identity) :
    id ∈ (r.enter o b).declared ↔ id = r.id ∨ id ∈ b.declared := by
  cases r with
  | startup c => exact b.mem_declared_enterClass [] id c
  | type h m =>
    rw [enter, TypeHead.enter]
    split_ifs
    · exact b.mem_declared_enterResource _ id h.id h.name
    · rw [Build.mem_declared_enterClass, h.emittedClass_id,
        (h.sameTypes_enterMembers o m b).declared]
      rfl
    · exact b.mem_declared_enterInterface _ id (h.newInterface m)

theorem alike_enter {b b₁ : Build} (hb : b.Alike b₁) : (r.enter o b).Alike (r.enter o b₁) := by
  cases r with
  | startup c => exact hb.enterClass [] c
  | type h m =>
    rw [enter, enter, TypeHead.enter, TypeHead.enter]
    split_ifs
    · exact hb.enterResource ..
    · exact (h.alike_enterMembers o m hb).enterClass ..
    · exact hb.enterInterface ..

end Registrant

namespace Build

variable (b : Build) (o : Options) (items : List Registrant)

theorem enterAll_options : (b.enterAll o items).options = b.options := by
  induction items generalizing b with
  | nil => rfl
  | cons r items ih => exact (ih _).trans (r.enter_options o b)

theorem taken_enterAll :
    (b.enterAll o items).declared.toFinset =
      b.declared.toFinset ∪ (items.map Registrant.id).toFinset := by
  induction items generalizing b with
  | nil => simp [enterAll]
  | cons r items ih =>
    have hrest := ih (r.enter o b)
    rw [enterAll, List.foldl_cons]
    refine hrest.trans ?_
    ext id
    simp only [Finset.mem_union, List.mem_toFinset, Registrant.mem_declared_enter, List.map_cons,
      List.mem_cons]
    tauto

theorem Alike.enterAll {b b₁ : Build} (hb : b.Alike b₁) (o : Options) (items : List Registrant) :
    (b.enterAll o items).Alike (b₁.enterAll o items) := by
  induction items generalizing b b₁ with
  | nil => exact hb
  | cons r items ih => exact ih (r.alike_enter o hb)

end Build

/-! ## Members -/

theorem firstOfKey_append (taken : List MemberKey) (ps qs : List (MemberDecl × Member)) :
    firstOfKey taken (ps ++ qs) =
      firstOfKey taken ps ++ firstOfKey (taken ++ (firstOfKey taken ps).map (·.2.key)) qs := by
  induction ps generalizing taken with
  | nil => simp [firstOfKey]
  | cons p ps ih =>
    by_cases htaken : p.2.key ∈ taken
    · simp only [List.cons_append, firstOfKey, if_pos htaken, ih]
    · simp only [List.cons_append, firstOfKey, if_neg htaken, ih, List.map_cons, List.append_assoc,
        List.nil_append]

/-- A class takes exactly the first members of the keys that are free. -/
theorem ClassRecord.members_addFree (c : ClassRecord) (ps : List (MemberDecl × Member)) :
    (c.addFree (ps.map Prod.snd)).members =
      c.members ++ (firstOfKey c.keys ps).map Prod.snd := by
  induction ps generalizing c with
  | nil => simp [addFree, firstOfKey]
  | cons p ps ih =>
    rw [List.map_cons, ← List.singleton_append, addFree_append, ih]
    by_cases htaken : p.2.key ∈ c.keys
    · have hsame : c.addFree [p.2] = c := by simp [addFree, contains, htaken]
      rw [hsame, firstOfKey, if_pos htaken]
    · have hadd : c.addFree [p.2] = { c with members := c.members ++ [p.2] } := by
        simp [addFree, contains, htaken]
      rw [hadd, firstOfKey, if_neg htaken]
      simp [keys]

theorem MemberDecl.map_snd_outcomes (o : Options) (owner : Owner) (type : Marking)
    (ds l : List MemberDecl) :
    (outcomes o owner type ds l).map Prod.snd =
      l.filterMap fun d => d.outcome o owner (memberMarking type ds d) := by
  simp [outcomes, List.map_filterMap]

namespace Walk

variable (w : Walk) (owner : Owner) (type : Marking) (ds : List MemberDecl) (c : ClassRecord)

/-- A member whose key is free is registered; otherwise only an error is reported. -/
theorem alike_addMember (d : MemberDecl) (member : Member) :
    (w.build.registerAll c.id type ds (firstOfKey c.keys [(d, member)])).Alike
      (w.addMember c d (memberMarking type ds d) member).1.build := by
  by_cases htaken : member.key ∈ c.keys
  · have hadd : c.add member d.span = .error (.duplicateMember c.name member.key.text d.span) := by
      simp [ClassRecord.add, ClassRecord.contains, htaken]
    rw [firstOfKey, if_pos htaken, addMember, hadd]
    exact Build.alike_error _ _
  · have hadd : c.add member d.span = .ok { c with members := c.members ++ [member] } := by
      simp [ClassRecord.add, ClassRecord.contains, htaken]
    rw [firstOfKey, if_neg htaken, addMember, hadd]
    exact .refl _

theorem alike_member (d : MemberDecl) :
    (w.build.registerAll c.id type ds
      (firstOfKey c.keys (MemberDecl.outcomes w.build.options owner type ds [d]))).Alike
        (w.member owner type ds c d).1.build := by
  unfold member MemberDecl.outcomes MemberDecl.outcome
  cases hemit : d.emit w.build.options owner (memberMarking type ds d) with
  | error e =>
    simp only [List.filterMap_cons, hemit, List.filterMap_nil, Option.map_some]
    have hfail : w.build.Alike (w.fail e).build := Build.alike_error _ _
    exact (hfail.registerAll ..).trans (alike_addMember (w.fail e) type ds c d _)
  | ok outcome =>
    cases outcome with
    | none =>
      simp only [List.filterMap_cons, hemit, List.filterMap_nil, Option.map_none]
      exact .refl _
    | some member =>
      simp only [List.filterMap_cons, hemit, List.filterMap_nil, Option.map_some]
      let counted : Walk := { w with tally := { w.tally with members := w.tally.members + 1 } }
      exact alike_addMember counted type ds c d member

theorem keys_member (d : MemberDecl) :
    (w.member owner type ds c d).2.keys = c.keys ++
      (firstOfKey c.keys (MemberDecl.outcomes w.build.options owner type ds [d])).map
        (·.2.key) := by
  have hlist : (d.outcome w.build.options owner (memberMarking type ds d)).toList =
      (MemberDecl.outcomes w.build.options owner type ds [d]).map Prod.snd := by
    rw [MemberDecl.map_snd_outcomes, List.filterMap_cons, List.filterMap_nil]
    cases d.outcome w.build.options owner (memberMarking type ds d) <;> rfl
  rw [member_class, hlist, ClassRecord.keys, ClassRecord.members_addFree, List.map_append,
    List.map_map]
  rfl

theorem alike_members_foldl (l : List MemberDecl) :
    (w.build.registerAll c.id type ds
      (firstOfKey c.keys (MemberDecl.outcomes w.build.options owner type ds l))).Alike
        (l.foldl (fun (w, c) d => w.member owner type ds c d) (w, c)).1.build := by
  induction l generalizing w c with
  | nil => exact .refl _
  | cons d l ih =>
    have hfirst := alike_member w owner type ds c d
    have hoptions := hfirst.options.trans (Build.registerAll_options ..)
    have hid : (w.member owner type ds c d).2.id = c.id := by
      rw [member_class, ClassRecord.addFree_id]
    have hrest := ih (w.member owner type ds c d).1 (w.member owner type ds c d).2
    have hsplit : MemberDecl.outcomes w.build.options owner type ds (d :: l) =
        MemberDecl.outcomes w.build.options owner type ds [d] ++
          MemberDecl.outcomes w.build.options owner type ds l := by
      rw [← List.singleton_append, MemberDecl.outcomes, List.filterMap_append]
      rfl
    rw [hsplit, firstOfKey_append, ← keys_member, Build.registerAll, List.foldl_append]
    rw [hoptions, hid] at hrest
    exact (hfirst.registerAll ..).trans hrest

theorem alike_members :
    (w.build.registerAll c.id type ds
      (firstOfKey c.keys (MemberDecl.outcomes w.build.options owner type ds ds))).Alike
        (w.members owner type ds c).1.build :=
  alike_members_foldl w owner type ds c ds

/-! ## Types -/

omit owner type ds c

variable (h : TypeHead) (m : Marking)

theorem alike_bindings (bs : List Binding) : w.build.Alike (bs.foldl (binding m) w).build := by
  induction bs generalizing w with
  | nil => exact .refl _
  | cons b bs ih =>
    have hfirst : w.build.Alike (binding m w b).build := by
      unfold binding
      dsimp only
      split
      · exact .refl _
      · exact Build.alike_error _ _
    exact hfirst.trans (ih _)

theorem startup_bindings (bs : List Binding) :
    (bs.foldl (binding m) w).startup =
      (bs.map fun b => (b, m.within b.attributes)).foldl Startup.take w.startup := by
  induction bs generalizing w with
  | nil => rfl
  | cons b bs ih =>
    have hfirst : (binding m w b).startup = w.startup.take (b, m.within b.attributes) := by
      unfold binding
      dsimp only
      split <;> rfl
    rw [List.foldl_cons, ih, hfirst]
    rfl

theorem alike_proxy :
    (match m.proxyOf with
      | some target => w.build.addProxy h.id target.identity
      | none => w.build).Alike (w.proxy h m).build := by
  unfold proxy
  cases m.proxyOf with
  | none => exact .refl _
  | some target =>
    dsimp only
    split
    · exact Build.alike_warning _ _
    · exact .refl _

theorem alike_contents :
    (h.enterMembers w.build.options m w.build).Alike (w.contents h m).1.build := by
  have hproxy := alike_proxy w h m
  have hoptions : (w.proxy h m).build.options = w.build.options :=
    (sideSteps_proxy w h m).beside.options
  have hmembers := alike_members (w.proxy h m) (h.owner m) m h.members (h.newClass m)
  rw [hoptions] at hmembers
  have hbindings := alike_bindings ((w.proxy h m).members (h.owner m) m h.members (h.newClass m)).1
    m h.bindings
  exact ((hproxy.registerAll ..).trans hmembers).trans hbindings

theorem startup_contents (hclass : h.isClass = true) :
    (w.contents h m).1.startup = (h.markedBindings m).foldl Startup.take w.startup := by
  have hmembers := (members_spec (w.proxy h m) (h.newClass m) (h.owner m) m h.members rfl).startup
  have hbindings := startup_bindings
    ((w.proxy h m).members (h.owner m) m h.members (h.newClass m)).1 m h.bindings
  rw [hmembers, proxy_startup] at hbindings
  rw [TypeHead.markedBindings, if_pos hclass]
  exact hbindings

theorem classType_enters (hclass : h.isClass = true) (hnew : w.build.declares h.id = false) :
    (w.classType h m).2 = true ∧
      ((h.enterMembers w.build.options m w.build).withClass
        (h.emittedClass w.build.options m)).Alike (w.classType h m).1.build ∧
      (w.classType h m).1.startup = (h.markedBindings m).foldl Startup.take w.startup := by
  have hcontents := contents_spec w h m
  have halike := alike_contents w h m
  have hstartup := startup_contents w h m hclass
  have hsame := sameTypes_contents w h m
  unfold classType
  generalize w.contents h m = r at hcontents halike hstartup hsame ⊢
  obtain ⟨w₁, c⟩ := r
  dsimp only at hcontents halike hstartup hsame ⊢
  have hentry : h.augment w₁.build.options m c = h.emittedClass w.build.options m := by
    rw [hcontents.beside.options, hcontents.result, TypeHead.emittedClass]
  have hfree : w₁.build.declares (h.emittedClass w.build.options m).id = false := by
    rw [h.emittedClass_id, hsame.declares, hnew]
  rw [hentry, Build.addClass_of_free hfree]
  exact ⟨rfl, halike.map (f := fun b => b.withClass _) fun _ => rfl, hstartup⟩

theorem interfaceType_enters (hnew : w.build.declares h.id = false) :
    (w.interfaceType h m).2 = true ∧
      (w.build.withInterface (h.newInterface m)).Alike (w.interfaceType h m).1.build ∧
      (w.interfaceType h m).1.startup = w.startup := by
  rw [interfaceType, Build.addInterface_of_free hnew]
  exact ⟨rfl, .refl _, rfl⟩

/-- What is left to do once a type that is no resource has been added to its table. -/
theorem plainType_of_added {b : Build} (hadded : (w.classOrInterface h m).2 = true)
    (halike : b.Alike (w.classOrInterface h m).1.build) :
    (w.plainType h m).2 = true ∧
      (b.mapGraph fun g => g.addRequiring (.type h.id) (m.requires.map Ty.identity)).Alike
        (w.plainType h m).1.build ∧
      (w.plainType h m).1.startup = (w.classOrInterface h m).1.startup := by
  unfold plainType
  generalize w.classOrInterface h m = r at hadded halike ⊢
  obtain ⟨w₁, added⟩ := r
  obtain rfl : added = true := hadded
  exact ⟨rfl, halike.mapGraph _, rfl⟩

theorem plainType_registers (hresource : h.isResource = false)
    (hnew : w.build.declares h.id = false) :
    (w.plainType h m).2 = true ∧ w.Registers (w.plainType h m).1 [(h, m)] := by
  by_cases hclass : h.isClass = true
  · have hform : w.classOrInterface h m = w.classType h m := by
      unfold classOrInterface
      split
      · next hform => simp [TypeHead.isClass, hform] at hclass
      · rfl
    obtain ⟨hadded, halike, hstartup⟩ := classType_enters w h m hclass hnew
    rw [← hform] at hadded halike hstartup
    obtain ⟨hflag, hbuild, hsame⟩ := plainType_of_added w h m hadded halike
    refine ⟨hflag, ?_, by simpa using hsame.trans hstartup⟩
    simp only [Registrant.types, Build.enterAll, List.map_cons, List.map_nil, List.foldl_cons,
      List.foldl_nil, Registrant.enter, TypeHead.enter, hresource, hclass, if_true,
      Build.enterClass, h.emittedClass_id]
    exact hbuild
  · have hform : w.classOrInterface h m = w.interfaceType h m := by
      unfold classOrInterface
      split
      · rfl
      · unfold TypeHead.isClass at hclass
        simp_all
    obtain ⟨hadded, halike, hstartup⟩ := interfaceType_enters w h m hnew
    rw [← hform] at hadded halike hstartup
    obtain ⟨hflag, hbuild, hsame⟩ := plainType_of_added w h m hadded halike
    refine ⟨hflag, ?_, by simpa [TypeHead.markedBindings, hclass] using hsame.trans hstartup⟩
    simp only [Registrant.types, Build.enterAll, List.map_cons, List.map_nil, List.foldl_cons,
      List.foldl_nil, Registrant.enter, TypeHead.enter, hresource, hclass]
    exact hbuild

theorem resourceType_registers (hresource : h.isResource = true)
    (hnew : w.build.declares h.id = false) :
    (w.resourceType h m).2 = true ∧ w.Registers (w.resourceType h m).1 [(h, m)] := by
  have hclass : h.isClass = false := by simp [TypeHead.isClass, hresource]
  rw [resourceType, Build.addResource_of_free hnew]
  refine ⟨rfl, ?_, by simp [Build.attempt, TypeHead.markedBindings, hclass]⟩
  simp only [Registrant.types, Build.enterAll, List.map_cons, List.map_nil, List.foldl_cons,
    List.foldl_nil, Registrant.enter, TypeHead.enter, hresource, if_true]
  exact .refl _

theorem alike_reflected : w.build.Alike (w.reflected h).build := by
  unfold reflected
  split
  · exact Build.alike_warning _ _
  · exact .refl _

/-- A type at a free identity is registered. -/
theorem typeHead_enters (hnew : w.build.declares h.id = false) :
    (w.typeHead h m).2 = true ∧ w.Registers (w.typeHead h m).1 [(h, m)] := by
  have halike := alike_reflected w h
  have hstartup := reflected_startup w h
  have hnew' : (w.reflected h).build.declares h.id = false := (halike.declares h.id).trans hnew
  have hregisters (w₁ : Walk) (h₁ : (w.reflected h).Registers w₁ [(h, m)]) :
      w.Registers w₁ [(h, m)] := by
    refine ⟨.trans ?_ h₁.build, by rw [h₁.startup, hstartup]⟩
    rw [halike.options]
    exact halike.enterAll w.build.options _
  rw [typeHead, if_neg (by simp [hnew])]
  by_cases hresource : h.isResource = true
  · rw [if_pos hresource]
    obtain ⟨hadded, h₁⟩ := resourceType_registers (w.reflected h) h m hresource hnew'
    exact ⟨hadded, hregisters _ h₁⟩
  · rw [if_neg hresource]
    obtain ⟨hadded, h₁⟩ := plainType_registers (w.reflected h) h m
      (Bool.eq_false_of_not_eq_true hresource) hnew'
    exact ⟨hadded, hregisters _ h₁⟩

/-- A type at a taken identity is not registered. -/
theorem typeHead_skips (hold : w.build.declares h.id = true) :
    (w.typeHead h m).2 = false ∧ w.Registers (w.typeHead h m).1 [] := by
  rw [typeHead, if_pos hold]
  exact ⟨rfl, Build.alike_error _ _, rfl⟩

theorem Registers.trans {w w₁ w₂ : Walk} {heads heads' : List (TypeHead × Marking)}
    (h : w.Registers w₁ heads) (h' : w₁.Registers w₂ heads') :
    w.Registers w₂ (heads ++ heads') := by
  have hoptions := h.build.options.trans (Build.enterAll_options ..)
  have happend : Registrant.types (heads ++ heads') =
      Registrant.types heads ++ Registrant.types heads' := List.map_append
  refine ⟨?_, ?_⟩
  · rw [happend, Build.enterAll, List.foldl_append]
    refine .trans ?_ h'.build
    rw [hoptions]
    exact h.build.enterAll _ _
  · rw [h'.startup, h.startup, List.flatMap_append, List.foldl_append]

theorem Registers.taken {w w₁ : Walk} {heads : List (TypeHead × Marking)}
    (h : w.Registers w₁ heads) :
    w₁.build.declared.toFinset = w.build.declared.toFinset ∪ (heads.map (·.1.id)).toFinset := by
  rw [h.build.declared, Build.taken_enterAll, Registrant.map_id_types]

mutual

theorem typeDecl_registers (enclosing : Marking) (w : Walk) (t : TypeDecl) :
    w.Registers (typeDecl enclosing w t) (t.registered w.build.declared.toFinset enclosing) := by
  obtain ⟨h, nested⟩ := t
  have hdeclares := Build.declares_iff w.build h.id
  rw [typeDecl, TypeDecl.registered]
  dsimp only
  by_cases hold : w.build.declares h.id = true
  · obtain ⟨hadded, hhead⟩ := typeHead_skips w h (enclosing.within h.attributes) hold
    rw [if_pos (List.mem_toFinset.mpr (hdeclares.mp hold))]
    generalize w.typeHead h (enclosing.within h.attributes) = r at hadded hhead ⊢
    obtain ⟨w₁, added⟩ := r
    obtain rfl : added = false := hadded
    exact hhead
  · have hnew := Bool.eq_false_of_not_eq_true hold
    obtain ⟨hadded, hhead⟩ := typeHead_enters w h (enclosing.within h.attributes) hnew
    rw [if_neg fun hmem => hold (hdeclares.mpr (List.mem_toFinset.mp hmem))]
    generalize w.typeHead h (enclosing.within h.attributes) = r at hadded hhead ⊢
    obtain ⟨w₁, added⟩ := r
    obtain rfl : added = true := hadded
    have hnested := typeDecls_registers (enclosing.within h.attributes) w₁ nested
    have htaken : w₁.build.declared.toFinset = insert h.id w.build.declared.toFinset := by
      rw [hhead.taken, Finset.union_comm]
      rfl
    rw [htaken] at hnested
    exact hhead.trans hnested
termination_by structural t

theorem typeDecls_registers (enclosing : Marking) (w : Walk) (ts : List TypeDecl) :
    w.Registers (typeDecls enclosing w ts)
      (TypeDecl.registeredAll w.build.declared.toFinset enclosing ts) := by
  cases ts with
  | nil => exact ⟨.refl _, rfl⟩
  | cons t ts =>
    have hfirst := typeDecl_registers enclosing w t
    have hrest := typeDecls_registers enclosing (typeDecl enclosing w t) ts
    rw [hfirst.taken] at hrest
    exact hfirst.trans hrest
termination_by structural ts

end

end Walk

/-! ## Files -/

/-- The startup type of a file that gets the values of some types. -/
def SourceFile.startupOf (file : SourceFile) (assembly : String)
    (heads : List (TypeHead × Marking)) : Startup :=
  (heads.flatMap fun (h, m) => h.markedBindings m).foldl Startup.take
    (Startup.new assembly file.path)

/-- A startup type is registered if it has any values and its identity is free. -/
def Startup.registrants (taken : Finset Identity) (s : Startup) : List Registrant :=
  match s.finish with
  | some c => if c.id ∈ taken then [] else [.startup c]
  | none => []

/-- What a file registers when some identities are taken. -/
def SourceFile.registrants (o : Options) (taken : Finset Identity) (file : SourceFile) :
    List Registrant :=
  let heads := TypeDecl.registeredAll taken {} file.types
  Registrant.types heads ++
    (file.startupOf o.assemblyName heads).registrants (taken ∪ (heads.map (·.1.id)).toFinset)

/-- What files register in order when some identities are taken. -/
def SourceFile.registrantsAll (o : Options) (taken : Finset Identity) :
    List SourceFile → List Registrant
  | [] => []
  | file :: files =>
    let first := file.registrants o taken
    first ++ registrantsAll o (taken ∪ (first.map Registrant.id).toFinset) files

/-- What an assembly registers, in the order of the walk. -/
def Assembly.registrants (o : Options) (a : Assembly) : List Registrant :=
  SourceFile.registrantsAll o ∅ a.files

namespace Build

theorem alike_addStartup (b : Build) (tally : Tally) (s : Startup) :
    (b.enterAll b.options (s.registrants b.declared.toFinset)).Alike (b.addStartup tally s).1 := by
  unfold addStartup Startup.registrants
  cases s.finish with
  | none => exact .refl b
  | some c =>
    dsimp only
    have hdeclares := declares_iff b c.id
    by_cases hold : b.declares c.id = true
    · rw [if_pos (List.mem_toFinset.mpr (hdeclares.mp hold)), addClass_of_taken hold]
      exact alike_error _ _
    · rw [if_neg fun hmem => hold (hdeclares.mpr (List.mem_toFinset.mp hmem)),
        addClass_of_free (Bool.eq_false_of_not_eq_true hold)]
      exact .refl _

theorem alike_compileFile (b : Build) (tally : Tally) (file : SourceFile) :
    (b.enterAll b.options (file.registrants b.options b.declared.toFinset)).Alike
      (b.compileFile tally file).1 := by
  let w : Walk := ⟨{ b with file := some file.path }, .new b.options.assemblyName file.path, tally⟩
  have hwalk := Walk.typeDecls_registers {} w file.types
  have hoptions := hwalk.build.options.trans (enterAll_options ..)
  have hstartup := alike_addStartup (Walk.typeDecls {} w file.types).build
    (Walk.typeDecls {} w file.types).tally (Walk.typeDecls {} w file.types).startup
  have hitems : (Walk.typeDecls {} w file.types).startup.registrants
      (Walk.typeDecls {} w file.types).build.declared.toFinset =
        (file.startupOf b.options.assemblyName
          (TypeDecl.registeredAll b.declared.toFinset {} file.types)).registrants
            (b.declared.toFinset ∪ ((TypeDecl.registeredAll b.declared.toFinset {} file.types).map
              (·.1.id)).toFinset) := by
    rw [hwalk.startup, hwalk.taken]
    rfl
  rw [hitems, hoptions] at hstartup
  refine .trans ?_ hstartup
  rw [SourceFile.registrants, enterAll, List.foldl_append]
  exact (((alike_file b (some file.path)).enterAll _ _).trans hwalk.build).enterAll _ _

theorem alike_compileFiles_foldl (files : List SourceFile) (b : Build) (tally : Tally) :
    (b.enterAll b.options
      (SourceFile.registrantsAll b.options b.declared.toFinset files)).Alike
        (files.foldl (fun (b, tally) file => b.compileFile tally file) (b, tally)).1 := by
  induction files generalizing b tally with
  | nil => exact .refl b
  | cons file files ih =>
    have hfile := alike_compileFile b tally file
    have hoptions := hfile.options.trans (enterAll_options ..)
    have htaken := congrArg List.toFinset hfile.declared
    rw [taken_enterAll] at htaken
    have hrest := ih (b.compileFile tally file).1 (b.compileFile tally file).2
    rw [hoptions, htaken] at hrest
    refine .trans ?_ hrest
    rw [SourceFile.registrantsAll, enterAll, List.foldl_append]
    exact hfile.enterAll _ _

end Build

/-- The build of an assembly before its names are assigned. -/
def Assembly.draft (a : Assembly) (prior : Snapshot) (o : Options) : Build :=
  ((Build.new prior o).compileFiles a).1

/-- The tables of a build are what registering its types and startup types in order makes of them,
whatever errors are reported. -/
theorem Assembly.alike_draft (a : Assembly) (prior : Snapshot) (o : Options) :
    ((Build.new prior o).enterAll o (a.registrants o)).Alike (a.draft prior o) :=
  (Build.alike_compileFiles_foldl a.files (Build.new prior o) {}).trans (Build.alike_file _ none)

end Memberwise
