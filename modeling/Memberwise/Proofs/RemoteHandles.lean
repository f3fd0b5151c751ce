import Mathlib
import Memberwise.Proofs.BuildSteps

/-!
# Remote handles

The registry of a build is keyed by owner and whole signature, and a handle is a
hash of the owner and of the signature without its result.  The two notions of
identity part where a type declares remote methods that differ in their results
alone: such methods are different entries of the registry under one handle.

Where hashing brings in no collision of its own, these are the only entries that
share a handle.  Collisions cannot be excluded for all texts at once, since there
are more texts than 64-bit numbers; they are excluded for the two members at hand.
-/

namespace Memberwise

theorem Identity.ofRemote_injective (assembly : String) :
    Function.Injective (Identity.ofRemote assembly) := by
  rintro ⟨x⟩ ⟨y⟩ heq
  have hbits := congrArg Identity.bits heq
  simpa [ofRemote, mix, mixFrom] using hbits

namespace MethodRef

/-- The hashes of two members, and of their parameter types, are equal only if what is hashed is. -/
structure CollisionFree (r s : MethodRef) : Prop where
  member : r.signature.identity r.owner = s.signature.identity s.owner →
    r.owner = s.owner ∧ r.signature.name = s.signature.name ∧
      r.signature.params.map Ty.identity = s.signature.params.map Ty.identity ∧
      r.signature.arity = s.signature.arity
  type : ∀ t ∈ r.signature.params, ∀ t' ∈ s.signature.params, t.identity = t'.identity → t = t'

/-- Two members that differ in their results at most. -/
def SameButResult (r s : MethodRef) : Prop :=
  r.owner = s.owner ∧ r.signature.name = s.signature.name ∧
    r.signature.params = s.signature.params ∧ r.signature.arity = s.signature.arity

theorem params_eq_of_identities {ts ts' : List Ty}
    (htypes : ∀ t ∈ ts, ∀ t' ∈ ts', t.identity = t'.identity → t = t')
    (heq : ts.map Ty.identity = ts'.map Ty.identity) : ts = ts' := by
  induction ts generalizing ts' with
  | nil => exact (List.map_eq_nil_iff.mp heq.symm).symm
  | cons t ts ih =>
    obtain ⟨t', rest, rfl, hhead, htail⟩ := List.map_eq_cons_iff.mp heq.symm
    have hfirst : t = t' := htypes t (by simp) t' (by simp) hhead.symm
    have hrest : ts = rest := by
      refine ih (fun u hu u' hu' => ?_) htail.symm
      exact htypes u (List.mem_cons_of_mem _ hu) u' (List.mem_cons_of_mem _ hu')
    rw [hfirst, hrest]

theorem handle_eq_of_sameButResult {r s : MethodRef} (h : r.SameButResult s) (assembly : String) :
    r.handle assembly = s.handle assembly := by
  obtain ⟨howner, hname, hparams, harity⟩ := h
  rw [handle, handle, Signature.identity, Signature.identity, howner, hname, hparams, harity]

theorem sameButResult_of_handle_eq {r s : MethodRef} (hfree : r.CollisionFree s)
    {assembly : String} (heq : r.handle assembly = s.handle assembly) : r.SameButResult s := by
  have hremote := congrArg RemoteHandle.id heq
  obtain ⟨howner, hname, hparams, harity⟩ :=
    hfree.member (Identity.ofRemote_injective assembly hremote)
  exact ⟨howner, hname, params_eq_of_identities hfree.type hparams, harity⟩

end MethodRef

namespace Build

/-- Every handle of the registry is derived from its member. -/
def HandlesDerived (b : Build) : Prop :=
  ∀ entry ∈ b.remotes.entries, entry.2 = entry.1.handle b.options.assemblyName

theorem handlesDerived_addRemote {b : Build} (hb : b.HandlesDerived) (ref : MethodRef) :
    (b.addRemote ref (ref.handle b.options.assemblyName)).HandlesDerived := by
  intro entry hentry
  rcases Table.mem_insertIn hentry with rfl | hentry
  · rfl
  · exact hb entry hentry

theorem SideStep.handlesDerived {b b' : Build} (h : b.SideStep b') (hb : b.HandlesDerived) :
    b'.HandlesDerived := by
  cases h with
  | remote ref => exact handlesDerived_addRemote hb ref
  | interface h =>
    rw [addInterface_ok h]
    exact hb
  | resource h =>
    rw [addResource_ok h]
    exact hb
  | error | warning | proxy | entryPoint | graph | file => exact hb

theorem Step.handlesDerived {b b' : Build} (h : b.Step b') (hb : b.HandlesDerived) :
    b'.HandlesDerived := by
  cases h with
  | side h => exact h.handlesDerived hb
  | addClass h =>
    rw [(addClass_ok h).2]
    exact hb

theorem Steps.handlesDerived {b b' : Build} (h : b.Steps b') (hb : b.HandlesDerived) :
    b'.HandlesDerived := by
  induction h with
  | refl => exact hb
  | tail _ hstep ih => exact hstep.handlesDerived ih

end Build

/-- Every handle in the build of an assembly is derived from its member, errors or not. -/
theorem Assembly.handlesDerived_build (a : Assembly) (prior : Snapshot) (o : Options) :
    ∀ entry ∈ (a.build prior o).remotes.entries, entry.2 = entry.1.handle o.assemblyName := by
  have hsteps := a.steps_build prior o
  have hderived := hsteps.handlesDerived (by simp [Build.HandlesDerived, Build.new])
  rwa [Build.HandlesDerived, hsteps.options] at hderived

/--
Every handle of the registry is derived from its member.  Entries that differ in their results at
most have one handle, whatever the hashes are; so different entries share a handle if a type
declares remote methods that are told apart by their results alone.  Where the hashes do not
collide, no other entries do.
-/
theorem remote_handle_eq_iff_sameButResult (a : Assembly) (prior : Snapshot) (o : Options) :
    let remotes := (a.build prior o).remotes.entries
    (∀ entry ∈ remotes, entry.2 = entry.1.handle o.assemblyName) ∧
      ∀ (r s : MethodRef) (hr hs : RemoteHandle), (r, hr) ∈ remotes → (s, hs) ∈ remotes →
        (r.SameButResult s → hr = hs) ∧ (r.CollisionFree s → (hr = hs ↔ r.SameButResult s)) := by
  intro remotes
  have hderived : ∀ entry ∈ remotes, entry.2 = entry.1.handle o.assemblyName :=
    a.handlesDerived_build prior o
  refine ⟨hderived, fun r s hr hs hrmem hsmem => ?_⟩
  rw [show hr = r.handle o.assemblyName from hderived _ hrmem,
    show hs = s.handle o.assemblyName from hderived _ hsmem]
  have hsame (h : r.SameButResult s) : r.handle o.assemblyName = s.handle o.assemblyName :=
    MethodRef.handle_eq_of_sameButResult h o.assemblyName
  exact ⟨hsame, fun hfree => ⟨MethodRef.sameButResult_of_handle_eq hfree, hsame⟩⟩

/-! ## Methods told apart by their results -/

def storeGet (result : Ty) : MemberDecl :=
  { MemberDecl.method "Get" [⟨"key", .named "System.String"⟩] result with
    attributes := [.remote none] }

def storePut : MemberDecl :=
  { MemberDecl.method "Put" [⟨"key", .named "System.String"⟩, ⟨"value", .int32⟩] .void with
    attributes := [.remote none] }

/-- An assembly with two remote methods of one name and one parameter list. -/
def storeAssembly : Assembly where
  name := "Assembly"
  files := [{
    path := "store"
    types := [{
      head := {
        name := "Store", form := .ordinary
        members := [storeGet (.named "System.String"), storeGet .int32, storePut] }
      nested := [] }] }]

/-- The reference to a method of the store. -/
def storeRef (d : MemberDecl) : MethodRef := ⟨.ofName "Store", d.signature⟩

theorem store_getters_share_handle :
    (storeAssembly.build {} {}).hasErrors = false ∧
      ∃ (r s : MethodRef) (handle : RemoteHandle), r ≠ s ∧ r.CollisionFree s ∧
        (r, handle) ∈ (storeAssembly.build {} {}).remotes.entries ∧
        (s, handle) ∈ (storeAssembly.build {} {}).remotes.entries := by
  refine ⟨by decide +kernel, storeRef (storeGet (.named "System.String")),
    storeRef (storeGet .int32), (storeRef (storeGet .int32)).handle "Assembly",
    by decide +kernel, ?_, by decide +kernel, by decide +kernel⟩
  exact ⟨fun _ => ⟨rfl, rfl, rfl, rfl⟩, by decide +kernel⟩

theorem store_put_has_own_handle :
    let put := (storeRef storePut).handle "Assembly"
    let get := (storeRef (storeGet .int32)).handle "Assembly"
    (storeRef storePut, put) ∈ (storeAssembly.build {} {}).remotes.entries ∧
      (storeRef (storeGet .int32), get) ∈ (storeAssembly.build {} {}).remotes.entries ∧
      (storeRef storePut).CollisionFree (storeRef (storeGet .int32)) ∧ put ≠ get := by
  intro put get
  have hput : (storeRef storePut, put) ∈ (storeAssembly.build {} {}).remotes.entries := by
    decide +kernel
  have hget : (storeRef (storeGet .int32), get) ∈ (storeAssembly.build {} {}).remotes.entries := by
    decide +kernel
  have hfree : (storeRef storePut).CollisionFree (storeRef (storeGet .int32)) := by
    refine ⟨fun hmember => ?_, by decide +kernel⟩
    exact absurd hmember (by decide +kernel)
  refine ⟨hput, hget, hfree, fun heq => ?_⟩
  obtain ⟨-, hentries⟩ := remote_handle_eq_iff_sameButResult storeAssembly {} {}
  have hsame := ((hentries _ _ _ _ hput hget).2 hfree).mp heq
  exact absurd hsame.2.1 (by decide)

end Memberwise
