import Mathlib
import Memberwise.Proofs.Runs
import Memberwise.Proofs.TypeTables

/-!
# Finding synthesized members

Of several members with one key only the first is added to a class, so a member is found in the
class exactly as in the list of all members.  A machine finds the class of a registered type under
the identity of the type.
-/

namespace Memberwise

/-! ## Finding members -/

namespace ClassRecord

/-- A search that goes by keys finds in a class what it finds in the list of all members. -/
theorem findSome?_addFree {α : Type} {f : Member → Option α}
    (hf : ∀ x y : Member, x.key = y.key → (f x).isSome = (f y).isSome) (c : ClassRecord)
    (l : List Member) : (c.addFree l).members.findSome? f = (c.members ++ l).findSome? f := by
  induction l generalizing c with
  | nil => simp [addFree]
  | cons first l ih =>
    rw [addFree, List.foldl_cons]
    by_cases htaken : c.contains first.key = true
    · rw [if_pos htaken]
      refine (ih c).trans ?_
      rw [List.findSome?_append, List.findSome?_append, List.findSome?_cons]
      have hmem : first.key ∈ c.keys := by simpa [contains] using htaken
      obtain ⟨other, hother, hkey⟩ := List.mem_map.mp hmem
      cases hfound : f first with
      | none => rfl
      | some a =>
        -- The search stops at the member that took the key, if not before.
        have hsome : (c.members.findSome? f).isSome := by
          rw [List.findSome?_isSome_iff]
          refine ⟨other, hother, ?_⟩
          rw [hf other first hkey, hfound]
          rfl
        rw [Option.or_of_isSome hsome, Option.or_of_isSome hsome]
    · rw [if_neg htaken]
      refine (ih _).trans ?_
      rw [List.append_assoc, List.singleton_append]

/-- What is found where all that could be found agree. -/
theorem findSome?_eq_some_of_agree {α β : Type} {f : α → Option β} {l : List α} {x : α} {b : β}
    (hx : x ∈ l) (hfx : f x = some b) (hagree : ∀ y ∈ l, ∀ b', f y = some b' → b' = b) :
    l.findSome? f = some b := by
  cases hfound : l.findSome? f with
  | none => exact absurd (List.findSome?_eq_none_iff.mp hfound x hx) (by simp [hfx])
  | some b' =>
    obtain ⟨y, hy, hfy⟩ := List.exists_of_findSome?_eq_some hfound
    rw [hagree y hy b' hfy]

/-- A method is found in a class if it is among the added members and no other one of its signature
is. -/
theorem method?_addFree {c : ClassRecord} (hc : c.members = []) {l : List Member}
    {signature : Signature} {r : Method} (hr : .method signature r ∈ l)
    (hagree : ∀ r', .method signature r' ∈ l → r' = r) :
    (c.addFree l).method? signature = some r := by
  unfold method?
  rw [findSome?_addFree, hc, List.nil_append]
  · refine findSome?_eq_some_of_agree hr (by simp) fun member hmember r' hfound => ?_
    split at hfound
    · split at hfound
      · next hsignature =>
        subst hsignature
        obtain rfl := Option.some.inj hfound
        exact hagree _ hmember
      · cases hfound
    · cases hfound
  · intro x y hkey
    cases x <;> cases y <;> simp_all [Member.key]
    split_ifs <;> rfl

/-- A constructor is found in a class that has no other one of its signature. -/
theorem constructor?_of_agree {c : ClassRecord} {signature : Signature} {r : Method}
    (hr : .constructor signature r ∈ c.members)
    (hagree : ∀ r', .constructor signature r' ∈ c.members → r' = r) :
    c.constructor? signature = some r := by
  refine findSome?_eq_some_of_agree hr (by simp) fun member hmember r' hfound => ?_
  split at hfound
  · split at hfound
    · next hsignature =>
      subst hsignature
      obtain rfl := Option.some.inj hfound
      exact hagree _ hmember
    · cases hfound
  · cases hfound

/-- A constructor is found in a class if it is among the added members and no other one of its
signature is. -/
theorem constructor?_addFree {c : ClassRecord} (hc : c.members = []) {l : List Member}
    {signature : Signature} {r : Method} (hr : .constructor signature r ∈ l)
    (hagree : ∀ r', .constructor signature r' ∈ l → r' = r) :
    (c.addFree l).constructor? signature = some r := by
  have hlist : constructor? { c with members := l } signature = some r :=
    constructor?_of_agree hr hagree
  unfold constructor? at hlist ⊢
  rw [findSome?_addFree, hc, List.nil_append]
  · exact hlist
  · intro x y hkey
    cases x <;> cases y <;> simp_all [Member.key]
    split_ifs <;> rfl

end ClassRecord

namespace Machine

variable {machine : Machine}

/-- The class of a registered type is what a machine of the build finds under its identity. -/
theorem get?_registered {a : Assembly} {prior : Snapshot} {o : Options}
    (hbuild : machine.build = a.build prior o) {h : TypeHead} {m : Marking}
    (hregistered : .type h m ∈ a.registrants o) (hclass : h.isClass = true) :
    machine.build.classes.get? h.id = some (h.emittedClass o m) := by
  rw [hbuild, Assembly.get?_classes_iff]
  refine ⟨_, hregistered, ?_⟩
  rw [Registrant.classes_of_class hclass]
  exact List.mem_singleton_self _

end Machine

/-- The members of a class without declared ones are those that its form brings. -/
theorem TypeHead.emittedClass_of_no_members {h : TypeHead} (hnone : h.members = []) (o : Options)
    (m : Marking) : h.emittedClass o m = h.augment o m (h.newClass m) := by
  rw [emittedClass, declaredMembers, hnone]
  rfl

end Memberwise
