import Mathlib
import Memberwise.Proofs.StoreInvariants

/-!
# Keys of objects

A write replaces the field of its name or adds one, so it never gives an object a name twice.  An
object that is written out takes its fields as they stand, repeated names included.  Hence an
object can have a name as many times as some object in the code is written with it, and at most
once if none is written with it twice.

Repeated names do no harm to writing and reading, which both mean the first field of the name.  An
optional slot that is removed is removed with all its fields.  Neither touches a field of another
name or another object.
-/

namespace Memberwise

/-- How many fields of an object have a name. -/
def Store.copies (s : Store) (ref : Nat) (name : String) : Nat := (s.fields ref).keys.count name

/-- No object has more fields of a name than permitted. -/
def Store.Within (limit : String → Nat) (s : Store) : Prop :=
  ∀ ref name, s.copies ref name ≤ limit name

/-- The second store differs from the first at most in the fields of one name of one object. -/
structure Store.AgreesOutside (ref : Nat) (name : String) (s s' : Store) : Prop where
  fields : (s'.fields ref).entries.filter (·.1 ≠ name) = (s.fields ref).entries.filter (·.1 ≠ name)
  objects : ∀ ref' ≠ ref, s'.fields ref' = s.fields ref'
  size : s'.objects.size = s.objects.size
  arrays : s'.arrays = s.arrays
  closures : s'.closures = s.closures

/-- A form of expression that writes out no object with more fields of a name than permitted. -/
def Expr.FieldsWithin (limit : String → Nat) : Expr → Prop
  | object fields => ∀ name, (fields.map Prod.fst).count name ≤ limit name
  | _ => True

/-- An operation that brings no object with more fields of a name than permitted, and makes no
functions by itself. -/
def Operation.FieldsWithin (limit : String → Nat) : Operation → Prop
  | addHost _ host => host.KeepsClosures ∧ host.Respects (Store.Within limit)
  | changeStore f => ∀ store, (f store).closures = store.closures ∧
      (store.Within limit → (f store).Within limit)
  | eval e => e.Every (Expr.FieldsWithin limit)
  | readStatic _ _ | call _ _ _ | runEntryPoint => True

/-! ## Tables -/

namespace Table

variable {κ α : Type} [DecidableEq κ]

theorem count_keys_insert (t : Table κ α) (k : κ) (a : α) (k' : κ) :
    (t.insert k a).keys.count k' ≤ max 1 (t.keys.count k') := by
  rw [keys_insert]
  split_ifs with hk
  · exact le_max_right _ _
  · rw [List.count_append, List.count_singleton]
    split_ifs with heq
    · rw [← beq_iff_eq.mp heq, List.count_eq_zero_of_not_mem hk]
      exact le_max_left _ _
    · exact le_max_right _ _

theorem filter_insertIn (k : κ) (a : α) (l : List (κ × α)) :
    (insertIn k a l).filter (·.1 ≠ k) = l.filter (·.1 ≠ k) := by
  induction l with
  | nil => simp [insertIn]
  | cons entry rest ih =>
    obtain ⟨k', a'⟩ := entry
    rw [insertIn]
    split_ifs with hk
    · simp [hk]
    · rw [List.filter_cons, List.filter_cons, ih]

theorem keys_erase (t : Table κ α) (k : κ) : (t.erase k).keys = t.keys.filter (· ≠ k) := by
  rw [keys, keys, erase, List.filter_map]
  rfl

theorem size_erase (t : Table κ α) (k : κ) : (t.erase k).size + t.keys.count k = t.size := by
  have hsize (t : Table κ α) : t.size = t.keys.length := (List.length_map _).symm
  have hrest : t.keys.countP (fun k' => ¬ decide (k' ≠ k) = true) = t.keys.count k :=
    List.countP_congr fun k' _ => by simp
  rw [hsize, hsize, keys_erase, ← List.countP_eq_length_filter, ← hrest]
  exact (List.length_eq_countP_add_countP _).symm

end Table

/-! ## Stores -/

namespace Store

variable {limit : String → Nat} {s : Store}

theorem fields_mapFields (s : Store) (ref : Nat) (f : Table String Value → Table String Value)
    (ref' : Nat) :
    (s.mapFields ref f).fields ref' =
      if ref = ref' ∧ ref < s.objects.size then f (s.fields ref) else s.fields ref' := by
  simp only [fields, mapFields, Array.getElem?_modify]
  by_cases heq : ref = ref'
  · subst heq
    by_cases hlt : ref < s.objects.size
    · simp [hlt]
    · simp [hlt]
  · simp [heq]

theorem fields_newObject (s : Store) (fields : List (String × Value)) (ref : Nat) :
    (s.newObject fields).2.fields ref =
      if ref = s.objects.size then ⟨fields⟩ else s.fields ref := by
  simp only [Store.fields, newObject, Array.getElem?_push]
  split_ifs <;> rfl

/-- Changing one object that stays within the limits keeps all within them. -/
theorem Within.mapFields (hs : s.Within limit) (ref : Nat)
    {f : Table String Value → Table String Value}
    (hf : ∀ t name, t.keys.count name ≤ limit name → (f t).keys.count name ≤ limit name) :
    (s.mapFields ref f).Within limit := by
  intro ref' name
  rw [copies, fields_mapFields]
  split_ifs
  · exact hf _ name (hs ref name)
  · exact hs ref' name

theorem Within.newObject (hs : s.Within limit) {fields : List (String × Value)}
    (hfields : ∀ name, (fields.map Prod.fst).count name ≤ limit name) :
    (s.newObject fields).2.Within limit := by
  intro ref name
  rw [copies, fields_newObject]
  split_ifs
  · exact hfields name
  · exact hs ref name

variable (hlimit : ∀ name, 1 ≤ limit name)

include hlimit

theorem Within.write (hs : s.Within limit) {target value : Value} {name : String} {store : Store}
    (h : s.write target name value = .ok store) : store.Within limit := by
  cases target <;> cases h
  refine hs.mapFields _ fun t name' ht => ?_
  exact (t.count_keys_insert name value name').trans (max_le (hlimit name') ht)

omit hlimit in
theorem Within.remove (hs : s.Within limit) {target : Value} {name : String} {store : Store}
    (h : s.remove target name = .ok store) : store.Within limit := by
  cases target <;> cases h
  refine hs.mapFields _ fun t name' ht => ?_
  rw [Table.keys_erase]
  exact (List.filter_sublist.count_le name').trans ht

/-- A store within the limits whose functions are so too. -/
structure Fits (limit : String → Nat) (s : Store) : Prop where
  objects : s.Within limit
  closures : ∀ closure ∈ s.closures, closure.body.Every (Expr.FieldsWithin limit)

theorem lasting_fits : Lasting (Expr.FieldsWithin limit) (Fits limit) where
  closure _ hs := hs.closures
  change s store hs hchange := by
    refine ⟨?_, hchange.closures ▸ hs.closures⟩
    cases hchange with
    | write h => exact hs.objects.write hlimit h
    | object hfields h =>
      refine hs.objects.newObject fun name => ?_
      rw [h]
      exact hfields name
    | array items => exact hs.objects
  lambda s params body frame hs hbody := by
    refine ⟨hs.objects, fun closure hclosure => ?_⟩
    rcases Array.mem_push.mp hclosure with hold | rfl
    · exact hs.closures closure hold
    · exact hbody.child (by simp [Expr.children])

end Store

/-! ## Hosts and operations -/

section Hosts

variable {limit : String → Nat}

theorem Host.respects_fits {host : Host} (hclosures : host.KeepsClosures)
    (hobjects : host.Respects (Store.Within limit)) : host.Respects (Store.Fits limit) := by
  intro calls args store hs
  refine ⟨hobjects calls args store hs.objects, ?_⟩
  rw [hclosures calls args store]
  exact hs.closures

theorem Host.within_getOptional (name : String) :
    (Host.getOptional name).Respects (Store.Within limit) := by
  intro calls args store hs
  unfold Host.getOptional
  split <;> exact hs

theorem Host.within_setOptional (hlimit : ∀ name, 1 ≤ limit name) (name : String) :
    (Host.setOptional name).Respects (Store.Within limit) := by
  intro calls args store hs
  unfold Host.setOptional
  split
  · next target field value rest =>
    have hresult {store' : Store}
        (h : (if value.isNullish then store.remove target field
          else store.write target field value) = .ok store') : store'.Within limit := by
      split_ifs at h
      · exact hs.remove h
      · exact hs.write hlimit h
    dsimp only
    split
    · next h => exact hresult h
    · exact hs
  · exact hs

theorem Operation.FieldsWithin.respects {op : Operation} (h : op.FieldsWithin limit) :
    op.Respects (Expr.FieldsWithin limit) (Store.Fits limit) := by
  cases op with
  | addHost name host => exact Host.respects_fits h.1 h.2
  | changeStore f =>
    intro store hs
    refine ⟨(h store).2 hs.objects, ?_⟩
    rw [(h store).1]
    exact hs.closures
  | eval e => exact h
  | readStatic owner name | call ref receiver args | runEntryPoint => trivial

end Hosts

/-! ## Writing and removing fields -/

namespace Store

variable (s : Store) {ref : Nat} (href : ref < s.objects.size) (name : String)

include href

omit href in
/-- A change to the fields of one name in one object leaves all else alone. -/
theorem agreesOutside_mapFields (ref : Nat) {f : Table String Value → Table String Value}
    (hf : ∀ t, (f t).entries.filter (·.1 ≠ name) = t.entries.filter (·.1 ≠ name)) :
    s.AgreesOutside ref name (s.mapFields ref f) where
  fields := by
    rw [fields_mapFields]
    split_ifs
    · exact hf _
    · rfl
  objects ref' hne := by rw [fields_mapFields, if_neg fun h => hne h.1.symm]
  size := Array.size_modify ..
  arrays := rfl
  closures := rfl

/-- A field that was written is read. -/
theorem read_write (value : Value) :
    ∃ written, s.write (.object ref) name value = .ok written ∧
      written.read (.object ref) name = .ok value ∧ s.AgreesOutside ref name written := by
  refine ⟨_, rfl, ?_, ?_⟩
  · rw [read, field?, fields_mapFields, if_pos ⟨rfl, href⟩, Table.get?_insert, if_pos rfl]
    rfl
  · exact s.agreesOutside_mapFields name ref fun t => Table.filter_insertIn name value t.entries

/-- A slot that gets no value is removed with all its fields. -/
theorem setOptional_null (host : String) (calls : List HostCall) :
    ∃ removed, Host.setOptional host calls [.object ref, .string name, .null] s =
        (.ok .undefined, removed) ∧
      (removed.fields ref).keys = (s.fields ref).keys.filter (· ≠ name) ∧
      (removed.fields ref).size + s.copies ref name = (s.fields ref).size ∧
      s.AgreesOutside ref name removed := by
  refine ⟨_, rfl, ?_, ?_, ?_⟩
  · rw [fields_mapFields, if_pos ⟨rfl, href⟩, Table.keys_erase]
  · rw [fields_mapFields, if_pos ⟨rfl, href⟩]
    exact Table.size_erase _ _
  · exact s.agreesOutside_mapFields name ref fun t => by simp [Table.erase]

end Store

/--
Let no object that is written out in the code of a build, or in an expression that is evaluated,
have more fields of a name than some limit, and let hosts and the outside world bring no such
object either.  Then no object has, after any operations, more fields of a name than the limit.
In particular all keys are different if no object is written out with the same key twice.  A field
that is written is read again, and removing an optional slot removes all fields of its name.  Both
leave the fields of other names, other objects and all else in the store as they were.
-/
theorem repeated_keys_come_from_code (b : Build) (limit : String → Nat)
    (hlimit : ∀ name, 1 ≤ limit name) (hcode : ∀ e ∈ b.code, e.Every (Expr.FieldsWithin limit))
    (ops : List Operation) (hops : ∀ op ∈ ops, op.FieldsWithin limit) :
    let store := ((Session.start b).after ops).state.store
    (∀ ref name, store.copies ref name ≤ limit name) ∧
      ((∀ name, limit name = 1) → ∀ ref, (store.fields ref).keys.Nodup) ∧
      ∀ ref < store.objects.size, ∀ name,
        (∀ value, ∃ written, store.write (.object ref) name value = .ok written ∧
          written.read (.object ref) name = .ok value ∧ store.AgreesOutside ref name written) ∧
        ∃ removed, Host.setOptional b.options.setOptional [] [.object ref, .string name, .null]
            store = (.ok .undefined, removed) ∧
          (removed.fields ref).keys = (store.fields ref).keys.filter (· ≠ name) ∧
          (removed.fields ref).size + store.copies ref name = (store.fields ref).size ∧
          store.AgreesOutside ref name removed := by
  intro store
  have hmachine :
      (Session.start b).machine.Guards (Expr.FieldsWithin limit) (Store.Fits limit) :=
    Machine.guards_new hcode
      (Host.respects_fits (Host.keepsClosures_getOptional _) (Host.within_getOptional _))
      (Host.respects_fits (Host.keepsClosures_setOptional _) (Host.within_setOptional hlimit _))
  have hstart : (Session.start b).state.store.Fits limit := by
    refine ⟨fun ref name => ?_, fun closure hclosure => ?_⟩
    · simp [Session.start, Store.copies, Store.fields, Table.keys]
    · exact absurd hclosure (Array.not_mem_empty closure)
  have hend : store.Fits limit :=
    Session.guards_after (Store.lasting_fits hlimit) hmachine hstart
      fun op hop => (hops op hop).respects
  refine ⟨hend.objects, fun hone ref => ?_, fun ref href name => ⟨?_, ?_⟩⟩
  · exact List.nodup_iff_count_le_one.mpr fun name => hone name ▸ hend.objects ref name
  · exact store.read_write href name
  · exact store.setOptional_null href name _ []

/-- A host that writes a mark on the first object. -/
def markHost : Host := fun _ _ store =>
  match store.write (.object 0) "mark" (.int 1) with
  | .ok store => (.ok .undefined, store)
  | .error fault => (.error fault, store)

/-- A method that makes an object with two fields of a name. -/
def tagMake : MemberDecl :=
  { MemberDecl.method "Make" [] (.named "Tag") with
    modifiers := { isStatic := true }
    body := some (.object [("label", .int 1), ("label", .int 2), ("size", .int 3)]) }

def tagHead : TypeHead where
  name := "Tag"
  form := .ordinary
  attributes := [.javaScript true]
  members := [tagMake]

def tagAssembly : Assembly where
  name := "Tag"
  files := [{ path := "tag", types := [⟨tagHead, []⟩] }]

/-- An object is made by the method and marked twice, and another one is relabelled. -/
def labelOperations : List Operation := [
  .addHost "mark" markHost,
  .call ⟨tagHead.id, tagMake.signature⟩ none [],
  .eval (.seq [.apply (.global "mark") [], .apply (.global "mark") []]),
  .eval (.setField (.object [("label", .int 4)]) "label" (.int 5))]

theorem labels_within_two :
    let limit (name : String) := if name = "label" then 2 else 1
    let store := ((Session.start (tagAssembly.build {} {})).after labelOperations).state.store
    (tagAssembly.build {} {}).code =
        [.object [("label", .int 1), ("label", .int 2), ("size", .int 3)]] ∧
      (∀ op ∈ labelOperations, op.FieldsWithin limit) ∧
      (∀ ref name, store.copies ref name ≤ limit name) ∧
      (store.fields 0).keys = ["label", "label", "size", "mark"] ∧
      ∃ removed, Host.setOptional (Options.setOptional {}) [] [.object 0, .string "label", .null]
        store = (.ok .undefined, removed) ∧ (removed.fields 0).keys = ["size", "mark"] ∧
        removed.read (.object 1) "label" = .ok (.int 5) := by
  intro limit store
  have hlimit (name : String) : 1 ≤ limit name := by
    simp only [limit]
    split_ifs <;> decide
  have hmark : Host.KeepsClosures markHost ∧ Host.Respects (Store.Within limit) markHost :=
    ⟨fun _ _ _ => rfl, fun _ _ store hs =>
      hs.write hlimit (show store.write (.object 0) "mark" (.int 1) = .ok _ from rfl)⟩
  have hlabels (name : String) : ["label", "label", "size"].count name ≤ limit name := by
    by_cases hlabel : name = "label"
    · subst hlabel
      decide
    · have hsize : ["label", "label", "size"].count name = ["size"].count name := by
        simp [Ne.symm hlabel]
      rw [hsize]
      exact (List.nodup_iff_count_le_one.mp (List.nodup_singleton _) name).trans (hlimit name)
  have hsingle (name : String) : ["label"].count name ≤ limit name :=
    (List.nodup_iff_count_le_one.mp (List.nodup_singleton _) name).trans (hlimit name)
  have hops : ∀ op ∈ labelOperations, op.FieldsWithin limit := by
    simp only [labelOperations, List.forall_mem_cons, Operation.FieldsWithin]
    refine ⟨hmark, trivial, ?_, ?_, by simp⟩
    · simp [Expr.FieldsWithin]
    · simpa [Expr.FieldsWithin, Expr.int] using hsingle
  have hall : (tagAssembly.build {} {}).code =
    [.object [("label", .int 1), ("label", .int 2), ("size", .int 3)]] := rfl
  have hcode : ∀ e ∈ (tagAssembly.build {} {}).code, e.Every (Expr.FieldsWithin limit) := by
    simpa [hall, Expr.FieldsWithin, Expr.int] using hlabels
  have hkeys : (store.fields 0).keys = ["label", "label", "size", "mark"] := by decide +kernel
  have hrelabelled : store.read (.object 1) "label" = .ok (.int 5) := by decide +kernel
  have hsize : 0 < store.objects.size := by decide +kernel
  obtain ⟨hwithin, -, hobjects⟩ :=
    repeated_keys_come_from_code (tagAssembly.build {} {}) limit hlimit hcode labelOperations hops
  obtain ⟨-, removed, hremoved, hleft, -, hagrees⟩ := hobjects 0 hsize "label"
  refine ⟨hall, hops, hwithin, hkeys, removed, hremoved, ?_, ?_⟩
  · rw [hleft]
    exact (congrArg (List.filter _) hkeys).trans (by decide)
  · rw [← hrelabelled, Store.read, Store.field?, hagrees.objects 1 (by decide)]
    rfl

/-- An object that is written out with a key twice has it twice. -/
theorem repeated_key_kept :
    let store := ((Session.start (.new {} {})).after
      [.eval (.object [("a", .int 1), ("a", .int 2)])]).state.store
    (store.fields 0).keys = ["a", "a"] ∧
      ((Host.setOptional (Options.setOptional {}) [] [.object 0, .string "a", .null]
        store).2.fields 0).size = 0 := by
  decide +kernel

end Memberwise
