import Mathlib
import Memberwise.Proofs.ObjectKeys

/-!
# How arrays nest

Objects refer to each other in any way that field writes bring about, cycles
included.  Arrays do not: an array is made of values that there are, and is not
changed later, so the arrays among its items were made before it.  This is an
invariant of stores, together with the fact that all that is in a store refers to
what is in the store.

The text of an array is made of the texts of its items.  Here it is given by rules
without a bound on the nesting.  In a store with the invariant the rules give every
value one text, and it is the text that is computed with a bound.
-/

namespace Memberwise

/-! ## Tables -/

namespace Table

variable {κ α : Type} [DecidableEq κ] {t : Table κ α}

theorem mem_values_insert {k : κ} {a a' : α} (h : a' ∈ (t.insert k a).values) :
    a' = a ∨ a' ∈ t.values := by
  obtain ⟨entries⟩ := t
  unfold insert values at h
  unfold values
  induction entries with
  | nil => exact .inl (List.mem_singleton.mp h)
  | cons entry rest ih =>
    obtain ⟨k', b⟩ := entry
    rw [insertIn] at h
    split_ifs at h with hk
    · rcases List.mem_cons.mp h with rfl | h
      · exact .inl rfl
      · exact .inr (List.mem_cons_of_mem _ h)
    · rcases List.mem_cons.mp h with rfl | h
      · exact .inr List.mem_cons_self
      · exact (ih h).imp_right (List.mem_cons_of_mem _)

theorem mem_values_erase {k : κ} {a : α} (h : a ∈ (t.erase k).values) : a ∈ t.values := by
  obtain ⟨entry, hentry, rfl⟩ := List.mem_map.mp h
  exact List.mem_map_of_mem (List.mem_of_mem_filter hentry)

end Table

/-- All values that are bound in a frame are of some kind. -/
structure Frame.Within (P : Value → Prop) (f : Frame) : Prop where
  receiver : ∀ v ∈ f.receiver, P v
  holes : ∀ v ∈ f.holes, P v
  vars : ∀ entry ∈ f.vars, P entry.2

namespace Store

/-! ## What is in a store -/

/-- What a value refers to is in the store. -/
def Knows (s : Store) : Value → Prop
  | .object ref => ref < s.objects.size
  | .array ref => ref < s.arrays.size
  | .closure ref => ref < s.closures.size
  | _ => True

/-- A store with at least what there is in another one. -/
structure Grows (s s' : Store) : Prop where
  objects : s.objects.size ≤ s'.objects.size
  arrays : s.arrays.size ≤ s'.arrays.size
  closures : s.closures.size ≤ s'.closures.size

/-- All that is in the store refers to what is in it, and arrays to earlier ones. -/
structure Tidy (s : Store) : Prop where
  field : ∀ ref, ∀ v ∈ (s.fields ref).values, s.Knows v
  item : ∀ ref, ∀ v ∈ s.items ref, s.Knows v
  nested : ∀ ref inner, .array inner ∈ s.items ref → inner < ref
  captured : ∀ closure ∈ s.closures, closure.frame.Within s.Knows

variable {s s' s'' : Store}

theorem Grows.refl (s : Store) : s.Grows s := ⟨le_rfl, le_rfl, le_rfl⟩

theorem Grows.trans (h : s.Grows s') (h' : s'.Grows s'') : s.Grows s'' :=
  ⟨h.objects.trans h'.objects, h.arrays.trans h'.arrays, h.closures.trans h'.closures⟩

theorem Knows.mono {v : Value} (hv : s.Knows v) (h : s.Grows s') : s'.Knows v := by
  cases v with
  | object ref => exact lt_of_lt_of_le hv h.objects
  | array ref => exact lt_of_lt_of_le hv h.arrays
  | closure ref => exact lt_of_lt_of_le hv h.closures
  | _ => trivial

theorem tidy_empty : Tidy {} where
  field ref v hv := by simp [fields, Table.values] at hv
  item ref v hv := by simp [items] at hv
  nested ref inner h := by simp [items] at h
  captured closure h := absurd h (Array.not_mem_empty closure)

end Store

theorem Frame.Within.mono {P Q : Value → Prop} {f : Frame} (hf : f.Within P)
    (h : ∀ v, P v → Q v) : f.Within Q :=
  ⟨fun v hv => h v (hf.receiver v hv), fun v hv => h v (hf.holes v hv),
    fun entry hentry => h _ (hf.vars entry hentry)⟩

theorem Frame.Within.grows {s s' : Store} {f : Frame} (hf : f.Within s.Knows)
    (h : s.Grows s') : f.Within s'.Knows :=
  hf.mono fun _ hv => hv.mono h

namespace Store

variable {s s' : Store}

/-! ## Changes of a store -/

theorem items_newArray (s : Store) (items : List Value) (ref : Nat) :
    (s.newArray items).2.items ref = if ref = s.arrays.size then items else s.items ref := by
  simp only [Store.items, newArray, Array.getElem?_push]
  split_ifs <;> rfl

theorem grows_newObject (s : Store) (fields : List (String × Value)) :
    s.Grows (s.newObject fields).2 :=
  ⟨by simp [newObject], le_rfl, le_rfl⟩

theorem grows_newArray (s : Store) (items : List Value) : s.Grows (s.newArray items).2 :=
  ⟨le_rfl, by simp [newArray], le_rfl⟩

theorem grows_newClosure (s : Store) (closure : Closure) : s.Grows (s.newClosure closure).2 :=
  ⟨le_rfl, le_rfl, by simp [newClosure]⟩

theorem knows_newObject (s : Store) (fields : List (String × Value)) :
    (s.newObject fields).2.Knows (s.newObject fields).1 := by
  simp [newObject, Knows]

theorem knows_newArray (s : Store) (items : List Value) :
    (s.newArray items).2.Knows (s.newArray items).1 := by
  simp [newArray, Knows]

theorem knows_newClosure (s : Store) (closure : Closure) :
    (s.newClosure closure).2.Knows (s.newClosure closure).1 := by
  simp [newClosure, Knows]

theorem grows_mapFields (s : Store) (ref : Nat) (f : Table String Value → Table String Value) :
    s.Grows (s.mapFields ref f) :=
  ⟨by simp [mapFields], le_rfl, le_rfl⟩

theorem Tidy.newObject (hs : s.Tidy) {fields : List (String × Value)}
    (hfields : ∀ entry ∈ fields, s.Knows entry.2) : (s.newObject fields).2.Tidy := by
  have hgrows := s.grows_newObject fields
  refine ⟨fun ref v hv => ?_, fun ref v hv => (hs.item ref v hv).mono hgrows, hs.nested,
    fun closure hclosure => (hs.captured closure hclosure).grows hgrows⟩
  rw [fields_newObject] at hv
  split_ifs at hv
  · obtain ⟨entry, hentry, rfl⟩ := List.mem_map.mp hv
    exact (hfields entry hentry).mono hgrows
  · exact (hs.field ref v hv).mono hgrows

/-- The items of a new array are there already, so the arrays among them are earlier ones. -/
theorem Tidy.newArray (hs : s.Tidy) {items : List Value} (hitems : ∀ v ∈ items, s.Knows v) :
    (s.newArray items).2.Tidy := by
  have hgrows := s.grows_newArray items
  refine ⟨fun ref v hv => (hs.field ref v hv).mono hgrows, fun ref v hv => ?_,
    fun ref inner h => ?_,
    fun closure hclosure => (hs.captured closure hclosure).grows hgrows⟩
  · rw [items_newArray] at hv
    split_ifs at hv
    · exact (hitems v hv).mono hgrows
    · exact (hs.item ref v hv).mono hgrows
  · rw [items_newArray] at h
    split_ifs at h with href
    · exact href ▸ hitems _ h
    · exact hs.nested ref inner h

theorem Tidy.newClosure (hs : s.Tidy) {closure : Closure}
    (hframe : closure.frame.Within s.Knows) : (s.newClosure closure).2.Tidy := by
  have hgrows := s.grows_newClosure closure
  refine ⟨fun ref v hv => (hs.field ref v hv).mono hgrows,
    fun ref v hv => (hs.item ref v hv).mono hgrows, hs.nested, fun other hother => ?_⟩
  rcases Array.mem_push.mp hother with hold | rfl
  · exact (hs.captured other hold).grows hgrows
  · exact hframe.grows hgrows

theorem Tidy.mapFields (hs : s.Tidy) (ref : Nat) {f : Table String Value → Table String Value}
    (hf : ∀ t : Table String Value, (∀ v ∈ t.values, s.Knows v) → ∀ v ∈ (f t).values, s.Knows v) :
    (s.mapFields ref f).Tidy := by
  have hgrows := s.grows_mapFields ref f
  refine ⟨fun other v hv => ?_, fun other v hv => (hs.item other v hv).mono hgrows, hs.nested,
    fun closure hclosure => (hs.captured closure hclosure).grows hgrows⟩
  rw [fields_mapFields] at hv
  split_ifs at hv
  · exact (hf _ (hs.field ref) v hv).mono hgrows
  · exact (hs.field other v hv).mono hgrows

theorem Tidy.write (hs : s.Tidy) {target value : Value} {name : String}
    (hvalue : s.Knows value) (h : s.write target name value = .ok s') :
    s'.Tidy ∧ s.Grows s' := by
  cases target <;> cases h
  refine ⟨hs.mapFields _ fun t ht v hv => ?_, grows_mapFields ..⟩
  rcases Table.mem_values_insert hv with rfl | hv
  · exact hvalue
  · exact ht v hv

theorem Tidy.remove (hs : s.Tidy) {target : Value} {name : String}
    (h : s.remove target name = .ok s') : s'.Tidy ∧ s.Grows s' := by
  cases target <;> cases h
  exact ⟨hs.mapFields _ fun t ht v hv => ht v (Table.mem_values_erase hv), grows_mapFields ..⟩

/-! ## What is read from a store -/

theorem Tidy.knows_field (hs : s.Tidy) {target value : Value} {name : String}
    (h : s.field? target name = some value) : s.Knows value := by
  cases target <;> try cases h
  next ref => exact hs.field ref value (Table.mem_values_of_get? h)

theorem Tidy.knows_read (hs : s.Tidy) {target value : Value} {name : String}
    (h : s.read target name = .ok value) : s.Knows value := by
  unfold read at h
  split at h
  · next ref =>
    cases h
    cases hfield : s.field? (.object ref) name with
    | none => trivial
    | some value => exact hs.knows_field hfield
  · split_ifs at h <;> cases h
    trivial
  · split_ifs at h <;> cases h
    trivial
  · cases h

theorem Tidy.knows_index (hs : s.Tidy) {target key value : Value}
    (h : s.index target key = .ok value) : s.Knows value := by
  unfold index at h
  split at h
  · next ref i =>
    cases h
    split_ifs
    · trivial
    · cases hitem : (s.items ref)[i.toInt.toNat]? with
      | none => trivial
      | some value => exact hs.item ref value (List.mem_of_getElem? hitem)
  · next ref name =>
    cases h
    cases hfield : s.field? (.object ref) name with
    | none => trivial
    | some value => exact hs.knows_field hfield
  · cases h

/-! ## Texts -/

/-- An array is an item of another one. -/
def Contains (s : Store) (outer inner : Nat) : Prop := .array inner ∈ s.items outer

end Store

/-- Whether a value refers to nothing in a store. -/
def Value.isScalar : Value → Bool
  | object _ | array _ | closure _ => false
  | _ => true

/-- The text of a value that is no array. -/
def Value.ownText? : Value → Option String
  | undefined => some "undefined"
  | null => some "null"
  | bool b => some (if b then "true" else "false")
  | int i => some (toString i.toInt)
  | float x => some (Number.text x)
  | string text => some text
  | object _ => some "[object Object]"
  | array _ => none
  | closure _ => some "function"
  | host name => some ("function " ++ name)

namespace Store

/-- The texts of values: an array has the texts of its items, with commas between them. -/
inductive Displays (s : Store) : Value → String → Prop
  | plain {v : Value} {text : String} (h : v.ownText? = some text) : Displays s v text
  | array {ref : Nat} {texts : List String} (hlength : (s.items ref).length = texts.length)
      (h : ∀ entry ∈ (s.items ref).zip texts, Displays s entry.1 entry.2) :
      Displays s (.array ref) (",".intercalate texts)

/-- Arrays do not come back to themselves, and every value has one text, the one computed. -/
structure Printable (s : Store) : Prop where
  acyclic : ∀ ref, ¬ Relation.TransGen s.Contains ref ref
  wellFounded : WellFounded fun inner outer => s.Contains outer inner
  displays : ∀ v text, s.Displays v text ↔ text = s.text v

variable {s : Store}

theorem lt_of_transGen (hs : s.Tidy) {outer inner : Nat}
    (h : Relation.TransGen s.Contains outer inner) : inner < outer := by
  induction h with
  | single h => exact hs.nested _ _ h
  | tail _ h ih => exact (hs.nested _ _ h).trans ih

theorem Displays.unique {v : Value} {text text' : String} (h : s.Displays v text)
    (h' : s.Displays v text') : text = text' := by
  induction h generalizing text' with
  | plain h =>
    cases h' with
    | plain h' => exact Option.some.inj (h.symm.trans h')
    | array _ _ => cases h
  | @array ref texts hlength _ ih =>
    cases h' with
    | plain h' => cases h'
    | @array _ texts' hlength' h' =>
      congr 1
      refine List.ext_getElem (hlength.symm.trans hlength') fun i hi hi' => ?_
      have hitem : i < (s.items ref).length := by omega
      have hzip : ((s.items ref)[i], texts[i]) ∈ (s.items ref).zip texts :=
        List.mem_iff_getElem.mpr ⟨i, by simp; omega, by simp⟩
      have hzip' : ((s.items ref)[i], texts'[i]) ∈ (s.items ref).zip texts' :=
        List.mem_iff_getElem.mpr ⟨i, by simp; omega, by simp⟩
      exact ih _ hzip (h' _ hzip')

/-- A bound above an array is a bound above the arrays in it, so it is never used up. -/
theorem displays_textWithin (hs : s.Tidy) (n : Nat) (v : Value)
    (hv : ∀ ref, v = .array ref → ref < n ∨ s.items ref = []) :
    s.Displays v (s.textWithin n v) := by
  induction n generalizing v with
  | zero =>
    cases v with
    | array ref =>
      have hempty : s.items ref = [] := (hv ref rfl).resolve_left (Nat.not_lt_zero ref)
      have hdisplays : s.Displays (.array ref) (",".intercalate []) :=
        .array (by simp [hempty]) (by simp [hempty])
      exact hdisplays
    | _ => exact .plain rfl
  | succ n ih =>
    cases v with
    | array ref =>
      rw [textWithin]
      refine .array (by simp) fun entry hentry => ?_
      obtain ⟨i, hi, rfl⟩ := List.mem_iff_getElem.mp hentry
      have hitem : i < (s.items ref).length := by simpa using hi
      rw [List.getElem_zip, List.getElem_map]
      refine ih _ fun inner hinner => .inl ?_
      have hnested : inner < ref := hs.nested ref inner (hinner ▸ List.getElem_mem hitem)
      rcases hv ref rfl with hlt | hempty
      · omega
      · rw [hempty] at hitem
        exact absurd hitem (Nat.not_lt_zero i)
    | _ => exact .plain rfl

theorem displays_text (hs : s.Tidy) (v : Value) : s.Displays v (s.text v) := by
  refine displays_textWithin hs _ v fun ref _ => ?_
  by_cases href : ref < s.arrays.size
  · exact .inl href
  · exact .inr (by simp [items, href])

theorem Tidy.printable (hs : s.Tidy) : s.Printable where
  acyclic ref h := lt_irrefl ref (lt_of_transGen hs h)
  wellFounded := Subrelation.wf (fun {inner outer} h => hs.nested outer inner h) Nat.lt_wfRel.wf
  displays v text := by
    constructor
    · intro h
      exact h.unique (displays_text hs v)
    · rintro rfl
      exact displays_text hs v

/-! ## Building from values at hand -/

/--
What can be made of some values at hand: scalars are there anyway, fields and items
can be read, objects and arrays can be made of values at hand, and fields of objects
at hand can be set and removed.
-/
inductive Builds (given : List Value) (s : Store) : List Value → Store → Prop
  | start : Builds given s given s
  | scalar {hand : List Value} {store : Store} (h : Builds given s hand store) {v : Value}
      (hv : v.isScalar = true) : Builds given s (v :: hand) store
  | field {hand : List Value} {store : Store} (h : Builds given s hand store)
      {target value : Value} {name : String} (htarget : target ∈ hand)
      (hvalue : store.field? target name = some value) : Builds given s (value :: hand) store
  | item {hand : List Value} {store : Store} (h : Builds given s hand store) {ref : Nat}
      {value : Value} (htarget : .array ref ∈ hand) (hvalue : value ∈ store.items ref) :
      Builds given s (value :: hand) store
  | object {hand : List Value} {store : Store} (h : Builds given s hand store)
      {fields : List (String × Value)} (hfields : ∀ entry ∈ fields, entry.2 ∈ hand) :
      Builds given s ((store.newObject fields).1 :: hand) (store.newObject fields).2
  | array {hand : List Value} {store : Store} (h : Builds given s hand store)
      {items : List Value} (hitems : ∀ v ∈ items, v ∈ hand) :
      Builds given s ((store.newArray items).1 :: hand) (store.newArray items).2
  | write {hand : List Value} {store store' : Store} (h : Builds given s hand store)
      {target value : Value} {name : String} (htarget : target ∈ hand) (hvalue : value ∈ hand)
      (hstore : store.write target name value = .ok store') : Builds given s hand store'
  | remove {hand : List Value} {store store' : Store} (h : Builds given s hand store)
      {target : Value} {name : String} (htarget : target ∈ hand)
      (hstore : store.remove target name = .ok store') : Builds given s hand store'

theorem knows_of_isScalar {v : Value} (h : v.isScalar = true) : s.Knows v := by
  cases v <;> trivial

/-- What is built from values in a tidy store is in the store, which stays tidy. -/
theorem Builds.tidy {given hand : List Value} {store : Store} (h : s.Builds given hand store)
    (hs : s.Tidy) (hgiven : ∀ v ∈ given, s.Knows v) :
    store.Tidy ∧ s.Grows store ∧ ∀ v ∈ hand, store.Knows v := by
  induction h with
  | start => exact ⟨hs, .refl s, hgiven⟩
  | scalar _ hv ih =>
    obtain ⟨htidy, hgrows, hknows⟩ := ih
    exact ⟨htidy, hgrows, List.forall_mem_cons.mpr ⟨knows_of_isScalar hv, hknows⟩⟩
  | field _ htarget hvalue ih =>
    obtain ⟨htidy, hgrows, hknows⟩ := ih
    exact ⟨htidy, hgrows, List.forall_mem_cons.mpr ⟨htidy.knows_field hvalue, hknows⟩⟩
  | item _ htarget hvalue ih =>
    obtain ⟨htidy, hgrows, hknows⟩ := ih
    exact ⟨htidy, hgrows, List.forall_mem_cons.mpr ⟨htidy.item _ _ hvalue, hknows⟩⟩
  | @object hand store _ fields hfields ih =>
    obtain ⟨htidy, hgrows, hknows⟩ := ih
    have hgrows' := store.grows_newObject fields
    refine ⟨htidy.newObject fun entry hentry => hknows _ (hfields entry hentry),
      hgrows.trans hgrows', List.forall_mem_cons.mpr ⟨?_, fun v hv => (hknows v hv).mono hgrows'⟩⟩
    exact store.knows_newObject fields
  | @array hand store _ items hitems ih =>
    obtain ⟨htidy, hgrows, hknows⟩ := ih
    have hgrows' := store.grows_newArray items
    refine ⟨htidy.newArray fun v hv => hknows v (hitems v hv),
      hgrows.trans hgrows', List.forall_mem_cons.mpr ⟨?_, fun v hv => (hknows v hv).mono hgrows'⟩⟩
    exact store.knows_newArray items
  | write _ _ hvalue hstore ih =>
    obtain ⟨htidy, hgrows, hknows⟩ := ih
    obtain ⟨htidy', hgrows'⟩ := htidy.write (hknows _ hvalue) hstore
    exact ⟨htidy', hgrows.trans hgrows', fun v hv => (hknows v hv).mono hgrows'⟩
  | remove _ _ hstore ih =>
    obtain ⟨htidy, hgrows, hknows⟩ := ih
    obtain ⟨htidy', hgrows'⟩ := htidy.remove hstore
    exact ⟨htidy', hgrows.trans hgrows', fun v hv => (hknows v hv).mono hgrows'⟩

end Store

/-! ## Hosts -/

/--
A host that works with its arguments, with other values that there are, such as those
it has kept, and with what it builds from them, and returns one of these values.
-/
def Host.Builds (host : Host) : Prop :=
  ∀ calls args store, ∃ given hand, (∀ v ∈ given, v ∈ args ∨ store.Knows v) ∧
    store.Builds given hand (host calls args store).2 ∧
      ∀ v, (host calls args store).1 = .ok v → v ∈ hand

theorem Host.builds_getOptional (name : String) : (Host.getOptional name).Builds := by
  intro calls args store
  refine ⟨args, ?_⟩
  unfold Host.getOptional
  split
  · next target field rest =>
    cases hfield : store.field? target field with
    | none =>
      refine ⟨.undefined :: _, fun v hv => .inl hv, .scalar .start rfl, fun v hv => ?_⟩
      cases hv
      exact List.mem_cons_self
    | some value =>
      refine ⟨_, fun v hv => .inl hv, .field .start (by simp) hfield, fun v hv => ?_⟩
      cases hv
      exact List.mem_cons_self
  · exact ⟨_, fun v hv => .inl hv, .start, fun v hv => by cases hv⟩

theorem Host.builds_setOptional (name : String) : (Host.setOptional name).Builds := by
  intro calls args store
  refine ⟨args, ?_⟩
  unfold Host.setOptional
  split
  · next target field value rest =>
    dsimp only
    split
    · next store' hresult =>
      let given := target :: .string field :: value :: rest
      have hbuilds : store.Builds given given store' := by
        split_ifs at hresult
        · exact .remove .start (by simp [given]) hresult
        · exact .write .start (by simp [given]) (by simp [given]) hresult
      refine ⟨.undefined :: given, fun v hv => .inl hv, hbuilds.scalar rfl, fun v hv => ?_⟩
      cases hv
      exact List.mem_cons_self
    · exact ⟨_, fun v hv => .inl hv, .start, fun v hv => by cases hv⟩
  · exact ⟨_, fun v hv => .inl hv, .start, fun v hv => by cases hv⟩

end Memberwise
