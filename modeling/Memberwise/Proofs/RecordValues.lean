import Mathlib
import Memberwise.Proofs.SynthesizedMembers

/-!
# Values of records

The fields of a record value are cells of their own.  The slot of an optional field is left out
while the field is null or undefined.

The object literal and the writes of a constructor and the setters all store one field after the
other, so what a record holds is what a list of stored fields leaves behind.
-/

namespace Memberwise

theorem Table.erase_of_not_mem {κ α : Type} [DecidableEq κ] {t : Table κ α} {k : κ}
    (hk : k ∉ t.keys) : t.erase k = t := by
  refine congrArg Table.mk (List.filter_eq_self.mpr fun entry hentry => ?_)
  refine decide_eq_true fun heq => hk ?_
  exact heq ▸ List.mem_map_of_mem hentry

/-! ## Cells -/

namespace RecordSlot

/-- Whether the slot is there while the field has a value. -/
def holds (slot : RecordSlot) (v : Value) : Bool := !(slot.isOptional && v.isNullish)

/-- What the slot of a field with a value has in it. -/
def cell (slot : RecordSlot) (v : Value) : Option Value := if slot.holds v then some v else none

/-- Gives a field a value. -/
def put (slot : RecordSlot) (v : Value) (t : Table String Value) : Table String Value :=
  if slot.holds v then t.insert slot.name v else t.erase slot.name

/-- Gives fields values one after the other. -/
def putAll (t : Table String Value) (writes : List (RecordSlot × Value)) : Table String Value :=
  writes.foldl (fun t w => w.1.put w.2 t) t

/-- The value of a field after writes, the last of which counts. -/
def lastWritten (name : String) (v : Value) (writes : List (RecordSlot × Value)) : Value :=
  writes.foldl (fun v w => if w.1.name = name then w.2 else v) v

variable {slot : RecordSlot} {v : Value} {t : Table String Value}
  {writes : List (RecordSlot × Value)}

theorem getD_cell (slot : RecordSlot) (v : Value) :
    (slot.cell v).getD .undefined = if slot.isOptional && v.isNullish then .undefined else v := by
  unfold cell holds
  cases slot.isOptional && v.isNullish <;> rfl

theorem isSome_cell (slot : RecordSlot) (v : Value) :
    (slot.cell v).isSome = true ↔ ¬(slot.isOptional && v.isNullish) = true := by
  unfold cell holds
  cases slot.isOptional && v.isNullish <;> simp

theorem get?_put (slot : RecordSlot) (v : Value) (t : Table String Value) (name : String) :
    (slot.put v t).get? name = if slot.name = name then slot.cell v else t.get? name := by
  unfold put cell
  split_ifs with hholds hname hname
  · rw [Table.get?_insert, if_pos hname]
  · rw [Table.get?_insert, if_neg hname]
  · rw [Table.get?_erase, if_pos hname]
  · rw [Table.get?_erase, if_neg hname]

/-- A field has the value that was last written to it. -/
theorem get?_putAll (hget : t.get? slot.name = slot.cell v)
    (hsame : ∀ w ∈ writes, w.1.name = slot.name → w.1 = slot) :
    (putAll t writes).get? slot.name = slot.cell (lastWritten slot.name v writes) := by
  induction writes generalizing t v with
  | nil => exact hget
  | cons w writes ih =>
    obtain ⟨hfirst, hrest⟩ := List.forall_mem_cons.mp hsame
    refine ih ?_ hrest
    show (w.1.put w.2 t).get? slot.name =
      slot.cell (if w.1.name = slot.name then w.2 else v)
    rw [get?_put]
    by_cases hname : w.1.name = slot.name
    · rw [if_pos hname, if_pos hname, hfirst hname]
    · rw [if_neg hname, if_neg hname, hget]

theorem lastWritten_of_ne {name : String} (hother : ∀ w ∈ writes, w.1.name ≠ name) (v : Value) :
    lastWritten name v writes = v := by
  induction writes with
  | nil => rfl
  | cons w writes ih =>
    obtain ⟨hfirst, hrest⟩ := List.forall_mem_cons.mp hother
    rw [lastWritten, List.foldl_cons, if_neg hfirst]
    exact ih hrest

/-- A field that was written once has the value that was written. -/
theorem get?_putAll_of_mem (hnodup : (writes.map fun w => w.1.name).Nodup)
    (hmem : (slot, v) ∈ writes) (t : Table String Value) :
    (putAll t writes).get? slot.name = slot.cell v := by
  obtain ⟨before, after, rfl⟩ := List.append_of_mem hmem
  have hother : ∀ w ∈ after, w.1.name ≠ slot.name := by
    rw [List.map_append, List.map_cons] at hnodup
    have hlater := (List.nodup_cons.mp (List.nodup_append.mp hnodup).2.1).1
    intro w hw hname
    exact hlater (List.mem_map.mpr ⟨w, hw, hname⟩)
  have hput : (slot.put v (putAll t before)).get? slot.name = slot.cell v := by
    rw [get?_put, if_pos rfl]
  have hafter := get?_putAll hput fun w hw hname => absurd hname (hother w hw)
  rw [lastWritten_of_ne hother v] at hafter
  rw [putAll, List.foldl_append, List.foldl_cons]
  exact hafter

/-- Fields that are not there yet are appended in order, without those that have no slot. -/
theorem putAll_of_nodup (hnodup : (t.keys ++ writes.map fun w => w.1.name).Nodup) :
    putAll t writes =
      ⟨t.entries ++ (writes.filter fun w => w.1.holds w.2).map fun w => (w.1.name, w.2)⟩ := by
  induction writes generalizing t with
  | nil => simp [putAll]
  | cons w writes ih =>
    obtain ⟨slot, v⟩ := w
    have habsent : slot.name ∉ t.keys := by
      intro hmem
      exact (List.nodup_append.mp hnodup).2.2 _ hmem _ List.mem_cons_self rfl
    have hstep : putAll t ((slot, v) :: writes) = putAll (slot.put v t) writes := rfl
    rw [hstep]
    by_cases hholds : slot.holds v = true
    · have hput : slot.put v t = ⟨t.entries ++ [(slot.name, v)]⟩ := by
        rw [put, if_pos hholds, Table.insert_of_not_mem habsent]
      have hrest : ((slot.put v t).keys ++ writes.map fun w => w.1.name).Nodup := by
        rw [put, if_pos hholds, Table.keys_insert, if_neg habsent, List.append_assoc]
        exact hnodup
      rw [ih hrest, hput, List.append_assoc, List.filter_cons, if_pos hholds]
      rfl
    · have hput : slot.put v t = t := by
        rw [put, if_neg hholds, Table.erase_of_not_mem habsent]
      have hrest : (t.keys ++ writes.map fun w => w.1.name).Nodup :=
        hnodup.sublist (List.Sublist.append_left (List.sublist_cons_self _ _) _)
      rw [hput, ih hrest, List.filter_cons, if_neg hholds]

/-! ## The fields of a new record -/

/-- The fields in the order in which a constructor gives them values, the required ones first. -/
def inOrder (slots : List RecordSlot) (args : List Value) : List (RecordSlot × Value) :=
  ((slots.zip args).filter fun w => !w.1.isOptional) ++
    (slots.zip args).filter fun w => w.1.isOptional

variable {slots : List RecordSlot} {args : List Value}

theorem inOrder_perm (slots : List RecordSlot) (args : List Value) :
    (inOrder slots args).Perm (slots.zip args) :=
  List.perm_append_comm.trans (List.filter_append_perm _ _)

theorem nodup_inOrder (hnames : (slots.map RecordSlot.name).Nodup)
    (hargs : args.length = slots.length) : ((inOrder slots args).map fun w => w.1.name).Nodup := by
  refine ((inOrder_perm slots args).map _).nodup_iff.mpr ?_
  have hzip : ((slots.zip args).map fun w => w.1.name) = slots.map RecordSlot.name := by
    conv_rhs => rw [← List.map_fst_zip hargs.ge, List.map_map]
    rfl
  rw [hzip]
  exact hnames

/-- Every required field has a slot. -/
theorem holds_of_required (h : slot.isOptional = false) (v : Value) : slot.holds v = true := by
  rw [holds, h]
  rfl

/-- The slots of a new record are those of the required fields and of the optional ones that have a
value. -/
theorem keys_putAll_inOrder (hnames : (slots.map RecordSlot.name).Nodup)
    (hargs : args.length = slots.length) :
    (putAll {} (inOrder slots args)).keys =
      (slots.filter fun slot => !slot.isOptional).map RecordSlot.name ++
        ((slots.zip args).filter fun w => w.1.isOptional && !w.2.isNullish).map
          fun w => w.1.name := by
  have hrequired : (((slots.zip args).filter fun w => !w.1.isOptional).filter
      fun w => w.1.holds w.2).map (fun w => w.1.name) =
        (slots.filter fun slot => !slot.isOptional).map RecordSlot.name := by
    have hall : ∀ w ∈ (slots.zip args).filter fun w => !w.1.isOptional,
        w.1.holds w.2 = true := by
      intro w hw
      exact holds_of_required (by simpa using (List.mem_filter.mp hw).2) w.2
    rw [List.filter_eq_self.mpr hall]
    conv_rhs => rw [← List.map_fst_zip hargs.ge, List.filter_map, List.map_map]
    rfl
  have hoptional : (((slots.zip args).filter fun w => w.1.isOptional).filter
      fun w => w.1.holds w.2) =
        (slots.zip args).filter fun w => w.1.isOptional && !w.2.isNullish := by
    rw [List.filter_filter]
    refine List.filter_congr fun w _ => ?_
    cases hoptional : w.1.isOptional <;> simp [holds, hoptional]
  have hfresh : (({} : Table String Value).keys ++
      (inOrder slots args).map fun w => w.1.name).Nodup := nodup_inOrder hnames hargs
  rw [putAll_of_nodup hfresh, Table.keys, List.nil_append, List.map_map,
    inOrder, List.filter_append, hoptional, List.map_append]
  refine congrArg (· ++ _) ?_
  exact hrequired

end RecordSlot

/-! ## Evaluating the members -/

/-- The primitives of optional slots are those that a machine begins with. -/
structure Machine.KeepsPrimitives (machine : Machine) (o : Options) : Prop where
  get : machine.hosts.get? o.getOptional = some (Host.getOptional o.getOptional)
  set : machine.hosts.get? o.setOptional = some (Host.setOptional o.setOptional)

namespace RecordSlot

variable {machine : Machine} {around : Eval.Surroundings} {frame : Frame} {s : Machine.State}
  {o : Options} {slot : RecordSlot} {slots : List RecordSlot} {v : Value} {args : List Value}
  {t : Table String Value} {ref : Nat}

def getterBody (o : Options) (slot : RecordSlot) : Expr :=
  if slot.isOptional then .apply (.global o.getOptional) [.hole 0, .string slot.name]
  else .field (.hole 0) slot.name

def setterBody (o : Options) (slot : RecordSlot) : Expr :=
  if slot.isOptional then .apply (.global o.setOptional) [.hole 0, .string slot.name, .hole 1]
  else .setField (.hole 0) slot.name (.hole 1)

/-- Evaluating what writes an optional field. -/
theorem expr_setOptional (hkeeps : machine.KeepsPrimitives o) (hoptional : slot.isOptional = true)
    (hobject : s.store.objects[ref]? = some t) {record value : Expr}
    (hrecord : Eval.expr machine around frame record s = .ok (.object ref) s)
    (hvalue : Eval.expr machine around frame value s = .ok v s) :
    ∃ s', Eval.expr machine around frame
        (.apply (.global o.setOptional) [record, .string slot.name, value]) s = .ok .undefined s' ∧
      s'.depth = s.depth ∧ s'.store.objects[ref]? = some (slot.put v t) := by
  have hargs : List.Forall₂ (fun e v => Eval.expr machine around frame e s = .ok v s)
      [record, .string slot.name, value] [.object ref, .string slot.name, v] :=
    .cons hrecord (.cons rfl (.cons hvalue .nil))
  have hresult : Host.setOptional o.setOptional s.calls [.object ref, .string slot.name, v]
      s.store = (.ok .undefined, s.store.mapFields ref (slot.put v)) := by
    have hput : slot.put v = fun t =>
        if v.isNullish then t.erase slot.name else t.insert slot.name v := by
      funext t
      cases hnullish : v.isNullish <;> simp [put, holds, hoptional, hnullish]
    rw [hput, Host.setOptional]
    cases v.isNullish <;> rfl
  refine ⟨_, Eval.expr_host hkeeps.set hargs hresult, rfl, ?_⟩
  show (s.store.objects.modify ref (slot.put v))[ref]? = _
  rw [Array.getElem?_modify, if_pos rfl, hobject]
  rfl

theorem expr_setterBody (hkeeps : machine.KeepsPrimitives o)
    (hobject : s.store.objects[ref]? = some t) :
    ∃ s', Eval.expr machine around { holes := [.object ref, v] } (slot.setterBody o) s =
        .ok .undefined s' ∧
      s'.depth = s.depth ∧ s'.store.objects[ref]? = some (slot.put v t) := by
  unfold setterBody
  split_ifs with hoptional
  · exact expr_setOptional hkeeps hoptional hobject (Eval.expr_hole rfl) (Eval.expr_hole rfl)
  · have hput : slot.put v t = t.insert slot.name v := by
      rw [put, if_pos (holds_of_required (by simpa using hoptional) v)]
    refine ⟨{ s with store := s.store.mapFields ref fun t => t.insert slot.name v }, ?_, rfl, ?_⟩
    · rw [Eval.expr, Eval.bind_of_ok (Eval.expr_hole rfl), Eval.bind_of_ok (Eval.expr_hole rfl)]
      rfl
    · show (s.store.objects.modify ref fun t => t.insert slot.name v)[ref]? = _
      rw [Array.getElem?_modify, if_pos rfl, hobject, hput]
      rfl

theorem expr_getterBody (hkeeps : machine.KeepsPrimitives o)
    (hobject : s.store.objects[ref]? = some t) :
    ∃ s', Eval.expr machine around { holes := [.object ref] } (slot.getterBody o) s =
        .ok ((t.get? slot.name).getD .undefined) s' ∧
      s'.depth = s.depth ∧ s'.store = s.store := by
  have hfield : s.store.field? (.object ref) slot.name = t.get? slot.name := by
    rw [Store.field?, Store.fields, hobject, Option.getD_some]
  unfold getterBody
  split_ifs with hoptional
  · have hargs : List.Forall₂
        (fun e v => Eval.expr machine around { holes := [.object ref] } e s = .ok v s)
        [.hole 0, .string slot.name] [.object ref, .string slot.name] :=
      .cons (Eval.expr_hole rfl) (.cons rfl .nil)
    have hresult : Host.getOptional o.getOptional s.calls [.object ref, .string slot.name] s.store =
        (.ok ((t.get? slot.name).getD .undefined), s.store) := by
      rw [Host.getOptional, hfield]
    exact ⟨_, Eval.expr_host hkeeps.get hargs hresult, rfl, rfl⟩
  · refine ⟨s, Eval.expr_field rfl ?_, rfl, rfl⟩
    rw [Store.read, hfield]

/-! ## Evaluating the constructor -/

theorem zip_eq_map_numbered (hargs : args.length = slots.length) :
    slots.zip args = (numbered slots).map fun p => (p.1, args.getD p.2 .undefined) := by
  refine List.ext_getElem (by simp [numbered, hargs]) fun i hleft hright => ?_
  have hi : i < args.length := by
    rw [List.length_zip] at hleft
    omega
  simp [numbered, List.getElem?_eq_getElem hi]

theorem filter_zip (hargs : args.length = slots.length) (q : RecordSlot → Bool) :
    ((slots.zip args).filter fun w => q w.1) =
      ((numbered slots).filter fun p => q p.1).map fun p => (p.1, args.getD p.2 .undefined) := by
  rw [zip_eq_map_numbered hargs, List.filter_map]
  rfl

theorem requiredObject_eq (slots : List RecordSlot) :
    requiredObject slots = .object
      (((numbered slots).filter fun p => !p.1.isOptional).map fun p => (p.1.name, .hole p.2)) := by
  rw [requiredObject, ← List.filterMap_eq_map, List.filterMap_filter]
  congr 2
  funext ⟨slot, i⟩
  cases hoptional : slot.isOptional <;> simp [hoptional]

theorem optionalWrites_eq (o : Options) (slots : List RecordSlot) :
    optionalWrites o slots = ((numbered slots).filter fun p => p.1.isOptional).map fun p =>
      .apply (.global o.setOptional) [.var objectVar, .string p.1.name, .hole p.2] := by
  rw [optionalWrites, ← List.filterMap_eq_map, List.filterMap_filter]
  rfl

/-- The object literal holds the required fields. -/
theorem expr_requiredObject (hnames : (slots.map RecordSlot.name).Nodup)
    (hargs : args.length = slots.length) :
    Eval.expr machine around { holes := args } (requiredObject slots) s =
      .ok (.object s.store.objects.size) { s with store := { s.store with
        objects := s.store.objects.push
          (putAll {} ((slots.zip args).filter fun w => !w.1.isOptional)) } } := by
  have hholes : ∀ p ∈ (numbered slots).filter fun p => !p.1.isOptional,
      Eval.expr machine around { holes := args } (.hole p.2) s =
        .ok (args.getD p.2 .undefined) s := by
    intro p hp
    exact Eval.expr_hole (getElem?_of_mem_zipIdx hargs (List.mem_filter.mp hp).1)
  have hput : putAll {} ((slots.zip args).filter fun w => !w.1.isOptional) =
      ⟨((numbered slots).filter fun p => !p.1.isOptional).map fun p =>
        (p.1.name, args.getD p.2 .undefined)⟩ := by
    have hfresh : (({} : Table String Value).keys ++
        ((slots.zip args).filter fun w => !w.1.isOptional).map fun w => w.1.name).Nodup :=
      (nodup_inOrder hnames hargs).sublist ((List.sublist_append_left _ _).map _)
    rw [putAll_of_nodup hfresh, List.filter_eq_self.mpr fun w hw => ?_,
      filter_zip hargs fun slot => !slot.isOptional, List.map_map]
    · rfl
    · exact holds_of_required (by simpa using (List.mem_filter.mp hw).2) w.2
  rw [requiredObject_eq, Eval.expr_object hholes, hput]

/-- The writes of optional fields to the object at hand. -/
theorem lastOf_optionalWrites (hkeeps : machine.KeepsPrimitives o) {l : List (RecordSlot × Nat)}
    (hl : ∀ p ∈ l, p.1.isOptional = true ∧ args[p.2]? = some (args.getD p.2 .undefined))
    (hholes : frame.holes = args) (hvar : frame.var? objectVar = some (.object ref))
    (hobject : s.store.objects[ref]? = some t) (last : Value) :
    ∃ s', Eval.lastOf machine around frame last
        ((l.map fun p =>
          .apply (.global o.setOptional) [.var objectVar, .string p.1.name, .hole p.2]) ++
            [.var objectVar]) s = .ok (.object ref) s' ∧
      s'.depth = s.depth ∧
      s'.store.objects[ref]? =
        some (putAll t (l.map fun p => (p.1, args.getD p.2 .undefined))) := by
  have hrecord (s : Machine.State) :
      Eval.expr machine around frame (.var objectVar) s = .ok (.object ref) s := by
    rw [Eval.expr, hvar]
    rfl
  induction l generalizing s t last with
  | nil =>
    refine ⟨s, ?_, rfl, hobject⟩
    rw [List.map_nil, List.nil_append, Eval.lastOf, Eval.bind_of_ok (hrecord s)]
    rfl
  | cons p l ih =>
    obtain ⟨⟨hoptional, harg⟩, hrest⟩ := List.forall_mem_cons.mp hl
    have hvalue : Eval.expr machine around frame (.hole p.2) s = .ok (args.getD p.2 .undefined) s :=
      Eval.expr_hole (hholes ▸ harg)
    obtain ⟨s₁, hfirst, hdepth₁, hobject₁⟩ :=
      expr_setOptional hkeeps hoptional hobject (hrecord s) hvalue
    obtain ⟨s₂, hlast, hdepth₂, hobject₂⟩ := ih hrest hobject₁ .undefined
    refine ⟨s₂, ?_, hdepth₂.trans hdepth₁, hobject₂⟩
    rw [List.map_cons, List.cons_append, Eval.lastOf, Eval.bind_of_ok hfirst]
    exact hlast

theorem expr_constructorBody (hkeeps : machine.KeepsPrimitives o)
    (hnames : (slots.map RecordSlot.name).Nodup) (hargs : args.length = slots.length) :
    ∃ s', Eval.expr machine around { holes := args } (constructorBody o slots) s =
        .ok (.object s.store.objects.size) s' ∧
      s'.depth = s.depth ∧
      s'.store.objects[s.store.objects.size]? = some (putAll {} (inOrder slots args)) := by
  have hobject : Eval.expr machine around { holes := args } (requiredObject slots) s = _ :=
    expr_requiredObject hnames hargs
  have hall : putAll {} (inOrder slots args) =
      putAll (putAll {} ((slots.zip args).filter fun w => !w.1.isOptional))
        (((numbered slots).filter fun p => p.1.isOptional).map fun p =>
          (p.1, args.getD p.2 .undefined)) := by
    rw [inOrder, filter_zip hargs fun slot => slot.isOptional, putAll, List.foldl_append]
    rfl
  rw [hall]
  unfold constructorBody
  split_ifs with hany
  · rw [Eval.expr, Eval.bind_of_ok hobject, Eval.expr, optionalWrites_eq]
    refine lastOf_optionalWrites hkeeps ?_ rfl rfl ?_ .undefined
    · intro p hp
      obtain ⟨hmem, hoptional⟩ := List.mem_filter.mp hp
      exact ⟨hoptional, getElem?_of_mem_zipIdx hargs hmem⟩
    · exact Array.getElem?_push_size
  · have hnone : ((numbered slots).filter fun p => p.1.isOptional) = [] := by
      refine List.filter_eq_nil_iff.mpr fun p hp hoptional => hany ?_
      exact List.any_eq_true.mpr ⟨p.1, List.fst_mem_of_mem_zipIdx hp, hoptional⟩
    rw [hnone]
    exact ⟨_, hobject, rfl, Array.getElem?_push_size⟩

/-! ## Finding the members -/

variable {member : Member}

theorem mem_members : member ∈ members o slots ↔ member = constructor o slots ∨
    ∃ slot ∈ slots, member = slot.getter o ∨ slot.isMutable = true ∧ member = slot.setter o := by
  unfold members
  simp only [List.mem_cons, List.mem_flatMap]
  refine or_congr Iff.rfl (exists_congr fun slot => and_congr Iff.rfl (or_congr Iff.rfl ?_))
  cases slot.isMutable <;> simp

theorem constructor_unique {signature : Signature} {r : Method}
    (h : .constructor signature r ∈ members o slots) :
    Member.constructor signature r = constructor o slots := by
  rcases mem_members.mp h with heq | ⟨slot, -, heq | ⟨-, heq⟩⟩
  · exact heq
  · cases heq
  · cases heq

theorem getter_unique (hnames : (slots.map RecordSlot.name).Nodup) (hslot : slot ∈ slots)
    {r : Method} (h : .method (.getter slot.name slot.type) r ∈ members o slots) :
    Member.method (.getter slot.name slot.type) r = slot.getter o := by
  rcases mem_members.mp h with heq | ⟨other, hother, heq | ⟨-, heq⟩⟩
  · cases heq
  · have hname := (Signature.getter_injective (Member.method.inj heq).1).1
    rw [List.inj_on_of_nodup_map hnames hslot hother hname] at heq ⊢
    exact heq
  · exact absurd (congrArg Signature.params (Member.method.inj heq).1) (List.cons_ne_nil _ _).symm

theorem setter_unique (hnames : (slots.map RecordSlot.name).Nodup) (hslot : slot ∈ slots)
    {r : Method} (h : .method (.setter slot.name slot.type) r ∈ members o slots) :
    Member.method (.setter slot.name slot.type) r = slot.setter o := by
  rcases mem_members.mp h with heq | ⟨other, hother, heq | ⟨-, heq⟩⟩
  · cases heq
  · exact absurd (congrArg Signature.params (Member.method.inj heq).1) (List.cons_ne_nil _ _)
  · have hname := (String.append_right_inj _).mp (Signature.mk.inj (Member.method.inj heq).1).1
    rw [List.inj_on_of_nodup_map hnames hslot hother hname] at heq ⊢
    exact heq

end RecordSlot

/-! ## Calls -/

/-- The members of a record type are where a machine finds them. -/
structure Machine.Serves (machine : Machine) (owner : Identity) (o : Options)
    (slots : List RecordSlot) : Prop where
  constructor : machine.Expands ⟨owner, .constructor (slots.map RecordSlot.type)⟩
    (RecordSlot.constructorBody o slots)
  getter : ∀ slot ∈ slots, machine.Expands ⟨owner, .getter slot.name slot.type⟩ (slot.getterBody o)
  setter : ∀ slot ∈ slots, slot.isMutable = true →
    machine.Expands ⟨owner, .setter slot.name slot.type⟩ (slot.setterBody o)

namespace TypeHead

variable {h : TypeHead} {o : Options} {m : Marking} {fields : List RecordField}

theorem emittedClass_of_record (hform : h.form = .record fields) (hcompiled : m.isCompiled = true)
    (hnone : h.members = []) :
    h.emittedClass o m =
      { (h.newClass m).addFree (RecordSlot.members o (fields.map (RecordField.slot m))) with
        shape := some (.record (fields.map (RecordField.slot m))) } := by
  rw [emittedClass_of_no_members hnone, augment, if_pos hcompiled, hform]

end TypeHead

namespace Machine

variable {machine : Machine} {owner : Identity} {o : Options} {slots : List RecordSlot}
  {s : State} {ref : Nat} {t : Table String Value}

/-- The members of a registered record type are found under its identity. -/
theorem serves_of_registered {a : Assembly} {prior : Snapshot}
    (hbuild : machine.build = a.build prior o) {h : TypeHead} {m : Marking}
    (hregistered : .type h m ∈ a.registrants o) (hplain : h.isResource = false)
    {fields : List RecordField} (hform : h.form = .record fields) (hnone : h.members = [])
    (hcompiled : m.isCompiled = true) (hslots : fields.map (RecordField.slot m) = slots)
    (hnames : (slots.map RecordSlot.name).Nodup) : machine.Serves h.id o slots := by
  have hclass : h.isClass = true := by simp [TypeHead.isClass, hplain, hform]
  have hget := get?_registered hbuild hregistered hclass
  rw [TypeHead.emittedClass_of_record hform hcompiled hnone, hslots] at hget
  constructor
  · have hfound := ClassRecord.constructor?_addFree (c := h.newClass m) rfl
      (l := RecordSlot.members o slots)
      (RecordSlot.mem_members.mpr (.inl rfl))
      fun r hr => (Member.constructor.inj (RecordSlot.constructor_unique hr)).2
    exact ⟨_, lookup_constructor hget hfound, rfl, rfl⟩
  · intro slot hslot
    have hfound := ClassRecord.method?_addFree (c := h.newClass m) rfl
      (l := RecordSlot.members o slots)
      (RecordSlot.mem_members.mpr (.inr ⟨slot, hslot, .inl rfl⟩))
      fun r hr => (Member.method.inj (RecordSlot.getter_unique hnames hslot hr)).2
    exact ⟨_, lookup_method hget (Signature.isConstructor_getter ..) hfound, rfl, rfl⟩
  · intro slot hslot hmutable
    have hfound := ClassRecord.method?_addFree (c := h.newClass m) rfl
      (l := RecordSlot.members o slots)
      (RecordSlot.mem_members.mpr (.inr ⟨slot, hslot, .inr ⟨hmutable, rfl⟩⟩))
      fun r hr => (Member.method.inj (RecordSlot.setter_unique hnames hslot hr)).2
    exact ⟨_, lookup_method hget (Signature.isConstructor_setter ..) hfound, rfl, rfl⟩

/-- Calls setters of a record one after the other. -/
def setFields (machine : Machine) (owner : Identity) (record : Value) :
    List (RecordSlot × Value) → Eval Unit
  | [] => pure ()
  | (slot, v) :: writes => do
    let _ ← machine.call ⟨owner, .setter slot.name slot.type⟩ (some record) [v]
    machine.setFields owner record writes

theorem Serves.setFields (hserves : machine.Serves owner o slots)
    (hkeeps : machine.KeepsPrimitives o) (hdepth : s.depth < maxDepth)
    (hobject : s.store.objects[ref]? = some t) {writes : List (RecordSlot × Value)}
    (hwrites : ∀ w ∈ writes, w.1 ∈ slots ∧ w.1.isMutable = true) :
    ∃ s', machine.setFields owner (.object ref) writes s = .ok () s' ∧ s'.depth = s.depth ∧
      s'.store.objects[ref]? = some (RecordSlot.putAll t writes) := by
  induction writes generalizing s t with
  | nil => exact ⟨s, rfl, rfl, hobject⟩
  | cons w writes ih =>
    obtain ⟨⟨hslot, hmutable⟩, hrest⟩ := List.forall_mem_cons.mp hwrites
    obtain ⟨s₁, hcall, hdepth₁, hobject₁⟩ :=
      (hserves.setter w.1 hslot hmutable).exists_call hdepth (some (.object ref)) [w.2]
        (P := fun store => store.objects[ref]? = some (w.1.put w.2 t)) fun around =>
          RecordSlot.expr_setterBody hkeeps (s := { s with depth := s.depth + 1 }) hobject
    obtain ⟨s₂, hset, hdepth₂, hobject₂⟩ := ih (hdepth₁ ▸ hdepth) hobject₁ hrest
    refine ⟨s₂, ?_, hdepth₂.trans hdepth₁, hobject₂⟩
    rw [Machine.setFields, Eval.bind_of_ok hcall]
    exact hset

end Machine

/-- The fields of a record value are independent cells: whatever setters are called, a field has the
value that was last given to it. -/
theorem record_fields_independent {machine : Machine} {a : Assembly} {prior : Snapshot}
    {o : Options} (hbuild : machine.build = a.build prior o) (hkeeps : machine.KeepsPrimitives o)
    {h : TypeHead} {m : Marking} (hregistered : .type h m ∈ a.registrants o)
    (hplain : h.isResource = false) {fields : List RecordField} (hform : h.form = .record fields)
    (hnone : h.members = []) (hcompiled : m.isCompiled = true)
    (hnames : (fields.map RecordField.name).Nodup) {slots : List RecordSlot}
    (hslots : fields.map (RecordField.slot m) = slots) {args : List Value}
    (hargs : args.length = fields.length) {s : Machine.State}
    (hdepth : s.depth < Machine.maxDepth) :
    ∃ record s₁, machine.call ⟨h.id, .constructor (fields.map RecordField.type)⟩ none args s =
        .ok record s₁ ∧
      s₁.store.keys record =
        (slots.filter fun slot => !slot.isOptional).map RecordSlot.name ++
          ((slots.zip args).filter fun w => w.1.isOptional && !w.2.isNullish).map
            (fun w => w.1.name) ∧
      ∀ writes : List (RecordSlot × Value), (∀ w ∈ writes, w.1 ∈ slots ∧ w.1.isMutable = true) →
        ∃ s₂, machine.setFields h.id record writes s₁ = .ok () s₂ ∧
          ∀ slot arg, (slot, arg) ∈ slots.zip args →
            let v := RecordSlot.lastWritten slot.name arg writes
            (∃ s₃, machine.call ⟨h.id, .getter slot.name slot.type⟩ (some record) [] s₂ =
                .ok (if slot.isOptional && v.isNullish then .undefined else v) s₃ ∧
              s₃.store = s₂.store) ∧
            (slot.name ∈ s₂.store.keys record ↔ ¬(slot.isOptional && v.isNullish) = true) := by
  have hslotNames : (slots.map RecordSlot.name).Nodup := by
    rw [← hslots, List.map_map]
    exact hnames
  have htypes : fields.map RecordField.type = slots.map RecordSlot.type := by
    rw [← hslots, List.map_map]
    rfl
  have hlength : args.length = slots.length := by
    rw [← hslots, List.length_map, hargs]
  have hserves := Machine.serves_of_registered hbuild hregistered hplain hform hnone hcompiled
    hslots hslotNames
  obtain ⟨s₁, hnew, hdepth₁, hobject₁⟩ := hserves.constructor.exists_call hdepth none args
    (P := fun store => store.objects[s.store.objects.size]? =
      some (RecordSlot.putAll {} (RecordSlot.inOrder slots args))) fun around =>
        RecordSlot.expr_constructorBody hkeeps (s := { s with depth := s.depth + 1 }) hslotNames
          hlength
  have hkeys {t : Table String Value} {s : Machine.State} {ref : Nat}
      (hobject : s.store.objects[ref]? = some t) : s.store.keys (.object ref) = t.keys := by
    rw [Store.keys, Store.fields, hobject, Option.getD_some]
  refine ⟨_, s₁, htypes ▸ hnew, ?_, ?_⟩
  · rw [hkeys hobject₁, RecordSlot.keys_putAll_inOrder hslotNames hlength]
  · intro writes hwrites
    obtain ⟨s₂, hset, hdepth₂, hobject₂⟩ :=
      hserves.setFields hkeeps (hdepth₁ ▸ hdepth) hobject₁ hwrites
    refine ⟨s₂, hset, fun slot arg hslot => ?_⟩
    have hmem : slot ∈ slots := (List.of_mem_zip hslot).1
    have hcell : (RecordSlot.putAll (RecordSlot.putAll {} (RecordSlot.inOrder slots args))
        writes).get? slot.name = slot.cell (RecordSlot.lastWritten slot.name arg writes) := by
      refine RecordSlot.get?_putAll ?_ fun w hw hname => ?_
      · exact RecordSlot.get?_putAll_of_mem (RecordSlot.nodup_inOrder hslotNames hlength)
          ((RecordSlot.inOrder_perm slots args).mem_iff.mpr hslot) {}
      · exact List.inj_on_of_nodup_map hslotNames (hwrites w hw).1 hmem hname
    constructor
    · obtain ⟨s₃, hget, -, hstore⟩ := (hserves.getter slot hmem).exists_call
        (hdepth₂ ▸ hdepth₁ ▸ hdepth) (some (.object s.store.objects.size)) []
        (P := fun store => store = s₂.store) fun around =>
          RecordSlot.expr_getterBody hkeeps (s := { s₂ with depth := s₂.depth + 1 }) hobject₂
      refine ⟨s₃, ?_, hstore⟩
      rw [hget, hcell, RecordSlot.getD_cell]
    · rw [hkeys hobject₂, ← Table.contains_iff, Table.contains, hcell, RecordSlot.isSome_cell]

/-- The fields of a crate: an optional one between two required ones. -/
def crateFields : List RecordField := [
  { name := "id", type := Ty.int32 },
  { name := "label", type := .option (.named "System.String"), isMutable := true,
    attributes := [.optionalField] },
  { name := "count", type := Ty.int32, isMutable := true }]

def crateHead : TypeHead :=
  { name := "Crate", form := .record crateFields, attributes := [.javaScript true] }

def crateAssembly : Assembly where
  name := "Crate"
  files := [{ path := "crate", types := [{ head := crateHead, nested := [] }] }]

def crateMachine : Machine := .new (crateAssembly.build {} {})

def crateMarking : Marking := .within {} crateHead.attributes

def labelSlot : RecordSlot := ⟨"label", .option (.named "System.String"), true, true, none⟩

def countSlot : RecordSlot := ⟨"count", Ty.int32, false, true, none⟩

theorem crate_label_last_written :
    (crateFields.map RecordField.name).Nodup ∧
      ∃ crate s₁, crateMachine.call
          ⟨crateHead.id, .constructor (crateFields.map RecordField.type)⟩ none
          [.int 7, .string "new", .int 1] {} = .ok crate s₁ ∧
        s₁.store.keys crate = ["id", "count", "label"] ∧
        ∃ s₂, crateMachine.setFields crateHead.id crate
            [(labelSlot, .null), (countSlot, .int 2), (labelSlot, .string "heavy"),
              (labelSlot, .undefined)] s₁ = .ok () s₂ ∧
          (∃ s₃, crateMachine.call ⟨crateHead.id, .getter "label" labelSlot.type⟩ (some crate) []
            s₂ = .ok .undefined s₃) ∧
          "label" ∉ s₂.store.keys crate ∧
          ∃ s₃, crateMachine.call ⟨crateHead.id, .getter "count" Ty.int32⟩ (some crate) [] s₂ =
            .ok (.int 2) s₃ := by
  have hnames : (crateFields.map RecordField.name).Nodup := by decide
  have hbuild : crateMachine.build = crateAssembly.build {} {} := rfl
  have hkeeps : crateMachine.KeepsPrimitives {} := ⟨rfl, rfl⟩
  have hregistered : .type crateHead crateMarking ∈ crateAssembly.registrants {} :=
    List.mem_cons_self
  have hslots : crateFields.map (RecordField.slot crateMarking) =
      [⟨"id", Ty.int32, false, false, none⟩, labelSlot, countSlot] := by decide
  have hargs : [Value.int 7, .string "new", .int 1].length = crateFields.length := rfl
  have hdepth : ({} : Machine.State).depth < Machine.maxDepth := by decide
  obtain ⟨crate, s₁, hnew, hkeys, hcells⟩ := record_fields_independent hbuild hkeeps hregistered
    rfl rfl rfl rfl hnames hslots hargs hdepth
  have hmutable : ∀ w ∈ [(labelSlot, Value.null), (countSlot, .int 2), (labelSlot, .string "heavy"),
      (labelSlot, .undefined)], w.1 ∈ [⟨"id", Ty.int32, false, false, none⟩, labelSlot, countSlot] ∧
        w.1.isMutable = true := by
    simp [labelSlot, countSlot]
  obtain ⟨s₂, hset, hfields⟩ := hcells _ hmutable
  obtain ⟨⟨s₃, hlabel, -⟩, habsent⟩ := hfields labelSlot (.string "new") (by simp)
  obtain ⟨⟨s₃', hcount, -⟩, -⟩ := hfields countSlot (.int 1) (by simp)
  exact ⟨hnames, crate, s₁, hnew, hkeys, s₂, hset, ⟨s₃, hlabel⟩, fun h => habsent.mp h rfl,
    s₃', hcount⟩

end Memberwise
