import Mathlib
import Memberwise.Proofs.AssemblyChains
import Memberwise.Proofs.GraphUnions

/-!
# Unions of snapshots

A snapshot that is merged from others gives their answers: of a type that several of
them know, the answer of the first.  A snapshot whose assemblies are all known is
skipped, which loses nothing as long as one name stands for one snapshot.

The tables of classes and of interfaces are merged each for itself.  So the merge finds
out that two assemblies define one type exactly if both define it as a class or both
as an interface.  A class of one assembly and an interface of another are both kept.
-/

namespace Memberwise

theorem Table.mem_keys_of_get? {κ α : Type} [DecidableEq κ] {t : Table κ α} {k : κ} {a : α}
    (h : t.get? k = some a) : k ∈ t.keys :=
  List.mem_map_of_mem (Table.mem_of_lookupIn h)

namespace Snapshot

/-! ## Merging one table -/

variable {known merged : Table Identity TypeEntry} {entries : List (Identity × TypeEntry)}

/-- Known types stay, new ones are found where they first stand. -/
theorem get?_mergeTypes (h : mergeTypes known entries = .ok merged) (id : Identity) :
    merged.get? id = (known.get? id).or (Table.lookupIn id entries) := by
  induction entries generalizing known with
  | nil =>
    obtain rfl := Except.ok.inj h
    simp [Table.lookupIn]
  | cons pair entries ih =>
    obtain ⟨id', entry⟩ := pair
    rw [mergeTypes] at h
    split at h
    · next first hfirst =>
      split at h
      · rw [ih h]
        by_cases hid : id' = id
        · rw [← hid, hfirst]
          rfl
        · simp [Table.lookupIn, hid]
      · cases h
    · next hnone =>
      rw [ih h, Table.get?_insert]
      by_cases hid : id' = id
      · rw [hid] at hnone
        simp [Table.lookupIn, hid, hnone]
      · simp [Table.lookupIn, hid]

/-- What is added goes with what is known. -/
theorem assembly_of_mergeTypes_ok {name : String}
    (hentries : ∀ pair ∈ entries, pair.2.assembly = name)
    (h : mergeTypes known entries = .ok merged) {id : Identity}
    (hid : id ∈ entries.map Prod.fst) {first : TypeEntry} (hfirst : known.get? id = some first) :
    first.assembly = name := by
  induction entries generalizing known with
  | nil => exact absurd hid List.not_mem_nil
  | cons pair entries ih =>
    obtain ⟨id', entry⟩ := pair
    obtain ⟨hentry, hrest⟩ := List.forall_mem_cons.mp hentries
    rw [mergeTypes] at h
    rcases List.mem_cons.mp hid with rfl | hid
    · rw [hfirst] at h
      dsimp only at h
      split_ifs at h with hsame
      exact hsame.trans hentry
    · split at h
      · split_ifs at h
        exact ih hrest h hid hfirst
      · next hnone =>
        have hne : id' ≠ id := fun heq => by simp [heq, hfirst] at hnone
        exact ih hrest h hid (by rw [Table.get?_insert, if_neg hne, hfirst])

/-- A conflict names a new type and the assembly that has it already. -/
theorem exists_of_mergeTypes_error {name : String}
    (hentries : ∀ pair ∈ entries, pair.2.assembly = name) {conflict : MergeConflict}
    (h : mergeTypes known entries = .error conflict) :
    ∃ pair ∈ entries, ∃ first, known.get? pair.1 = some first ∧ first.assembly ≠ name ∧
      conflict = ⟨pair.2.name, first.assembly, name⟩ := by
  induction entries generalizing known with
  | nil => cases h
  | cons pair entries ih =>
    obtain ⟨id, entry⟩ := pair
    obtain ⟨hentry, hrest⟩ := List.forall_mem_cons.mp hentries
    dsimp only at hentry
    rw [mergeTypes] at h
    split at h
    · next first hfirst =>
      split_ifs at h with hsame
      · obtain ⟨pair, hpair, hconflict⟩ := ih hrest h
        exact ⟨pair, List.mem_cons_of_mem _ hpair, hconflict⟩
      · refine ⟨(id, entry), List.mem_cons_self, first, hfirst, ?_, ?_⟩
        · exact fun heq => hsame (heq.trans hentry.symm)
        · rw [← hentry]
          exact (Except.error.inj h).symm
    · obtain ⟨pair, hpair, first, hfirst, hne, hconflict⟩ := ih hrest h
      refine ⟨pair, List.mem_cons_of_mem _ hpair, first, ?_, hne, hconflict⟩
      rw [Table.get?_insert] at hfirst
      split_ifs at hfirst
      · -- what was just added is of the same assembly
        exact absurd (Option.some.inj hfirst ▸ hentry) hne
      · exact hfirst

end Snapshot

/-! ## Snapshots of single assemblies -/

/-- The two tables of types that a snapshot has. -/
inductive TypeTable where
  | classes
  | interfaces
deriving DecidableEq, Repr

/-- The types of a snapshot that one of its tables holds. -/
def Snapshot.types (s : Snapshot) : TypeTable → Table Identity TypeEntry
  | .classes => s.classes
  | .interfaces => s.interfaces

theorem Snapshot.containsType_iff (s : Snapshot) (id : Identity) :
    s.containsType id = true ↔ ∃ table, id ∈ (s.types table).keys := by
  rw [Snapshot.containsType, Bool.or_eq_true_iff, Table.contains_iff, Table.contains_iff]
  constructor
  · rintro (hid | hid)
    · exact ⟨.classes, hid⟩
    · exact ⟨.interfaces, hid⟩
  · rintro ⟨table, hid⟩
    cases table with
    | classes => exact .inl hid
    | interfaces => exact .inr hid

/-- The snapshot of a single assembly. -/
structure AssemblySnapshot where
  name : String
  snapshot : Snapshot
  assemblies : snapshot.assemblies = [name]

namespace AssemblySnapshot

/-- All types of a snapshot are said to come from its assembly. -/
def Attributes (a : AssemblySnapshot) : Prop :=
  ∀ table, ∀ pair ∈ (a.snapshot.types table).entries, pair.2.assembly = a.name

/-- One name stands for one snapshot. -/
def Coherent (parts : List AssemblySnapshot) : Prop :=
  ∀ a ∈ parts, ∀ b ∈ parts, a.name = b.name → a = b

/-- Two assemblies define one type, both as a class or both as an interface. -/
def Clash (a b : AssemblySnapshot) : Prop :=
  a.name ≠ b.name ∧
    ∃ table id, id ∈ (a.snapshot.types table).keys ∧ id ∈ (b.snapshot.types table).keys

/-- No two of some assemblies clash. -/
def Compatible (parts : List AssemblySnapshot) : Prop :=
  ∀ a ∈ parts, ∀ b ∈ parts, ¬ a.Clash b

/-- The graphs of some snapshots. -/
def graphs (parts : List AssemblySnapshot) : List Graph := parts.map fun a => a.snapshot.graph

variable {a b : AssemblySnapshot} {parts some : List AssemblySnapshot}

theorem Attributes.assembly_of_get? (h : a.Attributes) {table : TypeTable} {id : Identity}
    {entry : TypeEntry} (hentry : (a.snapshot.types table).get? id = .some entry) :
    entry.assembly = a.name :=
  h table (id, entry) (Table.mem_of_lookupIn hentry)

theorem Coherent.of_subset (h : Coherent parts) (hsome : some ⊆ parts) : Coherent some :=
  fun a ha b hb => h a (hsome ha) b (hsome hb)

theorem Clash.symm (h : a.Clash b) : b.Clash a := by
  obtain ⟨hne, table, id, ha, hb⟩ := h
  exact ⟨hne.symm, table, id, hb, ha⟩

theorem not_clash_self (a : AssemblySnapshot) : ¬ a.Clash a := fun h => h.1 rfl

theorem Compatible.concat (h : Compatible parts) (ha : ∀ b ∈ parts, ¬ b.Clash a) :
    Compatible (parts ++ [a]) := by
  intro b hb c hc
  rw [List.mem_append, List.mem_singleton] at hb hc
  rcases hb with hb | rfl
  · rcases hc with hc | rfl
    · exact h b hb c hc
    · exact ha b hb
  · rcases hc with hc | rfl
    · exact fun hclash => ha c hc hclash.symm
    · exact not_clash_self c

theorem graphs_append (parts more : List AssemblySnapshot) :
    graphs (parts ++ more) = graphs parts ++ graphs more :=
  List.map_append

end AssemblySnapshot

/-- A conflict is about a type that two assemblies define. -/
structure MergeConflict.Reports (conflict : MergeConflict) (a b : AssemblySnapshot) : Prop where
  clash : a.Clash b
  first : conflict.first = a.name
  second : conflict.second = b.name
  name : ∃ table id, id ∈ (a.snapshot.types table).keys ∧
    ∃ entry, (id, entry) ∈ (b.snapshot.types table).entries ∧ conflict.name = entry.name

open AssemblySnapshot (Attributes Coherent Compatible graphs graphs_append)

namespace Snapshot

/-! ## What a merged snapshot answers -/

/-- A snapshot gives the answers of some parts; where several of them answer, that of the first. -/
structure Answers (s : Snapshot) (parts : List AssemblySnapshot) : Prop where
  assemblies : pushAll [] s.assemblies = pushAll [] (parts.map AssemblySnapshot.name)
  types : ∀ table id,
    (s.types table).get? id = parts.findSome? fun a => (a.snapshot.types table).get? id
  resources : ∀ id, id ∈ s.resources ↔ ∃ a ∈ parts, id ∈ a.snapshot.resources

/-- A snapshot gives the answers of some parts and adds their graphs to any other. -/
structure Offers (s : Snapshot) (parts : List AssemblySnapshot) : Prop
    extends Answers s parts where
  graph : ∀ g : Graph, g.merge s.graph = (graphs parts).foldl Graph.merge g

/-- A snapshot gives the answers of some parts and has their graphs united. -/
structure Gathers (s : Snapshot) (parts : List AssemblySnapshot) : Prop
    extends Answers s parts where
  graph : s.graph = Graph.mergeAll (graphs parts)

variable {known s next merged : Snapshot} {parts more : List AssemblySnapshot}
  {a : AssemblySnapshot} {conflict : MergeConflict}

theorem gathers_nil : ({} : Snapshot).Gathers [] where
  assemblies := rfl
  types table id := by
    cases table with
    | classes => rfl
    | interfaces => rfl
  resources id := by simp
  graph := rfl

theorem Gathers.offers (h : s.Gathers parts) : s.Offers parts where
  toAnswers := h.toAnswers
  graph g := by rw [h.graph, Graph.merge_mergeAll]

/-- The snapshot of one assembly offers what it says itself. -/
theorem offers_singleton (a : AssemblySnapshot) : a.snapshot.Offers [a] where
  assemblies := by rw [a.assemblies]; rfl
  types table id := by simp
  resources id := by simp
  graph _ := rfl

theorem Answers.mem_assemblies (h : s.Answers parts) {name : String} :
    name ∈ s.assemblies ↔ ∃ a ∈ parts, a.name = name := by
  have hsame : name ∈ pushAll [] s.assemblies ↔ name ∈ pushAll [] (parts.map (·.name)) := by
    rw [h.assemblies]
  simpa [mem_pushAll] using hsame

theorem Answers.exists_of_get? (h : s.Answers parts) {table : TypeTable} {id : Identity}
    {entry : TypeEntry} (hentry : (s.types table).get? id = some entry) :
    ∃ a ∈ parts, (a.snapshot.types table).get? id = some entry := by
  rw [h.types] at hentry
  exact List.exists_of_findSome?_eq_some hentry

theorem Answers.exists_get? (h : s.Answers parts) {table : TypeTable} {id : Identity}
    (ha : a ∈ parts) (hid : id ∈ (a.snapshot.types table).keys) :
    ∃ entry, (s.types table).get? id = some entry := by
  rw [← Option.isSome_iff_exists, h.types, List.findSome?_isSome_iff]
  exact ⟨a, ha, (Table.contains_iff _ id).mpr hid⟩

/-- The names that are listed stand for the parts. -/
theorem Answers.name_mem_assemblies_iff (h : s.Answers parts)
    (hcoherent : Coherent (parts ++ more)) (ha : a ∈ more) :
    a.name ∈ s.assemblies ↔ a ∈ parts := by
  rw [h.mem_assemblies]
  constructor
  · rintro ⟨b, hb, hsame⟩
    obtain rfl : b = a :=
      hcoherent b (List.mem_append_left _ hb) a (List.mem_append_right _ ha) hsame
    exact hb
  · intro ha
    exact ⟨a, ha, rfl⟩

/-- What brings no new assembly was there before. -/
theorem Answers.subset_of_isKnown (hknown : known.Answers parts) (hs : s.Answers more)
    (hcoherent : Coherent (parts ++ more)) (h : known.isKnown s = true) : more ⊆ parts := by
  intro a ha
  have hname : a.name ∈ s.assemblies := hs.mem_assemblies.mpr ⟨a, ha, rfl⟩
  have hall : ∀ name ∈ s.assemblies, name ∈ known.assemblies := by
    simpa using (Bool.and_eq_true_iff.mp h).2
  exact (hknown.name_mem_assemblies_iff hcoherent ha).mp (hall a.name hname)

theorem findSome?_append_of_subset {α : Type} (f : AssemblySnapshot → Option α)
    (hmore : more ⊆ parts) : (parts ++ more).findSome? f = parts.findSome? f := by
  rw [List.findSome?_append]
  cases hparts : parts.findSome? f with
  | some answer => rfl
  | none =>
    have hnone : more.findSome? f = none := List.findSome?_eq_none_iff.mpr fun a ha =>
      List.findSome?_eq_none_iff.mp hparts a (hmore ha)
    rw [hnone]
    rfl

/-- Parts that are there already change nothing. -/
theorem Gathers.append_of_subset (h : known.Gathers parts) (hmore : more ⊆ parts) :
    known.Gathers (parts ++ more) where
  assemblies := by
    have hnames : ∀ name ∈ more.map (·.name), name ∈ pushAll [] (parts.map (·.name)) := by
      intro name hname
      obtain ⟨a, ha, rfl⟩ := List.mem_map.mp hname
      exact mem_pushAll.mpr (.inr (List.mem_map_of_mem (hmore ha)))
    rw [h.assemblies, List.map_append, pushAll_append, pushAll_of_subset hnames]
  types table id := by rw [h.types, findSome?_append_of_subset _ hmore]
  resources id := by
    rw [h.resources]
    constructor
    · rintro ⟨a, ha, hid⟩
      exact ⟨a, List.mem_append_left _ ha, hid⟩
    · rintro ⟨a, ha, hid⟩
      exact ⟨a, (List.mem_append.mp ha).elim (fun h => h) (fun h => hmore h), hid⟩
  graph := by
    have hgraphs : ∀ g ∈ graphs more, g ∈ graphs parts := by
      intro g hg
      obtain ⟨a, ha, rfl⟩ := List.mem_map.mp hg
      exact List.mem_map_of_mem (hmore ha)
    rw [h.graph, graphs_append, Graph.mergeAll_append, Graph.foldl_merge_of_subset hgraphs]

/-! ## Adding one snapshot -/

/-- What adding a new snapshot comes to, table by table. -/
theorem absorb_of_new (hnew : known.isKnown s = false) (h : known.absorb s = .ok next) :
    (∀ table, mergeTypes (known.types table) (s.types table).entries = .ok (next.types table)) ∧
      next.assemblies = known.assemblies ++ s.assemblies ∧
      next.resources = pushAll known.resources s.resources ∧
      next.graph = known.graph.merge s.graph := by
  rw [absorb, if_neg (by simp [hnew])] at h
  obtain ⟨classes, hclasses, h⟩ := exists_of_bind_eq_ok h
  obtain ⟨interfaces, hinterfaces, h⟩ := exists_of_bind_eq_ok h
  obtain rfl := Except.ok.inj h
  refine ⟨fun table => ?_, rfl, rfl, rfl⟩
  cases table with
  | classes => exact hclasses
  | interfaces => exact hinterfaces

/-- Only a new snapshot fails, at one of its tables. -/
theorem exists_of_absorb_error (h : known.absorb s = .error conflict) :
    ∃ table, mergeTypes (known.types table) (s.types table).entries = .error conflict := by
  rw [absorb] at h
  split_ifs at h
  cases hclasses : mergeTypes known.classes s.classes.entries with
  | error found =>
    rw [hclasses] at h
    obtain rfl : found = conflict := Except.error.inj h
    exact ⟨.classes, hclasses⟩
  | ok classes =>
    cases hinterfaces : mergeTypes known.interfaces s.interfaces.entries with
    | error found =>
      rw [hclasses, hinterfaces] at h
      obtain rfl : found = conflict := Except.error.inj h
      exact ⟨.interfaces, hinterfaces⟩
    | ok interfaces =>
      rw [hclasses, hinterfaces] at h
      cases h

/-- Adding what some parts offer gathers them as well. -/
theorem Gathers.absorb (hknown : known.Gathers parts) (hs : s.Offers more)
    (hcoherent : Coherent (parts ++ more)) (h : known.absorb s = .ok next) :
    next.Gathers (parts ++ more) := by
  cases hnew : known.isKnown s with
  | true =>
    rw [Snapshot.absorb, if_pos hnew] at h
    obtain rfl := Except.ok.inj h
    apply hknown.append_of_subset
    exact hknown.subset_of_isKnown hs.toAnswers hcoherent hnew
  | false =>
    obtain ⟨htypes, hassemblies, hresources, hgraph⟩ := absorb_of_new hnew h
    refine ⟨⟨?_, fun table id => ?_, fun id => ?_⟩, ?_⟩
    · have hpush (l new : List String) : pushAll l new = pushAll l (pushAll [] new) := by
        rw [pushAll_pushAll]
        rfl
      rw [hassemblies, pushAll_append, hpush _ s.assemblies, hs.assemblies, ← hpush,
        hknown.assemblies, List.map_append, pushAll_append]
    · rw [get?_mergeTypes (htypes table), List.findSome?_append, hknown.types]
      exact congrArg _ (hs.types table id)
    · rw [hresources, mem_pushAll, hknown.resources, hs.resources]
      constructor
      · rintro (⟨a, ha, hid⟩ | ⟨a, ha, hid⟩)
        · exact ⟨a, List.mem_append_left _ ha, hid⟩
        · exact ⟨a, List.mem_append_right _ ha, hid⟩
      · rintro ⟨a, ha, hid⟩
        rcases List.mem_append.mp ha with ha | ha
        · exact .inl ⟨a, ha, hid⟩
        · exact .inr ⟨a, ha, hid⟩
    · rw [hgraph, hs.graph, hknown.graph, graphs_append, Graph.mergeAll_append]

/-- An assembly that can be added clashes with none of the earlier ones. -/
theorem Gathers.not_clash (hknown : known.Gathers parts) (hparts : ∀ b ∈ parts, b.Attributes)
    (hattributes : a.Attributes) (hcoherent : Coherent (parts ++ [a]))
    (hcompatible : Compatible parts) (h : known.absorb a.snapshot = .ok next) :
    ∀ b ∈ parts, ¬ b.Clash a := by
  intro b hb hclash
  cases hnew : known.isKnown a.snapshot with
  | true =>
    have hsubset : [a] ⊆ parts :=
      hknown.subset_of_isKnown (offers_singleton a).toAnswers hcoherent hnew
    exact hcompatible b hb a (hsubset List.mem_cons_self) hclash
  | false =>
    obtain ⟨-, table, id, hidb, hida⟩ := hclash
    obtain ⟨first, hfirst⟩ := hknown.exists_get? hb hidb
    have hassembly : first.assembly = a.name :=
      assembly_of_mergeTypes_ok (hattributes table) ((absorb_of_new hnew h).1 table) hida hfirst
    -- so the first part that has the type bears the name of the new one
    obtain ⟨owner, howner, hget⟩ := hknown.exists_of_get? hfirst
    have hname : owner.name = a.name :=
      ((hparts owner howner).assembly_of_get? hget).symm.trans hassembly
    have hmem : a.name ∈ known.assemblies := hknown.mem_assemblies.mpr ⟨owner, howner, hname⟩
    rw [isKnown, a.assemblies] at hnew
    simp [hmem] at hnew

/-- A conflict is about the assembly that is added and an earlier one. -/
theorem Gathers.reports (hknown : known.Gathers parts) (hparts : ∀ b ∈ parts, b.Attributes)
    (hattributes : a.Attributes) (h : known.absorb a.snapshot = .error conflict) :
    ∃ b ∈ parts, conflict.Reports b a := by
  obtain ⟨table, htable⟩ := exists_of_absorb_error h
  obtain ⟨⟨id, entry⟩, hentry, first, hfirst, hne, hconflict⟩ :=
    exists_of_mergeTypes_error (hattributes table) htable
  obtain ⟨b, hb, hget⟩ := hknown.exists_of_get? hfirst
  have hname : first.assembly = b.name := (hparts b hb).assembly_of_get? hget
  have hidb : id ∈ (b.snapshot.types table).keys := Table.mem_keys_of_get? hget
  have hida : id ∈ (a.snapshot.types table).keys := List.mem_map_of_mem hentry
  refine ⟨b, hb, ?_⟩
  constructor
  · exact ⟨hname ▸ hne, table, id, hidb, hida⟩
  · rw [hconflict, ← hname]
  · rw [hconflict]
  · exact ⟨table, id, hidb, entry, hentry, by rw [hconflict]⟩

/-! ## Adding one snapshot after the other -/

theorem merge_concat (snapshots : List Snapshot) (s : Snapshot) :
    merge (snapshots ++ [s]) = merge snapshots >>= fun known => known.absorb s := by
  rw [merge, List.foldlM_append]
  simp [merge]

/-- Snapshots that each offer a group of parts are merged to one that gathers all groups. -/
theorem gathers_foldlM {snapshots : List Snapshot} {groups : List (List AssemblySnapshot)}
    (hoffers : List.Forall₂ Offers snapshots groups) (hknown : known.Gathers parts)
    (hcoherent : Coherent (parts ++ groups.flatten))
    (h : snapshots.foldlM Snapshot.absorb known = .ok merged) :
    merged.Gathers (parts ++ groups.flatten) := by
  induction hoffers generalizing known parts with
  | nil =>
    obtain rfl := Except.ok.inj h
    simpa using hknown
  | @cons s group snapshots groups hs hoffers ih =>
    rw [List.flatten_cons, ← List.append_assoc] at hcoherent ⊢
    obtain ⟨next, hnext, hrest⟩ := exists_of_bind_eq_ok h
    have hgroup : Coherent (parts ++ group) := hcoherent.of_subset (List.subset_append_left _ _)
    exact ih (hknown.absorb hs hgroup hnext) hcoherent hrest

/-- A merged snapshot gathers what its parts say. -/
theorem gathers_merge (hcoherent : Coherent parts)
    (h : merge (parts.map (·.snapshot)) = .ok merged) : merged.Gathers parts := by
  have hoffers : List.Forall₂ Offers (parts.map (·.snapshot)) (parts.map ([·])) := by
    rw [List.forall₂_map_left_iff, List.forall₂_map_right_iff]
    exact List.forall₂_same.mpr fun a _ => offers_singleton a
  have hflatten : [] ++ (parts.map ([·])).flatten = parts := by simp [← List.flatMap_def]
  have hgathers : merged.Gathers ([] ++ (parts.map ([·])).flatten) :=
    gathers_foldlM hoffers gathers_nil (hflatten.symm ▸ hcoherent) h
  exact hflatten ▸ hgathers

/-- Assemblies that can be merged do not clash. -/
theorem compatible_of_merge (hattributes : ∀ a ∈ parts, a.Attributes) (hcoherent : Coherent parts)
    (h : merge (parts.map (·.snapshot)) = .ok merged) : Compatible parts := by
  induction parts using List.reverseRecOn generalizing merged with
  | nil => exact fun a ha => absurd ha List.not_mem_nil
  | append_singleton parts a ih =>
    rw [List.map_append, List.map_singleton, merge_concat] at h
    obtain ⟨known, hmerge, habsorb⟩ := exists_of_bind_eq_ok h
    have hparts : Coherent parts := hcoherent.of_subset (List.subset_append_left _ _)
    obtain ⟨hbefore, ha⟩ := List.forall_mem_append.mp hattributes
    have hcompatible := ih hbefore hparts hmerge
    apply hcompatible.concat
    exact (gathers_merge hparts hmerge).not_clash hbefore (ha a List.mem_cons_self) hcoherent
      hcompatible habsorb

/-- A merge that fails reports two assemblies that clash. -/
theorem reports_of_merge (hattributes : ∀ a ∈ parts, a.Attributes) (hcoherent : Coherent parts)
    (h : merge (parts.map (·.snapshot)) = .error conflict) :
    ∃ a ∈ parts, ∃ b ∈ parts, conflict.Reports a b := by
  induction parts using List.reverseRecOn generalizing conflict with
  | nil => cases h
  | append_singleton parts a ih =>
    rw [List.map_append, List.map_singleton, merge_concat] at h
    have hparts : Coherent parts := hcoherent.of_subset (List.subset_append_left _ _)
    obtain ⟨hbefore, ha⟩ := List.forall_mem_append.mp hattributes
    cases hmerge : merge (parts.map (·.snapshot)) with
    | error found =>
      rw [hmerge] at h
      obtain ⟨b, hb, c, hc, hreports⟩ := ih hbefore hparts (hmerge.trans h)
      exact ⟨b, List.mem_append_left _ hb, c, List.mem_append_left _ hc, hreports⟩
    | ok known =>
      rw [hmerge] at h
      obtain ⟨b, hb, hreports⟩ :=
        (gathers_merge hparts hmerge).reports hbefore (ha a List.mem_cons_self) h
      exact ⟨b, List.mem_append_left _ hb, a, by simp, hreports⟩

/-! ## Redefined types -/

/-- A snapshot answers exactly what one of its parts answers. -/
structure Unites (s : Snapshot) (parts : List AssemblySnapshot) : Prop where
  classes : ∀ id entry, s.classes.get? id = some entry ↔
    ∃ a ∈ parts, a.snapshot.classes.get? id = some entry
  interfaces : ∀ id entry, s.interfaces.get? id = some entry ↔
    ∃ a ∈ parts, a.snapshot.interfaces.get? id = some entry
  containsType : ∀ id, s.containsType id = true ↔ ∃ a ∈ parts, a.snapshot.containsType id = true
  isResource : ∀ id, s.isResource id = true ↔ ∃ a ∈ parts, a.snapshot.isResource id = true

/-- Where no two parts clash, it does not matter which of them is asked. -/
theorem Answers.get?_iff (h : s.Answers parts) (hcoherent : Coherent parts)
    (hcompatible : Compatible parts) (table : TypeTable) (id : Identity) (entry : TypeEntry) :
    (s.types table).get? id = some entry ↔
      ∃ a ∈ parts, (a.snapshot.types table).get? id = some entry := by
  constructor
  · exact h.exists_of_get?
  · rintro ⟨a, ha, hentry⟩
    have hida : id ∈ (a.snapshot.types table).keys := Table.mem_keys_of_get? hentry
    obtain ⟨first, hfirst⟩ := h.exists_get? ha hida
    obtain ⟨b, hb, hget⟩ := h.exists_of_get? hfirst
    have hname : b.name = a.name := by
      by_contra hne
      have hidb : id ∈ (b.snapshot.types table).keys := Table.mem_keys_of_get? hget
      exact hcompatible b hb a ha ⟨hne, table, id, hidb, hida⟩
    obtain rfl := hcoherent b hb a ha hname
    rw [hfirst, ← hget, hentry]

theorem Answers.mem_keys_iff (h : s.Answers parts) (table : TypeTable) (id : Identity) :
    id ∈ (s.types table).keys ↔ ∃ a ∈ parts, id ∈ (a.snapshot.types table).keys := by
  simp only [← Table.contains_iff, Table.contains, h.types, List.findSome?_isSome_iff]

theorem Answers.containsType_iff (h : s.Answers parts) (id : Identity) :
    s.containsType id = true ↔ ∃ a ∈ parts, a.snapshot.containsType id = true := by
  simp only [Snapshot.containsType_iff, h.mem_keys_iff]
  constructor
  · rintro ⟨table, a, ha, hid⟩
    exact ⟨a, ha, table, hid⟩
  · rintro ⟨a, ha, table, hid⟩
    exact ⟨table, a, ha, hid⟩

theorem Answers.isResource_iff (h : s.Answers parts) (id : Identity) :
    s.isResource id = true ↔ ∃ a ∈ parts, a.snapshot.isResource id = true := by
  simpa [isResource] using h.resources id

theorem Answers.unites (h : s.Answers parts) (hcoherent : Coherent parts)
    (hcompatible : Compatible parts) : s.Unites parts where
  classes := h.get?_iff hcoherent hcompatible .classes
  interfaces := h.get?_iff hcoherent hcompatible .interfaces
  containsType := h.containsType_iff
  isResource := h.isResource_iff

/--
Snapshots of single assemblies cannot be merged exactly if two of them clash, and then two
that do are reported.  Otherwise the merged snapshot unites them.
-/
theorem merge_unites_or_reports_clash (parts : List AssemblySnapshot)
    (hattributes : ∀ a ∈ parts, a.Attributes) (hcoherent : Coherent parts) :
    ((∃ conflict, merge (parts.map (·.snapshot)) = .error conflict) ↔
        ∃ a ∈ parts, ∃ b ∈ parts, a.Clash b) ∧
      (∀ conflict, merge (parts.map (·.snapshot)) = .error conflict →
        ∃ a ∈ parts, ∃ b ∈ parts, conflict.Reports a b) ∧
      ((∀ a ∈ parts, ∀ b ∈ parts, ¬ a.Clash b) →
        ∃ merged, merge (parts.map (·.snapshot)) = .ok merged ∧ merged.Unites parts) := by
  cases hmerge : merge (parts.map (·.snapshot)) with
  | error conflict =>
    obtain ⟨a, ha, b, hb, hreports⟩ := reports_of_merge hattributes hcoherent hmerge
    refine ⟨⟨fun _ => ⟨a, ha, b, hb, hreports.clash⟩, fun _ => ⟨conflict, rfl⟩⟩, ?_, ?_⟩
    · rintro _ ⟨⟩
      exact ⟨a, ha, b, hb, hreports⟩
    · intro hcompatible
      exact absurd hreports.clash (hcompatible a ha b hb)
  | ok merged =>
    have hcompatible : Compatible parts := compatible_of_merge hattributes hcoherent hmerge
    refine ⟨⟨?_, ?_⟩, ?_, ?_⟩
    · rintro ⟨_, ⟨⟩⟩
    · rintro ⟨a, ha, b, hb, hclash⟩
      exact absurd hclash (hcompatible a ha b hb)
    · rintro _ ⟨⟩
    · intro _
      exact ⟨merged, rfl, (gathers_merge hcoherent hmerge).unites hcoherent hcompatible⟩

/-- An assembly with a single type, that others may define as well. -/
def shapeIn (assembly : String) : TypeTable → AssemblySnapshot
  | .classes =>
    ⟨assembly, (ofAssembly assembly).addClass (.ofName "Shared.Shape")
      ⟨"Shared.Shape", "Shape", assembly⟩, rfl⟩
  | .interfaces =>
    ⟨assembly, (ofAssembly assembly).addInterface (.ofName "Shared.Shape")
      ⟨"Shared.Shape", "Shape", assembly⟩, rfl⟩

theorem entries_shapeIn (assembly : String) (table table' : TypeTable) :
    ((shapeIn assembly table).snapshot.types table').entries =
      if table = table' then
        [(.ofName "Shared.Shape", ⟨"Shared.Shape", "Shape", assembly⟩)]
      else [] := by
  cases table with
  | classes => cases table' <;> rfl
  | interfaces => cases table' <;> rfl

theorem name_shapeIn (assembly : String) (table : TypeTable) :
    (shapeIn assembly table).name = assembly := by
  cases table <;> rfl

theorem attributes_shapeIn (assembly : String) (table : TypeTable) :
    (shapeIn assembly table).Attributes := by
  intro table' pair hpair
  rw [entries_shapeIn] at hpair
  split_ifs at hpair
  · rw [List.mem_singleton.mp hpair, name_shapeIn]
  · exact absurd hpair List.not_mem_nil

/-- Two classes are found out, whatever stands between them. -/
theorem shape_classes_reported :
    let parts := [shapeIn "Base" .classes, shapeIn "Base" .classes, shapeIn "Shop" .interfaces,
      shapeIn "Yard" .classes]
    (∀ a ∈ parts, a.Attributes) ∧ Coherent parts ∧
      ∃ conflict, merge (parts.map (·.snapshot)) = .error conflict ∧
        ∃ a ∈ parts, ∃ b ∈ parts, conflict.Reports a b := by
  intro parts
  have hattributes : ∀ a ∈ parts, a.Attributes := by
    simp [parts, attributes_shapeIn]
  have hcoherent : Coherent parts := by
    simp [parts, Coherent, name_shapeIn]
  obtain ⟨hfails, hreports, -⟩ := merge_unites_or_reports_clash parts hattributes hcoherent
  have hclash : (shapeIn "Base" .classes).Clash (shapeIn "Yard" .classes) := by
    refine ⟨by simp [name_shapeIn], .classes, .ofName "Shared.Shape", ?_, ?_⟩
    · simp [Table.keys, entries_shapeIn]
    · simp [Table.keys, entries_shapeIn]
  obtain ⟨conflict, hconflict⟩ :=
    hfails.mpr ⟨shapeIn "Base" .classes, by simp [parts], shapeIn "Yard" .classes,
      by simp [parts], hclash⟩
  exact ⟨hattributes, hcoherent, conflict, hconflict, hreports conflict hconflict⟩

/-- A class of one assembly and an interface of another with the same identity are merged. -/
theorem shape_class_and_interface_merged :
    let parts := [shapeIn "Base" .classes, shapeIn "Shop" .interfaces]
    (∀ a ∈ parts, a.Attributes ∧ a.snapshot.containsType (.ofName "Shared.Shape") = true) ∧
      (parts.map (·.name)).Nodup ∧ ∃ merged, merge (parts.map (·.snapshot)) = .ok merged := by
  intro parts
  refine ⟨?_, by simp [parts, name_shapeIn], _, rfl⟩
  intro a ha
  have hshape : ∃ assembly table, a = shapeIn assembly table := by
    rcases List.mem_cons.mp ha with rfl | ha
    · exact ⟨_, _, rfl⟩
    · exact ⟨_, _, List.mem_singleton.mp ha⟩
  obtain ⟨assembly, table, rfl⟩ := hshape
  refine ⟨attributes_shapeIn assembly table, ?_⟩
  rw [containsType_iff]
  exact ⟨table, by simp [Table.keys, entries_shapeIn]⟩

end Snapshot

end Memberwise
