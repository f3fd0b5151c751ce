import Mathlib
import Memberwise.Proofs.FileOrder
import Memberwise.Proofs.SnapshotUnions

/-!
# What a chain of assemblies keeps

The result of a chain is read by those who compile against all of its assemblies.  It
answers for all that an assembly registered if no earlier assembly has the same name: types
with the names they got, resources and proxies.

An assembly whose name occurred before is compiled, but its snapshot counts as known and is
skipped.  The chain goes on as if the assembly were not there, and nobody is told.
-/

namespace Memberwise

/-! ## Tables -/

namespace Table

variable {κ α : Type} [DecidableEq κ]

theorem nodup_keys_insertAll {t : Table κ α} (ht : t.keys.Nodup) (pairs : List (κ × α)) :
    (t.insertAll pairs).keys.Nodup := by
  induction pairs generalizing t with
  | nil => exact ht
  | cons pair pairs ih =>
    refine ih (t := t.insert pair.1 pair.2) ?_
    rw [keys_insert]
    split_ifs with hmem
    · exact ht
    · exact List.nodup_append.mpr ⟨ht, List.nodup_singleton _, by
        rintro k hk _ hnew rfl
        exact hmem (List.mem_singleton.mp hnew ▸ hk)⟩

/-- Pairs under different keys take the place of what was there. -/
theorem get?_insertAll {t : Table κ α} {pairs : List (κ × α)}
    (hpairs : (pairs.map Prod.fst).Nodup) (k : κ) :
    (t.insertAll pairs).get? k = (lookupIn k pairs).or (t.get? k) := by
  induction pairs generalizing t with
  | nil => rfl
  | cons pair pairs ih =>
    obtain ⟨k', a⟩ := pair
    obtain ⟨hnew, hpairs⟩ := List.nodup_cons.mp hpairs
    have hstep : t.insertAll ((k', a) :: pairs) = (t.insert k' a).insertAll pairs := rfl
    rw [hstep, ih hpairs, get?_insert, lookupIn]
    by_cases hk : k' = k
    · have hnone : lookupIn k pairs = none := (lookupIn_eq_none k pairs).mpr (hk ▸ hnew)
      rw [hnone, if_pos hk, if_pos hk]
      rfl
    · rw [if_neg hk, if_neg hk]

end Table

/-! ## Snapshots of chains -/

namespace Snapshot

/-- What a chain of assemblies has put together. -/
structure Chained (s : Snapshot) : Prop where
  types : ∀ table, (s.types table).keys.Nodup
  proxies : s.proxies.keys.Nodup
  resources : s.resources.Nodup
  graph : ∃ graphs, s.graph = Graph.mergeAll graphs
  attributed : ∀ table, ∀ pair ∈ (s.types table).entries, pair.2.assembly ∈ s.assemblies
  proxied : ∀ id ∈ s.proxies.keys, id ∈ s.classes.keys

/-- All answers of a snapshot are given by a later one as well. -/
structure Retains (later s : Snapshot) : Prop where
  types : ∀ table id entry, (s.types table).get? id = some entry →
    (later.types table).get? id = some entry
  resources : ∀ id ∈ s.resources, id ∈ later.resources
  proxies : ∀ id target, s.proxies.get? id = some target → later.proxies.get? id = some target

variable {known s next : Snapshot}

theorem Retains.refl (s : Snapshot) : s.Retains s :=
  ⟨fun _ _ _ h => h, fun _ h => h, fun _ _ h => h⟩

theorem Retains.trans (h : next.Retains known) (h' : known.Retains s) : next.Retains s :=
  ⟨fun table id entry hentry => h.types table id entry (h'.types table id entry hentry),
    fun id hid => h.resources id (h'.resources id hid),
    fun id target htarget => h.proxies id target (h'.proxies id target htarget)⟩

theorem chained_empty : ({} : Snapshot).Chained where
  types table := by
    cases table with
    | classes => exact List.nodup_nil
    | interfaces => exact List.nodup_nil
  proxies := List.nodup_nil
  resources := List.nodup_nil
  graph := ⟨[], rfl⟩
  attributed table pair hpair := by
    cases table with
    | classes => exact absurd hpair List.not_mem_nil
    | interfaces => exact absurd hpair List.not_mem_nil
  proxied id hid := absurd hid List.not_mem_nil

/-- What a chain has put together is taken over as it is. -/
theorem Chained.absorb_empty (hs : s.Chained) : ({} : Snapshot).absorb s = .ok s := by
  obtain ⟨graphs, hgraph⟩ := hs.graph
  have hclasses : mergeTypes {} s.classes.entries = .ok s.classes :=
    mergeTypes_of_nodup (hs.types .classes)
  have hinterfaces : mergeTypes {} s.interfaces.entries = .ok s.interfaces :=
    mergeTypes_of_nodup (hs.types .interfaces)
  have hproxies : ({} : Table Identity Identity).insertAll s.proxies.entries = s.proxies :=
    Table.insertAll_of_nodup hs.proxies
  have hresources : pushAll [] s.resources = s.resources := pushAll_of_nodup hs.resources
  have hmerge : ({} : Graph).merge s.graph = s.graph := by
    rw [hgraph, Graph.merge_mergeAll]
    rfl
  rw [absorb, if_neg (by simp [isKnown_empty]), hclasses, hinterfaces, hproxies, hmerge]
  exact congrArg (fun resources => Except.ok { s with resources }) hresources

theorem Chained.merge_pair (hknown : known.Chained) (s : Snapshot) :
    merge [known, s] = known.absorb s := by
  rw [merge, List.foldlM_cons, hknown.absorb_empty]
  exact bind_pure (known.absorb s)

end Snapshot

/-! ## The snapshot of a build -/

/-- A snapshot answers for all that a build registered, in the name of an assembly. -/
structure Snapshot.Covers (s : Snapshot) (name : String) (b : Build) : Prop where
  classes : ∀ id c, b.classes.get? id = some c →
    ∃ out, b.outputName? id = some out ∧ s.classes.get? id = some ⟨c.name, out, name⟩
  interfaces : ∀ id i, b.interfaces.get? id = some i →
    ∃ out, b.outputName? id = some out ∧ s.interfaces.get? id = some ⟨i.name, out, name⟩
  resources : ∀ id name, (id, name) ∈ b.resources → s.isResource id = true
  proxies : ∀ id target, b.proxies.get? id = some target → s.proxies.get? id = some target

theorem Snapshot.Covers.of_retains {s later : Snapshot} {name : String} {b : Build}
    (h : s.Covers name b) (hlater : later.Retains s) : later.Covers name b where
  classes id c hc := by
    obtain ⟨out, hout, hentry⟩ := h.classes id c hc
    exact ⟨out, hout, hlater.types .classes id _ hentry⟩
  interfaces id i hi := by
    obtain ⟨out, hout, hentry⟩ := h.interfaces id i hi
    exact ⟨out, hout, hlater.types .interfaces id _ hentry⟩
  resources id name hid := by
    have hmem : id ∈ s.resources := by simpa [isResource] using h.resources id name hid
    simpa [isResource] using hlater.resources id hmem
  proxies id target htarget := hlater.proxies id target (h.proxies id target htarget)

namespace Assembly

variable (a : Assembly) (prior : Snapshot) (o : Options)

theorem options_build : (a.build prior o).options = o := by
  have hsteps := Build.steps_compileFiles (Build.new prior o) a
  obtain ⟨report, names, hresolve⟩ := ((Build.new prior o).compileFiles a).1.resolve_eq
  rw [build, hresolve]
  exact hsteps.options

theorem attributed_build (table : TypeTable) :
    ∀ pair ∈ ((a.build prior o).snapshot.types table).entries,
      pair.2.assembly = o.assemblyName := by
  have hwell := a.wellKeyed_build prior o
  have hentry (id : Identity) (name : String) :
      ((a.build prior o).entryOf id name).assembly = o.assemblyName := by
    rw [Build.entryOf, a.options_build prior o]
  intro pair hpair
  cases table with
  | classes =>
    rw [Snapshot.types, hwell.classes_snapshot] at hpair
    obtain ⟨c, -, rfl⟩ := List.mem_map.mp hpair
    exact hentry c.id c.name
  | interfaces =>
    rw [Snapshot.types, hwell.interfaces_snapshot] at hpair
    obtain ⟨i, -, rfl⟩ := List.mem_map.mp hpair
    exact hentry i.id i.name

theorem nodup_snapshot (table : TypeTable) :
    ((a.build prior o).snapshot.types table).keys.Nodup := by
  have hwell := a.wellKeyed_build prior o
  obtain ⟨hclasses, hinterfaces, -⟩ := List.nodup_append.mp hwell.nodup_types
  cases table with
  | classes =>
    rw [Snapshot.types, hwell.classes_snapshot, Table.keys, List.map_map]
    exact hwell.ids_classes ▸ hclasses
  | interfaces =>
    rw [Snapshot.types, hwell.interfaces_snapshot, Table.keys, List.map_map]
    exact hwell.ids_interfaces ▸ hinterfaces

theorem nodup_proxies_build : (a.build prior o).proxies.keys.Nodup := by
  have hempty : (Build.new prior o).proxies.keys.Nodup := List.nodup_nil
  rw [(a.records_build prior o).proxies]
  exact Table.nodup_keys_insertAll hempty _

/-- The proxies of a build are classes of it. -/
theorem proxied_build :
    ∀ id ∈ (a.build prior o).proxies.keys, id ∈ (a.build prior o).snapshot.classes.keys := by
  intro id hid
  have hwell := a.wellKeyed_build prior o
  have hcontains := (Table.contains_iff _ id).mpr hid
  obtain ⟨c, hc, -⟩ := ((a.mirrors_build prior o).proxies id).mp hcontains
  rw [hwell.classes_snapshot, Table.keys, List.map_map]
  exact hwell.ids_classes ▸ Table.mem_keys_of_get? hc

/-- The snapshot of a build covers it. -/
theorem covers_snapshot : (a.build prior o).snapshot.Covers o.assemblyName (a.build prior o) := by
  have hwell := a.wellKeyed_build prior o
  have hnaming := a.naming_build prior o
  have hoptions := a.options_build prior o
  have hclasses := a.nodup_snapshot prior o .classes
  have hinterfaces := a.nodup_snapshot prior o .interfaces
  generalize a.build prior o = b at *
  refine ⟨fun id c hc => ?_, fun id i hi => ?_, fun id name hid => ?_, fun _ _ h => h⟩
  · have hid : id = c.id := hwell.classes _ (Table.mem_of_lookupIn hc)
    have hvalue := Table.mem_values_of_get? hc
    obtain ⟨out, hout⟩ := hnaming.named ⟨c.id, c.name, c.strongName, c.span⟩
      (List.mem_append_left _ (List.mem_map_of_mem hvalue))
    refine ⟨out, hid ▸ hout, (Table.get?_eq_some_iff hclasses id _).mpr ?_⟩
    rw [Snapshot.types, hwell.classes_snapshot]
    refine List.mem_map.mpr ⟨c, hvalue, ?_⟩
    rw [Build.entryOf, hout, hoptions, hid]
    rfl
  · have hid : id = i.id := hwell.interfaces _ (Table.mem_of_lookupIn hi)
    have hvalue := Table.mem_values_of_get? hi
    obtain ⟨out, hout⟩ := hnaming.named ⟨i.id, i.name, i.strongName, i.span⟩
      (List.mem_append_right _ (List.mem_map_of_mem hvalue))
    refine ⟨out, hid ▸ hout, (Table.get?_eq_some_iff hinterfaces id _).mpr ?_⟩
    rw [Snapshot.types, hwell.interfaces_snapshot]
    refine List.mem_map.mpr ⟨i, hvalue, ?_⟩
    rw [Build.entryOf, hout, hoptions, hid]
    rfl
  · have hmem : id ∈ b.resources.map Prod.fst := List.mem_map.mpr ⟨(id, name), hid, rfl⟩
    simpa [Snapshot.isResource, Build.snapshot] using hmem

end Assembly

/-! ## Steps of a chain -/

namespace Snapshot

variable {known s next : Snapshot}

/-- A snapshot of one assembly that can be added to what a chain has put together. -/
structure Single (s : Snapshot) (name : String) : Prop where
  assemblies : s.assemblies = [name]
  attributed : ∀ table, ∀ pair ∈ (s.types table).entries, pair.2.assembly = name
  types : ∀ table, (s.types table).keys.Nodup
  proxies : s.proxies.keys.Nodup
  proxied : ∀ id ∈ s.proxies.keys, id ∈ s.classes.keys

variable {name : String}

theorem Single.isKnown (hs : s.Single name) : known.isKnown s = true ↔ name ∈ known.assemblies := by
  simp [Snapshot.isKnown, hs.assemblies]

theorem Single.isKnown_of_not_mem (hs : s.Single name) (hname : name ∉ known.assemblies) :
    known.isKnown s = false :=
  Bool.eq_false_iff.mpr fun hold => hname (hs.isKnown.mp hold)

/-- A snapshot of an assembly that is known is skipped. -/
theorem Single.absorb_of_mem (hs : s.Single name) (hname : name ∈ known.assemblies) :
    known.absorb s = .ok known := by
  rw [absorb, if_pos (hs.isKnown.mpr hname)]

variable (hs : s.Single name) (hknown : known.Chained) (hname : name ∉ known.assemblies)
  (h : known.absorb s = .ok next)

include hs hname h

theorem Single.types_absorb (table : TypeTable) :
    mergeTypes (known.types table) (s.types table).entries = .ok (next.types table) :=
  (absorb_of_new (hs.isKnown_of_not_mem hname) h).1 table

theorem Single.proxies_absorb :
    next.proxies = known.proxies.insertAll s.proxies.entries := by
  rw [absorb, if_neg fun hold => hname (hs.isKnown.mp hold)] at h
  obtain ⟨classes, -, h⟩ := exists_of_bind_eq_ok h
  obtain ⟨interfaces, -, h⟩ := exists_of_bind_eq_ok h
  rw [← Except.ok.inj h]

include hknown

/-- No type of a new assembly is known in the same table. -/
theorem Single.not_mem_keys (table : TypeTable) {id : Identity}
    (hid : id ∈ (s.types table).keys) : id ∉ (known.types table).keys := by
  intro hold
  obtain ⟨first, hfirst⟩ := Option.isSome_iff_exists.mp ((Table.contains_iff _ id).mpr hold)
  have hassembly : first.assembly = name :=
    assembly_of_mergeTypes_ok (hs.attributed table) (hs.types_absorb hname h table) hid hfirst
  exact hname (hassembly ▸ hknown.attributed table _ (Table.mem_of_lookupIn hfirst))

theorem Single.nodup_append (table : TypeTable) :
    ((known.types table).keys ++ (s.types table).keys).Nodup := by
  refine List.nodup_append.mpr ⟨hknown.types table, hs.types table, ?_⟩
  rintro id hid _ hid' rfl
  exact hs.not_mem_keys hknown hname h table hid' hid

theorem Single.entries_absorb (table : TypeTable) :
    (next.types table).entries = (known.types table).entries ++ (s.types table).entries := by
  have hmerged := mergeTypes_of_nodup (hs.nodup_append hknown hname h table)
  rw [Except.ok.inj ((hs.types_absorb hname h table).symm.trans hmerged)]

theorem Single.keys_absorb (table : TypeTable) :
    (next.types table).keys = (known.types table).keys ++ (s.types table).keys := by
  rw [Table.keys, hs.entries_absorb hknown hname h table, List.map_append]
  rfl

/-- Adding the snapshot of a new assembly loses nothing, neither of it nor of what is known. -/
theorem Single.retains : next.Retains known ∧ next.Retains s := by
  obtain ⟨htypes, -, hresources, -⟩ := absorb_of_new (hs.isKnown_of_not_mem hname) h
  have hproxies := hs.proxies_absorb hname h
  refine ⟨⟨fun table id entry hentry => ?_, fun id hid => ?_, fun id target htarget => ?_⟩,
    fun table id entry hentry => ?_, fun id hid => ?_, fun id target htarget => ?_⟩
  · rw [get?_mergeTypes (htypes table), hentry]
    rfl
  · rw [hresources]
    exact mem_pushAll.mpr (.inl hid)
  · -- a proxy is a class, and the classes of the new assembly are others
    have hother : id ∉ s.proxies.keys := fun hid =>
      hs.not_mem_keys hknown hname h .classes (hs.proxied id hid)
        (hknown.proxied id (Table.mem_keys_of_get? htarget))
    have hnone : Table.lookupIn id s.proxies.entries = none :=
      (Table.lookupIn_eq_none id _).mpr hother
    rw [hproxies, Table.get?_insertAll hs.proxies, hnone]
    exact htarget
  · have hid : id ∉ (known.types table).keys :=
      hs.not_mem_keys hknown hname h table (Table.mem_keys_of_get? hentry)
    have hnone : (known.types table).get? id = none := (Table.lookupIn_eq_none id _).mpr hid
    rw [get?_mergeTypes (htypes table), hnone]
    exact hentry
  · rw [hresources]
    exact mem_pushAll.mpr (.inr hid)
  · have hfound : Table.lookupIn id s.proxies.entries = some target := htarget
    rw [hproxies, Table.get?_insertAll hs.proxies, hfound]
    rfl

theorem Single.chained : next.Chained := by
  obtain ⟨-, hassemblies, hresources, hgraph⟩ := absorb_of_new (hs.isKnown_of_not_mem hname) h
  have hproxies := hs.proxies_absorb hname h
  have hkeys := hs.keys_absorb hknown hname h
  obtain ⟨graphs, hgraphs⟩ := hknown.graph
  refine ⟨fun table => ?_, ?_, ?_, ?_, fun table pair hpair => ?_, fun id hid => ?_⟩
  · rw [hkeys]
    exact hs.nodup_append hknown hname h table
  · rw [hproxies]
    exact Table.nodup_keys_insertAll hknown.proxies _
  · rw [hresources]
    exact nodup_pushAll hknown.resources _
  · exact ⟨graphs ++ [s.graph], by rw [hgraph, hgraphs, Graph.mergeAll_concat]⟩
  · rw [hassemblies]
    rw [hs.entries_absorb hknown hname h] at hpair
    rcases List.mem_append.mp hpair with hpair | hpair
    · exact List.mem_append_left _ (hknown.attributed table pair hpair)
    · rw [hs.attributed table pair hpair, hs.assemblies]
      exact List.mem_append_right _ List.mem_cons_self
  · rw [hproxies, Table.mem_keys_insertAll] at hid
    rw [show next.classes.keys = _ from hkeys .classes]
    rcases hid with hid | hid
    · exact List.mem_append_left _ (hknown.proxied id hid)
    · exact List.mem_append_right _ (hs.proxied id hid)

end Snapshot

namespace Assembly

variable {a : Assembly} {o : Options} {known next s : Snapshot}

theorem single_snapshot (a : Assembly) (prior : Snapshot) (o : Options) :
    (a.build prior o).snapshot.Single o.assemblyName where
  assemblies := congrArg (fun o => [Options.assemblyName o]) (a.options_build prior o)
  attributed := a.attributed_build prior o
  types := a.nodup_snapshot prior o
  proxies := a.nodup_proxies_build prior o
  proxied := a.proxied_build prior o

/-- An assembly is compiled under its own name, and its snapshot is added to what is known. -/
theorem compileNext_eq (hknown : known.Chained) (h : compileNext o known a = .ok next) :
    a.compile known { o with assemblyName := a.name } =
        .ok (a.build known { o with assemblyName := a.name }) ∧
      known.absorb (a.build known { o with assemblyName := a.name }).snapshot = .ok next := by
  unfold compileNext at h
  split at h
  · cases h
  · next b hb =>
    obtain rfl := a.build_of_compile hb
    rw [hknown.merge_pair] at h
    split at h
    · cases h
    · next merged hmerge =>
      obtain rfl := Except.ok.inj h
      exact ⟨hb, hmerge⟩

/-- An assembly whose name is known adds nothing. -/
theorem compileNext_of_known (hknown : known.Chained) (hname : a.name ∈ known.assemblies)
    (h : compileNext o known a = .ok next) : next = known := by
  have hskip := (a.single_snapshot known { o with assemblyName := a.name }).absorb_of_mem hname
  exact Except.ok.inj ((compileNext_eq hknown h).2.symm.trans hskip)

/-- An assembly with a new name adds all that it registers. -/
theorem compileNext_of_new (hknown : known.Chained) (hname : a.name ∉ known.assemblies)
    (h : compileNext o known a = .ok next) :
    next.Chained ∧ next.Retains known ∧ next.assemblies = known.assemblies ++ [a.name] ∧
      next.Covers a.name (a.build known { o with assemblyName := a.name }) := by
  have hsingle := a.single_snapshot known { o with assemblyName := a.name }
  have hcovers := a.covers_snapshot known { o with assemblyName := a.name }
  have habsorb := (compileNext_eq hknown h).2
  obtain ⟨hold, hnew⟩ := hsingle.retains hknown hname habsorb
  refine ⟨hsingle.chained hknown hname habsorb, hold, ?_, hcovers.of_retains hnew⟩
  rw [(Snapshot.absorb_of_new (hsingle.isKnown_of_not_mem hname) habsorb).2.1,
    hsingle.assemblies]

/-- A chain keeps what was known before it and lists the names of its assemblies. -/
theorem compileNext_foldlM_retains (assemblies : List Assembly) (hknown : known.Chained)
    (h : assemblies.foldlM (compileNext o) known = .ok s) :
    s.Chained ∧ s.Retains known ∧
      ∀ name, name ∈ s.assemblies ↔
        name ∈ known.assemblies ∨ name ∈ assemblies.map Assembly.name := by
  induction assemblies generalizing known with
  | nil =>
    obtain rfl := Except.ok.inj h
    exact ⟨hknown, .refl _, by simp⟩
  | cons a assemblies ih =>
    obtain ⟨next, hnext, hrest⟩ := exists_of_bind_eq_ok h
    by_cases hname : a.name ∈ known.assemblies
    · obtain rfl := compileNext_of_known hknown hname hnext
      obtain ⟨hs, hretains, hnames⟩ := ih hknown hrest
      refine ⟨hs, hretains, fun name => ?_⟩
      rw [hnames, List.map_cons, List.mem_cons]
      constructor
      · exact Or.imp_right .inr
      · rintro (hold | rfl | hlater)
        · exact .inl hold
        · exact .inl hname
        · exact .inr hlater
    · obtain ⟨hchained, hold, hassemblies, -⟩ := compileNext_of_new hknown hname hnext
      obtain ⟨hs, hretains, hnames⟩ := ih hchained hrest
      refine ⟨hs, hretains.trans hold, fun name => ?_⟩
      rw [hnames, hassemblies, List.mem_append, List.mem_singleton, List.map_cons, List.mem_cons,
        or_assoc]

end Assembly

/--
The result of a chain of assemblies that compiles answers for all that each of them registered,
provided no earlier assembly has its name: classes and interfaces under their identities, with the
name of the assembly and the output names they got, resources and proxies.  An assembly whose name
an earlier one has leaves no trace; without it the result would be the same.
-/
theorem chain_keeps_first_of_each_name {assemblies : List Assembly} {o : Options} {s : Snapshot}
    (h : Assembly.compileAll assemblies o = .ok s) (earlier later : List Assembly) (a : Assembly)
    (hsplit : assemblies = earlier ++ a :: later) :
    ∃ known b, Assembly.compileAll earlier o = .ok known ∧
      a.compile known { o with assemblyName := a.name } = .ok b ∧
      (a.name ∉ earlier.map Assembly.name → s.Covers a.name b) ∧
      (a.name ∈ earlier.map Assembly.name → Assembly.compileAll (earlier ++ later) o = .ok s) := by
  subst hsplit
  rw [Assembly.compileAll, List.foldlM_append] at h
  obtain ⟨known, hearlier, hrest⟩ := exists_of_bind_eq_ok h
  obtain ⟨next, hnext, hlater⟩ := exists_of_bind_eq_ok hrest
  obtain ⟨hknown, -, hnames⟩ :=
    Assembly.compileNext_foldlM_retains earlier Snapshot.chained_empty hearlier
  have hmem : a.name ∈ known.assemblies ↔ a.name ∈ earlier.map Assembly.name := by
    rw [hnames]
    exact or_iff_right List.not_mem_nil
  refine ⟨known, _, hearlier, (Assembly.compileNext_eq hknown hnext).1, fun hnew => ?_,
    fun hold => ?_⟩
  · obtain ⟨hchained, -, -, hcovers⟩ :=
      Assembly.compileNext_of_new hknown (fun hold => hnew (hmem.mp hold)) hnext
    exact hcovers.of_retains (Assembly.compileNext_foldlM_retains later hchained hlater).2.1
  · obtain rfl := Assembly.compileNext_of_known hknown (hmem.mpr hold) hnext
    rw [Assembly.compileAll, List.foldlM_append, hearlier]
    exact hlater

/-- An assembly with a resource and a class that stands in for another one. -/
def portAssembly : Assembly where
  name := "Port"
  files := [{
    path := "port"
    types := [
      { head := { name := "Port.Style", form := .ordinary, isResource := true }, nested := [] },
      { head := {
          name := "Port.Gate", form := .ordinary, attributes := [.proxy (Ty.named "Gate")]
          visibility := .internal }
        nested := [] }] }]

/-- Another assembly of the same name. -/
def craneAssembly : Assembly where
  name := "Port"
  files := [{
    path := "crane"
    types := [{ head := { name := "Port.Crane", form := .ordinary }, nested := [] }] }]

/-- An assembly in between. -/
def yardAssembly : Assembly where
  name := "Yard"
  files := [{
    path := "yard"
    types := [{ head := { name := "Yard.Slot", form := .interface }, nested := [] }] }]

/-- The first assembly is kept, and the last one makes no difference. -/
theorem portChain_keeps_gate :
    ∃ s, Assembly.compileAll [portAssembly, yardAssembly, craneAssembly] {} = .ok s ∧
      s.classes.get? (.ofName "Port.Gate") = some ⟨"Port.Gate", "Port.Gate", "Port"⟩ ∧
      s.isResource (.ofName "Port.Style") = true ∧
      s.proxies.get? (.ofName "Port.Gate") = some (.ofName "Gate") ∧
      Assembly.compileAll [portAssembly, yardAssembly] {} = .ok s := by
  have hok : (Assembly.compileAll [portAssembly, yardAssembly, craneAssembly] {}).isOk = true := by
    decide +kernel
  cases hs : Assembly.compileAll [portAssembly, yardAssembly, craneAssembly] {} with
  | error e => simp [hs, Except.isOk, Except.toBool] at hok
  | ok s =>
    obtain ⟨known, b, hknown, hb, hcovers, -⟩ :=
      chain_keeps_first_of_each_name hs [] [yardAssembly, craneAssembly] portAssembly rfl
    obtain ⟨-, -, -, -, -, hskipped⟩ :=
      chain_keeps_first_of_each_name hs [portAssembly, yardAssembly] [] craneAssembly rfl
    obtain rfl := Except.ok.inj hknown
    obtain rfl := portAssembly.build_of_compile hb
    have hgate := hcovers List.not_mem_nil
    have hfound : ((portAssembly.build {} { assemblyName := "Port" }).classes.get?
        (.ofName "Port.Gate")).map ClassRecord.name = some "Port.Gate" := by decide +kernel
    obtain ⟨c, hc, hname⟩ := Option.map_eq_some_iff.mp hfound
    have hout : (portAssembly.build {} { assemblyName := "Port" }).outputName?
        (.ofName "Port.Gate") = some "Port.Gate" := by decide +kernel
    obtain ⟨out, hout', hclass⟩ := hgate.classes _ c hc
    obtain rfl : out = "Port.Gate" := Option.some.inj (hout'.symm.trans hout)
    rw [hname] at hclass
    refine ⟨s, rfl, hclass, ?_, ?_, hskipped (by decide)⟩
    · exact hgate.resources _ "Port.Style" (by decide +kernel)
    · exact hgate.proxies _ _ (by decide +kernel)

/-- The second assembly of a name registers a class that the result does not know. -/
theorem crane_lost_from_chain :
    ∃ s known b, Assembly.compileAll [portAssembly, craneAssembly] {} = .ok s ∧
      Assembly.compileAll [portAssembly] {} = .ok known ∧
      craneAssembly.compile known { assemblyName := "Port" } = .ok b ∧
      b.classes.contains (.ofName "Port.Crane") = true ∧
      s.containsType (.ofName "Port.Crane") = false := by
  have hlost : (Assembly.compileAll [portAssembly, craneAssembly] {}).toOption.map
      (·.containsType (.ofName "Port.Crane")) = some false := by decide +kernel
  have hfound : ((Assembly.compileAll [portAssembly] {}).toOption.bind fun known =>
      (craneAssembly.compile known { assemblyName := "Port" }).toOption.map
        (·.classes.contains (.ofName "Port.Crane"))) = some true := by decide +kernel
  cases hs : Assembly.compileAll [portAssembly, craneAssembly] {} with
  | error e => simp [hs, Except.toOption] at hlost
  | ok s =>
    cases hknown : Assembly.compileAll [portAssembly] {} with
    | error e => simp [hknown, Except.toOption] at hfound
    | ok known =>
      cases hb : craneAssembly.compile known { assemblyName := "Port" } with
      | error e => simp [hknown, hb, Except.toOption] at hfound
      | ok b =>
        refine ⟨s, known, b, rfl, rfl, hb, ?_, ?_⟩
        · simpa [hknown, hb, Except.toOption] using hfound
        · simpa [hs, Except.toOption] using hlost

end Memberwise
