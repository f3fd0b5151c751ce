import Mathlib
import Memberwise.Proofs.OutputNames

/-!
# Chains of assemblies

Each assembly of a chain is compiled against what the earlier ones define, and its
snapshot is then merged into that.  Merging keeps known types and appends others, so
the type tables only grow at their ends.  Output names stay apart because those of
earlier assemblies are reserved when an assembly gets its names.
-/

namespace Memberwise

namespace Snapshot

/-! ## Merging type tables -/

/-- What is known stays in front; some of the new entries follow, under new identities. -/
theorem mergeTypes_ok {known merged : Table Identity TypeEntry}
    {entries : List (Identity × TypeEntry)} (hknown : known.keys.Nodup)
    (h : mergeTypes known entries = .ok merged) :
    merged.keys.Nodup ∧
      ∃ added, added.Sublist entries ∧ merged.entries = known.entries ++ added := by
  induction entries generalizing known with
  | nil =>
    obtain rfl := Except.ok.inj h
    exact ⟨hknown, [], List.nil_sublist _, by simp⟩
  | cons entry entries ih =>
    obtain ⟨id, entry⟩ := entry
    rw [mergeTypes] at h
    split at h
    · split at h
      · obtain ⟨hmerged, added, hsublist, happend⟩ := ih hknown h
        exact ⟨hmerged, added, hsublist.cons _, happend⟩
      · cases h
    · next hnone =>
      have hid : id ∉ known.keys := (Table.lookupIn_eq_none id known.entries).mp hnone
      rw [Table.insert_of_not_mem hid] at h
      obtain ⟨hmerged, added, hsublist, happend⟩ :=
        ih (Table.nodup_keys_append hknown hid entry) h
      refine ⟨hmerged, (id, entry) :: added, hsublist.cons_cons _, ?_⟩
      rw [happend, List.append_assoc, List.singleton_append]

/-- Entries under new and different identities are all appended. -/
theorem mergeTypes_of_nodup {known : Table Identity TypeEntry}
    {entries : List (Identity × TypeEntry)}
    (hnodup : (known.keys ++ entries.map Prod.fst).Nodup) :
    mergeTypes known entries = .ok ⟨known.entries ++ entries⟩ := by
  induction entries generalizing known with
  | nil => simp [mergeTypes]
  | cons entry entries ih =>
    obtain ⟨id, entry⟩ := entry
    have hid : id ∉ known.keys := by
      intro hmem
      exact (List.nodup_append.mp hnodup).2.2 id hmem id List.mem_cons_self rfl
    have hnone : known.get? id = none := (Table.lookupIn_eq_none id known.entries).mpr hid
    have hrest : ((known.insert id entry).keys ++ entries.map Prod.fst).Nodup := by
      rw [Table.keys_insert, if_neg hid, List.append_assoc]
      exact hnodup
    rw [mergeTypes, hnone]
    dsimp only
    rw [ih hrest, Table.insert_of_not_mem hid, List.append_assoc, List.singleton_append]

/-! ## Merging snapshots -/

/-- Every type is listed once in its table, and no two types share an output name. -/
structure Distinct (s : Snapshot) : Prop where
  classes : s.classes.keys.Nodup
  interfaces : s.interfaces.keys.Nodup
  outputNames : s.outputNames.Nodup

/-- A later snapshot, whose type tables begin with those of an earlier one. -/
structure Extends (known later : Snapshot) : Prop where
  classes : known.classes.entries <+: later.classes.entries
  interfaces : known.interfaces.entries <+: later.interfaces.entries

theorem Extends.refl (s : Snapshot) : s.Extends s := ⟨List.prefix_rfl, List.prefix_rfl⟩

theorem Extends.trans {s s₁ s₂ : Snapshot} (h : s.Extends s₁) (h' : s₁.Extends s₂) :
    s.Extends s₂ :=
  ⟨h.classes.trans h'.classes, h.interfaces.trans h'.interfaces⟩

theorem outputNames_eq (s : Snapshot) :
    s.outputNames =
      (s.classes.entries ++ s.interfaces.entries).map fun entry => entry.2.outputName := by
  simp [outputNames, Table.values, Function.comp_def]

/-- Nothing is known of no assembly, so all of a snapshot is new to it. -/
theorem isKnown_empty (s : Snapshot) : ({} : Snapshot).isKnown s = false := by
  cases hassemblies : s.assemblies with
  | nil => simp [isKnown, hassemblies]
  | cons name names => simp [isKnown, hassemblies]

theorem absorb_empty {s base : Snapshot} (hs : s.Distinct)
    (h : ({} : Snapshot).absorb s = .ok base) :
    base.classes = s.classes ∧ base.interfaces = s.interfaces := by
  rw [absorb, if_neg (by simp [isKnown_empty])] at h
  have hclasses : mergeTypes {} s.classes.entries = .ok s.classes :=
    mergeTypes_of_nodup hs.classes
  have hinterfaces : mergeTypes {} s.interfaces.entries = .ok s.interfaces :=
    mergeTypes_of_nodup hs.interfaces
  obtain ⟨classes, hc, h⟩ := exists_of_bind_eq_ok h
  obtain ⟨interfaces, hi, h⟩ := exists_of_bind_eq_ok h
  obtain rfl := Except.ok.inj (hclasses.symm.trans hc)
  obtain rfl := Except.ok.inj (hinterfaces.symm.trans hi)
  obtain rfl := Except.ok.inj h
  exact ⟨rfl, rfl⟩

theorem absorb_ok {known s merged : Snapshot} (hknown : known.Distinct)
    (hnames : (known.outputNames ++ s.outputNames).Nodup) (h : known.absorb s = .ok merged) :
    merged.Distinct ∧ known.Extends merged := by
  by_cases hold : known.isKnown s
  · rw [absorb, if_pos hold] at h
    obtain rfl := Except.ok.inj h
    exact ⟨hknown, .refl known⟩
  · rw [absorb, if_neg hold] at h
    obtain ⟨classes, hc, h⟩ := exists_of_bind_eq_ok h
    obtain ⟨interfaces, hi, h⟩ := exists_of_bind_eq_ok h
    obtain rfl := Except.ok.inj h
    obtain ⟨hclasses, newClasses, hnewClasses, happendClasses⟩ := mergeTypes_ok hknown.classes hc
    obtain ⟨hinterfaces, newInterfaces, hnewInterfaces, happendInterfaces⟩ :=
      mergeTypes_ok hknown.interfaces hi
    refine ⟨⟨hclasses, hinterfaces, ?_⟩, ⟨⟨newClasses, happendClasses.symm⟩,
      ⟨newInterfaces, happendInterfaces.symm⟩⟩⟩
    -- The new names stand behind those of each table; together they are among the names
    -- of the two snapshots.
    rw [outputNames_eq, outputNames_eq, ← List.map_append] at hnames
    have hnew : (newClasses ++ newInterfaces).Sublist
        (s.classes.entries ++ s.interfaces.entries) := hnewClasses.append hnewInterfaces
    have hsublist := hnames.sublist
      (((List.Sublist.refl (known.classes.entries ++ known.interfaces.entries)).append hnew).map _)
    have hperm : ((known.classes.entries ++ newClasses) ++
          (known.interfaces.entries ++ newInterfaces)).Perm
        ((known.classes.entries ++ known.interfaces.entries) ++ (newClasses ++ newInterfaces)) := by
      simp only [List.append_assoc]
      refine List.Perm.append_left _ ?_
      rw [← List.append_assoc, ← List.append_assoc]
      exact List.perm_append_comm.append_right _
    rw [outputNames_eq, happendClasses, happendInterfaces]
    exact (hperm.map _).nodup_iff.mpr hsublist

/-- Merging a snapshot into what is known keeps the latter, if their output names differ. -/
theorem merge_ok {known s merged : Snapshot} (hknown : known.Distinct)
    (hnames : (known.outputNames ++ s.outputNames).Nodup)
    (h : merge [known, s] = .ok merged) : merged.Distinct ∧ known.Extends merged := by
  obtain ⟨base, hbase, h⟩ := exists_of_bind_eq_ok h
  obtain ⟨next, hnext, h⟩ := exists_of_bind_eq_ok h
  obtain rfl := Except.ok.inj h
  obtain ⟨hclasses, hinterfaces⟩ := absorb_empty hknown hbase
  have hsame : base.outputNames = known.outputNames := by
    rw [outputNames, hclasses, hinterfaces, outputNames]
  have hdistinct : base.Distinct :=
    ⟨hclasses ▸ hknown.classes, hinterfaces ▸ hknown.interfaces, hsame ▸ hknown.outputNames⟩
  obtain ⟨hmerged, hextends⟩ := absorb_ok hdistinct (hsame ▸ hnames) hnext
  exact ⟨hmerged, hclasses ▸ hextends.classes, hinterfaces ▸ hextends.interfaces⟩

end Snapshot

/-! ## The snapshot of a build -/

/-- Names that fit a scope are distinct from each other and from the reserved ones. -/
theorem Scope.Naming.nodup {κ : Type} {reserved : List String} {entries : List (Nameable κ)}
    {name? : κ → Option String} (hnaming : Scope.Naming reserved entries name?)
    (hreserved : reserved.Nodup) (hkeys : (entries.map Nameable.key).Nodup) :
    (reserved ++ entries.map fun entry => (name? entry.key).getD entry.source).Nodup := by
  refine List.nodup_append.mpr ⟨hreserved, ?_, ?_⟩
  · have hentries : entries.Nodup := hkeys.of_map
    refine (List.nodup_map_iff_inj_on hentries).mpr ?_
    intro entry hentry entry' hentry' heq
    obtain ⟨name, hname⟩ := hnaming.named entry hentry
    obtain ⟨name', hname'⟩ := hnaming.named entry' hentry'
    simp only [hname, hname', Option.getD_some] at heq
    have hkey := hnaming.distinct _ _ _ hname (heq ▸ hname')
    exact List.inj_on_of_nodup_map hkeys hentry hentry' hkey
  · intro taken htaken other hother heq
    obtain ⟨entry, hentry, rfl⟩ := List.mem_map.mp hother
    obtain ⟨name, hname⟩ := hnaming.named entry hentry
    rw [hname, Option.getD_some] at heq
    exact hnaming.unreserved _ _ hname (heq ▸ htaken)

namespace Build

theorem WellKeyed.classes_snapshot {b : Build} (hb : b.WellKeyed) :
    b.snapshot.classes = ⟨b.classes.values.map fun c => (c.id, b.entryOf c.id c.name)⟩ := by
  refine Table.insertAll_of_nodup ?_
  rw [List.map_map]
  exact hb.ids_classes ▸ (List.nodup_append.mp hb.nodup_types).1

theorem WellKeyed.interfaces_snapshot {b : Build} (hb : b.WellKeyed) :
    b.snapshot.interfaces = ⟨b.interfaces.values.map fun i => (i.id, b.entryOf i.id i.name)⟩ := by
  refine Table.insertAll_of_nodup ?_
  rw [List.map_map]
  exact hb.ids_interfaces ▸ (List.nodup_append.mp hb.nodup_types).2.1

theorem WellKeyed.outputNames_snapshot {b : Build} (hb : b.WellKeyed) :
    b.snapshot.outputNames =
      b.nameables.map fun entry => (b.outputName? entry.key).getD entry.source := by
  rw [Snapshot.outputNames_eq, hb.classes_snapshot, hb.interfaces_snapshot, nameables,
    List.map_append, List.map_append]
  simp only [List.map_map]
  rfl

end Build

namespace Assembly

variable {o : Options}

theorem wellKeyed_build (a : Assembly) (prior : Snapshot) (o : Options) :
    (a.build prior o).WellKeyed := by
  have hsteps := Build.steps_compileFiles (Build.new prior o) a
  exact (Build.sameTypes_resolve _).wellKeyed (hsteps.wellKeyed (Build.wellKeyed_new prior o))

/-- The names of a build fit the types that need them. -/
theorem naming_build (a : Assembly) (prior : Snapshot) (o : Options) :
    Scope.Naming prior.outputNames (a.build prior o).nameables (a.build prior o).outputName? := by
  have hsteps := Build.steps_compileFiles (Build.new prior o) a
  have hwell := hsteps.wellKeyed (Build.wellKeyed_new prior o)
  have hunnamed := hsteps.names_prior.1
  have hsame := hsteps.names_prior.2
  unfold build
  generalize ((Build.new prior o).compileFiles a).1 = b at hwell hunnamed hsame ⊢
  have hnew : b.isResolved = false := by
    rw [Build.isResolved, hunnamed]
    rfl
  have hresolve := b.sameTypes_resolve
  have hnameables : b.resolve.nameables = b.nameables := by
    rw [Build.nameables, hresolve.classes, hresolve.interfaces, Build.nameables]
  have hnaming := Build.naming_types hnew hwell
  rw [hsame] at hnaming
  rw [hnameables]
  exact hnaming

/-- No output name of an assembly is one of an assembly before it. -/
theorem nodup_outputNames_build (a : Assembly) (prior : Snapshot) (o : Options)
    (hprior : prior.outputNames.Nodup) :
    (prior.outputNames ++ (a.build prior o).snapshot.outputNames).Nodup := by
  rw [(a.wellKeyed_build prior o).outputNames_snapshot]
  exact (a.naming_build prior o).nodup hprior (a.wellKeyed_build prior o).nodup_nameables

theorem compileNext_ok {known next : Snapshot} {a : Assembly} (hknown : known.Distinct)
    (h : compileNext o known a = .ok next) : next.Distinct ∧ known.Extends next := by
  unfold compileNext at h
  split at h
  · cases h
  · next b hb =>
    obtain rfl := a.build_of_compile hb
    split at h
    · cases h
    · next merged hmerge =>
      obtain rfl := Except.ok.inj h
      exact Snapshot.merge_ok hknown
        (a.nodup_outputNames_build known _ hknown.outputNames) hmerge

theorem compileNext_foldlM_ok (assemblies : List Assembly) {known s : Snapshot}
    (hknown : known.Distinct) (h : assemblies.foldlM (compileNext o) known = .ok s) :
    s.Distinct ∧ known.Extends s := by
  induction assemblies generalizing known with
  | nil =>
    obtain rfl := Except.ok.inj h
    exact ⟨hknown, .refl known⟩
  | cons a assemblies ih =>
    obtain ⟨next, hnext, h⟩ := exists_of_bind_eq_ok h
    obtain ⟨hdistinct, hextends⟩ := compileNext_ok hknown hnext
    obtain ⟨hs, hrest⟩ := ih hdistinct h
    exact ⟨hs, hextends.trans hrest⟩

end Assembly

/--
The assemblies of a chain that compiles have different output names for all their
classes and interfaces.  Whatever was recorded of a type after some assemblies is
recorded of it after any number of further ones.
-/
theorem output_names_distinct_across_assemblies {assemblies : List Assembly} {o : Options}
    {s : Snapshot} (h : Assembly.compileAll assemblies o = .ok s) :
    s.outputNames.Nodup ∧
      ∀ earlier further later, assemblies = earlier ++ further ++ later →
        ∃ known next, Assembly.compileAll earlier o = .ok known ∧
          Assembly.compileAll (earlier ++ further) o = .ok next ∧
          (∀ id entry, known.classes.get? id = some entry → next.classes.get? id = some entry) ∧
          ∀ id entry, known.interfaces.get? id = some entry →
            next.interfaces.get? id = some entry := by
  have hempty : ({} : Snapshot).Distinct := ⟨List.nodup_nil, List.nodup_nil, List.nodup_nil⟩
  refine ⟨(Assembly.compileNext_foldlM_ok assemblies hempty h).1.outputNames, ?_⟩
  rintro earlier further later rfl
  rw [Assembly.compileAll, List.foldlM_append] at h
  obtain ⟨next, hnext, -⟩ := exists_of_bind_eq_ok h
  have hboth := hnext
  rw [List.foldlM_append] at hboth
  obtain ⟨known, hknown, hfurther⟩ := exists_of_bind_eq_ok hboth
  have hdistinct := (Assembly.compileNext_foldlM_ok earlier hempty hknown).1
  have hextends := (Assembly.compileNext_foldlM_ok further hdistinct hfurther).2
  exact ⟨known, next, hknown, hnext, fun _ _ => Table.get?_of_prefix hextends.classes,
    fun _ _ => Table.get?_of_prefix hextends.interfaces⟩

/--
Three types have one mangled name, in two assemblies.  The last assembly has the name
of the first one and adds nothing.
-/
def mangledChain : List Assembly := [
  { name := "Base"
    files := [{
      path := "base"
      types := [{ head := { name := "Box+Lid", form := .ordinary }, nested := [] }] }] },
  { name := "Shop"
    files := [{
      path := "shop"
      types := [
        { head := { name := "Box_Lid", form := .ordinary }, nested := [] },
        { head := { name := "Box<Lid", form := .interface }, nested := [] }] }] },
  { name := "Base"
    files := [{
      path := "again"
      types := [{ head := { name := "Box>Lid", form := .ordinary }, nested := [] }] }] }]

theorem mangledChain_box_stays :
    ∃ s next, Assembly.compileAll mangledChain {} = .ok s ∧ s.outputNames.Nodup ∧
      s.outputNames = ["Box_Lid", "Box_Lid$1", "Box_Lid$2"] ∧
      Assembly.compileAll (mangledChain.take 2) {} = .ok next ∧
      next.classes.get? (.ofName "Box+Lid") = some ⟨"Box+Lid", "Box_Lid", "Base"⟩ := by
  have hnames : (Assembly.compileAll mangledChain {}).toOption.map Snapshot.outputNames =
      some ["Box_Lid", "Box_Lid$1", "Box_Lid$2"] := by decide +kernel
  have hfirst : (Assembly.compileAll (mangledChain.take 1) {}).toOption.bind
        (fun known => known.classes.get? (.ofName "Box+Lid")) =
      some ⟨"Box+Lid", "Box_Lid", "Base"⟩ := by decide +kernel
  cases hs : Assembly.compileAll mangledChain {} with
  | error e => simp [hs, Except.toOption] at hnames
  | ok s =>
    obtain ⟨hnodup, hstays⟩ := output_names_distinct_across_assemblies hs
    obtain ⟨known, next, hknown, hnext, hclasses, -⟩ :=
      hstays (mangledChain.take 1) ((mangledChain.drop 1).take 1) (mangledChain.drop 2) rfl
    rw [hs] at hnames
    rw [hknown] at hfirst
    exact ⟨s, next, rfl, hnodup, Option.some.inj hnames, hnext, hclasses _ _ hfirst⟩

end Memberwise
