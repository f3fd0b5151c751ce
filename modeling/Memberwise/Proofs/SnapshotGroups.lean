import Mathlib
import Memberwise.Proofs.SnapshotUnions

/-!
# Merging snapshots in groups

The snapshots of some assemblies may be merged in groups first, which may overlap, as
they do where one assembly is reached on two ways.  All answers and the graph are the
same as if the assemblies were merged one by one.

Not so the list of assemblies.  A snapshot is skipped if all its assemblies are known
and otherwise lists all of them, so an assembly is listed again where a group brings
it along with a new one.
-/

namespace Memberwise

namespace AssemblySnapshot

/-- A group brings new assemblies along with some that are there. -/
def Straddles (parts group : List AssemblySnapshot) : Prop :=
  (∃ a ∈ group, a ∈ parts) ∧ ∃ a ∈ group, a ∉ parts

/-- None of some groups straddles what comes before it. -/
def Apart (parts : List AssemblySnapshot) : List (List AssemblySnapshot) → Prop
  | [] => True
  | group :: groups => ¬ Straddles parts group ∧ Apart (parts ++ group) groups

end AssemblySnapshot

open AssemblySnapshot (Coherent Straddles Apart)

namespace Snapshot

variable {known s next merged : Snapshot} {parts group : List AssemblySnapshot}
  {snapshots : List Snapshot} {groups : List (List AssemblySnapshot)}

/-! ## The list of assemblies -/

theorem assemblies_absorb (h : known.absorb s = .ok next) :
    next.assemblies =
      if known.isKnown s = true then known.assemblies else known.assemblies ++ s.assemblies := by
  split_ifs with hknown
  · rw [absorb, if_pos hknown] at h
    rw [Except.ok.inj h]
  · exact (absorb_of_new (Bool.eq_false_iff.mpr hknown) h).2.1

theorem assemblies_prefix_absorb (h : known.absorb s = .ok next) :
    known.assemblies <+: next.assemblies := by
  rw [assemblies_absorb h]
  split_ifs
  · exact List.prefix_rfl
  · exact List.prefix_append _ _

theorem assemblies_prefix_foldlM (h : snapshots.foldlM Snapshot.absorb known = .ok merged) :
    known.assemblies <+: merged.assemblies := by
  induction snapshots generalizing known with
  | nil =>
    rw [Except.ok.inj h]
  | cons s snapshots ih =>
    obtain ⟨next, hnext, hrest⟩ := exists_of_bind_eq_ok h
    exact (assemblies_prefix_absorb hnext).trans (ih hrest)

/-- Single assemblies are listed once, in the order in which they first come. -/
theorem assemblies_merge (h : merge (parts.map (·.snapshot)) = .ok merged) :
    merged.assemblies = pushAll [] (parts.map (·.name)) := by
  induction parts using List.reverseRecOn generalizing merged with
  | nil =>
    rw [← Except.ok.inj h]
    rfl
  | append_singleton parts a ih =>
    rw [List.map_append, List.map_singleton, merge_concat] at h
    obtain ⟨known, hmerge, habsorb⟩ := exists_of_bind_eq_ok h
    rw [List.map_append, List.map_singleton, pushAll_append, ← ih hmerge,
      assemblies_absorb habsorb]
    by_cases hname : a.name ∈ known.assemblies
    · simp [isKnown, a.assemblies, hname, pushAll]
    · simp [isKnown, a.assemblies, hname, pushAll]

/-- Adding a group lists no assembly again exactly if it does not straddle. -/
theorem nodup_absorb_iff (hknown : known.Answers parts) (hs : s.Answers group)
    (hcoherent : Coherent (parts ++ group)) (hnodup : known.assemblies.Nodup)
    (hnodups : s.assemblies.Nodup) (h : known.absorb s = .ok next) :
    next.assemblies.Nodup ↔ ¬ Straddles parts group := by
  rw [assemblies_absorb h]
  split_ifs with hisKnown
  · refine iff_of_true hnodup ?_
    rintro ⟨-, a, ha, hnew⟩
    exact hnew (hknown.subset_of_isKnown hs hcoherent hisKnown ha)
  · constructor
    · rintro happend ⟨⟨a, ha, hold⟩, -⟩
      -- an assembly that is there would be listed on both sides
      have hleft : a.name ∈ known.assemblies :=
        (hknown.name_mem_assemblies_iff hcoherent ha).mpr hold
      have hright : a.name ∈ s.assemblies := hs.mem_assemblies.mpr ⟨a, ha, rfl⟩
      exact (List.nodup_append.mp happend).2.2 _ hleft _ hright rfl
    · intro hstraddles
      refine List.nodup_append.mpr ⟨hnodup, hnodups, ?_⟩
      rintro name hleft _ hright rfl
      obtain ⟨a, ha, rfl⟩ := hs.mem_assemblies.mp hright
      have hold : a ∈ parts := (hknown.name_mem_assemblies_iff hcoherent ha).mp hleft
      have hall : ∀ b ∈ group, b ∈ parts := by
        intro b hb
        by_contra hnew
        exact hstraddles ⟨⟨a, ha, hold⟩, b, hb, hnew⟩
      apply hisKnown
      have hne : s.assemblies ≠ [] := List.ne_nil_of_mem hright
      have hsubset : ∀ name ∈ s.assemblies, name ∈ known.assemblies := by
        intro name hname
        obtain ⟨b, hb, rfl⟩ := hs.mem_assemblies.mp hname
        exact (hknown.name_mem_assemblies_iff hcoherent hb).mpr (hall b hb)
      simpa [isKnown, hne] using hsubset

/-- Adding group after group lists no assembly again exactly if none straddles. -/
theorem nodup_foldlM_iff
    (hoffers : List.Forall₂ (fun s group => s.Offers group ∧ s.assemblies.Nodup) snapshots groups)
    (hknown : known.Gathers parts) (hcoherent : Coherent (parts ++ groups.flatten))
    (hnodup : known.assemblies.Nodup)
    (h : snapshots.foldlM Snapshot.absorb known = .ok merged) :
    merged.assemblies.Nodup ↔ Apart parts groups := by
  induction hoffers generalizing known parts with
  | nil =>
    rw [← Except.ok.inj h]
    exact iff_of_true hnodup trivial
  | @cons s group snapshots groups hs hoffers ih =>
    rw [List.flatten_cons, ← List.append_assoc] at hcoherent
    obtain ⟨next, hnext, hrest⟩ := exists_of_bind_eq_ok h
    have hgroup : Coherent (parts ++ group) := hcoherent.of_subset (List.subset_append_left _ _)
    have hstep := nodup_absorb_iff hknown.toAnswers hs.1.toAnswers hgroup hnodup hs.2 hnext
    have hgathers : next.Gathers (parts ++ group) := hknown.absorb hs.1 hgroup hnext
    by_cases hstraddles : Straddles parts group
    · apply iff_of_false
      · intro hmerged
        exact hstep.mp (hmerged.sublist (assemblies_prefix_foldlM hrest).sublist) hstraddles
      · exact fun hapart => hapart.1 hstraddles
    · rw [ih hgathers hcoherent (hstep.mpr hstraddles) hrest, Apart]
      exact (and_iff_right hstraddles).symm

/-! ## Groups and single assemblies -/

/-- A merged group offers its assemblies and lists each of them once. -/
theorem offers_of_merged (hcoherent : Coherent groups.flatten)
    (hgroups : List.Forall₂ (fun s group => merge (group.map (·.snapshot)) = .ok s)
      snapshots groups) :
    List.Forall₂ (fun s group => s.Offers group ∧ s.assemblies.Nodup) snapshots groups := by
  induction hgroups with
  | nil => exact .nil
  | @cons s group snapshots groups hs hgroups ih =>
    rw [List.flatten_cons] at hcoherent
    have hgroup : Coherent group := hcoherent.of_subset (List.subset_append_left _ _)
    have hrest : Coherent groups.flatten := hcoherent.of_subset (List.subset_append_right _ _)
    have hnodup : s.assemblies.Nodup := assemblies_merge hs ▸ nodup_pushAll List.nodup_nil _
    exact .cons ⟨(gathers_merge hgroup hs).offers, hnodup⟩ (ih hrest)

/-- Two snapshots give the same answers and have the same graph. -/
structure Agree (s s' : Snapshot) : Prop where
  classes : ∀ id, s.classes.get? id = s'.classes.get? id
  interfaces : ∀ id, s.interfaces.get? id = s'.interfaces.get? id
  containsType : ∀ id, s.containsType id = s'.containsType id
  isResource : ∀ id, s.isResource id = s'.isResource id
  graph : s.graph = s'.graph

theorem Gathers.agree {s s' : Snapshot} (h : s.Gathers parts) (h' : s'.Gathers parts) :
    s.Agree s' where
  classes id := (h.types .classes id).trans (h'.types .classes id).symm
  interfaces id := (h.types .interfaces id).trans (h'.types .interfaces id).symm
  containsType id := by rw [Bool.eq_iff_iff, h.containsType_iff, h'.containsType_iff]
  isResource id := by rw [Bool.eq_iff_iff, h.isResource_iff, h'.isResource_iff]
  graph := by rw [h.graph, h'.graph]

/--
Merging groups of assemblies first changes neither an answer nor the graph.  The assemblies
are the same and first come in the same order, but each is listed once only if no group
straddles the groups before it.
-/
theorem merged_groups_agree {groups : List (List AssemblySnapshot)} {snapshots : List Snapshot}
    {together single : Snapshot} (hcoherent : Coherent groups.flatten)
    (hgroups : List.Forall₂ (fun s group => merge (group.map (·.snapshot)) = .ok s)
      snapshots groups)
    (htogether : merge snapshots = .ok together)
    (hsingle : merge (groups.flatten.map (·.snapshot)) = .ok single) :
    together.Agree single ∧ single.assemblies.Nodup ∧
      together.assemblies.eraseDups = single.assemblies ∧
      (together.assemblies = single.assemblies ↔ Apart [] groups) := by
  have hoffers := offers_of_merged hcoherent hgroups
  have hgathers : together.Gathers ([] ++ groups.flatten) :=
    gathers_foldlM (hoffers.imp fun _ _ h => h.1) gathers_nil hcoherent htogether
  have hwhole : single.Gathers groups.flatten := gathers_merge hcoherent hsingle
  have hassemblies : single.assemblies = pushAll [] (groups.flatten.map (·.name)) :=
    assemblies_merge hsingle
  have hnodup : single.assemblies.Nodup := hassemblies ▸ nodup_pushAll List.nodup_nil _
  have hdedup : pushAll [] together.assemblies = single.assemblies :=
    hgathers.assemblies.trans hassemblies.symm
  refine ⟨hgathers.agree hwhole, hnodup, (pushAll_nil _).symm.trans hdedup, ?_⟩
  rw [← nodup_foldlM_iff hoffers gathers_nil hcoherent List.nodup_nil htogether]
  constructor
  · intro heq
    exact heq ▸ hnodup
  · intro htogether
    rw [← hdedup]
    exact (pushAll_of_nodup (l := []) htogether).symm

/-- An assembly that brings a resource of its own name. -/
def depotNamed (name : String) : AssemblySnapshot :=
  ⟨name, { (ofAssembly name).addResource (.ofName name) with
    graph := ({} : Graph).addNode (.resource (.ofName name)) }, rfl⟩

theorem depotNamed_inj {name name' : String} :
    depotNamed name = depotNamed name' ↔ name = name' :=
  ⟨fun h => congrArg AssemblySnapshot.name h, fun h => h ▸ rfl⟩

/-- Two groups that share an assembly and bring nothing new with it. -/
theorem depots_in_groups_agree :
    let groups := [[depotNamed "Base", depotNamed "Shop"], [depotNamed "Shop"],
      [depotNamed "Yard"]]
    ∃ snapshots together single, Coherent groups.flatten ∧
      List.Forall₂ (fun s group => merge (group.map (·.snapshot)) = .ok s) snapshots groups ∧
      merge snapshots = .ok together ∧ merge (groups.flatten.map (·.snapshot)) = .ok single ∧
      together.Agree single ∧ together.assemblies = single.assemblies := by
  intro groups
  have hcoherent : Coherent groups.flatten := by
    simp [groups, Coherent, depotNamed]
  have hapart : Apart [] groups := by
    simp [groups, Apart, Straddles, depotNamed_inj]
  obtain ⟨snapshots, together, single, hgroups, htogether, hsingle⟩ :
      ∃ snapshots together single,
        List.Forall₂ (fun s group => merge (group.map (·.snapshot)) = .ok s) snapshots groups ∧
        merge snapshots = .ok together ∧ merge (groups.flatten.map (·.snapshot)) = .ok single :=
    ⟨[_, _, _], _, _, .cons rfl (.cons rfl (.cons rfl .nil)), rfl, rfl⟩
  obtain ⟨hagree, -, -, hsame⟩ := merged_groups_agree hcoherent hgroups htogether hsingle
  exact ⟨snapshots, together, single, hcoherent, hgroups, htogether, hsingle, hagree,
    hsame.mpr hapart⟩

/-- An assembly that two groups share is listed twice where both bring another one. -/
theorem shared_depot_listed_twice :
    let groups := [[depotNamed "Base", depotNamed "Shop"], [depotNamed "Shop", depotNamed "Yard"]]
    ∃ snapshots together single, Coherent groups.flatten ∧
      List.Forall₂ (fun s group => merge (group.map (·.snapshot)) = .ok s) snapshots groups ∧
      merge snapshots = .ok together ∧ merge (groups.flatten.map (·.snapshot)) = .ok single ∧
      together.assemblies = ["Base", "Shop", "Shop", "Yard"] ∧
      single.assemblies = ["Base", "Shop", "Yard"] := by
  intro groups
  have hcoherent : Coherent groups.flatten := by
    simp [groups, Coherent, depotNamed]
  exact ⟨[_, _], _, _, hcoherent, .cons rfl (.cons rfl .nil), rfl, rfl, rfl, rfl⟩

end Snapshot

end Memberwise
