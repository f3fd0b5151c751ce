import Mathlib
import Memberwise.Build.Basic

/-!
# Chains of proxies

What a type stands in for may itself stand in for another type.  Such a chain either ends at a
type that stands in for nothing or runs into a cycle, and it may pass from proxies of this
assembly to those of earlier ones and back.

The search for the end stops where a proxy leads back to one that was passed.  The list of what
was passed lags one step behind, so a proxy of itself is passed once and come by again before the
search stops there.  In any case the search stops by itself; the bound on its steps is never
reached.
-/

namespace Memberwise

open Relation (ReflTransGen TransGen)
open Relator (RightUnique)

/-- What is on a cycle of a deterministic relation is reached again from all that it reaches. -/
theorem reflTransGen_of_cycle {α : Type} {r : α → α → Prop} (hr : RightUnique r) {x y : α}
    (hcycle : TransGen r x x) (hreach : ReflTransGen r x y) : ReflTransGen r y x := by
  induction hreach with
  | refl => exact .refl
  | tail _ hstep ih =>
    rcases ih.cases_head with rfl | ⟨next, hnext, hrest⟩
    · obtain ⟨next, hnext, hrest⟩ := TransGen.head'_iff.mp hcycle
      exact hr hnext hstep ▸ hrest
    · exact hr hnext hstep ▸ hrest

namespace Build

variable {b : Build} {id target last : Identity} {passed : List Identity}

/-- One type stands in for another; what this assembly says hides what earlier ones say. -/
inductive StandsIn (b : Build) (proxy target : Identity) : Prop
  | own (h : b.proxies.get? proxy = some target)
  | prior (hown : b.proxies.get? proxy = none) (h : b.prior.proxies.get? proxy = some target)

theorem proxyTarget?_eq_some_iff : b.proxyTarget? id = some target ↔ b.StandsIn id target := by
  unfold proxyTarget?
  constructor
  · intro h
    rcases Option.or_eq_some_iff.mp h with hown | ⟨hnone, hprior⟩
    · exact .own hown
    · exact .prior hnone hprior
  · rintro (hown | ⟨hnone, hprior⟩)
    · rw [hown, Option.some_or]
    · rw [hnone, Option.none_or, hprior]

theorem proxyTarget?_eq_none_iff :
    b.proxyTarget? id = none ↔ ∀ target, ¬b.StandsIn id target := by
  simp only [← proxyTarget?_eq_some_iff, Option.eq_none_iff_forall_ne_some, ne_eq]

theorem rightUnique_standsIn (b : Build) : RightUnique b.StandsIn := by
  intro id target target' h h'
  rw [← proxyTarget?_eq_some_iff] at h h'
  exact Option.some.inj (h.symm.trans h')

theorem StandsIn.mem_keys (h : b.StandsIn id target) :
    id ∈ b.proxies.keys ++ b.prior.proxies.keys := by
  rw [List.mem_append, ← Table.contains_iff, ← Table.contains_iff, Table.contains, Table.contains]
  rcases h with hown | ⟨-, hprior⟩
  · exact .inl (by rw [hown]; rfl)
  · exact .inr (by rw [hprior]; rfl)

/-- A search that has passed some proxies and is at a type stops by itself at another one. -/
inductive Stops (b : Build) : (passed : List Identity) → (id last : Identity) → Prop
  | atEnd {passed : List Identity} {id : Identity} (h : ∀ target, ¬b.StandsIn id target) :
      Stops b passed id id
  | atReturn {passed : List Identity} {id target : Identity} (h : b.StandsIn id target)
      (hpassed : target ∈ passed) : Stops b passed id id
  | onward {passed : List Identity} {id target last : Identity} (h : b.StandsIn id target)
      (hnew : target ∉ passed) (hrest : Stops b (id :: passed) target last) :
      Stops b passed id last

/-! ## The search stops -/

/-- A search stops within its bound if no proxy was passed twice and the one at hand was passed
only if it stands in for itself. -/
theorem stops_followProxies {steps : Nat} (hnodup : passed.Nodup)
    (hkeys : passed ⊆ b.proxies.keys ++ b.prior.proxies.keys)
    (hself : id ∈ passed → b.StandsIn id id)
    (hsteps : b.proxies.size + b.prior.proxies.size < steps + passed.length) :
    b.Stops passed id (b.followProxies steps passed id) := by
  induction steps generalizing passed id with
  | zero =>
    have hlength := (List.subperm_of_subset hnodup hkeys).length_le
    simp only [List.length_append, Table.keys, List.length_map, Table.size] at hlength hsteps
    omega
  | succ steps ih =>
    rw [followProxies]
    cases htarget : b.proxyTarget? id with
    | none => exact .atEnd (proxyTarget?_eq_none_iff.mp htarget)
    | some target =>
      have hstands := proxyTarget?_eq_some_iff.mp htarget
      dsimp only
      by_cases hpassed : target ∈ passed
      · rw [if_pos hpassed]
        exact .atReturn hstands hpassed
      · rw [if_neg hpassed]
        -- A proxy of itself that was passed would have stopped the search here.
        have hnew : id ∉ passed := fun hmem =>
          hpassed (rightUnique_standsIn b (hself hmem) hstands ▸ hmem)
        refine .onward hstands hpassed (ih (List.nodup_cons.mpr ⟨hnew, hnodup⟩) ?_ ?_ ?_)
        · exact List.cons_subset.mpr ⟨hstands.mem_keys, hkeys⟩
        · intro hmem
          rcases List.mem_cons.mp hmem with rfl | hmem
          · exact hstands
          · exact absurd hmem hpassed
        · rw [List.length_cons]
          omega

theorem stops_resolveProxy (b : Build) (id : Identity) : b.Stops [] id (b.resolveProxy id) := by
  refine stops_followProxies List.nodup_nil (List.nil_subset _) ?_ ?_
  · exact fun hmem => absurd hmem List.not_mem_nil
  · rw [List.length_nil]
    omega

/-! ## Where it stops -/

theorem Stops.reach (h : b.Stops passed id last) : ReflTransGen b.StandsIn id last := by
  induction h with
  | atEnd | atReturn => exact .refl
  | onward hstands _ _ ih => exact .head hstands ih

/-- A search stops at the end of its chain or on a cycle. -/
theorem Stops.end_or_cycle (h : b.Stops passed id last)
    (hpassed : ∀ proxy ∈ passed, ReflTransGen b.StandsIn proxy id) :
    (∀ target, ¬b.StandsIn last target) ∨ TransGen b.StandsIn last last := by
  induction h with
  | atEnd hend => exact .inl hend
  | atReturn hstands hback => exact .inr (.head' hstands (hpassed _ hback))
  | onward hstands _ _ ih =>
    refine ih fun proxy hmem => ?_
    rcases List.mem_cons.mp hmem with rfl | hmem
    · exact .single hstands
    · exact (hpassed proxy hmem).tail hstands

theorem eq_of_reach_of_end (hreach : ReflTransGen b.StandsIn id last)
    (hend : ∀ target, ¬b.StandsIn id target) : id = last := by
  rcases hreach.cases_head with heq | ⟨target, hstands, -⟩
  · exact heq
  · exact absurd hstands (hend target)

/-- A chain that ends passes no cycle, so the search stops at its end. -/
theorem resolveProxy_of_end {e : Identity} (hreach : ReflTransGen b.StandsIn id e)
    (hend : ∀ target, ¬b.StandsIn e target) : b.resolveProxy id = e := by
  have hstops := b.stops_resolveProxy id
  have hunique := rightUnique_standsIn b
  rcases ReflTransGen.total_of_right_unique hunique hstops.reach hreach with honward | hback
  · rcases hstops.end_or_cycle (fun _ hmem => absurd hmem List.not_mem_nil) with hlast | hcycle
    · exact eq_of_reach_of_end honward hlast
    · exact (eq_of_reach_of_end (reflTransGen_of_cycle hunique hcycle honward) hend).symm
  · exact (eq_of_reach_of_end hback hend).symm

/--
The search for what a type stands in for in the end stops by itself.  If the chain from the type
ends, the search stops there, and searching from there again leads nowhere else.  Otherwise it
stops on the cycle that the chain runs into: at a type of the chain that leads back to itself and
that every type of the chain leads to.
-/
theorem proxy_resolution_ends (b : Build) (id : Identity) :
    b.Stops [] id (b.resolveProxy id) ∧
      (∀ e, ReflTransGen b.StandsIn id e → (∀ target, ¬b.StandsIn e target) →
        b.resolveProxy id = e ∧ b.resolveProxy (b.resolveProxy id) = b.resolveProxy id) ∧
      ((∀ e, ReflTransGen b.StandsIn id e → ∃ target, b.StandsIn e target) →
        ReflTransGen b.StandsIn id (b.resolveProxy id) ∧
          TransGen b.StandsIn (b.resolveProxy id) (b.resolveProxy id) ∧
          ∀ e, ReflTransGen b.StandsIn id e → ReflTransGen b.StandsIn e (b.resolveProxy id)) := by
  have hstops := b.stops_resolveProxy id
  refine ⟨hstops, ?_, ?_⟩
  · intro e hreach hend
    have heq := resolveProxy_of_end hreach hend
    rw [heq]
    exact ⟨rfl, resolveProxy_of_end .refl hend⟩
  · intro hendless
    obtain ⟨target, hstands⟩ := hendless _ hstops.reach
    have hcycle : TransGen b.StandsIn (b.resolveProxy id) (b.resolveProxy id) := by
      rcases hstops.end_or_cycle (fun _ hmem => absurd hmem List.not_mem_nil) with hlast | hcycle
      · exact absurd hstands (hlast target)
      · exact hcycle
    refine ⟨hstops.reach, hcycle, fun e hreach => ?_⟩
    have hunique := rightUnique_standsIn b
    rcases ReflTransGen.total_of_right_unique hunique hreach hstops.reach with honward | hback
    · exact honward
    · exact reflTransGen_of_cycle hunique hcycle hback

/-- Proxies of two assemblies.  The kiosk leads to the hall by way of an earlier assembly, whose
own idea of the stand is hidden; the gate leads into a cycle that goes through both. -/
def kioskBuild : Build where
  proxies := ⟨[(.ofName "Kiosk", .ofName "Booth"), (.ofName "Stand", .ofName "Hall"),
    (.ofName "Gate", .ofName "North"), (.ofName "South", .ofName "North")]⟩
  prior := { proxies := ⟨[(.ofName "Booth", .ofName "Stand"), (.ofName "Stand", .ofName "Booth"),
    (.ofName "North", .ofName "South")]⟩ }

theorem kioskBuild_chains :
    kioskBuild.resolveProxy (.ofName "Kiosk") = .ofName "Hall" ∧
      kioskBuild.resolveProxy (.ofName "Gate") = .ofName "South" ∧
      TransGen kioskBuild.StandsIn (.ofName "South") (.ofName "South") := by
  have hbooth : kioskBuild.StandsIn (.ofName "Kiosk") (.ofName "Booth") := .own (by decide +kernel)
  have hstand : kioskBuild.StandsIn (.ofName "Booth") (.ofName "Stand") :=
    .prior (by decide +kernel) (by decide +kernel)
  have hhall : kioskBuild.StandsIn (.ofName "Stand") (.ofName "Hall") := .own (by decide +kernel)
  have hend : ∀ target, ¬kioskBuild.StandsIn (.ofName "Hall") target :=
    proxyTarget?_eq_none_iff.mp (by decide +kernel)
  have hgate : kioskBuild.StandsIn (.ofName "Gate") (.ofName "North") := .own (by decide +kernel)
  have hnorth : kioskBuild.StandsIn (.ofName "North") (.ofName "South") :=
    .prior (by decide +kernel) (by decide +kernel)
  have hsouth : kioskBuild.StandsIn (.ofName "South") (.ofName "North") := .own (by decide +kernel)
  have hendless (e : Identity) (hreach : ReflTransGen kioskBuild.StandsIn (.ofName "Gate") e) :
      ∃ target, kioskBuild.StandsIn e target ∧
        (target = .ofName "North" ∨ target = .ofName "South") := by
    induction hreach with
    | refl => exact ⟨_, hgate, .inl rfl⟩
    | tail _ hstep ih =>
      obtain ⟨target, htarget, hcycle⟩ := ih
      obtain rfl := rightUnique_standsIn kioskBuild htarget hstep
      rcases hcycle with rfl | rfl
      · exact ⟨_, hnorth, .inr rfl⟩
      · exact ⟨_, hsouth, .inl rfl⟩
  have hkiosk := (proxy_resolution_ends kioskBuild (.ofName "Kiosk")).2.1 _
    (.tail (.tail (.single hbooth) hstand) hhall) hend
  have hcycle := (proxy_resolution_ends kioskBuild (.ofName "Gate")).2.2
    fun e hreach => (hendless e hreach).imp fun _ h => h.1
  have hlast : kioskBuild.resolveProxy (.ofName "Gate") = .ofName "South" := by decide +kernel
  exact ⟨hkiosk.1, hlast, hlast ▸ hcycle.2.1⟩

end Build

end Memberwise
