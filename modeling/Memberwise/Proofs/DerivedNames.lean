import Mathlib
import Memberwise.Proofs.OutputNames

/-!
# Derived names

A name that is derived from a base is the base or, where that is taken, the base with the smallest
number that makes it free.  The numbers are tried in turn and nothing bounds the search but the
names that are taken: each number that is passed over stands for another one of them.

Derived names are given out after all requests and in the order of the entries.  So an entry that
comes last and asks for nothing finds all other names given out, and takes one that is left.
-/

namespace Memberwise

namespace Scope

/-! ## The search for a number -/

/--
The search for a free number from `start` on ends at a number.  A number that makes the base free
ends it; after any other the next one is tried.
-/
inductive Search (taken : List String) (base : String) : Nat → Nat → Prop
  | found {n : Nat} (hfree : suffixed base n ∉ taken) : Search taken base n n
  | next {start n : Nat} (htaken : suffixed base start ∈ taken)
      (hrest : Search taken base (start + 1) n) : Search taken base start n

section

variable {taken : List String} {base : String} {start n : Nat}

theorem Search.isLeast (h : Search taken base start n) :
    IsLeast {m | start ≤ m ∧ suffixed base m ∉ taken} n := by
  induction h with
  | found hfree => exact ⟨⟨le_rfl, hfree⟩, fun m hm => hm.1⟩
  | @next start n htaken hrest ih =>
    obtain ⟨⟨hle, hfree⟩, hleast⟩ := ih
    refine ⟨⟨by omega, hfree⟩, ?_⟩
    rintro m ⟨hm, hmfree⟩
    have hne : start ≠ m := by
      rintro rfl
      exact hmfree htaken
    exact hleast ⟨Nat.lt_of_le_of_ne hm hne, hmfree⟩

/-- Numbers are passed over as long as they are below the smallest free one. -/
theorem Search.of_isLeast (h : IsLeast {m | start ≤ m ∧ suffixed base m ∉ taken} n) :
    Search taken base start n := by
  have hle : start ≤ n := h.1.1
  induction hdistance : n - start generalizing start with
  | zero =>
    obtain rfl : start = n := by omega
    exact .found h.1.2
  | succ distance ih =>
    have htaken : suffixed base start ∈ taken := by
      by_contra hfree
      have hbelow : n ≤ start := h.2 ⟨le_rfl, hfree⟩
      omega
    have hrest : IsLeast {m | start + 1 ≤ m ∧ suffixed base m ∉ taken} n :=
      ⟨⟨by omega, h.1.2⟩, fun m hm => h.2 ⟨Nat.le_of_succ_le hm.1, hm.2⟩⟩
    exact .next htaken (ih hrest hrest.1.1 (by omega))

/-- The base and the numbers that are passed over stand for different names that are taken. -/
theorem Search.le_card (h : Search taken base 1 n) (hbase : base ∈ taken) :
    n ≤ taken.toFinset.card := by
  obtain ⟨m, hm, hfree⟩ := exists_free_suffix (List.mem_dedup.mpr hbase)
  rw [List.mem_range'_1] at hm
  rw [List.mem_dedup] at hfree
  have hle : n ≤ m := h.isLeast.2 ⟨hm.1, hfree⟩
  rw [List.card_toFinset]
  omega

end

/-! ## The first free name -/

/--
`name` is the first of the base and its numbered forms that is not taken.  The search for its
number ends, after no more turns than there are names taken.
-/
structure FirstFree (taken : List String) (base name : String) : Prop where
  plain : base ∉ taken → name = base
  numbered : base ∈ taken → ∃ n, name = suffixed base n ∧
    IsLeast {m | 1 ≤ m ∧ suffixed base m ∉ taken} n ∧
    Search taken base 1 n ∧ n ≤ taken.toFinset.card

theorem firstFree_derive (taken : List String) (base : String) :
    FirstFree taken base (derive taken base) := by
  refine ⟨fun hbase => if_neg hbase, fun hbase => ?_⟩
  obtain ⟨n, hfind, hderive⟩ := exists_find?_suffixed hbase
  obtain ⟨hfree, hmem, hbelow⟩ := List.find?_range'_eq_some.mp hfind
  have hleast : IsLeast {m | 1 ≤ m ∧ suffixed base m ∉ taken} n := by
    refine ⟨⟨(List.mem_range'_1.mp hmem).1, by simpa using hfree⟩, ?_⟩
    rintro m ⟨hm, hmfree⟩
    by_contra hlt
    have htaken : suffixed base m ∈ taken := by simpa using hbelow m hm (by omega)
    exact hmfree htaken
  have hsearch := Search.of_isLeast hleast
  exact ⟨n, hderive, hleast, hsearch, hsearch.le_card hbase⟩

/-- It matters which names are taken, not how they are listed. -/
theorem FirstFree.of_mem_iff {taken taken' : List String} {base name : String}
    (h : FirstFree taken base name) (hsame : ∀ other, other ∈ taken ↔ other ∈ taken') :
    FirstFree taken' base name := by
  refine ⟨fun hbase => h.plain (mt (hsame base).mp hbase), fun hbase => ?_⟩
  obtain ⟨n, hname, hleast, -, -⟩ := h.numbered ((hsame base).mpr hbase)
  simp only [hsame] at hleast
  have hsearch := Search.of_isLeast hleast
  exact ⟨n, hname, hleast, hsearch, hsearch.le_card hbase⟩

/-! ## Entries that ask for nothing -/

variable {κ : Type} [DecidableEq κ]

/-- An entry that comes last and asks for nothing is dealt with after all others. -/
theorem assign_concat (scope : String) (reserved : List String) (entries : List (Nameable κ))
    {last : Nameable κ} (hlast : last.explicit = none) :
    assign scope reserved (entries ++ [last]) =
      claimDerived (assign scope reserved entries) last := by
  have hskip (s : State κ) : claimExplicit scope s last = s := by
    rw [claimExplicit, hlast]
  rw [assign, List.foldl_concat, List.foldl_concat, hskip]
  rfl

theorem derived_assign_concat (scope : String) (reserved : List String)
    {entries : List (Nameable κ)} (hkeys : (entries.map Nameable.key).Nodup) {last : Nameable κ}
    (hlast : last.explicit = none) :
    Derived reserved (assign scope reserved entries) [last]
      (assign scope reserved (entries ++ [last])) := by
  rw [assign_concat scope reserved entries hlast]
  exact derived_foldl (sound_assign scope reserved hkeys) [last]

/-- An entry that comes last and asks for nothing gets the first name that the others leave. -/
theorem firstFree_last (scope : String) (reserved : List String) {entries : List (Nameable κ)}
    (hkeys : (entries.map Nameable.key).Nodup) {last : Nameable κ}
    (hlast : last.explicit = none) (hkey : last.key ∉ entries.map Nameable.key) :
    ∃ name, (assign scope reserved (entries ++ [last])).names.get? last.key = some name ∧
      FirstFree (reserved ++ (assign scope reserved entries).names.values)
        (mangle last.source) name := by
  have hsound := sound_assign scope reserved hkeys
  have hunnamed : last.key ∉ (assign scope reserved entries).names.keys :=
    (Table.lookupIn_eq_none _ _).mp
      ((naming_assign scope reserved hkeys).onlyEntries last.key hkey)
  refine ⟨derive (assign scope reserved entries).taken (mangle last.source), ?_, ?_⟩
  · rw [assign_concat scope reserved entries hlast, claimDerived_of_not_mem hunnamed, get?_grant,
      if_pos rfl]
  · refine (firstFree_derive _ _).of_mem_iff fun other => ?_
    rw [hsound.taken, List.mem_append]

end Scope

/--
A derived name is the base if that is free, and else the base with the smallest number from 1 on
that makes it free; the search for that number always ends.  Deriving a name for an entry that has
none takes exactly that name and gives it to exactly that entry.  An entry that is put last in a
scope and asks for nothing changes neither the names of the other entries nor the collisions that
are reported; if its key is new, it gets the first name that is left to it.
-/
theorem derived_names_minimal_and_stable {κ : Type} [DecidableEq κ] :
    (∀ taken base, Scope.FirstFree taken base (Scope.derive taken base)) ∧
      (∀ (s : Scope.State κ) (entry : Nameable κ), entry.key ∉ s.names.keys →
        let name := Scope.derive s.taken (mangle entry.source)
        (∀ other, other ∈ (Scope.claimDerived s entry).taken ↔ other ∈ s.taken ∨ other = name) ∧
          name ∉ s.taken ∧
          (∀ key, (Scope.claimDerived s entry).names.get? key =
            if entry.key = key then some name else s.names.get? key) ∧
          (Scope.claimDerived s entry).collisions = s.collisions) ∧
      ∀ (scope : String) (reserved : List String) (entries : List (Nameable κ))
        (last : Nameable κ), (entries.map Nameable.key).Nodup → last.explicit = none →
        (∀ entry ∈ entries, ∃ name,
          (Scope.assign scope reserved entries).names.get? entry.key = some name ∧
            (Scope.assign scope reserved (entries ++ [last])).names.get? entry.key = some name) ∧
          (Scope.assign scope reserved (entries ++ [last])).collisions =
            (Scope.assign scope reserved entries).collisions ∧
          (last.key ∉ entries.map Nameable.key → ∃ name,
            (Scope.assign scope reserved (entries ++ [last])).names.get? last.key = some name ∧
              Scope.FirstFree (reserved ++ (Scope.assign scope reserved entries).names.values)
                (mangle last.source) name) := by
  refine ⟨Scope.firstFree_derive, ?_, ?_⟩
  · intro s entry hkey name
    rw [Scope.claimDerived_of_not_mem hkey]
    refine ⟨?_, Scope.derive_not_mem _ _, ?_, rfl⟩
    · intro other
      rw [Scope.State.grant, List.mem_cons, or_comm]
    · intro key
      exact Scope.get?_grant s entry.key key name
  · intro scope reserved entries last hkeys hlast
    have hderived := Scope.derived_assign_concat scope reserved hkeys hlast
    refine ⟨?_, hderived.collisions, Scope.firstFree_last scope reserved hkeys hlast⟩
    intro entry hentry
    obtain ⟨name, hname⟩ := (Scope.naming_assign scope reserved hkeys).named entry hentry
    exact ⟨name, hname, hderived.kept _ _ hname⟩

/-- Two members of one source name, and two more that ask for a numbered form of it. -/
def tallyEntries : List (Nameable Nat) :=
  [⟨0, "Add", none, {}⟩, ⟨1, "Add", none, {}⟩, ⟨2, "Put", some "Add$1", {}⟩,
    ⟨3, "Push", some "Add$1", {}⟩]

theorem tallyEntries_keep_names :
    let last : Nameable Nat := ⟨4, "Add", none, {}⟩
    let before := Scope.assign "type 'Tally'" ["Push"] tallyEntries
    let after := Scope.assign "type 'Tally'" ["Push"] (tallyEntries ++ [last])
    (tallyEntries.map Nameable.key).Nodup ∧ last.explicit = none ∧ last.key ∉ before.names.keys ∧
      Scope.FirstFree before.taken "Add" "Add$3" ∧
      (∀ other, other ∈ (Scope.claimDerived before last).taken ↔
        other ∈ before.taken ∨ other = "Add$3") ∧
      after.names.get? 1 = some "Add$2" ∧ after.names.get? 3 = some "Push$1" ∧
      after.names.get? 4 = some "Add$3" ∧
      after.collisions = before.collisions ∧ before.collisions.length = 1 := by
  intro last before after
  have hkeys : (tallyEntries.map Nameable.key).Nodup := by decide
  have hunnamed : last.key ∉ before.names.keys := by decide +kernel
  have hderive : Scope.derive before.taken "Add" = "Add$3" := by decide +kernel
  have hmangle : mangle last.source = "Add" := by decide +kernel
  obtain ⟨hfirst, hclaim, hstable⟩ := @derived_names_minimal_and_stable Nat _
  obtain ⟨hkept, hcollisions, -⟩ := hstable "type 'Tally'" ["Push"] tallyEntries last hkeys rfl
  have hsame {key : Nat} {name : String} (hentry : ∃ entry ∈ tallyEntries, entry.key = key)
      (hbefore : before.names.get? key = some name) : after.names.get? key = some name := by
    obtain ⟨entry, hmem, rfl⟩ := hentry
    obtain ⟨other, hother, hafter⟩ := hkept entry hmem
    exact hafter.trans (hother.symm.trans hbefore)
  have htaken := (hclaim before last hunnamed).1
  rw [hmangle, hderive] at htaken
  refine ⟨hkeys, rfl, hunnamed, hderive ▸ hfirst before.taken "Add", htaken, ?_, ?_, ?_,
    hcollisions, by decide +kernel⟩
  · exact hsame (by decide) (by decide +kernel)
  · exact hsame (by decide) (by decide +kernel)
  · decide +kernel

end Memberwise
