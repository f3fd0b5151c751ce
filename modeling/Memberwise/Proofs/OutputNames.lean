import Mathlib
import Memberwise.Proofs.Registration

/-!
# Output names

In a scope, the names that were asked for are granted first, each to the first entry
that asks for it.  All other entries get derived names, one after the other.  Both
phases only ever add a name that is free to a key that has none, and that is all the
invariant of a scope needs.

What is asked for decides by itself who is refused: a request is refused exactly if
its name is reserved or an earlier entry asks for it, whether or not that one got it.
Derived names play no part in it, since they are given out later.
-/

namespace Memberwise

/-! ## Derived names -/

namespace Scope

theorem suffixed_injective (base : String) : Function.Injective (suffixed base) := by
  intro m n heq
  have hrepr : Nat.repr m = Nat.repr n := (String.append_right_inj _).mp heq
  exact Nat.repr_injective hrepr

theorem suffixed_ne_base (base : String) (n : Nat) : suffixed base n ≠ base := by
  intro heq
  have hlength := congrArg String.length heq
  rw [suffixed, String.length_append, String.length_append] at hlength
  have hmark : "$".length = 1 := rfl
  omega

/-- The base and its suffixed forms are one more than the names that are taken. -/
theorem exists_free_suffix {taken : List String} {base : String} (hbase : base ∈ taken) :
    ∃ n ∈ List.range' 1 taken.length, suffixed base n ∉ taken := by
  by_contra hnone
  have htaken : ∀ n ∈ List.range' 1 taken.length, suffixed base n ∈ taken := by
    intro n hn
    by_contra hfree
    exact hnone ⟨n, hn, hfree⟩
  let candidates := base :: (List.range' 1 taken.length).map (suffixed base)
  have hnodup : candidates.Nodup := by
    refine List.nodup_cons.mpr ⟨?_, List.Nodup.map (suffixed_injective base) List.nodup_range'⟩
    intro hmem
    obtain ⟨n, -, heq⟩ := List.mem_map.mp hmem
    exact suffixed_ne_base base n heq
  have hsubset : candidates ⊆ taken := by
    intro name hname
    rcases List.mem_cons.mp hname with rfl | hname
    · exact hbase
    · obtain ⟨n, hn, rfl⟩ := List.mem_map.mp hname
      exact htaken n hn
  have hlength := (hnodup.subperm hsubset).length_le
  simp [candidates] at hlength

/-- A number is always found, so that the default is never used. -/
theorem exists_find?_suffixed {taken : List String} {base : String} (hbase : base ∈ taken) :
    ∃ n, (List.range' 1 taken.length).find? (fun n => suffixed base n ∉ taken) = some n ∧
      derive taken base = suffixed base n := by
  obtain ⟨n, hn, hfree⟩ := exists_free_suffix hbase
  have hfound : ((List.range' 1 taken.length).find? fun n => suffixed base n ∉ taken).isSome :=
    List.find?_isSome.mpr ⟨n, hn, by simpa using hfree⟩
  obtain ⟨first, hfirst⟩ := Option.isSome_iff_exists.mp hfound
  refine ⟨first, hfirst, ?_⟩
  rw [derive, if_pos hbase]
  dsimp only
  rw [hfirst]
  rfl

theorem derive_not_mem (taken : List String) (base : String) : derive taken base ∉ taken := by
  by_cases hbase : base ∈ taken
  · obtain ⟨n, hfind, hderive⟩ := exists_find?_suffixed hbase
    rw [hderive]
    simpa using List.find?_some hfind
  · rw [derive, if_neg hbase]
    exact hbase

/-! ## The names of a scope -/

variable {κ : Type}

/-- The names that some entries ask for. -/
def requests (entries : List (Nameable κ)) : List String := entries.filterMap Nameable.explicit

/-- What is reported about an entry, given the entries before it. -/
def complaint? (scope : String) (reserved : List String) (earlier : List (Nameable κ))
    (entry : Nameable κ) : Option CompileError :=
  match entry.explicit with
  | none => none
  | some name =>
    if name ∈ reserved ∨ name ∈ requests earlier then
      some (.nameCollision name scope entry.span)
    else none

/-- What is reported about the entries of a scope, each seen after those before it. -/
def complaints (scope : String) (reserved : List String) (entries : List (Nameable κ)) :
    List CompileError :=
  (entries.mapIdx fun i entry => complaint? scope reserved (entries.take i) entry).reduceOption

/--
Names that fit the entries of a scope: every entry has one and nothing else has, no
two keys share one, none is reserved, and a request is granted exactly if its name
is neither reserved nor asked for by an earlier entry.
-/
structure Naming (reserved : List String) (entries : List (Nameable κ))
    (name? : κ → Option String) : Prop where
  named : ∀ entry ∈ entries, ∃ name, name? entry.key = some name
  onlyEntries : ∀ key, key ∉ entries.map Nameable.key → name? key = none
  distinct : ∀ key key' name, name? key = some name → name? key' = some name → key = key'
  unreserved : ∀ key name, name? key = some name → name ∉ reserved
  granted : ∀ earlier entry later name, entries = earlier ++ entry :: later →
    entry.explicit = some name →
      (name? entry.key = some name ↔ name ∉ reserved ∧ name ∉ requests earlier)

theorem requests_concat (entries : List (Nameable κ)) (entry : Nameable κ) :
    requests (entries ++ [entry]) = requests entries ++ entry.explicit.toList := by
  rw [requests, requests, List.filterMap_append]
  cases hentry : entry.explicit <;> simp [hentry]

theorem mem_requests_concat {entries : List (Nameable κ)} {entry : Nameable κ} {name : String}
    (h : entry.explicit = some name) (other : String) :
    other ∈ requests (entries ++ [entry]) ↔ other ∈ requests entries ∨ other = name := by
  rw [requests_concat, h, List.mem_append, Option.toList_some, List.mem_singleton]

theorem complaints_concat (scope : String) (reserved : List String)
    (entries : List (Nameable κ)) (entry : Nameable κ) :
    complaints scope reserved (entries ++ [entry]) =
      complaints scope reserved entries ++
        (complaint? scope reserved entries entry).toList := by
  have hfront :
      (entries.mapIdx fun i e =>
        complaint? scope reserved ((entries ++ [entry]).take i) e) =
      entries.mapIdx fun i e => complaint? scope reserved (entries.take i) e := by
    refine List.mapIdx_eq_mapIdx_iff.mpr fun i hi => ?_
    rw [List.take_append_of_le_length (Nat.le_of_lt hi)]
  rw [complaints, List.mapIdx_concat, hfront, List.reduceOption_append, complaints,
    List.take_append_of_le_length (Nat.le_refl _), List.take_length]
  cases complaint? scope reserved entries entry <;> rfl

/-- The last entry of a list that is split at some entry. -/
theorem concat_eq_append_cons {α : Type} {entries earlier later : List α} {last entry : α}
    (h : entries ++ [last] = earlier ++ entry :: later) :
    (entries = earlier ∧ last = entry) ∨ ∃ later', entries = earlier ++ entry :: later' := by
  rcases List.eq_nil_or_concat later with rfl | ⟨later', x, rfl⟩
  · obtain ⟨hfront, hlast⟩ := List.append_inj' h rfl
    exact .inl ⟨hfront, List.head_eq_of_cons_eq hlast⟩
  · rw [List.concat_eq_append, ← List.cons_append, ← List.append_assoc] at h
    exact .inr ⟨later', (List.append_inj' h rfl).1⟩

/-- The first entry that asks for a name. -/
theorem exists_first_request {entries : List (Nameable κ)} {name : String}
    (h : name ∈ requests entries) :
    ∃ earlier entry later, entries = earlier ++ entry :: later ∧
      entry.explicit = some name ∧ name ∉ requests earlier := by
  induction entries using List.reverseRecOn with
  | nil => exact absurd h List.not_mem_nil
  | append_singleton entries entry ih =>
    by_cases hearlier : name ∈ requests entries
    · obtain ⟨earlier, first, later, rfl, hfirst, hnone⟩ := ih hearlier
      exact ⟨earlier, first, later ++ [entry], by simp, hfirst, hnone⟩
    · rw [requests_concat, List.mem_append, Option.mem_toList] at h
      exact ⟨entries, entry, [], rfl, h.resolve_left hearlier, hearlier⟩

variable [DecidableEq κ]

/-- No key has two names, no name has two keys, and the other names taken are the reserved ones. -/
structure Sound (reserved : List String) (s : State κ) : Prop where
  keys : s.names.keys.Nodup
  values : s.names.values.Nodup
  unreserved : ∀ name ∈ s.names.values, name ∉ reserved
  taken : ∀ name, name ∈ s.taken ↔ name ∈ reserved ∨ name ∈ s.names.values

/-- Gives a name to a key. -/
def State.grant (s : State κ) (key : κ) (name : String) : State κ :=
  { s with taken := name :: s.taken, names := s.names.insert key name }

theorem Sound.grant {reserved : List String} {s : State κ} (hs : Sound reserved s) {key : κ}
    {name : String} (hkey : key ∉ s.names.keys) (hname : name ∉ s.taken) :
    Sound reserved (s.grant key name) := by
  have hnew : name ∉ reserved ∧ name ∉ s.names.values := by
    rw [hs.taken] at hname
    exact not_or.mp hname
  have hvalues : (s.grant key name).names.values = s.names.values ++ [name] := by
    simp [State.grant, Table.insert_of_not_mem hkey, Table.values]
  refine ⟨?_, ?_, ?_, ?_⟩
  · rw [State.grant, Table.insert_of_not_mem hkey]
    exact Table.nodup_keys_append hs.keys hkey name
  · rw [hvalues]
    exact List.nodup_append.mpr ⟨hs.values, List.nodup_singleton name, by
      intro old hold new hmem
      rw [List.mem_singleton.mp hmem]
      rintro rfl
      exact hnew.2 hold⟩
  · intro other hother
    rw [hvalues, List.mem_append, List.mem_singleton] at hother
    rcases hother with hold | rfl
    · exact hs.unreserved other hold
    · exact hnew.1
  · intro other
    rw [hvalues, State.grant, List.mem_cons, hs.taken, List.mem_append, List.mem_singleton]
    tauto

omit [DecidableEq κ] in
theorem sound_initial (reserved : List String) : Sound reserved ({ taken := reserved } : State κ) :=
  ⟨List.nodup_nil, List.nodup_nil, fun _ h => absurd h List.not_mem_nil, fun name => by
    simp [Table.values]⟩

theorem get?_grant (s : State κ) (key other : κ) (name : String) :
    (s.grant key name).names.get? other =
      if key = other then some name else s.names.get? other :=
  Table.get?_insert s.names key other name

/-! ## Requests -/

/-- What is known once the requests of some entries have been dealt with. -/
structure Requested (scope : String) (reserved : List String) (entries : List (Nameable κ))
    (s : State κ) : Prop where
  sound : Sound reserved s
  taken : ∀ name, name ∈ s.taken ↔ name ∈ reserved ∨ name ∈ requests entries
  keys : ∀ key ∈ s.names.keys, key ∈ entries.map Nameable.key
  granted : ∀ earlier entry later name, entries = earlier ++ entry :: later →
    entry.explicit = some name → name ∉ reserved → name ∉ requests earlier →
      s.names.get? entry.key = some name
  collisions : s.collisions = complaints scope reserved entries

/-- A request is granted, refused, or not made. -/
theorem claimExplicit_cases (scope : String) (s : State κ) (entry : Nameable κ) :
    (entry.explicit = none ∧ claimExplicit scope s entry = s) ∨
      ∃ name, entry.explicit = some name ∧
        ((name ∈ s.taken ∧ claimExplicit scope s entry =
            { s with collisions := s.collisions ++ [.nameCollision name scope entry.span] }) ∨
          (name ∉ s.taken ∧ claimExplicit scope s entry = s.grant entry.key name)) := by
  unfold claimExplicit
  cases entry.explicit with
  | none => exact .inl ⟨rfl, rfl⟩
  | some name =>
    refine .inr ⟨name, rfl, ?_⟩
    by_cases htaken : name ∈ s.taken
    · exact .inl ⟨htaken, if_pos htaken⟩
    · exact .inr ⟨htaken, if_neg htaken⟩

section

variable {scope : String} {reserved : List String} {entries : List (Nameable κ)} {s : State κ}
  {entry : Nameable κ} {name : String}

theorem Requested.mem_keys_concat (hs : Requested scope reserved entries s) (entry : Nameable κ) :
    ∀ key ∈ s.names.keys, key ∈ (entries ++ [entry]).map Nameable.key := by
  intro key hmem
  rw [List.map_append]
  exact List.mem_append_left _ (hs.keys key hmem)

theorem Requested.skip (hs : Requested scope reserved entries s) (hnone : entry.explicit = none) :
    Requested scope reserved (entries ++ [entry]) s := by
  have hrequests : requests (entries ++ [entry]) = requests entries := by
    simp [requests_concat, hnone]
  refine ⟨hs.sound, by rw [hrequests]; exact hs.taken, hs.mem_keys_concat entry, ?_, ?_⟩
  · intro earlier e later name hsplit hname hreserved hearlier
    rcases concat_eq_append_cons hsplit with ⟨-, rfl⟩ | ⟨later', hsplit⟩
    · rw [hnone] at hname
      cases hname
    · exact hs.granted earlier e later' name hsplit hname hreserved hearlier
  · rw [complaints_concat, complaint?, hnone, hs.collisions]
    exact (List.append_nil _).symm

/-- The name is reserved, or an earlier entry asked for it. -/
theorem Requested.refuse (hs : Requested scope reserved entries s)
    (hsome : entry.explicit = some name) (htaken : name ∈ s.taken) :
    Requested scope reserved (entries ++ [entry])
      { s with collisions := s.collisions ++ [.nameCollision name scope entry.span] } := by
  have hknown := (hs.taken name).mp htaken
  have hsound : Sound reserved
      { s with collisions := s.collisions ++ [.nameCollision name scope entry.span] } :=
    ⟨hs.sound.keys, hs.sound.values, hs.sound.unreserved, hs.sound.taken⟩
  refine ⟨hsound, ?_, hs.mem_keys_concat entry, ?_, ?_⟩
  · intro other
    rw [mem_requests_concat hsome, hs.taken]
    constructor
    · tauto
    · rintro (h | h | rfl)
      · exact .inl h
      · exact .inr h
      · exact hknown
  · intro earlier e later name' hsplit hname hreserved hearlier
    rcases concat_eq_append_cons hsplit with ⟨rfl, rfl⟩ | ⟨later', hsplit⟩
    · obtain rfl : name = name' := Option.some.inj (hsome.symm.trans hname)
      exact absurd hknown (not_or.mpr ⟨hreserved, hearlier⟩)
    · exact hs.granted earlier e later' name' hsplit hname hreserved hearlier
  · have hcomplaint : complaint? scope reserved entries entry =
        some (.nameCollision name scope entry.span) := by
      simp only [complaint?, hsome]
      rw [if_pos hknown]
    rw [complaints_concat, hcomplaint, hs.collisions]
    rfl

theorem Requested.grant (hs : Requested scope reserved entries s)
    (hkey : entry.key ∉ entries.map Nameable.key) (hsome : entry.explicit = some name)
    (htaken : name ∉ s.taken) :
    Requested scope reserved (entries ++ [entry]) (s.grant entry.key name) := by
  have hfree : entry.key ∉ s.names.keys := fun hmem => hkey (hs.keys _ hmem)
  have hunknown := not_or.mp (mt (hs.taken name).mpr htaken)
  refine ⟨hs.sound.grant hfree htaken, ?_, ?_, ?_, ?_⟩
  · intro other
    rw [mem_requests_concat hsome, State.grant, List.mem_cons, hs.taken]
    tauto
  · intro key hmem
    rw [State.grant, Table.keys_insert, if_neg hfree, List.mem_append,
      List.mem_singleton] at hmem
    rcases hmem with hold | rfl
    · exact hs.mem_keys_concat entry key hold
    · simp
  · intro earlier e later name' hsplit hname hreserved hearlier
    rw [get?_grant]
    rcases concat_eq_append_cons hsplit with ⟨rfl, rfl⟩ | ⟨later', hsplit⟩
    · rw [if_pos rfl, ← hsome, hname]
    · have hother : entry.key ≠ e.key := by
        intro hsame
        exact hkey (by rw [hsame, hsplit]; simp)
      rw [if_neg hother]
      exact hs.granted earlier e later' name' hsplit hname hreserved hearlier
  · have hcomplaint : complaint? scope reserved entries entry = none := by
      simp only [complaint?, hsome]
      rw [if_neg (not_or.mpr hunknown)]
    rw [complaints_concat, hcomplaint]
    exact hs.collisions.trans (List.append_nil _).symm

theorem Requested.claimExplicit (hs : Requested scope reserved entries s)
    (hkey : entry.key ∉ entries.map Nameable.key) :
    Requested scope reserved (entries ++ [entry]) (claimExplicit scope s entry) := by
  rcases claimExplicit_cases scope s entry with
    ⟨hnone, heq⟩ | ⟨name, hsome, ⟨htaken, heq⟩ | ⟨htaken, heq⟩⟩
  · rw [heq]
    exact hs.skip hnone
  · rw [heq]
    exact hs.refuse hsome htaken
  · rw [heq]
    exact hs.grant hkey hsome htaken

end

theorem requested_foldl (scope : String) (reserved : List String) {entries : List (Nameable κ)}
    (hkeys : (entries.map Nameable.key).Nodup) :
    Requested scope reserved entries
      (entries.foldl (claimExplicit scope) { taken := reserved }) := by
  induction entries using List.reverseRecOn with
  | nil =>
    refine ⟨sound_initial reserved, fun name => by simp [requests], ?_, ?_, rfl⟩
    · intro key hmem
      exact absurd hmem List.not_mem_nil
    · intro earlier entry later name hsplit
      simp at hsplit
  | append_singleton entries entry ih =>
    rw [List.map_append, List.map_singleton] at hkeys
    have hfront := (List.nodup_append.mp hkeys).1
    have hkey : entry.key ∉ entries.map Nameable.key := by
      intro hmem
      exact (List.nodup_append.mp hkeys).2.2 _ hmem _ List.mem_cons_self rfl
    rw [List.foldl_concat]
    exact (ih hfront).claimExplicit hkey

/-! ## What was not granted gets a derived name -/

theorem claimDerived_of_not_mem {s : State κ} {entry : Nameable κ}
    (hkey : entry.key ∉ s.names.keys) :
    claimDerived s entry = s.grant entry.key (derive s.taken (mangle entry.source)) := by
  rw [claimDerived, if_neg (mt (Table.contains_iff _ _).mp hkey)]
  rfl

/-- What deriving names for some entries adds to a state. -/
structure Derived (reserved : List String) (s : State κ) (entries : List (Nameable κ))
    (s' : State κ) : Prop where
  sound : Sound reserved s'
  kept : ∀ key name, s.names.get? key = some name → s'.names.get? key = some name
  keys : ∀ key, key ∈ s'.names.keys ↔ key ∈ s.names.keys ∨ key ∈ entries.map Nameable.key
  collisions : s'.collisions = s.collisions

theorem Derived.claimDerived {reserved : List String} {s s' : State κ}
    {entries : List (Nameable κ)} (h : Derived reserved s entries s') (entry : Nameable κ) :
    Derived reserved s (entries ++ [entry]) (claimDerived s' entry) := by
  have hmem : ∀ key, key ∈ (entries ++ [entry]).map Nameable.key ↔
      key ∈ entries.map Nameable.key ∨ key = entry.key := by
    intro key
    rw [List.map_append, List.mem_append, List.map_singleton, List.mem_singleton]
  by_cases hnamed : s'.names.contains entry.key
  · have hold := (h.keys entry.key).mp ((Table.contains_iff _ _).mp hnamed)
    rw [Scope.claimDerived, if_pos hnamed]
    refine ⟨h.sound, h.kept, fun key => ?_, h.collisions⟩
    rw [h.keys, hmem]
    constructor
    · tauto
    · rintro (hkey | hkey | rfl)
      · exact .inl hkey
      · exact .inr hkey
      · exact hold
  · have hfree : entry.key ∉ s'.names.keys := mt (Table.contains_iff _ _).mpr hnamed
    rw [claimDerived_of_not_mem hfree]
    refine ⟨h.sound.grant hfree (derive_not_mem _ _), ?_, ?_, h.collisions⟩
    · intro key other hget
      have hother : entry.key ≠ key := by
        rintro rfl
        have hcontains : s'.names.contains entry.key = true := by
          rw [Table.contains, h.kept _ _ hget]
          rfl
        exact hnamed hcontains
      rw [get?_grant, if_neg hother]
      exact h.kept key other hget
    · intro key
      rw [State.grant, Table.keys_insert, if_neg hfree, List.mem_append, h.keys, hmem,
        List.mem_singleton]
      tauto

theorem derived_foldl {reserved : List String} {s : State κ} (hs : Sound reserved s)
    (entries : List (Nameable κ)) :
    Derived reserved s entries (entries.foldl claimDerived s) := by
  induction entries using List.reverseRecOn with
  | nil => exact ⟨hs, fun _ _ h => h, fun key => by simp, rfl⟩
  | append_singleton entries entry ih =>
    rw [List.foldl_concat]
    exact ih.claimDerived entry

/-! ## Whole scopes -/

variable (scope : String) (reserved : List String) {entries : List (Nameable κ)}

theorem sound_assign (hkeys : (entries.map Nameable.key).Nodup) :
    Sound reserved (assign scope reserved entries) :=
  (derived_foldl (requested_foldl scope reserved hkeys).sound entries).sound

theorem collisions_assign (hkeys : (entries.map Nameable.key).Nodup) :
    (assign scope reserved entries).collisions = complaints scope reserved entries := by
  have hrequested := requested_foldl scope reserved hkeys
  exact (derived_foldl hrequested.sound entries).collisions.trans hrequested.collisions

theorem naming_assign (hkeys : (entries.map Nameable.key).Nodup) :
    Naming reserved entries (assign scope reserved entries).names.get? := by
  have hrequested := requested_foldl scope reserved hkeys
  have hderived := derived_foldl hrequested.sound entries
  have hsound := sound_assign scope reserved hkeys
  have hentry (key : κ) (name : String) :
      (assign scope reserved entries).names.get? key = some name ↔
        (key, name) ∈ (assign scope reserved entries).names.entries :=
    Table.get?_eq_some_iff hsound.keys key name
  have hdistinct : ∀ key key' name,
      (assign scope reserved entries).names.get? key = some name →
      (assign scope reserved entries).names.get? key' = some name → key = key' := by
    intro key key' name hkey hkey'
    have hpair := List.inj_on_of_nodup_map hsound.values ((hentry key name).mp hkey)
      ((hentry key' name).mp hkey') rfl
    exact congrArg Prod.fst hpair
  have hunreserved : ∀ key name, (assign scope reserved entries).names.get? key = some name →
      name ∉ reserved := by
    intro key name hget
    exact hsound.unreserved name (Table.mem_values_of_get? hget)
  have hgranted {earlier later : List (Nameable κ)} {entry : Nameable κ} {name : String}
      (hsplit : entries = earlier ++ entry :: later) (hname : entry.explicit = some name)
      (hreserved : name ∉ reserved) (hearlier : name ∉ requests earlier) :
      (assign scope reserved entries).names.get? entry.key = some name :=
    hderived.kept _ _
      (hrequested.granted earlier entry later name hsplit hname hreserved hearlier)
  refine ⟨?_, ?_, hdistinct, hunreserved, ?_⟩
  · intro entry hmem
    have hkey := (hderived.keys entry.key).mpr (.inr (List.mem_map_of_mem hmem))
    exact Option.isSome_iff_exists.mp ((Table.contains_iff _ _).mpr hkey)
  · intro key hkey
    refine (Table.lookupIn_eq_none key _).mpr fun hmem => ?_
    rcases (hderived.keys key).mp hmem with hold | hnew
    · exact hkey (hrequested.keys key hold)
    · exact hkey hnew
  · intro earlier entry later name hsplit hname
    refine ⟨fun hget => ⟨hunreserved _ _ hget, fun hearlier => ?_⟩, fun hfree =>
      hgranted hsplit hname hfree.1 hfree.2⟩
    -- The first entry that asked for the name has it, and that is another entry.
    obtain ⟨before, first, between, rfl, hfirst, hnone⟩ := exists_first_request hearlier
    have hfirstSplit : entries = before ++ first :: (between ++ entry :: later) := by
      rw [hsplit, List.append_assoc, List.cons_append]
    have hsame := hdistinct _ _ _ (hgranted hfirstSplit hfirst (hunreserved _ _ hget) hnone) hget
    rw [hsplit, List.map_append, List.map_cons] at hkeys
    refine (List.nodup_append.mp hkeys).2.2 first.key ?_ entry.key List.mem_cons_self hsame
    simp

end Scope

/-! ## Members -/

/-- Whether a member stays in the output: what replaces its calls does not, nor does an
initializer. -/
def Member.needsName : Member → Bool
  | .method _ r | .constructor _ r => !r.kind.isInline
  | .field _ => true
  | .initializer _ => false

theorem Member.isSome_nameable? (member : Member) : member.nameable?.isSome = member.needsName := by
  cases member with
  | method _ r | constructor _ r => cases h : r.kind.isInline <;> simp [nameable?, needsName, h]
  | field f => rfl
  | initializer statements => rfl

theorem Member.key_of_nameable? {member : Member} {entry : Nameable MemberKey}
    (h : member.nameable? = some entry) : entry.key = member.key := by
  cases member with
  | method _ r | constructor _ r =>
    cases hinline : r.kind.isInline with
    | true => simp [nameable?, hinline] at h
    | false =>
      simp only [nameable?, hinline] at h
      obtain rfl := Option.some.inj h
      rfl
  | field f =>
    obtain rfl := Option.some.inj h
    rfl
  | initializer statements => cases h

theorem sublist_keys_nameables (members : List Member) :
    ((members.filterMap Member.nameable?).map Nameable.key).Sublist (members.map Member.key) := by
  induction members with
  | nil => exact .slnil
  | cons member members ih =>
    cases h : member.nameable? with
    | none =>
      rw [List.filterMap_cons_none h]
      exact ih.cons _
    | some entry =>
      rw [List.filterMap_cons_some h, List.map_cons, List.map_cons, Member.key_of_nameable? h]
      exact ih.cons_cons _

namespace ClassRecord

variable {c : ClassRecord} (hkeys : c.keys.Nodup)

include hkeys

theorem nodup_keys_nameables : (c.nameables.map Nameable.key).Nodup :=
  hkeys.sublist (sublist_keys_nameables c.members)

theorem key_mem_nameables_iff {member : Member} (hmember : member ∈ c.members) :
    member.key ∈ c.nameables.map Nameable.key ↔ member.needsName = true := by
  rw [← Member.isSome_nameable?, Option.isSome_iff_exists]
  constructor
  · intro hmem
    obtain ⟨entry, hentry, hkey⟩ := List.mem_map.mp hmem
    obtain ⟨other, hother, hnameable⟩ := List.mem_filterMap.mp hentry
    rw [Member.key_of_nameable? hnameable] at hkey
    obtain rfl := List.inj_on_of_nodup_map hkeys hother hmember hkey
    exact ⟨entry, hnameable⟩
  · rintro ⟨entry, hnameable⟩
    rw [← Member.key_of_nameable? hnameable]
    exact List.mem_map_of_mem (List.mem_filterMap.mpr ⟨member, hmember, hnameable⟩)

end ClassRecord

theorem InterfaceRecord.keys_nameables (i : InterfaceRecord) :
    i.nameables.map Nameable.key =
      i.methods.map fun method => MemberKey.method method.signature := by
  rw [nameables, List.map_map]
  rfl

theorem InterfaceRecord.nodup_keys_nameables {i : InterfaceRecord}
    (hmethods : (i.methods.map InterfaceMethod.signature).Nodup) :
    (i.nameables.map Nameable.key).Nodup := by
  have hkeys : i.nameables.map Nameable.key =
      (i.methods.map InterfaceMethod.signature).map MemberKey.method := by
    rw [keys_nameables, List.map_map]
    rfl
  rw [hkeys]
  exact hmethods.map fun _ _ => MemberKey.method.inj

/-! ## Builds -/

namespace Build

variable {b : Build}

theorem WellKeyed.ids_classes (hb : b.WellKeyed) :
    b.classes.values.map ClassRecord.id = b.classes.keys := by
  rw [Table.values, List.map_map]
  exact List.map_congr_left fun entry hentry => (hb.classes entry hentry).symm

theorem WellKeyed.ids_interfaces (hb : b.WellKeyed) :
    b.interfaces.values.map InterfaceRecord.id = b.interfaces.keys := by
  rw [Table.values, List.map_map]
  exact List.map_congr_left fun entry hentry => (hb.interfaces entry hentry).symm

theorem WellKeyed.nodup_nameables (hb : b.WellKeyed) : (b.nameables.map Nameable.key).Nodup := by
  have hkeys : b.nameables.map Nameable.key = b.classes.keys ++ b.interfaces.keys := by
    rw [nameables, List.map_append, List.map_map, List.map_map, ← hb.ids_classes,
      ← hb.ids_interfaces]
    rfl
  rw [hkeys]
  exact hb.nodup_types

theorem WellKeyed.nodup_memberScopes (hb : b.WellKeyed) :
    (b.memberScopes.map Prod.fst).Nodup := by
  have hids : b.memberScopes.map Prod.fst = b.classes.keys ++ b.interfaces.keys := by
    rw [memberScopes, List.map_append, List.map_map, List.map_map, ← hb.ids_classes,
      ← hb.ids_interfaces]
    rfl
  rw [hids]
  exact hb.nodup_types

/-- The names of the members of all types. -/
def namedMembers (b : Build) : List ((Identity × MemberKey) × String) :=
  b.memberScopes.flatMap fun (id, typeName, entries) =>
    (memberNames typeName entries).names.entries.map fun (key, name) => ((id, key), name)

/-- What is reported when names are assigned. -/
def nameComplaints (b : Build) : List CompileError :=
  Scope.complaints "assembly" b.prior.outputNames b.nameables ++
    b.memberScopes.flatMap fun (_, typeName, entries) =>
      Scope.complaints s!"type '{typeName}'" [] entries

theorem nodup_memberNames (typeName : String) {entries : List (Nameable MemberKey)}
    (hkeys : (entries.map Nameable.key).Nodup) : (memberNames typeName entries).names.keys.Nodup :=
  (Scope.sound_assign s!"type '{typeName}'" [] hkeys).keys

theorem report_foldl_error (errors : List CompileError) (b : Build) :
    (errors.foldl error b).report.items =
      b.report.items ++ errors.map (Diagnostic.ofError · b.file) := by
  induction errors generalizing b with
  | nil => simp
  | cons e errors ih =>
    rw [List.foldl_cons, ih, List.map_cons]
    simp [error, Report.push]

section

variable (hnew : b.isResolved = false)

include hnew

theorem names_resolve :
    b.resolve.names = some {
      types := b.typeNames.names
      members := ({} : Table _ _).insertAll b.namedMembers } := by
  rw [resolve, if_neg (by simp [hnew]), namedMembers]
  simp only [List.flatMap_map]

theorem outputName?_resolve (id : Identity) :
    b.resolve.outputName? id = b.typeNames.names.get? id := by
  rw [outputName?, names_resolve hnew]
  rfl

theorem naming_types (hb : b.WellKeyed) :
    Scope.Naming b.prior.outputNames b.nameables b.resolve.outputName? := by
  have hnaming := Scope.naming_assign "assembly" b.prior.outputNames hb.nodup_nameables
  rw [funext (outputName?_resolve hnew)]
  exact hnaming

end

variable (hnew : b.isResolved = false) (hb : b.WellKeyed)
  (hscopes : ∀ scope ∈ b.memberScopes, (scope.2.2.map Nameable.key).Nodup)

include hb hscopes

theorem nodup_namedMembers : (b.namedMembers.map Prod.fst).Nodup := by
  have hkeys : b.namedMembers.map Prod.fst =
      b.memberScopes.flatMap fun scope =>
        (memberNames scope.2.1 scope.2.2).names.keys.map (Prod.mk scope.1) := by
    rw [namedMembers, List.map_flatMap]
    refine List.flatMap_congr fun scope _ => ?_
    rw [List.map_map, Table.keys, List.map_map]
    rfl
  rw [hkeys]
  refine List.nodup_flatMap.mpr ⟨fun scope hscope => ?_, ?_⟩
  · have hnames := nodup_memberNames scope.2.1 (hscopes scope hscope)
    exact hnames.map (Prod.mk_right_injective scope.1)
  · refine (List.pairwise_map.mp hb.nodup_memberScopes).imp ?_
    intro scope scope' hne pair hpair hpair'
    obtain ⟨key, -, rfl⟩ := List.mem_map.mp hpair
    obtain ⟨key', -, heq⟩ := List.mem_map.mp hpair'
    exact hne (congrArg Prod.fst heq).symm

theorem mem_namedMembers_iff {id : Identity} {typeName : String}
    {entries : List (Nameable MemberKey)} (hscope : (id, typeName, entries) ∈ b.memberScopes)
    (key : MemberKey) (name : String) :
    ((id, key), name) ∈ b.namedMembers ↔
      (memberNames typeName entries).names.get? key = some name := by
  have hnames := nodup_memberNames typeName (hscopes _ hscope)
  rw [Table.get?_eq_some_iff hnames, namedMembers, List.mem_flatMap]
  constructor
  · rintro ⟨scope, hmem, hpair⟩
    obtain ⟨⟨key', name'⟩, hentry, heq⟩ := List.mem_map.mp hpair
    obtain ⟨⟨hid, rfl⟩, rfl⟩ := (Prod.mk.injEq ..).mp heq |>.imp_left (Prod.mk.injEq ..).mp
    obtain rfl := List.inj_on_of_nodup_map hb.nodup_memberScopes hmem hscope hid
    exact hentry
  · intro hentry
    exact ⟨_, hscope, List.mem_map.mpr ⟨(key, name), hentry, rfl⟩⟩

include hnew

theorem naming_members {id : Identity} {typeName : String} {entries : List (Nameable MemberKey)}
    (hscope : (id, typeName, entries) ∈ b.memberScopes) :
    Scope.Naming [] entries (b.resolve.memberName? id) := by
  let table : Table (Identity × MemberKey) String := ⟨b.namedMembers⟩
  have hnodup : table.keys.Nodup := nodup_namedMembers hb hscopes
  have htable : ({} : Table (Identity × MemberKey) String).insertAll b.namedMembers = table :=
    Table.insertAll_of_nodup hnodup
  have hname : b.resolve.memberName? id = (memberNames typeName entries).names.get? := by
    funext key
    refine Option.ext fun name => ?_
    rw [memberName?, names_resolve hnew, Option.bind_some, htable,
      Table.get?_eq_some_iff hnodup]
    exact mem_namedMembers_iff hb hscopes hscope key name
  rw [hname]
  exact Scope.naming_assign s!"type '{typeName}'" [] (hscopes _ hscope)

theorem report_resolve :
    b.resolve.report.items =
      b.report.items ++ b.nameComplaints.map (Diagnostic.ofError · b.file) := by
  have htypes := Scope.collisions_assign "assembly" b.prior.outputNames hb.nodup_nameables
  have hmembers :
      (b.memberScopes.flatMap fun scope => (memberNames scope.2.1 scope.2.2).collisions) =
        b.memberScopes.flatMap fun scope =>
          Scope.complaints s!"type '{scope.2.1}'" [] scope.2.2 :=
    List.flatMap_congr fun scope hscope => Scope.collisions_assign _ [] (hscopes scope hscope)
  rw [resolve, if_neg (by simp [hnew])]
  dsimp only
  rw [report_foldl_error, List.flatMap_map]
  exact congrArg (fun errors => b.report.items ++ errors.map (Diagnostic.ofError · b.file))
    (congrArg₂ (· ++ ·) htypes hmembers)

end Build

/--
A build gets names only once.  Then every class and interface has an output name,
different types have different ones, and none is taken by an earlier assembly.  In
each class the fields and the methods and constructors that stay in the output have
names, different members different ones, and the other members have none; likewise
for the methods of interfaces.  In every scope a request is granted unless its name
is reserved or an earlier entry of the scope asks for it, and each refusal is
reported once, in order, and nothing else is.
-/
theorem output_names_unique_and_requests_granted (b : Build) (hb : b.WellKeyed)
    (hnew : b.isResolved = false) (hmembers : ∀ c ∈ b.classes.values, c.keys.Nodup)
    (hmethods : ∀ i ∈ b.interfaces.values, (i.methods.map InterfaceMethod.signature).Nodup) :
    Scope.Naming b.prior.outputNames b.nameables b.resolve.outputName? ∧
      (∀ c ∈ b.classes.values, (b.resolve.outputName? c.id).isSome ∧
        Scope.Naming [] c.nameables (b.resolve.memberName? c.id) ∧
        ∀ member ∈ c.members,
          (b.resolve.memberName? c.id member.key).isSome = member.needsName) ∧
      (∀ i ∈ b.interfaces.values, (b.resolve.outputName? i.id).isSome ∧
        Scope.Naming [] i.nameables (b.resolve.memberName? i.id) ∧
        ∀ method ∈ i.methods, (b.resolve.memberName? i.id (.method method.signature)).isSome) ∧
      b.resolve.report.items =
        b.report.items ++ b.nameComplaints.map (Diagnostic.ofError · b.file) := by
  have hscopes : ∀ scope ∈ b.memberScopes, (scope.2.2.map Nameable.key).Nodup := by
    intro scope hscope
    rcases List.mem_append.mp hscope with hclass | hinterface
    · obtain ⟨c, hc, rfl⟩ := List.mem_map.mp hclass
      exact ClassRecord.nodup_keys_nameables (hmembers c hc)
    · obtain ⟨i, hi, rfl⟩ := List.mem_map.mp hinterface
      exact InterfaceRecord.nodup_keys_nameables (hmethods i hi)
  have htypes := Build.naming_types hnew hb
  refine ⟨htypes, fun c hc => ?_, fun i hi => ?_, Build.report_resolve hnew hb hscopes⟩
  · have hscope : (c.id, c.name, c.nameables) ∈ b.memberScopes :=
      List.mem_append_left _ (List.mem_map.mpr ⟨c, hc, rfl⟩)
    have hentry : (⟨c.id, c.name, c.strongName, c.span⟩ : Nameable Identity) ∈ b.nameables :=
      List.mem_append_left _ (List.mem_map.mpr ⟨c, hc, rfl⟩)
    have hnaming := Build.naming_members hnew hb hscopes hscope
    refine ⟨Option.isSome_iff_exists.mpr (htypes.named _ hentry), hnaming, ?_⟩
    intro member hmember
    have hkey := ClassRecord.key_mem_nameables_iff (hmembers c hc) hmember
    cases hneeds : member.needsName with
    | true =>
      obtain ⟨entry, hentry, hsame⟩ := List.mem_map.mp (hkey.mpr hneeds)
      exact Option.isSome_iff_exists.mpr (hsame ▸ hnaming.named entry hentry)
    | false =>
      have hnone := hnaming.onlyEntries member.key (by rw [hkey, hneeds]; simp)
      rw [hnone]
      rfl
  · have hscope : (i.id, i.name, i.nameables) ∈ b.memberScopes :=
      List.mem_append_right _ (List.mem_map.mpr ⟨i, hi, rfl⟩)
    have hentry : (⟨i.id, i.name, i.strongName, i.span⟩ : Nameable Identity) ∈ b.nameables :=
      List.mem_append_right _ (List.mem_map.mpr ⟨i, hi, rfl⟩)
    have hnaming := Build.naming_members hnew hb hscopes hscope
    refine ⟨Option.isSome_iff_exists.mpr (htypes.named _ hentry), hnaming, ?_⟩
    intro method hmethod
    have hentry' : (⟨.method method.signature, method.signature.name, method.name, i.span⟩ :
        Nameable MemberKey) ∈ i.nameables := List.mem_map.mpr ⟨method, hmethod, rfl⟩
    exact Option.isSome_iff_exists.mpr (hnaming.named _ hentry')

/-! ## A crowded assembly -/

/-- An earlier assembly with a type that is called `Shop.Cart` in the output. -/
def crowdedPrior : Snapshot where
  assemblies := ["Base"]
  classes := ⟨[(.ofName "Base.Cart", ⟨"Base.Cart", "Shop.Cart", "Base"⟩)]⟩

/-- A compiled method with a wish for a name, if any. -/
def crowdedMethod (name : String) (params : List Param) (attributes : List Attribute) :
    MemberDecl :=
  { MemberDecl.method name params Ty.int32 with attributes, body := some (.int 1) }

/--
Names are asked for twice among types and among members, one of an earlier assembly
is asked for, and one that a derived name would have been is asked for.
-/
def crowdedAssembly : Assembly where
  name := "Shop"
  files := [{
    path := "shop"
    types := [
      { head := {
          name := "Shop.Cart", form := .ordinary, attributes := [.javaScript true]
          members := [
            crowdedMethod "Add" [] [],
            crowdedMethod "Add" [⟨"item", Ty.int32⟩] [],
            crowdedMethod "Put" [] [.name "Add"],
            crowdedMethod "Push" [] [.name "Add"],
            crowdedMethod "Peek" [] [.inline none]]
          bindings := [{ name := "limit", type := Ty.int32, value := .int 9 }] }
        nested := [] },
      { head := { name := "Shop.Basket", form := .ordinary, attributes := [.name "Shop.Cart"] }
        nested := [] },
      { head := { name := "Shop.Bag", form := .ordinary, attributes := [.name "Box"] }
        nested := [] },
      { head := {
          name := "Shop.Crate", form := .interface, attributes := [.name "Box"]
          members := [crowdedMethod "Open" [] [], crowdedMethod "Lift" [] [.name "Open"]] }
        nested := [] }] }]

/-- The build of the crowded assembly before names are assigned. -/
def crowdedBuild : Build := ((Build.new crowdedPrior {}).compileFiles crowdedAssembly).1

theorem crowdedBuild_three_requests_refused :
    crowdedBuild.WellKeyed ∧ crowdedBuild.isResolved = false ∧
      (∀ c ∈ crowdedBuild.classes.values, c.keys.Nodup) ∧
      (∀ i ∈ crowdedBuild.interfaces.values,
        (i.methods.map InterfaceMethod.signature).Nodup) ∧
      crowdedBuild.resolve.report.errorCount = 3 ∧
      crowdedBuild.resolve.outputName? (.ofName "Shop.Bag") = some "Box" ∧
      crowdedBuild.resolve.outputName? (.ofName "Shop.Crate") ≠ some "Box" := by
  have hb : crowdedBuild.WellKeyed :=
    (Build.steps_compileFiles _ crowdedAssembly).wellKeyed (Build.wellKeyed_new crowdedPrior {})
  have hnew : crowdedBuild.isResolved = false := by decide +kernel
  have hmembers : ∀ c ∈ crowdedBuild.classes.values, c.keys.Nodup := by decide +kernel
  have hmethods : ∀ i ∈ crowdedBuild.interfaces.values,
      (i.methods.map InterfaceMethod.signature).Nodup := by decide +kernel
  obtain ⟨htypes, -, -, hreport⟩ :=
    output_names_unique_and_requests_granted crowdedBuild hb hnew hmembers hmethods
  have hbag : crowdedBuild.resolve.outputName? (.ofName "Shop.Bag") = some "Box" :=
    (htypes.granted (crowdedBuild.nameables.take 2) ⟨.ofName "Shop.Bag", "Shop.Bag", "Box", {}⟩
      (crowdedBuild.nameables.drop 3) "Box" (by rfl) rfl).mpr (by decide +kernel)
  refine ⟨hb, hnew, hmembers, hmethods, ?_, hbag, fun hcrate => ?_⟩
  · rw [Report.errorCount, Report.errors, hreport]
    decide +kernel
  · exact absurd (htypes.distinct _ _ _ hbag hcrate) (by decide +kernel)

example : crowdedBuild.resolve.memberName? (.ofName "Shop.Cart")
    (.method ⟨"Push", [], Ty.int32, 0⟩) = some "Push" := by decide +kernel

end Memberwise
