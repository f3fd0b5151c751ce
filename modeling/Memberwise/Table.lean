/-!
# Insertion-ordered tables

A table is a list of key-value pairs, read from the front. Inserting under a
known key replaces the value in place, so the keys keep the order in which they
were first inserted. A table written out pair by pair may repeat a key; then
the first pair is the one that is read.
-/

namespace Memberwise

/-- A finite map that remembers the order of its keys. -/
structure Table (κ α : Type) where
  entries : List (κ × α) := []

namespace Table

variable {κ α : Type}

/-- The table without entries. -/
def empty : Table κ α := ⟨[]⟩

instance : Inhabited (Table κ α) := ⟨empty⟩

/-- The keys, in order. -/
def keys (t : Table κ α) : List κ := t.entries.map Prod.fst

/-- The values, in order. -/
def values (t : Table κ α) : List α := t.entries.map Prod.snd

/-- The number of entries. -/
def size (t : Table κ α) : Nat := t.entries.length

variable [DecidableEq κ]

/-- The value of the first pair under `k` in a list of pairs. -/
def lookupIn (k : κ) : List (κ × α) → Option α
  | [] => none
  | (k', a) :: rest => if k' = k then some a else lookupIn k rest

/-- Replaces the value of the first pair under `k`, or appends a pair. -/
def insertIn (k : κ) (a : α) : List (κ × α) → List (κ × α)
  | [] => [(k, a)]
  | (k', a') :: rest =>
    if k' = k then (k', a) :: rest else (k', a') :: insertIn k a rest

/-- The value under a key. -/
def get? (t : Table κ α) (k : κ) : Option α := lookupIn k t.entries

/-- Whether a key has a value. -/
def contains (t : Table κ α) (k : κ) : Bool := (t.get? k).isSome

/-- The table with `a` under `k`. -/
def insert (t : Table κ α) (k : κ) (a : α) : Table κ α := ⟨insertIn k a t.entries⟩

/-- The table without any entry under `k`. -/
def erase (t : Table κ α) (k : κ) : Table κ α :=
  ⟨t.entries.filter fun entry => entry.1 ≠ k⟩

/-- Inserts the pairs one after the other. -/
def insertAll (t : Table κ α) (pairs : List (κ × α)) : Table κ α :=
  pairs.foldl (fun t pair => t.insert pair.1 pair.2) t

theorem lookupIn_insertIn (k k' : κ) (a : α) (l : List (κ × α)) :
    lookupIn k' (insertIn k a l) = if k = k' then some a else lookupIn k' l := by
  induction l with
  | nil => simp [insertIn, lookupIn]
  | cons entry rest ih =>
    obtain ⟨key, value⟩ := entry
    by_cases hk : key = k
    · subst hk
      by_cases hk' : key = k' <;> simp [insertIn, lookupIn, hk']
    · by_cases hk' : key = k'
      · subst hk'
        simp [insertIn, lookupIn, hk, Ne.symm hk]
      · simp [insertIn, lookupIn, hk, hk', ih]

/-- Reading after an insertion. -/
theorem get?_insert (t : Table κ α) (k k' : κ) (a : α) :
    (t.insert k a).get? k' = if k = k' then some a else t.get? k' :=
  lookupIn_insertIn k k' a t.entries

theorem lookupIn_filter_ne (k k' : κ) (l : List (κ × α)) :
    lookupIn k' (l.filter fun entry => entry.1 ≠ k) =
      if k = k' then none else lookupIn k' l := by
  induction l with
  | nil => simp [lookupIn]
  | cons entry rest ih =>
    obtain ⟨key, value⟩ := entry
    by_cases hk : key = k
    · subst hk
      by_cases hk' : key = k' <;> simp_all [lookupIn]
    · by_cases hk' : key = k'
      · subst hk'
        simp [lookupIn, hk, Ne.symm hk]
      · simp_all [lookupIn]

/-- Reading after an erasure. -/
theorem get?_erase (t : Table κ α) (k k' : κ) :
    (t.erase k).get? k' = if k = k' then none else t.get? k' :=
  lookupIn_filter_ne k k' t.entries

theorem isSome_lookupIn (k : κ) (l : List (κ × α)) :
    (lookupIn k l).isSome = true ↔ k ∈ l.map Prod.fst := by
  induction l with
  | nil => simp [lookupIn]
  | cons entry rest ih =>
    obtain ⟨key, value⟩ := entry
    by_cases hk : key = k
    · simp [lookupIn, hk]
    · simp [lookupIn, hk, ih, Ne.symm hk]

/-- A key has a value exactly when it is listed. -/
theorem contains_iff (t : Table κ α) (k : κ) : t.contains k = true ↔ k ∈ t.keys :=
  isSome_lookupIn k t.entries

theorem lookupIn_eq_none (k : κ) (l : List (κ × α)) :
    lookupIn k l = none ↔ k ∉ l.map Prod.fst := by
  rw [← isSome_lookupIn k l, Option.not_isSome_iff_eq_none]

theorem lookupIn_append (k : κ) (l l' : List (κ × α)) :
    lookupIn k (l ++ l') = (lookupIn k l).or (lookupIn k l') := by
  induction l with
  | nil => simp [lookupIn]
  | cons entry rest ih =>
    obtain ⟨key, value⟩ := entry
    by_cases hk : key = k <;> simp [lookupIn, hk, ih]

/-- Where no key is repeated, reading finds exactly the pairs of the list. -/
theorem lookupIn_eq_some_iff {l : List (κ × α)} (hl : (l.map Prod.fst).Nodup) (k : κ) (a : α) :
    lookupIn k l = some a ↔ (k, a) ∈ l := by
  induction l with
  | nil => simp [lookupIn]
  | cons entry rest ih =>
    obtain ⟨key, value⟩ := entry
    obtain ⟨hkey, hrest⟩ := List.nodup_cons.mp hl
    by_cases hk : key = k
    · subst hk
      have habsent : (key, a) ∉ rest := fun hmem => hkey (List.mem_map.mpr ⟨_, hmem, rfl⟩)
      simp [lookupIn, habsent, eq_comm]
    · simp [lookupIn, hk, ih hrest, Ne.symm hk]

theorem mem_of_lookupIn {k : κ} {a : α} {l : List (κ × α)} (h : lookupIn k l = some a) :
    (k, a) ∈ l := by
  induction l with
  | nil => cases h
  | cons entry rest ih =>
    obtain ⟨key, value⟩ := entry
    by_cases hk : key = k
    · rw [lookupIn, if_pos hk] at h
      rw [hk, Option.some.inj h]
      exact List.mem_cons_self
    · rw [lookupIn, if_neg hk] at h
      exact List.mem_cons_of_mem _ (ih h)

/-- What is read is a value of the table. -/
theorem mem_values_of_get? {t : Table κ α} {k : κ} {a : α} (h : t.get? k = some a) :
    a ∈ t.values :=
  List.mem_map.mpr ⟨(k, a), mem_of_lookupIn h, rfl⟩

theorem insertIn_of_not_mem {k : κ} {l : List (κ × α)}
    (hk : k ∉ l.map Prod.fst) (a : α) : insertIn k a l = l ++ [(k, a)] := by
  induction l with
  | nil => rfl
  | cons entry rest ih =>
    obtain ⟨key, value⟩ := entry
    rw [List.map_cons, List.mem_cons, not_or] at hk
    rw [insertIn, if_neg (Ne.symm hk.1), ih hk.2, List.cons_append]

theorem mem_insertIn {k : κ} {a : α} {l : List (κ × α)} {entry : κ × α}
    (h : entry ∈ insertIn k a l) : entry = (k, a) ∨ entry ∈ l := by
  induction l with
  | nil => exact .inl (List.mem_singleton.mp h)
  | cons first rest ih =>
    obtain ⟨key, value⟩ := first
    by_cases hk : key = k
    · subst hk
      rw [insertIn, if_pos rfl] at h
      rcases List.mem_cons.mp h with h | h
      · exact .inl h
      · exact .inr (List.mem_cons_of_mem _ h)
    · rw [insertIn, if_neg hk] at h
      rcases List.mem_cons.mp h with rfl | h
      · exact .inr List.mem_cons_self
      · exact (ih h).imp_right (List.mem_cons_of_mem _)

theorem map_fst_insertIn (k : κ) (a : α) (l : List (κ × α)) :
    (insertIn k a l).map Prod.fst =
      if k ∈ l.map Prod.fst then l.map Prod.fst else l.map Prod.fst ++ [k] := by
  induction l with
  | nil => simp [insertIn]
  | cons entry rest ih =>
    obtain ⟨key, value⟩ := entry
    by_cases hk : key = k
    · subst hk
      simp [insertIn]
    · have hne : ¬ k = key := fun h => hk h.symm
      simp only [insertIn, hk, if_false, List.map_cons, ih, List.mem_cons, hne, false_or]
      split <;> simp

/-- Inserting keeps the order of the keys and appends a new one at the end. -/
theorem keys_insert (t : Table κ α) (k : κ) (a : α) :
    (t.insert k a).keys = if k ∈ t.keys then t.keys else t.keys ++ [k] :=
  map_fst_insertIn k a t.entries

omit [DecidableEq κ] in
theorem nodup_keys_append {t : Table κ α} {k : κ} (hnodup : t.keys.Nodup)
    (hk : k ∉ t.keys) (a : α) : (⟨t.entries ++ [(k, a)]⟩ : Table κ α).keys.Nodup := by
  unfold keys at hnodup hk ⊢
  rw [List.map_append]
  refine List.nodup_append.mpr ⟨hnodup, by simp, ?_⟩
  intro k' hk' k'' hk'' heq
  obtain rfl : k'' = k := by simpa using hk''
  exact hk (heq ▸ hk')

/-- What is read stays when entries are appended. -/
theorem get?_of_prefix {t t' : Table κ α} (h : t.entries <+: t'.entries) {k : κ} {a : α}
    (hget : t.get? k = some a) : t'.get? k = some a := by
  obtain ⟨added, happend⟩ := h
  unfold get? at hget ⊢
  rw [← happend, lookupIn_append, hget]
  rfl

/-- Where no key is repeated, reading finds exactly the entries. -/
theorem get?_eq_some_iff {t : Table κ α} (hnodup : t.keys.Nodup) (k : κ) (a : α) :
    t.get? k = some a ↔ (k, a) ∈ t.entries :=
  lookupIn_eq_some_iff hnodup k a

theorem insert_of_not_mem {t : Table κ α} {k : κ} (hk : k ∉ t.keys) (a : α) :
    t.insert k a = ⟨t.entries ++ [(k, a)]⟩ :=
  congrArg Table.mk (insertIn_of_not_mem hk a)

/-- Pairs under new and different keys are appended in order. -/
theorem insertAll_of_nodup {t : Table κ α} {pairs : List (κ × α)}
    (hnodup : (t.keys ++ pairs.map Prod.fst).Nodup) :
    t.insertAll pairs = ⟨t.entries ++ pairs⟩ := by
  induction pairs generalizing t with
  | nil => simp [insertAll]
  | cons pair pairs ih =>
    obtain ⟨k, a⟩ := pair
    have hk : k ∉ t.keys := by
      intro hmem
      exact (List.nodup_append.mp hnodup).2.2 k hmem k List.mem_cons_self rfl
    have hrest : ((t.insert k a).keys ++ pairs.map Prod.fst).Nodup := by
      rw [keys_insert, if_neg hk, List.append_assoc]
      exact hnodup
    have hstep : t.insertAll ((k, a) :: pairs) = (t.insert k a).insertAll pairs := rfl
    rw [hstep, ih hrest, insert_of_not_mem hk, List.append_assoc]
    rfl

end Table

end Memberwise
