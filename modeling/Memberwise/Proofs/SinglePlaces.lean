import Mathlib
import Memberwise.Proofs.RemoteHandles

/-!
# Identities of what differs in one place

An identity is made of others by a chain of wrapping multiplications and additions.  Different
things may well get one identity, but not things that differ in a single place: the multiplier is
odd, so that each step of the chain can be undone, and a part enters by an addition and an exclusive
or, which can be undone too.  A change in one part is thus carried to the end of the chain, however
many parts follow, and from there through all the types around and to the members with a parameter
of such a type.
-/

namespace Memberwise

/-! ## Lists that differ at one position -/

/-- Two lists of one length that differ at one position and nowhere else. -/
def DifferOnce {α : Type} (l l' : List α) : Prop :=
  l.length = l'.length ∧ ∃ i : Nat, ∀ j : Nat, l[j]? ≠ l'[j]? ↔ j = i

theorem differOnce_iff {α : Type} {l l' : List α} :
    DifferOnce l l' ↔
      ∃ before a b after, a ≠ b ∧ l = before ++ a :: after ∧ l' = before ++ b :: after := by
  constructor
  · rintro ⟨hlength, i, hi⟩
    have hlt : i < l.length := by
      by_contra hge
      refine (hi i).mpr rfl ?_
      rw [List.getElem?_eq_none (by omega), List.getElem?_eq_none (by omega)]
    have hlt' : i < l'.length := hlength ▸ hlt
    have helse (j : Nat) (hj : j ≠ i) : l[j]? = l'[j]? :=
      not_ne_iff.mp (mt (hi j).mp hj)
    have htake : l.take i = l'.take i := by
      refine List.ext_getElem? fun j => ?_
      rw [List.getElem?_take, List.getElem?_take]
      split_ifs with hj
      · exact helse j (by omega)
      · rfl
    have hdrop : l.drop (i + 1) = l'.drop (i + 1) := by
      refine List.ext_getElem? fun j => ?_
      rw [List.getElem?_drop, List.getElem?_drop]
      exact helse _ (by omega)
    refine ⟨l.take i, l[i], l'[i], l.drop (i + 1), ?_, ?_, ?_⟩
    · have hne := (hi i).mpr rfl
      rwa [List.getElem?_eq_getElem hlt, List.getElem?_eq_getElem hlt', ne_eq,
        Option.some.injEq] at hne
    · rw [← List.drop_eq_getElem_cons hlt, List.take_append_drop]
    · rw [htake, hdrop, ← List.drop_eq_getElem_cons hlt', List.take_append_drop]
  · rintro ⟨before, a, b, after, hne, rfl, rfl⟩
    refine ⟨by simp, before.length, fun j => ?_⟩
    rcases lt_trichotomy j before.length with hj | rfl | hj
    · simp [List.getElem?_append_left hj, hj.ne]
    · simp [hne]
    · obtain ⟨k, rfl⟩ := Nat.exists_eq_add_of_lt hj
      have hk : before.length + k + 1 - before.length = k + 1 := by omega
      rw [List.getElem?_append_right (by omega), List.getElem?_append_right (by omega), hk]
      simp [hj.ne']

namespace Identity

/-! ## Mixing -/

/-- The separator is odd, so that a multiplication by it is undone by another one. -/
theorem mul_separator_inj {x y : UInt64} : x * separator = y * separator ↔ x = y := by
  have hinverse : separator * 0xd3f20f0a40208825 = 1 := by decide
  constructor
  · intro h
    have hundone := congrArg (· * 0xd3f20f0a40208825) h
    simpa only [UInt64.mul_assoc, hinverse, UInt64.mul_one] using hundone
  · exact congrArg (· * separator)

section Mix

variable (position : Nat) (s s' : UInt64)

/-- The state before some parts can be told from the state after them. -/
theorem mixFrom_inj (parts : List Identity) :
    mixFrom position s parts = mixFrom position s' parts ↔ s = s' := by
  induction parts generalizing position s s' with
  | nil => rfl
  | cons part parts ih => rw [mixFrom, mixFrom, ih, UInt64.add_left_inj, mul_separator_inj]

theorem mixFrom_append (parts parts' : List Identity) :
    mixFrom position s (parts ++ parts') =
      mixFrom (position + parts.length) (mixFrom position s parts) parts' := by
  induction parts generalizing position s with
  | nil => rfl
  | cons part parts ih =>
    rw [List.cons_append, mixFrom, ih, mixFrom, List.length_cons, Nat.add_right_comm, Nat.add_assoc]

/-- A part can be told from the state that it leads to. -/
theorem mixFrom_part_inj (before after : List Identity) {a b : Identity} :
    mixFrom position s (before ++ a :: after) = mixFrom position s (before ++ b :: after) ↔
      a = b := by
  rw [mixFrom_append, mixFrom_append, mixFrom, mixFrom, mixFrom_inj, UInt64.add_right_inj,
    UInt64.xor_right_inj]
  exact ⟨fun h => congrArg Identity.mk h, congrArg bits⟩

end Mix

section Parts

variable {parts parts' : List Identity} (h : DifferOnce parts parts')

include h

theorem mix_ne_of_differOnce (s : UInt64) : mix s parts ≠ mix s parts' := by
  obtain ⟨before, a, b, after, hne, rfl, rfl⟩ := differOnce_iff.mp h
  exact mt (mixFrom_part_inj 0 s before after).mp hne

theorem ofMember_ne_of_differOnce (owner : Identity) (name : String) (arity : Nat) :
    ofMember owner name parts arity ≠ ofMember owner name parts' arity := fun heq =>
  mix_ne_of_differOnce h _ (congrArg bits heq)

theorem ofInstance_ne_of_differOnce (definition : Identity) :
    ofInstance definition parts ≠ ofInstance definition parts' := by
  have hparts : parts.isEmpty = false ∧ parts'.isEmpty = false := by
    obtain ⟨before, a, b, after, -, rfl, rfl⟩ := differOnce_iff.mp h
    simp
  intro heq
  simp only [ofInstance, hparts, Bool.false_eq_true, if_false] at heq
  exact mix_ne_of_differOnce h _ (congrArg bits heq)

end Parts

theorem ofMember_owner_inj (name : String) (params : List Identity) (arity : Nat)
    {owner owner' : Identity} :
    ofMember owner name params arity = ofMember owner' name params arity ↔ owner = owner' := by
  constructor
  · intro heq
    have hbits := (mixFrom_inj 0 _ _ params).mp (congrArg bits heq)
    rw [UInt64.xor_left_inj, UInt64.xor_right_inj] at hbits
    exact congrArg Identity.mk hbits
  · exact fun heq => heq ▸ rfl

end Identity

/-! ## Types and signatures -/

/-- A type becomes another one by putting a new type in the place of one inside it, at any depth. -/
inductive Ty.Replaces (old new : Ty) : Ty → Ty → Prop
  | here : Replaces old new old new
  | inside (name : String) (before after : List Ty) {t t' : Ty} (h : Replaces old new t t') :
      Replaces old new ⟨name, before ++ t :: after⟩ ⟨name, before ++ t' :: after⟩

theorem Ty.identity_eq (name : String) (args : List Ty) :
    (Ty.mk name args).identity =
      Identity.ofInstance (Identity.ofName name) (args.map identity) := by
  rw [identity, identities_eq_map]

/-- Types with different identities at one place of a list. -/
theorem Ty.differOnce_identities (before after : List Ty) {t t' : Ty}
    (h : t.identity ≠ t'.identity) :
    DifferOnce ((before ++ t :: after).map identity) ((before ++ t' :: after).map identity) := by
  rw [List.map_append, List.map_append, List.map_cons, List.map_cons]
  exact differOnce_iff.mpr ⟨_, _, _, _, h, rfl, rfl⟩

theorem Ty.Replaces.identity_ne {old new t t' : Ty} (h : Replaces old new t t')
    (hne : old.identity ≠ new.identity) : t.identity ≠ t'.identity := by
  induction h with
  | here => exact hne
  | inside name before after _ ih =>
    rw [identity_eq, identity_eq]
    exact Identity.ofInstance_ne_of_differOnce (differOnce_identities before after ih) _

/--
A signature becomes another one by putting a new type in the place of one inside a parameter type
or inside the result type.
-/
inductive Signature.Replaces (old new : Ty) : Signature → Signature → Prop
  | param (name : String) (before after : List Ty) {t t' : Ty} (h : Ty.Replaces old new t t')
      (result : Ty) (arity : Nat) :
      Replaces old new ⟨name, before ++ t :: after, result, arity⟩
        ⟨name, before ++ t' :: after, result, arity⟩
  | result (name : String) (params : List Ty) {t t' : Ty} (h : Ty.Replaces old new t t')
      (arity : Nat) : Replaces old new ⟨name, params, t, arity⟩ ⟨name, params, t', arity⟩

/-- The result has no part in the identity of a member; all other types have. -/
theorem Signature.Replaces.identity_ne_iff {old new : Ty} {s s' : Signature}
    (h : Replaces old new s s') (hne : old.identity ≠ new.identity) (owner : Identity) :
    s.identity owner ≠ s'.identity owner ↔ s.result = s'.result := by
  cases h with
  | param name before after h result arity =>
    have hparams := Ty.differOnce_identities before after (h.identity_ne hne)
    exact iff_of_true (Identity.ofMember_ne_of_differOnce hparams owner name arity) rfl
  | result name params h arity =>
    have hresult := mt (congrArg Ty.identity) (h.identity_ne hne)
    exact iff_of_false (fun hidentity => hidentity rfl) hresult

/-! ## Texts of identities -/

namespace Text

/-- The value of a hexadecimal digit. -/
def digitValue (c : Char) : Nat := if c.isDigit then c.toNat - 48 else c.toNat - 87

/-- The number that hexadecimal digits spell. -/
def ofHex (digits : List Char) : Nat := digits.foldl (fun n c => 16 * n + digitValue c) 0

theorem digitValue_digitChar : ∀ d : Fin 16, digitValue (Nat.digitChar d) = d := by
  decide

theorem ofHex_concat (digits : List Char) (c : Char) :
    ofHex (digits ++ [c]) = 16 * ofHex digits + digitValue c := by
  rw [ofHex, List.foldl_append]
  rfl

theorem ofHex_toDigits (n : Nat) : ofHex (Nat.toDigits 16 n) = n := by
  induction n using Nat.strong_induction_on with
  | _ n ih =>
    rcases lt_or_ge n 16 with hn | hn
    · rw [Nat.toDigits_of_lt_base hn]
      simpa [ofHex] using digitValue_digitChar ⟨n, hn⟩
    · have hlast := digitValue_digitChar ⟨n % 16, Nat.mod_lt n (by decide)⟩
      rw [Nat.toDigits_of_base_le (by decide) hn, ofHex_concat, ih (n / 16) (by omega), hlast]
      exact Nat.div_add_mod n 16

theorem toList_pushn (s : String) (c : Char) (k : Nat) :
    (s.pushn c k).toList = s.toList ++ List.replicate k c := by
  induction k with
  | zero => simp [String.pushn, Nat.repeat]
  | succ k ih =>
    have hpush : s.pushn c (k + 1) = (s.pushn c k).push c := rfl
    rw [hpush, String.toList_push, ih, List.append_assoc, ← List.replicate_succ']

theorem ofHex_zeros (k : Nat) (digits : List Char) :
    ofHex (List.replicate k '0' ++ digits) = ofHex digits := by
  have hzeros : ofHex (List.replicate k '0') = 0 := by
    induction k with
    | zero => rfl
    | succ k ih => rw [List.replicate_succ', ofHex_concat, ih, digitValue]; rfl
  rw [ofHex, List.foldl_append]
  exact congrArg (fun n => digits.foldl _ n) hzeros

/-- The sixteen digits of a word spell it. -/
theorem ofHex_hex16 (w : UInt64) : ofHex (hex16 w).toList = w.toNat := by
  rw [hex16, String.toList_append, toList_pushn, String.toList_empty, List.nil_append, ofHex_zeros,
    hex, String.toList_ofList, ofHex_toDigits]

theorem hex16_injective : Function.Injective hex16 := fun w w' h =>
  UInt64.toNat_inj.mp (by rw [← ofHex_hex16, h, ofHex_hex16])

end Text

/-- The handles of two members of an assembly are told apart by their texts. -/
theorem RemoteHandle.text_ofMember_inj (assembly : String) {member member' : Identity} :
    (ofMember assembly member).text = (ofMember assembly member').text ↔ member = member' := by
  constructor
  · intro heq
    have hdigits : (Identity.ofRemote assembly member).digits =
        (Identity.ofRemote assembly member').digits :=
      String.append_right_inj (assembly ++ ":") |>.mp heq
    have hbits := Text.hex16_injective hdigits
    exact Identity.ofRemote_injective assembly (congrArg Identity.mk hbits)
  · exact fun heq => heq ▸ rfl

/--
A change in one place changes an identity.  Lists of parameters that differ at one position give a
member different identities, and lists of arguments a generic type; so do different owners, and
different members have different remote identities in an assembly, and handles with different
texts.  A type that is put in the place of one with another identity, inside a type at any depth,
changes the identity of the whole.  If the whole is used in a signature, the identity of the member
changes exactly if this is not in the result: the parameters all count, and the result does not.
-/
theorem identity_changes_with_one_place (owner : Identity) (name : String) (arity : Nat)
    (assembly : String) :
    (∀ params params' : List Identity, DifferOnce params params' →
      Identity.ofMember owner name params arity ≠ Identity.ofMember owner name params' arity) ∧
    (∀ (definition : Identity) (args args' : List Identity), DifferOnce args args' →
      Identity.ofInstance definition args ≠ Identity.ofInstance definition args') ∧
    (∀ (owner' : Identity) (params : List Identity), owner ≠ owner' →
      Identity.ofMember owner name params arity ≠ Identity.ofMember owner' name params arity) ∧
    (∀ member member' : Identity, member ≠ member' →
      Identity.ofRemote assembly member ≠ Identity.ofRemote assembly member' ∧
        (RemoteHandle.ofMember assembly member).text ≠
          (RemoteHandle.ofMember assembly member').text) ∧
    ∀ old new : Ty, old.identity ≠ new.identity →
      (∀ t t', Ty.Replaces old new t t' → t.identity ≠ t'.identity) ∧
        ∀ s s', Signature.Replaces old new s s' →
          (s.identity owner ≠ s'.identity owner ↔ s.result = s'.result) := by
  refine ⟨?_, ?_, ?_, ?_, ?_⟩
  · exact fun _ _ h => Identity.ofMember_ne_of_differOnce h owner name arity
  · exact fun definition _ _ h => Identity.ofInstance_ne_of_differOnce h definition
  · exact fun _ params => mt (Identity.ofMember_owner_inj name params arity).mp
  · intro member member' hne
    exact ⟨mt (@Identity.ofRemote_injective assembly member member') hne,
      mt (RemoteHandle.text_ofMember_inj assembly).mp hne⟩
  · intro old new hne
    exact ⟨fun _ _ h => h.identity_ne hne, fun _ _ h => h.identity_ne_iff hne owner⟩

/-- A method with many parameters, the last of which is an optional list. -/
def loadSignature (element : Ty) : Signature :=
  ⟨"Load", List.replicate 17 .int32 ++ [.option ⟨"List", [element]⟩], .void, 1⟩

theorem load_identity_changes :
    Ty.int32.identity ≠ (Ty.named "System.String").identity ∧
      (loadSignature .int32).identity (.ofName "Store") ≠
        (loadSignature (.named "System.String")).identity (.ofName "Store") ∧
      DifferOnce [Identity.mk 1, ⟨2⟩, ⟨3⟩] [⟨1⟩, ⟨5⟩, ⟨3⟩] ∧
      Identity.ofMember (.ofName "Store") "Load" [⟨1⟩, ⟨2⟩, ⟨3⟩] 1 ≠
        Identity.ofMember (.ofName "Store") "Load" [⟨1⟩, ⟨5⟩, ⟨3⟩] 1 ∧
      Identity.ofInstance ⟨7⟩ [⟨1⟩, ⟨2⟩, ⟨3⟩] ≠ Identity.ofInstance ⟨7⟩ [⟨1⟩, ⟨5⟩, ⟨3⟩] ∧
      Identity.ofMember (.ofName "Store") "Load" [⟨1⟩] 1 ≠
        Identity.ofMember (.ofName "Shop") "Load" [⟨1⟩] 1 ∧
      (RemoteHandle.ofMember "Store" ⟨1⟩).text ≠ (RemoteHandle.ofMember "Store" ⟨2⟩).text := by
  obtain ⟨hmember, hinstance, howner, hremote, hreplaced⟩ :=
    identity_changes_with_one_place (.ofName "Store") "Load" 1 "Store"
  have hne : Ty.int32.identity ≠ (Ty.named "System.String").identity := by decide +kernel
  have honce : DifferOnce [Identity.mk 1, ⟨2⟩, ⟨3⟩] [⟨1⟩, ⟨5⟩, ⟨3⟩] :=
    differOnce_iff.mpr ⟨[⟨1⟩], ⟨2⟩, ⟨5⟩, [⟨3⟩], by decide, rfl, rfl⟩
  have hload : Signature.Replaces .int32 (.named "System.String") (loadSignature .int32)
      (loadSignature (.named "System.String")) :=
    .param _ _ [] (.inside _ [] [] (.inside _ [] [] .here)) _ _
  have hshop : Identity.ofName "Store" ≠ .ofName "Shop" := by decide +kernel
  exact ⟨hne, ((hreplaced _ _ hne).2 _ _ hload).mpr rfl, honce, hmember _ _ honce,
    hinstance _ _ _ honce, howner _ _ hshop, (hremote _ _ (by decide)).2⟩

/-- A method without parameters that returns a list. -/
def fetchSignature (element : Ty) : Signature := ⟨"Fetch", [], ⟨"List", [element]⟩, 0⟩

/-- A type in the result is replaced by one with another identity, and the member keeps its own. -/
theorem fetch_identity_kept :
    Ty.int32.identity ≠ (Ty.named "System.String").identity ∧
      Signature.Replaces .int32 (.named "System.String") (fetchSignature .int32)
        (fetchSignature (.named "System.String")) ∧
      (fetchSignature .int32).result.identity ≠
        (fetchSignature (.named "System.String")).result.identity ∧
      (fetchSignature .int32).identity (.ofName "Store") =
        (fetchSignature (.named "System.String")).identity (.ofName "Store") := by
  refine ⟨by decide +kernel, ?_, by decide +kernel, rfl⟩
  exact .result _ _ (.inside _ [] [] .here) _

end Memberwise
