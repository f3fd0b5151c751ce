import Mathlib
import Memberwise.Proofs.TemplateReadings

/-!
# The grammar of templates

Templates have a grammar of their own, apart from the functions that read them.
Binary operators stand in six levels and associate to the left.  Signs bind
tighter than any of them, and names, items and calls after an operand tighter
than signs.

A `new` without an argument list takes all names and items that follow as part of
what it constructs, so nothing can be read from it or applied to it without
parentheses.  In the grammar it is an operand but no primary, and this is what
makes the argument list after `new` belong to the innermost `new` that has none.

The readers follow this grammar: what they return is derived from the tokens they
used, by induction on the number of tokens, and what is derived from some tokens
is read from them, by induction on the derivation.  In both directions the tokens
that are left matter: a reader stops only where the phrase cannot go on.
-/

namespace Memberwise.Template

/-- The operators of a level, from the loosest at level 1 to the tightest at level 6. -/
def operatorsAt : Nat → List BinaryOp
  | 1 => [.or]
  | 2 => [.and]
  | 3 => [.eq, .ne, .strictEq, .strictNe]
  | 4 => [.lt, .le, .gt, .ge]
  | 5 => [.add, .sub]
  | 6 => [.mul, .div, .mod]
  | _ => []

theorem mem_operatorsAt (op : BinaryOp) (n : Nat) : op ∈ operatorsAt n ↔ op.level = n := by
  constructor
  · intro h
    unfold operatorsAt at h
    split at h <;> fin_cases h <;> rfl
  · rintro rfl
    cases op <;> simp [operatorsAt, BinaryOp.level]

theorem level_le_six (op : BinaryOp) : op.level ≤ 6 := by
  cases op <;> simp [BinaryOp.level]

/-- An expression with the tokens it is written with. -/
structure Written where
  tokens : List TokenKind
  value : Expr

/-- A field with the tokens it is written with. -/
structure WrittenField where
  key : TokenKind
  name : String
  item : Written

def WrittenField.tokens (f : WrittenField) : List TokenKind :=
  f.key :: .mark .colon :: f.item.tokens

/-- Stretches of tokens with commas between them, and none at the end. -/
def separated (parts : List (List TokenKind)) : List TokenKind :=
  [.mark .comma].intercalate parts

/-- What a stretch of tokens can be. -/
inductive Phrase where
  /-- Operands joined by operators of at least this level; at level 0, a whole expression. -/
  | level (n : Nat)
  /-- An operand with the signs in front of it. -/
  | operand
  /-- A primary with names, items and, where allowed, calls after it. -/
  | chain (calls : Bool)
  /-- A `new` without arguments. -/
  | bareNew
  | primary

/-- The tokens that are a phrase, with the expression they stand for. -/
inductive Derives (slots : Slots) : Phrase → List TokenKind → Expr → Prop
  | binary {n : Nat} {op : BinaryOp} {ts us : List TokenKind} {left right : Expr}
      (hop : op ∈ operatorsAt n) (hleft : Derives slots (.level n) ts left)
      (hright : Derives slots (.level (n + 1)) us right) :
      Derives slots (.level n) (ts ++ .operator op :: us) (.binary op left right)
  | tighter {n : Nat} {ts : List TokenKind} {e : Expr} (h : Derives slots (.level (n + 1)) ts e) :
      Derives slots (.level n) ts e
  | operand {ts : List TokenKind} {e : Expr} (h : Derives slots .operand ts e) :
      Derives slots (.level 7) ts e
  | not {ts : List TokenKind} {e : Expr} (h : Derives slots .operand ts e) :
      Derives slots .operand (.mark .bang :: ts) (.unary .not e)
  | neg {ts : List TokenKind} {e : Expr} (h : Derives slots .operand ts e) :
      Derives slots .operand (.operator .sub :: ts) (.unary .neg e)
  | chain {ts : List TokenKind} {e : Expr} (h : Derives slots (.chain true) ts e) :
      Derives slots .operand ts e
  | bareNew {ts : List TokenKind} {e : Expr} (h : Derives slots .bareNew ts e) :
      Derives slots .operand ts e
  | primary {calls : Bool} {ts : List TokenKind} {e : Expr} (h : Derives slots .primary ts e) :
      Derives slots (.chain calls) ts e
  | extendPath {calls : Bool} {ts : List TokenKind} {path : String} (name : String)
      (h : Derives slots (.chain calls) ts (.global path)) :
      Derives slots (.chain calls) (ts ++ [.mark .dot, .ident name])
        (.global (path ++ "." ++ name))
  | field {calls : Bool} {ts : List TokenKind} {e : Expr} (name : String)
      (h : Derives slots (.chain calls) ts e) (hpath : ∀ path, e ≠ .global path) :
      Derives slots (.chain calls) (ts ++ [.mark .dot, .ident name]) (.field e name)
  | item {calls : Bool} {ts us : List TokenKind} {e key : Expr}
      (h : Derives slots (.chain calls) ts e) (hkey : Derives slots (.level 0) us key) :
      Derives slots (.chain calls) (ts ++ .mark .lbracket :: us ++ [.mark .rbracket])
        (.item e key)
  | call {ts : List TokenKind} {e : Expr} {args : List Written}
      (h : Derives slots (.chain true) ts e)
      (hargs : ∀ arg ∈ args, Derives slots (.level 0) arg.tokens arg.value) :
      Derives slots (.chain true)
        (ts ++ .mark .lparen :: separated (args.map Written.tokens) ++ [.mark .rparen])
        (.apply e (args.map Written.value))
  | bare {ts : List TokenKind} {e : Expr} (h : Derives slots (.chain false) ts e) :
      Derives slots .bareNew (.keyword .new :: ts) (.new e [])
  | bareOfBare {ts : List TokenKind} {e : Expr} (h : Derives slots .bareNew ts e) :
      Derives slots .bareNew (.keyword .new :: ts) (.new e [])
  | new {ts : List TokenKind} {e : Expr} {args : List Written}
      (h : Derives slots (.chain false) ts e)
      (hargs : ∀ arg ∈ args, Derives slots (.level 0) arg.tokens arg.value) :
      Derives slots .primary
        (.keyword .new :: ts ++ .mark .lparen :: separated (args.map Written.tokens) ++
          [.mark .rparen])
        (.new e (args.map Written.value))
  | atom {kind : TokenKind} {e : Expr} (h : IsAtom slots kind e) : Derives slots .primary [kind] e
  | parens {ts : List TokenKind} {e : Expr} (h : Derives slots (.level 0) ts e) :
      Derives slots .primary (.mark .lparen :: ts ++ [.mark .rparen]) e
  | array {items : List Written}
      (hitems : ∀ item ∈ items, Derives slots (.level 0) item.tokens item.value) :
      Derives slots .primary
        (.mark .lbracket :: separated (items.map Written.tokens) ++ [.mark .rbracket])
        (.array (items.map Written.value))
  | object {fields : List WrittenField} (hkeys : ∀ f ∈ fields, f.key.key? = some f.name)
      (hvalues : ∀ f ∈ fields, Derives slots (.level 0) f.item.tokens f.item.value) :
      Derives slots .primary
        (.mark .lbrace :: separated (fields.map WrittenField.tokens) ++ [.mark .rbrace])
        (.object (fields.map fun f => (f.name, f.item.value)))

/-! ## Soundness -/

theorem Derives.loosen {slots : Slots} {n k : Nat} {ts : List TokenKind} {e : Expr} (hnk : n ≤ k)
    (h : Derives slots (.level k) ts e) : Derives slots (.level n) ts e := by
  induction hnk with
  | refl => exact h
  | step _ ih => exact ih h.tighter

theorem Derives.select {slots : Slots} {calls : Bool} {ts : List TokenKind} {e : Expr}
    (h : Derives slots (.chain calls) ts e) (name : String) :
    Derives slots (.chain calls) (ts ++ [.mark .dot, .ident name]) (select e name) := by
  unfold Template.select
  split
  · exact h.extendPath name
  · next hpath => exact h.field name hpath

theorem separated_cons {part : List TokenKind} {parts : List (List TokenKind)} (h : parts ≠ []) :
    separated (part :: parts) = part ++ .mark .comma :: separated parts := by
  cases parts with
  | nil => exact absurd rfl h
  | cons next parts => simp [separated, List.intercalate]

theorem continues_true_iff {tokens : List Token} :
    Continues true tokens ↔ Continues false tokens ∨ next? tokens = some (.mark .lparen) := by
  simp [Continues, or_assoc]

theorem not_joins_eight (tokens : List Token) : ¬ Joins 8 tokens := by
  rintro ⟨op, -, hlevel⟩
  exact absurd (level_le_six op) (by omega)

/-- Tokens that are a phrase up to where some of them are left. -/
def Spans (slots : Slots) (phrase : Phrase) (front : List TokenKind) (tokens : List Token)
    (e : Expr) (rest : List Token) : Prop :=
  ∃ used, tokens = used ++ rest ∧ Derives slots phrase (front ++ used.map Token.kind) e

/-- Tokens that are expressions between commas up to a closing mark. -/
def SpansList (slots : Slots) (close : Mark) (tokens : List Token) (items : List Expr)
    (rest : List Token) : Prop :=
  ∃ (used : List Token) (written : List Written), tokens = used ++ rest ∧
    used.map Token.kind = separated (written.map Written.tokens) ++ [.mark close] ∧
    items = written.map Written.value ∧
    ∀ item ∈ written, Derives slots (.level 0) item.tokens item.value

/-- Tokens that are fields between commas up to a closing brace. -/
def SpansFields (slots : Slots) (tokens : List Token) (fields : List (String × Expr))
    (rest : List Token) : Prop :=
  ∃ (used : List Token) (written : List WrittenField), tokens = used ++ rest ∧
    used.map Token.kind = separated (written.map WrittenField.tokens) ++ [.mark .rbrace] ∧
    fields = (written.map fun f => (f.name, f.item.value)) ∧
    (∀ f ∈ written, f.key.key? = some f.name) ∧
    ∀ f ∈ written, Derives slots (.level 0) f.item.tokens f.item.value

/-- All that is read at some tokens is derived from what was used of them. -/
structure Sound (s : Setting) (tokens : List Token) : Prop where
  expr : ∀ n ≤ 7, ∀ e rest, Reads (readExpr s n tokens) e rest →
    Spans s.slots (.level n) [] tokens e rest ∧ ¬ Joins n rest
  operators : ∀ n k front left e rest, n ≤ k → Derives s.slots (.level k) front left →
    ¬ Joins (k + 1) tokens → Reads (readOperators s n left tokens) e rest →
    Spans s.slots (.level n) front tokens e rest ∧ ¬ Joins n rest
  unary : ∀ e rest, Reads (readUnary s tokens) e rest → Spans s.slots .operand [] tokens e rest
  suffixes : ∀ calls front target e rest, Derives s.slots (.chain calls) front target →
    Reads (readPostfix s calls target tokens) e rest →
    Spans s.slots (.chain calls) front tokens e rest ∧ ¬ Continues calls rest
  primary : ∀ e rest, Reads (readPrimary s tokens) e rest →
    Spans s.slots .primary [] tokens e rest ∨
      (Spans s.slots .bareNew [] tokens e rest ∧ ¬ Continues true rest)
  list : ∀ close ≠ .comma, ∀ items rest, Reads (readList s close tokens) items rest →
    SpansList s.slots close tokens items rest
  items : ∀ close ≠ .comma, ∀ items rest, Reads (readItems s close tokens) items rest →
    items ≠ [] ∧ SpansList s.slots close tokens items rest
  fields : ∀ fields rest, Reads (readFields s tokens) fields rest →
    SpansFields s.slots tokens fields rest
  moreFields : ∀ fields rest, Reads (readMoreFields s tokens) fields rest →
    fields ≠ [] ∧ SpansFields s.slots tokens fields rest

section Step

variable {s : Setting} {tokens : List Token}
variable (ih : ∀ ts, ts.length < tokens.length → Sound s ts)

include ih

theorem sound_readPrimary (e : Expr) (rest : List Token)
    (h : Reads (readPrimary s tokens) e rest) :
    Spans s.slots .primary [] tokens e rest ∨
      (Spans s.slots .bareNew [] tokens e rest ∧ ¬ Continues true rest) := by
  cases tokens with
  | nil =>
    rw [readPrimary.eq_def] at h
    simp [readAtom] at h
  | cons token after =>
    by_cases hopens : token.kind.opens = true
    · rcases opens_iff.mp hopens with hkind | hkind | hkind | hkind
      · rw [reads_readPrimary_new s hkind] at h
        obtain ⟨base, mid, maker, mid', hbase, hmaker, hargs⟩ := h
        have hmid := hbase.shorter
        rcases (ih after (by simp)).primary base mid hbase with hspan | ⟨hspan, hstop⟩
        · obtain ⟨used, rfl, hused⟩ := hspan
          obtain ⟨⟨used', rfl, hmaker'⟩, hstop⟩ := (ih mid (by simp)).suffixes false _
            base maker mid' hused.primary hmaker
          rcases hargs with ⟨hparen, rfl, rfl⟩ | ⟨paren, mid'', args, rfl, hparen, rfl, hargs⟩
          · refine .inr ⟨⟨token :: used ++ used', by simp, ?_⟩, ?_⟩
            · simpa [hkind] using hmaker'.bare
            · exact continues_true_iff.not.mpr (not_or.mpr ⟨hstop, hparen⟩)
          · have hmid'' : mid''.length < (token :: (used ++ (used' ++ paren :: mid''))).length := by
              simp; omega
            obtain ⟨used'', written, rfl, hkinds, rfl, hwritten⟩ :=
              (ih mid'' hmid'').list .rparen (by simp) args rest hargs
            refine .inl ⟨token :: used ++ used' ++ paren :: used'', by simp, ?_⟩
            simpa [hkind, hparen, hkinds] using hmaker'.new hwritten
        · -- an operand that is a bare `new` is followed by nothing that could extend it
          obtain ⟨used, rfl, hused⟩ := hspan
          obtain ⟨hpoint, hparen⟩ := not_or.mp (continues_true_iff.not.mp hstop)
          obtain ⟨rfl, rfl⟩ := (reads_readPostfix_stop s hpoint base maker mid').mp hmaker
          rcases hargs with ⟨-, rfl, rfl⟩ | ⟨paren, _, _, rfl, hkind, -⟩
          · exact .inr ⟨⟨token :: used, by simp, by simpa [hkind] using hused.bareOfBare⟩, hstop⟩
          · exact absurd (congrArg some hkind) hparen
      · rw [reads_readPrimary_parens s hkind] at h
        obtain ⟨close, hclose, hread⟩ := h
        obtain ⟨⟨used, rfl, hused⟩, -⟩ := (ih after (by simp)).expr 0 (by simp) e _ hread
        refine .inl ⟨token :: used ++ [close], by simp, ?_⟩
        simpa [hkind, hclose] using hused.parens
      · rw [reads_readPrimary_array s hkind] at h
        obtain ⟨items, rfl, hread⟩ := h
        obtain ⟨used, written, rfl, hkinds, rfl, hwritten⟩ :=
          (ih after (by simp)).list .rbracket (by simp) items rest hread
        refine .inl ⟨token :: used, by simp, ?_⟩
        simpa [hkind, hkinds] using Derives.array hwritten
      · rw [reads_readPrimary_object s hkind] at h
        obtain ⟨fields, rfl, hread⟩ := h
        obtain ⟨used, written, rfl, hkinds, rfl, hkeys, hwritten⟩ :=
          (ih after (by simp)).fields fields rest hread
        refine .inl ⟨token :: used, by simp, ?_⟩
        simpa [hkind, hkinds] using Derives.object hkeys hwritten
    · rw [reads_readPrimary_atom s (Bool.eq_false_of_not_eq_true hopens)] at h
      obtain ⟨hatom, rfl⟩ := h
      exact .inl ⟨[token], by simp, by simpa using Derives.atom hatom⟩

theorem sound_readPostfix (calls : Bool) (front : List TokenKind) (target e : Expr)
    (rest : List Token) (htarget : Derives s.slots (.chain calls) front target)
    (h : Reads (readPostfix s calls target tokens) e rest) :
    Spans s.slots (.chain calls) front tokens e rest ∧ ¬ Continues calls rest := by
  by_cases hnext : Continues calls tokens
  · rcases hnext with hnext | hnext | ⟨rfl, hnext⟩ <;>
      obtain ⟨token, after, rfl, hkind⟩ := exists_of_next? hnext
    · rw [reads_readPostfix_name s hkind] at h
      obtain ⟨token', after', name, rfl, hname, hread⟩ := h
      obtain ⟨⟨used, rfl, hused⟩, hstop⟩ := (ih after' (by simp)).suffixes calls _ _ e rest
        (htarget.select name) hread
      refine ⟨⟨token :: token' :: used, by simp, ?_⟩, hstop⟩
      simpa [hkind, hname] using hused
    · rw [reads_readPostfix_item s hkind] at h
      obtain ⟨key, close, after', hkey, hclose, hread⟩ := h
      obtain ⟨⟨used, rfl, hused⟩, -⟩ := (ih after (by simp)).expr 0 (by simp) key _ hkey
      obtain ⟨⟨used', rfl, hused'⟩, hstop⟩ := (ih after' (by simp; omega)).suffixes calls _ _ e rest
        (htarget.item hused) hread
      refine ⟨⟨token :: used ++ close :: used', by simp, ?_⟩, hstop⟩
      simpa [hkind, hclose] using hused'
    · rw [reads_readPostfix_call s hkind] at h
      obtain ⟨args, mid, hargs, hread⟩ := h
      obtain ⟨used, written, rfl, hkinds, rfl, hwritten⟩ :=
        (ih after (by simp)).list .rparen (by simp) args mid hargs
      obtain ⟨⟨used', rfl, hused'⟩, hstop⟩ := (ih mid (by simp)).suffixes true _ _ e rest
        (htarget.call hwritten) hread
      refine ⟨⟨token :: used ++ used', by simp, ?_⟩, hstop⟩
      simpa [hkind, hkinds] using hused'
  · obtain ⟨rfl, rfl⟩ := (reads_readPostfix_stop s hnext target e rest).mp h
    exact ⟨⟨[], rfl, by simpa using htarget⟩, hnext⟩

theorem sound_readUnary (e : Expr) (rest : List Token) (h : Reads (readUnary s tokens) e rest) :
    Spans s.slots .operand [] tokens e rest := by
  by_cases hbang : next? tokens = some (.mark .bang)
  · obtain ⟨token, after, rfl, hkind⟩ := exists_of_next? hbang
    rw [reads_readUnary_not s hkind] at h
    obtain ⟨operand, rfl, hread⟩ := h
    obtain ⟨used, rfl, hused⟩ := (ih after (by simp)).unary operand rest hread
    exact ⟨token :: used, rfl, by simpa [hkind] using hused.not⟩
  by_cases hsub : next? tokens = some (.operator .sub)
  · obtain ⟨token, after, rfl, hkind⟩ := exists_of_next? hsub
    rw [reads_readUnary_neg s hkind] at h
    obtain ⟨operand, rfl, hread⟩ := h
    obtain ⟨used, rfl, hused⟩ := (ih after (by simp)).unary operand rest hread
    exact ⟨token :: used, rfl, by simpa [hkind] using hused.neg⟩
  rw [reads_readUnary_plain s hbang hsub] at h
  obtain ⟨base, mid, hbase, hread⟩ := h
  have hmid := hbase.shorter
  rcases sound_readPrimary ih base mid hbase with hspan | ⟨hspan, hstop⟩
  · obtain ⟨used, rfl, hused⟩ := hspan
    obtain ⟨⟨used', rfl, hused'⟩, -⟩ :=
      (ih mid hmid).suffixes true _ base e rest hused.primary hread
    exact ⟨used ++ used', by simp, by simpa using hused'.chain⟩
  · obtain ⟨used, rfl, hused⟩ := hspan
    obtain ⟨rfl, rfl⟩ := (reads_readPostfix_stop s hstop base e rest).mp hread
    exact ⟨used, rfl, hused.bareNew⟩

theorem sound_readOperators (n k : Nat) (front : List TokenKind) (left e : Expr)
    (rest : List Token) (hnk : n ≤ k) (hleft : Derives s.slots (.level k) front left)
    (hstop : ¬ Joins (k + 1) tokens) (h : Reads (readOperators s n left tokens) e rest) :
    Spans s.slots (.level n) front tokens e rest ∧ ¬ Joins n rest := by
  by_cases hjoins : Joins n tokens
  · obtain ⟨op, hnext, hlevel⟩ := hjoins
    have hopk : op.level ≤ k := by
      by_contra hlt
      exact hstop ⟨op, hnext, by omega⟩
    have hsix := level_le_six op
    obtain ⟨token, after, rfl, hkind⟩ := exists_of_next? hnext
    rw [reads_readOperators_join s hkind hlevel] at h
    obtain ⟨right, mid, hright, hread⟩ := h
    have hmid := hright.shorter
    obtain ⟨⟨used, rfl, hused⟩, hmidstop⟩ :=
      (ih after (by simp)).expr (op.level + 1) (by omega) right mid hright
    have hbinary := (hleft.loosen hopk).binary ((mem_operatorsAt op _).mpr rfl) hused
    obtain ⟨⟨used', rfl, hused'⟩, hreststop⟩ :=
      (ih mid (by simp)).operators n op.level _ _ e rest hlevel hbinary hmidstop hread
    refine ⟨⟨token :: used ++ used', by simp, ?_⟩, hreststop⟩
    simpa [hkind] using hused'
  · obtain ⟨rfl, rfl⟩ := (reads_readOperators_stop s hjoins left e rest).mp h
    exact ⟨⟨[], rfl, by simpa using hleft.loosen hnk⟩, hjoins⟩

theorem sound_readExpr (n : Nat) (hn : n ≤ 7) (e : Expr) (rest : List Token)
    (h : Reads (readExpr s n tokens) e rest) :
    Spans s.slots (.level n) [] tokens e rest ∧ ¬ Joins n rest := by
  rw [reads_readExpr] at h
  obtain ⟨left, mid, hleft, hread⟩ := h
  have hmid := hleft.shorter
  obtain ⟨used, rfl, hused⟩ := sound_readUnary ih left mid hleft
  obtain ⟨⟨used', rfl, hused'⟩, hstop⟩ := (ih mid hmid).operators n 7 _ left e rest hn
    hused.operand (not_joins_eight mid) hread
  exact ⟨⟨used ++ used', by simp, by simpa using hused'⟩, hstop⟩

theorem sound_readItems (close : Mark) (hclose : close ≠ .comma) (items : List Expr)
    (rest : List Token) (h : Reads (readItems s close tokens) items rest) :
    items ≠ [] ∧ SpansList s.slots close tokens items rest := by
  rw [reads_readItems s hclose] at h
  obtain ⟨item, token, mid, hitem, hmore⟩ := h
  have hmid := hitem.shorter
  obtain ⟨⟨used, rfl, hused⟩, -⟩ := sound_readExpr ih 0 (by simp) item _ hitem
  rcases hmore with ⟨hkind, rfl, rfl⟩ | ⟨more, hkind, rfl, hmore⟩
  · refine ⟨by simp, used ++ [token], [⟨used.map Token.kind, item⟩], by simp, ?_, rfl, ?_⟩
    · simp [separated, hkind]
    · simpa using hused
  · obtain ⟨hne, used', written, rfl, hkinds, rfl, hwritten⟩ :=
      (ih mid (by simp; omega)).items close hclose more rest hmore
    have hparts : written.map Written.tokens ≠ [] := by simpa using hne
    refine ⟨by simp, used ++ token :: used', ⟨used.map Token.kind, item⟩ :: written, by simp, ?_,
      rfl, ?_⟩
    · simp [hkind, hkinds, separated_cons hparts]
    · simpa using ⟨hused, hwritten⟩

theorem sound_readList (close : Mark) (hclose : close ≠ .comma) (items : List Expr)
    (rest : List Token) (h : Reads (readList s close tokens) items rest) :
    SpansList s.slots close tokens items rest := by
  by_cases hend : next? tokens = some (.mark close)
  · obtain ⟨token, after, rfl, hkind⟩ := exists_of_next? hend
    obtain ⟨rfl, rfl⟩ := (reads_readList_empty s hkind after items rest).mp h
    exact ⟨[token], [], rfl, by simp [separated, hkind], rfl, by simp⟩
  · rw [readList_eq s hend] at h
    exact (sound_readItems ih close hclose items rest h).2

theorem sound_readMoreFields (fields : List (String × Expr)) (rest : List Token)
    (h : Reads (readMoreFields s tokens) fields rest) :
    fields ≠ [] ∧ SpansFields s.slots tokens fields rest := by
  rw [reads_readMoreFields] at h
  obtain ⟨name, key, colon, after, value, token, mid, rfl, hkey, hcolon, hvalue, hmore⟩ := h
  have hmid := hvalue.shorter
  obtain ⟨⟨used, rfl, hused⟩, -⟩ := (ih after (by simp)).expr 0 (by simp) value _ hvalue
  rcases hmore with ⟨hkind, rfl, rfl⟩ | ⟨more, hkind, rfl, hmore⟩
  · refine ⟨by simp, key :: colon :: used ++ [token],
      [⟨key.kind, name, ⟨used.map Token.kind, value⟩⟩], by simp, ?_, rfl, ?_, ?_⟩
    · simp [separated, hkind, hcolon, WrittenField.tokens]
    · simpa using hkey
    · simpa using hused
  · obtain ⟨hne, used', written, rfl, hkinds, rfl, hkeys, hwritten⟩ :=
      (ih mid (by simp; omega)).moreFields more rest hmore
    have hparts : written.map WrittenField.tokens ≠ [] := by simpa using hne
    refine ⟨by simp, key :: colon :: used ++ token :: used',
      ⟨key.kind, name, ⟨used.map Token.kind, value⟩⟩ :: written, by simp, ?_, rfl, ?_, ?_⟩
    · simp [hkind, hcolon, hkinds, separated_cons hparts, WrittenField.tokens]
    · simpa using ⟨hkey, hkeys⟩
    · simpa using ⟨hused, hwritten⟩

theorem sound_readFields (fields : List (String × Expr)) (rest : List Token)
    (h : Reads (readFields s tokens) fields rest) : SpansFields s.slots tokens fields rest := by
  by_cases hend : next? tokens = some (.mark .rbrace)
  · obtain ⟨token, after, rfl, hkind⟩ := exists_of_next? hend
    obtain ⟨rfl, rfl⟩ := (reads_readFields_empty s hkind after fields rest).mp h
    exact ⟨[token], [], rfl, by simp [separated, hkind], rfl, by simp, by simp⟩
  · rw [readFields_eq s hend] at h
    exact (sound_readMoreFields ih fields rest h).2

end Step

/-- Whatever the tokens are, all that is read from them is derived from them. -/
theorem sound (s : Setting) (tokens : List Token) : Sound s tokens := by
  induction hn : tokens.length using Nat.strong_induction_on generalizing tokens with
  | _ n ihn =>
    subst hn
    have ih : ∀ ts, ts.length < tokens.length → Sound s ts := fun ts hts => ihn _ hts ts rfl
    exact {
      expr := sound_readExpr ih
      operators := sound_readOperators ih
      unary := sound_readUnary ih
      suffixes := sound_readPostfix ih
      primary := sound_readPrimary ih
      list := sound_readList ih
      items := sound_readItems ih
      fields := sound_readFields ih
      moreFields := sound_readMoreFields ih }

/-! ## Completeness -/

theorem not_isAtom_mark (slots : Slots) (mark : Mark) (e : Expr) :
    ¬ IsAtom slots (.mark mark) e := by
  rintro ⟨⟩
  contradiction

theorem not_isAtom_operator (slots : Slots) (op : BinaryOp) (e : Expr) :
    ¬ IsAtom slots (.operator op) e := by
  rintro ⟨⟩
  contradiction

theorem next?_of_reads_readPrimary {s : Setting} {tokens : List Token} {e : Expr}
    {rest : List Token} (h : Reads (readPrimary s tokens) e rest) :
    ∃ kind, next? tokens = some kind ∧ (kind.opens = true ∨ ∃ e, IsAtom s.slots kind e) := by
  cases tokens with
  | nil =>
    rw [readPrimary.eq_def] at h
    simp [readAtom] at h
  | cons token after =>
    refine ⟨token.kind, rfl, ?_⟩
    by_cases hopens : token.kind.opens = true
    · exact .inl hopens
    · rw [reads_readPrimary_atom s (Bool.eq_false_of_not_eq_true hopens)] at h
      exact .inr ⟨e, h.1⟩

theorem next?_of_reads_readExpr {s : Setting} {n : Nat} {tokens : List Token} {e : Expr}
    {rest : List Token} (h : Reads (readExpr s n tokens) e rest) {mark : Mark}
    (hnext : next? tokens = some (.mark mark)) :
    mark = .bang ∨ (TokenKind.mark mark).opens = true := by
  by_cases hbang : next? tokens = some (.mark .bang)
  · rw [hnext] at hbang
    cases hbang
    exact .inl rfl
  · have hsub : next? tokens ≠ some (.operator .sub) := by simp [hnext]
    obtain ⟨left, mid, hleft, -⟩ := (reads_readExpr s n tokens e rest).mp h
    obtain ⟨base, mid', hbase, -⟩ := (reads_readUnary_plain s hbang hsub left mid).mp hleft
    obtain ⟨kind, hkind, hopens | ⟨atom, hatom⟩⟩ := next?_of_reads_readPrimary hbase
    · rw [hnext] at hkind
      cases hkind
      exact .inr hopens
    · rw [hnext] at hkind
      cases hkind
      exact absurd hatom (not_isAtom_mark _ _ _)

/-- The marks that end an expression before them. -/
def Mark.ends : Mark → Bool
  | .rparen | .rbracket | .rbrace | .comma => true
  | _ => false

/-- What the readers make of the tokens of a phrase, whatever tokens are left after it. -/
def Complete (s : Setting) : Phrase → List TokenKind → Expr → Prop
  | .level k, ts, e => ∀ tokens rest, tokens.map Token.kind = ts → ∀ n ≤ k,
      ¬ Joins (k + 1) rest → ¬ Continues true rest → ∀ v r,
      Reads (readOperators s n e rest) v r → Reads (readExpr s n (tokens ++ rest)) v r
  | .operand, ts, e => ∀ tokens rest, tokens.map Token.kind = ts → ¬ Continues true rest →
      Reads (readUnary s (tokens ++ rest)) e rest
  | .chain calls, ts, e => ∀ tokens rest, tokens.map Token.kind = ts →
      ∃ base mid, Reads (readPrimary s (tokens ++ rest)) base mid ∧
        ∀ v r, Reads (readPostfix s calls e rest) v r → Reads (readPostfix s calls base mid) v r
  | .bareNew, ts, e => ∀ tokens rest, tokens.map Token.kind = ts → ¬ Continues true rest →
      Reads (readPrimary s (tokens ++ rest)) e rest
  | .primary, ts, e => ∀ tokens rest, tokens.map Token.kind = ts →
      Reads (readPrimary s (tokens ++ rest)) e rest

section Complete

variable {s : Setting}

/-- A whole expression is read up to a token that cannot go on with it. -/
theorem Complete.reads {ts : List TokenKind} {e : Expr} (h : Complete s (.level 0) ts e)
    {tokens : List Token} (htokens : tokens.map Token.kind = ts) {rest : List Token}
    (hjoins : ¬ Joins 0 rest) (hcontinues : ¬ Continues true rest) :
    Reads (readExpr s 0 (tokens ++ rest)) e rest := by
  have hjoins' : ¬ Joins 1 rest := fun ⟨op, hnext, _⟩ => hjoins ⟨op, hnext, Nat.zero_le _⟩
  exact h tokens rest htokens 0 le_rfl hjoins' hcontinues e rest
    ((reads_readOperators_stop s hjoins e e rest).mpr ⟨rfl, rfl⟩)

theorem Complete.reads_mark {ts : List TokenKind} {e : Expr} (h : Complete s (.level 0) ts e)
    {tokens : List Token} (htokens : tokens.map Token.kind = ts) {token : Token} {mark : Mark}
    (hkind : token.kind = .mark mark) (hmark : mark.ends = true) (rest : List Token) :
    Reads (readExpr s 0 (tokens ++ token :: rest)) e (token :: rest) := by
  refine h.reads htokens ?_ ?_
  · simp [Joins, hkind]
  · rintro (hnext | hnext | ⟨-, hnext⟩)
    all_goals
      rw [next?_cons, hkind, Option.some.injEq, TokenKind.mark.injEq] at hnext
      subst hnext
      cases hmark

theorem reads_readItems_of_complete {close : Mark}
    (hclose : close = .rparen ∨ close = .rbracket) (written : List Written)
    (hcomplete : ∀ w ∈ written, Complete s (.level 0) w.tokens w.value) (hne : written ≠ [])
    (tokens rest : List Token)
    (htokens : tokens.map Token.kind =
      separated (written.map Written.tokens) ++ [.mark close]) :
    Reads (readItems s close (tokens ++ rest)) (written.map Written.value) rest := by
  have hcomma : close ≠ .comma := by rcases hclose with rfl | rfl <;> simp
  have hends : close.ends = true := by rcases hclose with rfl | rfl <;> rfl
  induction written generalizing tokens with
  | nil => exact absurd rfl hne
  | cons w more ih =>
    obtain ⟨hw, hmore⟩ := List.forall_mem_cons.mp hcomplete
    rw [reads_readItems s hcomma]
    by_cases hlast : more = []
    · subst hlast
      have hparts : tokens.map Token.kind = w.tokens ++ [.mark close] := by
        simpa [separated] using htokens
      obtain ⟨front, last, rfl, hfront, hend⟩ := List.map_eq_append_iff.mp hparts
      obtain ⟨token, rfl, hkind⟩ := List.map_eq_singleton_iff.mp hend
      refine ⟨w.value, token, rest, ?_, .inl ⟨hkind, rfl, rfl⟩⟩
      rw [List.append_assoc]
      exact hw.reads_mark hfront hkind hends rest
    · have hparts : more.map Written.tokens ≠ [] := by simpa using hlast
      rw [List.map_cons, separated_cons hparts, List.append_assoc, List.cons_append] at htokens
      obtain ⟨front, later, rfl, hfront, hlater⟩ := List.map_eq_append_iff.mp htokens
      obtain ⟨token, back, rfl, hkind, hback⟩ := List.map_eq_cons_iff.mp hlater
      refine ⟨w.value, token, back ++ rest, ?_, .inr ⟨more.map Written.value, hkind, rfl, ?_⟩⟩
      · rw [List.append_assoc]
        exact hw.reads_mark hfront hkind rfl (back ++ rest)
      · exact ih hmore hlast back hback

theorem reads_readList_of_complete {close : Mark}
    (hclose : close = .rparen ∨ close = .rbracket) {written : List Written}
    (hcomplete : ∀ w ∈ written, Complete s (.level 0) w.tokens w.value)
    {tokens : List Token} (rest : List Token)
    (htokens : tokens.map Token.kind =
      separated (written.map Written.tokens) ++ [.mark close]) :
    Reads (readList s close (tokens ++ rest)) (written.map Written.value) rest := by
  by_cases hempty : written = []
  · subst hempty
    obtain ⟨token, rfl, hkind⟩ := List.map_eq_singleton_iff.mp (by simpa [separated] using htokens)
    exact (reads_readList_empty s hkind rest [] rest).mpr ⟨rfl, rfl⟩
  · have hread := reads_readItems_of_complete hclose written hcomplete hempty tokens rest htokens
    rw [readList_eq s]
    · exact hread
    · -- the first token begins an expression, and no closing mark does
      intro hnext
      have hcomma : close ≠ .comma := by rcases hclose with rfl | rfl <;> simp
      obtain ⟨item, token, mid, hitem, -⟩ := (reads_readItems s hcomma _ _ _).mp hread
      have hbegins := next?_of_reads_readExpr hitem hnext
      rcases hclose with rfl | rfl <;> simp [TokenKind.opens] at hbegins

theorem reads_readMoreFields_of_complete (written : List WrittenField)
    (hkeys : ∀ f ∈ written, f.key.key? = some f.name)
    (hcomplete : ∀ f ∈ written, Complete s (.level 0) f.item.tokens f.item.value)
    (hne : written ≠ []) (tokens rest : List Token)
    (htokens : tokens.map Token.kind =
      separated (written.map WrittenField.tokens) ++ [.mark .rbrace]) :
    Reads (readMoreFields s (tokens ++ rest)) (written.map fun f => (f.name, f.item.value))
      rest := by
  induction written generalizing tokens with
  | nil => exact absurd rfl hne
  | cons f more ih =>
    obtain ⟨hf, hmore⟩ := List.forall_mem_cons.mp hcomplete
    obtain ⟨hkey, hmoreKeys⟩ := List.forall_mem_cons.mp hkeys
    rw [reads_readMoreFields]
    by_cases hlast : more = []
    · subst hlast
      have hparts : tokens.map Token.kind =
          f.key :: .mark .colon :: (f.item.tokens ++ [.mark .rbrace]) := by
        simpa [separated, WrittenField.tokens] using htokens
      obtain ⟨key, _, rfl, hkind, hlater⟩ := List.map_eq_cons_iff.mp hparts
      obtain ⟨colon, _, rfl, hcolon, hlater⟩ := List.map_eq_cons_iff.mp hlater
      obtain ⟨front, last, rfl, hfront, hend⟩ := List.map_eq_append_iff.mp hlater
      obtain ⟨token, rfl, hbrace⟩ := List.map_eq_singleton_iff.mp hend
      refine ⟨f.name, key, colon, front ++ token :: rest, f.item.value, token, rest, by simp,
        hkind ▸ hkey, hcolon, ?_, .inl ⟨hbrace, rfl, rfl⟩⟩
      exact hf.reads_mark hfront hbrace rfl rest
    · have hparts : more.map WrittenField.tokens ≠ [] := by simpa using hlast
      rw [List.map_cons, separated_cons hparts, WrittenField.tokens] at htokens
      simp only [List.cons_append, List.append_assoc] at htokens
      obtain ⟨key, _, rfl, hkind, hlater⟩ := List.map_eq_cons_iff.mp htokens
      obtain ⟨colon, _, rfl, hcolon, hlater⟩ := List.map_eq_cons_iff.mp hlater
      obtain ⟨front, later, rfl, hfront, hlater⟩ := List.map_eq_append_iff.mp hlater
      obtain ⟨token, back, rfl, hcomma, hback⟩ := List.map_eq_cons_iff.mp hlater
      refine ⟨f.name, key, colon, front ++ token :: (back ++ rest), f.item.value, token,
        back ++ rest, by simp, hkind ▸ hkey, hcolon, ?_, .inr ⟨_, hcomma, rfl, ?_⟩⟩
      · exact hf.reads_mark hfront hcomma rfl (back ++ rest)
      · exact ih hmoreKeys hmore hlast back hback

theorem reads_readFields_of_complete {written : List WrittenField}
    (hkeys : ∀ f ∈ written, f.key.key? = some f.name)
    (hcomplete : ∀ f ∈ written, Complete s (.level 0) f.item.tokens f.item.value)
    {tokens : List Token} (rest : List Token)
    (htokens : tokens.map Token.kind =
      separated (written.map WrittenField.tokens) ++ [.mark .rbrace]) :
    Reads (readFields s (tokens ++ rest)) (written.map fun f => (f.name, f.item.value))
      rest := by
  by_cases hempty : written = []
  · subst hempty
    obtain ⟨token, rfl, hkind⟩ := List.map_eq_singleton_iff.mp (by simpa [separated] using htokens)
    exact (reads_readFields_empty s hkind rest [] rest).mpr ⟨rfl, rfl⟩
  · have hread :=
      reads_readMoreFields_of_complete written hkeys hcomplete hempty tokens rest htokens
    rw [readFields_eq s]
    · exact hread
    · intro hnext
      obtain ⟨name, key, _, _, _, _, _, hcons, hkey, -⟩ := (reads_readMoreFields s _ _ _).mp hread
      rw [hcons, next?_cons, Option.some.injEq] at hnext
      simp [hnext, TokenKind.key?] at hkey

theorem complete_binary {n : Nat} {op : BinaryOp} {ts us : List TokenKind} {left right : Expr}
    (hop : op ∈ operatorsAt n) (hleft : Complete s (.level n) ts left)
    (hright : Complete s (.level (n + 1)) us right) :
    Complete s (.level n) (ts ++ .operator op :: us) (.binary op left right) := by
  intro tokens rest htokens m hm hjoins hcontinues v r hread
  obtain rfl := (mem_operatorsAt op n).mp hop
  obtain ⟨front, later, rfl, hfront, hlater⟩ := List.map_eq_append_iff.mp htokens
  obtain ⟨token, back, rfl, hkind, hback⟩ := List.map_eq_cons_iff.mp hlater
  rw [List.append_assoc, List.cons_append]
  -- the operator is of this level, so it does not belong to the left operand
  refine hleft front _ hfront m hm ?_ ?_ v r ?_
  · rintro ⟨other, hother, hlevel⟩
    rw [next?_cons, hkind, Option.some.injEq, TokenKind.operator.injEq] at hother
    subst hother
    omega
  · simp [Continues, hkind]
  · rw [reads_readOperators_join s hkind hm]
    refine ⟨right, rest, hright back rest hback _ le_rfl ?_ hcontinues right rest ?_, hread⟩
    · rintro ⟨other, hother, hlevel⟩
      exact hjoins ⟨other, hother, by omega⟩
    · exact (reads_readOperators_stop s hjoins right right rest).mpr ⟨rfl, rfl⟩

theorem reads_readUnary_of_primary {base e : Expr} {tokens mid rest : List Token}
    (hbase : Reads (readPrimary s tokens) base mid)
    (hread : Reads (readPostfix s true base mid) e rest) : Reads (readUnary s tokens) e rest := by
  obtain ⟨kind, hnext, hkind⟩ := next?_of_reads_readPrimary hbase
  refine (reads_readUnary_plain s ?_ ?_ e rest).mpr ⟨base, mid, hbase, hread⟩
  · rintro hbang
    rw [hnext, Option.some.injEq] at hbang
    subst hbang
    rcases hkind with hopens | ⟨_, hatom⟩
    · simp [TokenKind.opens] at hopens
    · exact not_isAtom_mark _ _ _ hatom
  · rintro hsub
    rw [hnext, Option.some.injEq] at hsub
    subst hsub
    rcases hkind with hopens | ⟨_, hatom⟩
    · simp [TokenKind.opens] at hopens
    · exact not_isAtom_operator _ _ _ hatom

theorem complete_select {calls : Bool} {ts : List TokenKind} {e : Expr}
    (h : Complete s (.chain calls) ts e) (name : String) :
    Complete s (.chain calls) (ts ++ [.mark .dot, .ident name]) (select e name) := by
  intro tokens rest htokens
  obtain ⟨front, later, rfl, hfront, hlater⟩ := List.map_eq_append_iff.mp htokens
  obtain ⟨point, back, rfl, hpoint, hback⟩ := List.map_eq_cons_iff.mp hlater
  obtain ⟨token, rfl, hkind⟩ := List.map_eq_singleton_iff.mp hback
  obtain ⟨base, mid, hbase, hread⟩ := h front (point :: token :: rest) hfront
  refine ⟨base, mid, by rwa [List.append_assoc], fun v r hlast => hread v r ?_⟩
  exact (reads_readPostfix_name s hpoint _ _ _ _).mpr ⟨token, rest, name, rfl, hkind, hlast⟩

theorem select_of_ne_global {e : Expr} (h : ∀ path, e ≠ .global path) (name : String) :
    select e name = .field e name := by
  unfold select
  split
  · exact absurd rfl (h _)
  · rfl

theorem opens_of_isAtom {slots : Slots} {kind : TokenKind} {e : Expr} (h : IsAtom slots kind e) :
    kind.opens = false := by
  by_contra hopens
  rcases opens_iff.mp (Bool.eq_true_of_not_eq_false hopens) with rfl | rfl | rfl | rfl
  · rcases h with _ | h
    cases h
  all_goals exact not_isAtom_mark _ _ _ h

/-- The tokens of a phrase are read as what they derive. -/
theorem complete {phrase : Phrase} {ts : List TokenKind} {e : Expr}
    (h : Derives s.slots phrase ts e) : Complete s phrase ts e := by
  induction h with
  | binary hop _ _ ihleft ihright => exact complete_binary hop ihleft ihright
  | tighter _ ih =>
    intro tokens rest htokens m hm hjoins
    refine ih tokens rest htokens m (by omega) ?_
    rintro ⟨op, hnext, hlevel⟩
    exact hjoins ⟨op, hnext, by omega⟩
  | operand _ ih =>
    intro tokens rest htokens m _ _ hcontinues v r hread
    exact (reads_readExpr s m _ v r).mpr ⟨_, rest, ih tokens rest htokens hcontinues, hread⟩
  | not _ ih =>
    intro tokens rest htokens hcontinues
    obtain ⟨token, after, rfl, hkind, hafter⟩ := List.map_eq_cons_iff.mp htokens
    exact (reads_readUnary_not s hkind _ _ _).mpr ⟨_, rfl, ih after rest hafter hcontinues⟩
  | neg _ ih =>
    intro tokens rest htokens hcontinues
    obtain ⟨token, after, rfl, hkind, hafter⟩ := List.map_eq_cons_iff.mp htokens
    exact (reads_readUnary_neg s hkind _ _ _).mpr ⟨_, rfl, ih after rest hafter hcontinues⟩
  | chain _ ih =>
    intro tokens rest htokens hcontinues
    obtain ⟨base, mid, hbase, hread⟩ := ih tokens rest htokens
    refine reads_readUnary_of_primary hbase (hread _ _ ?_)
    exact (reads_readPostfix_stop s hcontinues _ _ _).mpr ⟨rfl, rfl⟩
  | bareNew _ ih =>
    intro tokens rest htokens hcontinues
    refine reads_readUnary_of_primary (ih tokens rest htokens hcontinues) ?_
    exact (reads_readPostfix_stop s hcontinues _ _ _).mpr ⟨rfl, rfl⟩
  | primary _ ih =>
    intro tokens rest htokens
    exact ⟨_, rest, ih tokens rest htokens, fun _ _ hread => hread⟩
  | extendPath name _ ih => exact complete_select ih name
  | field name _ hpath ih =>
    have hselect := complete_select ih name
    rwa [select_of_ne_global hpath] at hselect
  | item _ _ ih ihkey =>
    intro tokens rest htokens
    rw [List.append_assoc] at htokens
    obtain ⟨front, later, rfl, hfront, hlater⟩ := List.map_eq_append_iff.mp htokens
    obtain ⟨token, back, rfl, hkind, hback⟩ := List.map_eq_cons_iff.mp hlater
    obtain ⟨inner, last, rfl, hinner, hend⟩ := List.map_eq_append_iff.mp hback
    obtain ⟨close, rfl, hclose⟩ := List.map_eq_singleton_iff.mp hend
    obtain ⟨base, mid, hbase, hread⟩ := ih front (token :: inner ++ close :: rest) hfront
    refine ⟨base, mid, ?_, fun v r hlast => hread v r ?_⟩
    · rwa [List.append_assoc, List.cons_append, List.append_assoc]
    rw [List.cons_append, reads_readPostfix_item s hkind]
    exact ⟨_, close, rest, ihkey.reads_mark hinner hclose rfl rest, hclose, hlast⟩
  | call _ _ ih ihargs =>
    intro tokens rest htokens
    rw [List.append_assoc] at htokens
    obtain ⟨front, later, rfl, hfront, hlater⟩ := List.map_eq_append_iff.mp htokens
    obtain ⟨token, back, rfl, hkind, hback⟩ := List.map_eq_cons_iff.mp hlater
    obtain ⟨base, mid, hbase, hread⟩ := ih front (token :: back ++ rest) hfront
    refine ⟨base, mid, by rwa [List.append_assoc], fun v r hlast => hread v r ?_⟩
    rw [List.cons_append, reads_readPostfix_call s hkind]
    exact ⟨_, rest, reads_readList_of_complete (.inl rfl) ihargs rest hback, hlast⟩
  | bare _ ih =>
    intro tokens rest htokens hcontinues
    obtain ⟨hpoint, hparen⟩ := not_or.mp (continues_true_iff.not.mp hcontinues)
    obtain ⟨token, after, rfl, hkind, hafter⟩ := List.map_eq_cons_iff.mp htokens
    obtain ⟨base, mid, hbase, hread⟩ := ih after rest hafter
    refine (reads_readPrimary_new s hkind _ _ _).mpr ⟨base, mid, _, rest, hbase, hread _ _ ?_,
      .inl ⟨hparen, rfl, rfl⟩⟩
    exact (reads_readPostfix_stop s hpoint _ _ _).mpr ⟨rfl, rfl⟩
  | bareOfBare _ ih =>
    intro tokens rest htokens hcontinues
    obtain ⟨hpoint, hparen⟩ := not_or.mp (continues_true_iff.not.mp hcontinues)
    obtain ⟨token, after, rfl, hkind, hafter⟩ := List.map_eq_cons_iff.mp htokens
    refine (reads_readPrimary_new s hkind _ _ _).mpr ⟨_, rest, _, rest,
      ih after rest hafter hcontinues, ?_, .inl ⟨hparen, rfl, rfl⟩⟩
    exact (reads_readPostfix_stop s hpoint _ _ _).mpr ⟨rfl, rfl⟩
  | new _ _ ih ihargs =>
    intro tokens rest htokens
    simp only [List.cons_append, List.append_assoc] at htokens
    obtain ⟨token, after, rfl, hkind, hafter⟩ := List.map_eq_cons_iff.mp htokens
    obtain ⟨front, later, rfl, hfront, hlater⟩ := List.map_eq_append_iff.mp hafter
    obtain ⟨paren, back, rfl, hparen, hback⟩ := List.map_eq_cons_iff.mp hlater
    obtain ⟨base, mid, hbase, hread⟩ := ih front (paren :: back ++ rest) hfront
    have hpoint : ¬ Continues false (paren :: back ++ rest) := by simp [Continues, hparen]
    rw [List.cons_append, List.append_assoc]
    refine (reads_readPrimary_new s hkind _ _ _).mpr ⟨base, mid, _, paren :: back ++ rest, hbase,
      hread _ _ ?_, .inr ⟨paren, back ++ rest, _, rfl, hparen, rfl, ?_⟩⟩
    · exact (reads_readPostfix_stop s hpoint _ _ _).mpr ⟨rfl, rfl⟩
    · exact reads_readList_of_complete (.inl rfl) ihargs rest hback
  | atom hatom =>
    intro tokens rest htokens
    obtain ⟨token, rfl, rfl⟩ := List.map_eq_singleton_iff.mp htokens
    exact (reads_readPrimary_atom s (opens_of_isAtom hatom) _ _ _).mpr ⟨hatom, rfl⟩
  | parens _ ih =>
    intro tokens rest htokens
    simp only [List.cons_append] at htokens
    obtain ⟨token, after, rfl, hkind, hafter⟩ := List.map_eq_cons_iff.mp htokens
    obtain ⟨inner, last, rfl, hinner, hend⟩ := List.map_eq_append_iff.mp hafter
    obtain ⟨close, rfl, hclose⟩ := List.map_eq_singleton_iff.mp hend
    rw [List.cons_append, List.append_assoc, reads_readPrimary_parens s hkind]
    exact ⟨close, hclose, ih.reads_mark hinner hclose rfl rest⟩
  | array _ ih =>
    intro tokens rest htokens
    simp only [List.cons_append] at htokens
    obtain ⟨token, after, rfl, hkind, hafter⟩ := List.map_eq_cons_iff.mp htokens
    exact (reads_readPrimary_array s hkind _ _ _).mpr
      ⟨_, rfl, reads_readList_of_complete (.inr rfl) ih rest hafter⟩
  | object hkeys _ ih =>
    intro tokens rest htokens
    simp only [List.cons_append] at htokens
    obtain ⟨token, after, rfl, hkind, hafter⟩ := List.map_eq_cons_iff.mp htokens
    exact (reads_readPrimary_object s hkind _ _ _).mpr
      ⟨_, rfl, reads_readFields_of_complete hkeys ih rest hafter⟩

end Complete

/-! ## The parser -/

theorem parseTokens_eq_ok {slots : Slots} {tokens : Tokens} {e : Expr} :
    parseTokens slots tokens = .ok e ↔
      Reads (readExpr ⟨slots, tokens.stop⟩ 0 tokens.list) e [] := by
  unfold parseTokens
  dsimp only
  cases readExpr ⟨slots, tokens.stop⟩ 0 tokens.list with
  | error => simp
  | ok reading =>
    obtain ⟨value, rest, hrest⟩ := reading
    rw [reads_ok]
    dsimp only
    cases rest with
    | nil => simpa using eq_comm
    | cons token rest => simp

theorem derives_of_parseTokens {slots : Slots} {tokens : Tokens} {e : Expr}
    (h : parseTokens slots tokens = .ok e) :
    Derives slots (.level 0) (tokens.list.map Token.kind) e := by
  have hread := parseTokens_eq_ok.mp h
  obtain ⟨⟨used, hused, hderives⟩, -⟩ := (sound _ tokens.list).expr 0 (by simp) e [] hread
  rw [hused, List.append_nil]
  exact hderives

theorem parseTokens_of_derives {slots : Slots} {tokens : Tokens} {e : Expr}
    (h : Derives slots (.level 0) (tokens.list.map Token.kind) e) :
    parseTokens slots tokens = .ok e := by
  have hcomplete : Complete ⟨slots, tokens.stop⟩ (.level 0) _ e := complete h
  have hread : Reads (readExpr ⟨slots, tokens.stop⟩ 0 (tokens.list ++ [])) e [] :=
    hcomplete.reads rfl (by simp [Joins]) (by simp [Continues])
  rw [List.append_nil] at hread
  exact parseTokens_eq_ok.mpr hread

/-- Tokens are read as an expression exactly if they derive it, and they derive no other. -/
theorem parseTokens_ok_iff_derives (slots : Slots) (tokens : Tokens) :
    (∀ e, parseTokens slots tokens = .ok e ↔
      Derives slots (.level 0) (tokens.list.map Token.kind) e) ∧
    {e | Derives slots (.level 0) (tokens.list.map Token.kind) e}.Subsingleton := by
  refine ⟨fun e => ⟨derives_of_parseTokens, parseTokens_of_derives⟩, ?_⟩
  intro e he e' he'
  have hparse := parseTokens_of_derives he
  rw [parseTokens_of_derives he'] at hparse
  exact (Except.ok.inj hparse).symm

end Memberwise.Template
