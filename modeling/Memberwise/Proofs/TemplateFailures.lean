import Mathlib
import Memberwise.Proofs.TemplateReadings

/-!
# How each reader fails

A reader fails where one of the readers it calls fails, or at a token other than
those it needs.  The lemmas of the first part say this for each of them, as
`TemplateReadings` says what they return.

The second part is about what a reader has seen when it returns: the tokens that
it used and the next one.  Tokens further on can be exchanged, and the same value
is read.
-/

namespace Memberwise.Template

variable (s : Setting) {error : Error}

/-! ## Failures -/

/-- Of the two ways to go on at a mark, only the error is left where the mark is missing. -/
theorem error_or_mark_iff {mark : Mark} {tokens : List Token}
    (h : next? tokens ≠ some (.mark mark)) (P : Prop) (Q : List Token → Prop) :
    ((next? tokens ≠ some (.mark mark) ∧ P) ∨
      ∃ token after, tokens = token :: after ∧ token.kind = .mark mark ∧ Q after) ↔ P := by
  constructor
  · rintro (⟨-, hP⟩ | ⟨token, after, rfl, hkind, -⟩)
    · exact hP
    · exact absurd (congrArg some hkind) h
  · exact fun hP => .inl ⟨h, hP⟩

theorem fails_readExpr (n : Nat) (tokens : List Token) :
    readExpr s n tokens = .error error ↔
      readUnary s tokens = .error error ∨
        ∃ left mid, Reads (readUnary s tokens) left mid ∧
          readOperators s n left mid = .error error := by
  rw [readExpr.eq_def]
  cases readUnary s tokens with
  | error => simp
  | ok first =>
    obtain ⟨left, mid, hmid⟩ := first
    cases hlater : readOperators s n left mid <;> simp [hlater, and_assoc]

theorem not_fails_readOperators_stop {n : Nat} {tokens : List Token} (hstop : ¬ Joins n tokens)
    (left : Expr) : readOperators s n left tokens ≠ .error error := by
  obtain ⟨_, hread⟩ := (reads_readOperators_stop s hstop left left tokens).mpr ⟨rfl, rfl⟩
  simp [hread]

theorem fails_readOperators_join {n : Nat} {token : Token} {op : BinaryOp}
    (hkind : token.kind = .operator op) (hlevel : n ≤ op.level) (after : List Token)
    (left : Expr) :
    readOperators s n left (token :: after) = .error error ↔
      readExpr s (op.level + 1) after = .error error ∨
        ∃ right mid, Reads (readExpr s (op.level + 1) after) right mid ∧
          readOperators s n (.binary op left right) mid = .error error := by
  obtain ⟨kind, text, column⟩ := token
  obtain rfl : kind = .operator op := hkind
  rw [readOperators.eq_def]
  dsimp only
  rw [if_neg (Nat.not_lt_of_le hlevel)]
  cases readExpr s (op.level + 1) after with
  | error => simp
  | ok first =>
    obtain ⟨right, mid, hmid⟩ := first
    cases hlater : readOperators s n (.binary op left right) mid <;> simp [hlater, and_assoc]

theorem fails_readUnary_sign {token : Token}
    (hkind : token.kind = .mark .bang ∨ token.kind = .operator .sub) (after : List Token) :
    readUnary s (token :: after) = .error error ↔ readUnary s after = .error error := by
  obtain ⟨kind, text, column⟩ := token
  rcases hkind with hkind | hkind <;> dsimp only at hkind <;> subst hkind
  all_goals
    rw [readUnary.eq_def]
    dsimp only
    cases readUnary s after <;> simp

theorem fails_readUnary_plain {tokens : List Token} (hbang : next? tokens ≠ some (.mark .bang))
    (hsub : next? tokens ≠ some (.operator .sub)) :
    readUnary s tokens = .error error ↔
      readPrimary s tokens = .error error ∨
        ∃ base mid, Reads (readPrimary s tokens) base mid ∧
          readPostfix s true base mid = .error error := by
  rw [readUnary.eq_def]
  split
  · exact absurd rfl hbang
  · exact absurd rfl hsub
  · cases readPrimary s tokens with
    | error => simp
    | ok first =>
      obtain ⟨base, mid, hmid⟩ := first
      cases hlater : readPostfix s true base mid <;> simp [hlater, and_assoc]

section

variable {calls : Bool}

theorem not_fails_readPostfix_stop {tokens : List Token} (hstop : ¬ Continues calls tokens)
    (target : Expr) : readPostfix s calls target tokens ≠ .error error := by
  obtain ⟨_, hread⟩ := (reads_readPostfix_stop s hstop target target tokens).mpr ⟨rfl, rfl⟩
  simp [hread]

theorem fails_readPostfix_name {token : Token} (hkind : token.kind = .mark .dot)
    (after : List Token) (target : Expr) :
    readPostfix s calls target (token :: after) = .error error ↔
      ((∀ name, next? after ≠ some (.ident name)) ∧ error = s.expected "member name" after) ∨
        ∃ token' after' name, after = token' :: after' ∧ token'.kind = .ident name ∧
          readPostfix s calls (select target name) after' = .error error := by
  obtain ⟨kind, text, column⟩ := token
  obtain rfl : kind = .mark .dot := hkind
  rw [readPostfix.eq_def]
  dsimp only
  split
  · next name text' column' after' =>
    cases hlater : readPostfix s calls (select target name) after' <;> simp [hlater]
  · next hother =>
    have hname : ∀ name, next? after ≠ some (.ident name) := by
      intro name hnext
      obtain ⟨⟨kind, text', column'⟩, after', rfl, hkind⟩ := exists_of_next? hnext
      exact hother name text' column' after' (by rw [← hkind])
    constructor
    · intro herror
      exact .inl ⟨hname, (Except.error.inj herror).symm⟩
    · rintro (⟨-, rfl⟩ | ⟨token', after', name, rfl, hkind, -⟩)
      · rfl
      · exact absurd (congrArg some hkind) (hname name)

theorem fails_readPostfix_item {token : Token} (hkind : token.kind = .mark .lbracket)
    (after : List Token) (target : Expr) :
    readPostfix s calls target (token :: after) = .error error ↔
      readExpr s 0 after = .error error ∨
        ∃ key mid, Reads (readExpr s 0 after) key mid ∧
          ((next? mid ≠ some (.mark .rbracket) ∧ error = s.expected "']'" mid) ∨
            ∃ close after', mid = close :: after' ∧ close.kind = .mark .rbracket ∧
              readPostfix s calls (.item target key) after' = .error error) := by
  obtain ⟨kind, text, column⟩ := token
  obtain rfl : kind = .mark .lbracket := hkind
  rw [readPostfix.eq_def]
  dsimp only
  cases readExpr s 0 after with
  | error => simp
  | ok first =>
    obtain ⟨key, mid, hmid⟩ := first
    dsimp only
    by_cases hclose : next? mid = some (.mark .rbracket)
    · obtain ⟨close, after', rfl, hkind⟩ := exists_of_next? hclose
      obtain ⟨_, htake⟩ := takeMark?_cons hkind after'
      rw [htake]
      dsimp only
      cases hlater : readPostfix s calls (.item target key) after' <;>
        simp [hlater, hkind, and_assoc]
    · rw [takeMark?_eq_none hclose]
      simp only [reads_ok, and_assoc, exists_and_left, exists_eq_left, error_or_mark_iff hclose]
      simp [eq_comm]

theorem fails_readPostfix_call {token : Token} (hkind : token.kind = .mark .lparen)
    (after : List Token) (target : Expr) :
    readPostfix s true target (token :: after) = .error error ↔
      readList s .rparen after = .error error ∨
        ∃ args mid, Reads (readList s .rparen after) args mid ∧
          readPostfix s true (.apply target args) mid = .error error := by
  obtain ⟨kind, text, column⟩ := token
  obtain rfl : kind = .mark .lparen := hkind
  rw [readPostfix.eq_def]
  dsimp only
  rw [if_pos rfl]
  cases readList s .rparen after with
  | error => simp
  | ok first =>
    obtain ⟨args, mid, hmid⟩ := first
    cases hlater : readPostfix s true (.apply target args) mid <;> simp [hlater, and_assoc]

end

theorem fails_readPrimary_nil :
    readPrimary s [] = .error error ↔ error = s.expected "expression" [] := by
  rw [readPrimary.eq_def]
  simp [readAtom, eq_comm]

theorem fails_readPrimary_new {token : Token} (hkind : token.kind = .keyword .new)
    (after : List Token) :
    readPrimary s (token :: after) = .error error ↔
      readPrimary s after = .error error ∨
        ∃ base mid, Reads (readPrimary s after) base mid ∧
          (readPostfix s false base mid = .error error ∨
            ∃ maker paren mid', Reads (readPostfix s false base mid) maker (paren :: mid') ∧
              paren.kind = .mark .lparen ∧ readList s .rparen mid' = .error error) := by
  obtain ⟨kind, text, column⟩ := token
  obtain rfl : kind = .keyword .new := hkind
  rw [readPrimary.eq_def]
  dsimp only
  cases readPrimary s after with
  | error => simp
  | ok first =>
    obtain ⟨base, mid, hmid⟩ := first
    dsimp only
    cases hlater : readPostfix s false base mid with
    | error => simp [hlater, and_assoc]
    | ok second =>
      obtain ⟨maker, mid', hmid'⟩ := second
      dsimp only
      by_cases hparen : next? mid' = some (.mark .lparen)
      · obtain ⟨paren, mid'', rfl, hkind⟩ := exists_of_next? hparen
        obtain ⟨_, htake⟩ := takeMark?_cons hkind mid''
        rw [htake]
        dsimp only
        cases hargs : readList s .rparen mid'' <;> simp [hlater, hkind, hargs, and_assoc]
      · rw [takeMark?_eq_none hparen]
        simp only [reduceCtorEq, reads_ok, false_or, false_iff, not_exists, not_and]
        rintro _ _ ⟨rfl, rfl⟩
        rw [hlater]
        rintro (herror | ⟨_, paren, mid'', hmaker, hkind, -⟩)
        · cases herror
        · obtain ⟨-, rfl⟩ := (reads_ok _).mp hmaker
          exact absurd (congrArg some hkind) hparen

theorem fails_readPrimary_parens {token : Token} (hkind : token.kind = .mark .lparen)
    (after : List Token) :
    readPrimary s (token :: after) = .error error ↔
      readExpr s 0 after = .error error ∨
        ∃ value mid, Reads (readExpr s 0 after) value mid ∧ next? mid ≠ some (.mark .rparen) ∧
          error = s.expected "')'" mid := by
  obtain ⟨kind, text, column⟩ := token
  obtain rfl : kind = .mark .lparen := hkind
  rw [readPrimary.eq_def]
  dsimp only
  cases readExpr s 0 after with
  | error => simp
  | ok first =>
    obtain ⟨value, mid, hmid⟩ := first
    dsimp only
    by_cases hclose : next? mid = some (.mark .rparen)
    · obtain ⟨close, after', rfl, hkind⟩ := exists_of_next? hclose
      obtain ⟨_, htake⟩ := takeMark?_cons hkind after'
      rw [htake]
      simp [hkind, and_assoc]
    · rw [takeMark?_eq_none hclose]
      simp [hclose, and_assoc, eq_comm]

theorem fails_readPrimary_array {token : Token} (hkind : token.kind = .mark .lbracket)
    (after : List Token) :
    readPrimary s (token :: after) = .error error ↔ readList s .rbracket after = .error error := by
  obtain ⟨kind, text, column⟩ := token
  obtain rfl : kind = .mark .lbracket := hkind
  rw [readPrimary.eq_def]
  dsimp only
  cases readList s .rbracket after <;> simp

theorem fails_readPrimary_object {token : Token} (hkind : token.kind = .mark .lbrace)
    (after : List Token) :
    readPrimary s (token :: after) = .error error ↔ readFields s after = .error error := by
  obtain ⟨kind, text, column⟩ := token
  obtain rfl : kind = .mark .lbrace := hkind
  rw [readPrimary.eq_def]
  dsimp only
  cases readFields s after <;> simp

/-- The causes that blame a token: something else was needed, or it is a hole for no slot. -/
inductive Blames (slots : Slots) : TokenKind → Cause → Prop
  | unexpected (kind : TokenKind) (what : String) : Blames slots kind (.expected what (some kind))
  | unresolved {name : String} {cause : Cause} (hcause : slots.resolve name = .error cause) :
      Blames slots (.hole name) cause

/-- An error that blames a token, at its column. -/
structure Accuses (slots : Slots) (token : Token) (error : Error) : Prop where
  column : error.column = token.column
  blames : Blames slots token.kind error.cause

/-- A token that begins no operand of its own is blamed whatever comes after it. -/
theorem accuses_of_fails_readPrimary {token : Token} (hkind : token.kind.opens = false)
    {after : List Token} (h : readPrimary s (token :: after) = .error error) :
    Accuses s.slots token error ∧
      ∀ later, readPrimary s (token :: later) = .error error := by
  have hatom : ∀ later, readPrimary s (token :: later) = readAtom s (token :: later) := by
    intro later
    obtain ⟨kind, text, column⟩ := token
    rw [readPrimary.eq_def]
    cases kind with
    | keyword word => cases word <;> first | rfl | cases hkind
    | mark mark => cases mark <;> first | rfl | cases hkind
    | _ => rfl
  simp only [hatom, readAtom] at h ⊢
  by_cases hhole : ∃ name, token.kind = .hole name
  · obtain ⟨name, hname⟩ := hhole
    rw [hname, atom?_hole] at h ⊢
    cases hresolve : s.slots.resolve name with
    | ok index => simp [hresolve] at h
    | error cause =>
      simp only [hresolve, Except.error.injEq] at h ⊢
      subst h
      exact ⟨⟨rfl, hname ▸ .unresolved hresolve⟩, fun _ => rfl⟩
  · rw [atom?_of_ne_hole s _ (not_exists.mp hhole)] at h ⊢
    cases hplain : token.kind.plain? with
    | some value => simp [hplain] at h
    | none =>
      simp only [hplain, Option.map_none, Except.error.injEq] at h ⊢
      subst h
      exact ⟨⟨rfl, .unexpected _ _⟩, fun _ => rfl⟩

theorem not_fails_readList_empty {close : Mark} {tokens : List Token}
    (hnext : next? tokens = some (.mark close)) : readList s close tokens ≠ .error error := by
  obtain ⟨token, after, rfl, hkind⟩ := exists_of_next? hnext
  obtain ⟨_, hread⟩ := (reads_readList_empty s hkind after [] after).mpr ⟨rfl, rfl⟩
  simp [hread]

theorem fails_readItems {close : Mark} (tokens : List Token) :
    readItems s close tokens = .error error ↔
      readExpr s 0 tokens = .error error ∨
        ∃ item mid, Reads (readExpr s 0 tokens) item mid ∧ next? mid ≠ some (.mark close) ∧
          ((next? mid ≠ some (.mark .comma) ∧
              error = s.expected "',' or closing bracket" mid) ∨
            ∃ comma after, mid = comma :: after ∧ comma.kind = .mark .comma ∧
              readItems s close after = .error error) := by
  rw [readItems.eq_def]
  cases readExpr s 0 tokens with
  | error => simp
  | ok first =>
    obtain ⟨item, mid, hmid⟩ := first
    dsimp only
    by_cases hend : next? mid = some (.mark close)
    · obtain ⟨token, after, rfl, hkind⟩ := exists_of_next? hend
      obtain ⟨_, htake⟩ := takeMark?_cons hkind after
      rw [htake]
      simp [hkind, and_assoc]
    · rw [takeMark?_eq_none hend]
      dsimp only
      by_cases hcomma : next? mid = some (.mark .comma)
      · obtain ⟨token, after, rfl, hkind⟩ := exists_of_next? hcomma
        obtain ⟨_, htake⟩ := takeMark?_cons hkind after
        rw [htake]
        rw [next?_cons, hkind] at hend
        dsimp only
        cases hlater : readItems s close after <;> simp [hlater, hkind, hend, and_assoc]
      · rw [takeMark?_eq_none hcomma]
        simp only [reads_ok, and_assoc, exists_and_left, exists_eq_left, error_or_mark_iff hcomma]
        simp [hend, eq_comm]

theorem not_fails_readFields_empty {tokens : List Token}
    (hnext : next? tokens = some (.mark .rbrace)) : readFields s tokens ≠ .error error := by
  obtain ⟨token, after, rfl, hkind⟩ := exists_of_next? hnext
  obtain ⟨_, hread⟩ := (reads_readFields_empty s hkind after [] after).mpr ⟨rfl, rfl⟩
  simp [hread]

/-- Tokens that start with no name of a field. -/
theorem fails_readMoreFields_key {tokens : List Token}
    (hkey : ∀ kind ∈ next? tokens, kind.key? = none) :
    readMoreFields s tokens = .error error ↔ error = s.expected "field name" tokens := by
  rw [readMoreFields.eq_def, takeKey?_eq_none]
  · simp [eq_comm]
  · rintro token rest rfl
    exact hkey _ rfl

theorem fails_readMoreFields_colon {key : Token} {name : String}
    (hkey : key.kind.key? = some name) {after : List Token}
    (hcolon : next? after ≠ some (.mark .colon)) :
    readMoreFields s (key :: after) = .error error ↔ error = s.expected "':'" after := by
  obtain ⟨_, htake⟩ := takeKey?_cons hkey after
  rw [readMoreFields.eq_def, htake]
  dsimp only
  rw [takeMark?_eq_none hcolon]
  simp [eq_comm]

theorem fails_readMoreFields_value {key colon : Token} {name : String}
    (hkey : key.kind.key? = some name) (hcolon : colon.kind = .mark .colon)
    (after : List Token) :
    readMoreFields s (key :: colon :: after) = .error error ↔
      readExpr s 0 after = .error error ∨
        ∃ value mid, Reads (readExpr s 0 after) value mid ∧ next? mid ≠ some (.mark .rbrace) ∧
          ((next? mid ≠ some (.mark .comma) ∧ error = s.expected "',' or '\x7d'" mid) ∨
            ∃ comma later, mid = comma :: later ∧ comma.kind = .mark .comma ∧
              readMoreFields s later = .error error) := by
  obtain ⟨_, htake⟩ := takeKey?_cons hkey (colon :: after)
  obtain ⟨_, htake'⟩ := takeMark?_cons hcolon after
  rw [readMoreFields.eq_def, htake]
  dsimp only
  rw [htake']
  dsimp only
  cases readExpr s 0 after with
  | error => simp
  | ok first =>
    obtain ⟨value, mid, hmid⟩ := first
    dsimp only
    by_cases hend : next? mid = some (.mark .rbrace)
    · obtain ⟨token, later, rfl, hkind⟩ := exists_of_next? hend
      obtain ⟨_, htake⟩ := takeMark?_cons hkind later
      rw [htake]
      simp [hkind, and_assoc]
    · rw [takeMark?_eq_none hend]
      dsimp only
      by_cases hcomma : next? mid = some (.mark .comma)
      · obtain ⟨token, later, rfl, hkind⟩ := exists_of_next? hcomma
        obtain ⟨_, htake⟩ := takeMark?_cons hkind later
        rw [htake]
        dsimp only
        cases hlater : readMoreFields s later <;> simp [hlater, hkind, and_assoc]
      · rw [takeMark?_eq_none hcomma]
        simp only [reads_ok, and_assoc, exists_and_left, exists_eq_left, error_or_mark_iff hcomma]
        simp [hend, eq_comm]

/-! ## What a reader has seen -/

/-- What is read from some tokens depends on those that were used and on the next one only. -/
def Settles {α : Type} {bound : List Token → Nat}
    (read : (tokens : List Token) → Except Error (Reading α (bound tokens)))
    (tokens : List Token) : Prop :=
  ∀ value rest, Reads (read tokens) value rest →
    ∃ used, tokens = used ++ rest ∧
      ∀ later, next? later = next? rest → Reads (read (used ++ later)) value later

theorem next?_append_congr (used : List Token) {later rest : List Token}
    (h : next? later = next? rest) : next? (used ++ later) = next? (used ++ rest) := by
  cases used with
  | nil => exact h
  | cons token used => rfl

/-- All readers settle at some tokens. -/
structure Settled (s : Setting) (tokens : List Token) : Prop where
  expr : ∀ n, Settles (readExpr s n) tokens
  operators : ∀ n left, Settles (readOperators s n left) tokens
  unary : Settles (readUnary s) tokens
  suffixes : ∀ calls target, Settles (readPostfix s calls target) tokens
  primary : Settles (readPrimary s) tokens
  list : ∀ close ≠ .comma, Settles (readList s close) tokens
  items : ∀ close ≠ .comma, Settles (readItems s close) tokens
  fields : Settles (readFields s) tokens
  moreFields : Settles (readMoreFields s) tokens

section Step

variable {s} {tokens : List Token}
variable (ih : ∀ ts, ts.length < tokens.length → Settled s ts)

include ih

theorem settles_readPrimary : Settles (readPrimary s) tokens := by
  intro e rest h
  cases tokens with
  | nil =>
    rw [readPrimary.eq_def] at h
    simp [readAtom] at h
  | cons token after =>
    by_cases hopens : token.kind.opens = true
    · rcases opens_iff.mp hopens with hkind | hkind | hkind | hkind
      · rw [reads_readPrimary_new s hkind] at h
        obtain ⟨base, mid, maker, mid', hbase, hmaker, hargs⟩ := h
        obtain ⟨used, rfl, hused⟩ := (ih after (by simp)).primary base mid hbase
        obtain ⟨used', rfl, hused'⟩ := (ih mid (by simp)).suffixes false base maker mid' hmaker
        rcases hargs with ⟨hparen, rfl, rfl⟩ | ⟨paren, mid'', args, rfl, hparen, rfl, hargs⟩
        · refine ⟨token :: used ++ used', by simp, fun later hlater => ?_⟩
          rw [List.cons_append, List.cons_append, List.append_assoc, reads_readPrimary_new s hkind]
          exact ⟨base, used' ++ later, maker, later, hused _ (next?_append_congr used' hlater),
            hused' later hlater, .inl ⟨hlater ▸ hparen, rfl, rfl⟩⟩
        · obtain ⟨used'', rfl, hused''⟩ :=
            (ih mid'' (by simp; omega)).list .rparen (by simp) args rest hargs
          refine ⟨token :: used ++ (used' ++ paren :: used''), by simp, fun later hlater => ?_⟩
          have htokens : token :: used ++ (used' ++ paren :: used'') ++ later =
              token :: (used ++ (used' ++ paren :: (used'' ++ later))) := by simp
          rw [htokens, reads_readPrimary_new s hkind]
          exact ⟨base, _, maker, _, hused _ (next?_append_congr used' rfl), hused' _ rfl,
            .inr ⟨paren, _, args, rfl, hparen, rfl, hused'' later hlater⟩⟩
      · rw [reads_readPrimary_parens s hkind] at h
        obtain ⟨close, hclose, hread⟩ := h
        obtain ⟨used, rfl, hused⟩ := (ih after (by simp)).expr 0 e _ hread
        refine ⟨token :: used ++ [close], by simp, fun later hlater => ?_⟩
        rw [List.append_assoc, List.cons_append, reads_readPrimary_parens s hkind]
        exact ⟨close, hclose, hused (close :: later) rfl⟩
      · rw [reads_readPrimary_array s hkind] at h
        obtain ⟨items, rfl, hread⟩ := h
        obtain ⟨used, rfl, hused⟩ := (ih after (by simp)).list .rbracket (by simp) items rest hread
        refine ⟨token :: used, rfl, fun later hlater => ?_⟩
        exact (reads_readPrimary_array s hkind _ _ _).mpr ⟨items, rfl, hused later hlater⟩
      · rw [reads_readPrimary_object s hkind] at h
        obtain ⟨fields, rfl, hread⟩ := h
        obtain ⟨used, rfl, hused⟩ := (ih after (by simp)).fields fields rest hread
        refine ⟨token :: used, rfl, fun later hlater => ?_⟩
        exact (reads_readPrimary_object s hkind _ _ _).mpr ⟨fields, rfl, hused later hlater⟩
    · have hkind := Bool.eq_false_of_not_eq_true hopens
      rw [reads_readPrimary_atom s hkind] at h
      obtain ⟨hatom, rfl⟩ := h
      refine ⟨[token], rfl, fun later _ => ?_⟩
      exact (reads_readPrimary_atom s hkind later e later).mpr ⟨hatom, rfl⟩

theorem settles_readPostfix (calls : Bool) (target : Expr) :
    Settles (readPostfix s calls target) tokens := by
  intro e rest h
  by_cases hnext : Continues calls tokens
  · rcases hnext with hnext | hnext | ⟨rfl, hnext⟩ <;>
      obtain ⟨token, after, rfl, hkind⟩ := exists_of_next? hnext
    · rw [reads_readPostfix_name s hkind] at h
      obtain ⟨token', after', name, rfl, hname, hread⟩ := h
      obtain ⟨used, rfl, hused⟩ := (ih after' (by simp)).suffixes calls _ e rest hread
      refine ⟨token :: token' :: used, rfl, fun later hlater => ?_⟩
      exact (reads_readPostfix_name s hkind _ _ _ _).mpr
        ⟨token', _, name, rfl, hname, hused later hlater⟩
    · rw [reads_readPostfix_item s hkind] at h
      obtain ⟨key, close, after', hkey, hclose, hread⟩ := h
      obtain ⟨used, rfl, hused⟩ := (ih after (by simp)).expr 0 key _ hkey
      obtain ⟨used', rfl, hused'⟩ := (ih after' (by simp; omega)).suffixes calls _ e rest hread
      refine ⟨token :: used ++ close :: used', by simp, fun later hlater => ?_⟩
      rw [List.append_assoc, List.cons_append, reads_readPostfix_item s hkind]
      exact ⟨key, close, used' ++ later, hused _ rfl, hclose, hused' later hlater⟩
    · rw [reads_readPostfix_call s hkind] at h
      obtain ⟨args, mid, hargs, hread⟩ := h
      obtain ⟨used, rfl, hused⟩ := (ih after (by simp)).list .rparen (by simp) args mid hargs
      obtain ⟨used', rfl, hused'⟩ := (ih mid (by simp)).suffixes true _ e rest hread
      refine ⟨token :: used ++ used', by simp, fun later hlater => ?_⟩
      rw [List.append_assoc, List.cons_append, reads_readPostfix_call s hkind]
      exact ⟨args, used' ++ later, hused _ (next?_append_congr used' hlater), hused' later hlater⟩
  · obtain ⟨rfl, rfl⟩ := (reads_readPostfix_stop s hnext target e rest).mp h
    refine ⟨[], rfl, fun later hlater => (reads_readPostfix_stop s ?_ _ _ _).mpr ⟨rfl, rfl⟩⟩
    rwa [List.nil_append, Continues, hlater]

theorem settles_readUnary : Settles (readUnary s) tokens := by
  intro e rest h
  by_cases hbang : next? tokens = some (.mark .bang)
  · obtain ⟨token, after, rfl, hkind⟩ := exists_of_next? hbang
    rw [reads_readUnary_not s hkind] at h
    obtain ⟨operand, rfl, hread⟩ := h
    obtain ⟨used, rfl, hused⟩ := (ih after (by simp)).unary operand rest hread
    refine ⟨token :: used, rfl, fun later hlater => ?_⟩
    exact (reads_readUnary_not s hkind _ _ _).mpr ⟨operand, rfl, hused later hlater⟩
  by_cases hsub : next? tokens = some (.operator .sub)
  · obtain ⟨token, after, rfl, hkind⟩ := exists_of_next? hsub
    rw [reads_readUnary_neg s hkind] at h
    obtain ⟨operand, rfl, hread⟩ := h
    obtain ⟨used, rfl, hused⟩ := (ih after (by simp)).unary operand rest hread
    refine ⟨token :: used, rfl, fun later hlater => ?_⟩
    exact (reads_readUnary_neg s hkind _ _ _).mpr ⟨operand, rfl, hused later hlater⟩
  rw [reads_readUnary_plain s hbang hsub] at h
  obtain ⟨base, mid, hbase, hread⟩ := h
  have hmid := hbase.shorter
  obtain ⟨used, rfl, hused⟩ := settles_readPrimary ih base mid hbase
  obtain ⟨used', rfl, hused'⟩ := (ih mid hmid).suffixes true base e rest hread
  refine ⟨used ++ used', by simp, fun later hlater => ?_⟩
  have hnext := next?_append_congr used (next?_append_congr used' hlater)
  rw [List.append_assoc, reads_readUnary_plain s (hnext ▸ hbang) (hnext ▸ hsub)]
  exact ⟨base, used' ++ later, hused _ (next?_append_congr used' hlater), hused' later hlater⟩

theorem settles_readOperators (n : Nat) (left : Expr) :
    Settles (readOperators s n left) tokens := by
  intro e rest h
  by_cases hjoins : Joins n tokens
  · obtain ⟨op, hnext, hlevel⟩ := hjoins
    obtain ⟨token, after, rfl, hkind⟩ := exists_of_next? hnext
    rw [reads_readOperators_join s hkind hlevel] at h
    obtain ⟨right, mid, hright, hread⟩ := h
    obtain ⟨used, rfl, hused⟩ := (ih after (by simp)).expr _ right mid hright
    obtain ⟨used', rfl, hused'⟩ := (ih mid (by simp)).operators n _ e rest hread
    refine ⟨token :: used ++ used', by simp, fun later hlater => ?_⟩
    rw [List.append_assoc, List.cons_append, reads_readOperators_join s hkind hlevel]
    exact ⟨right, used' ++ later, hused _ (next?_append_congr used' hlater), hused' later hlater⟩
  · obtain ⟨rfl, rfl⟩ := (reads_readOperators_stop s hjoins left e rest).mp h
    refine ⟨[], rfl, fun later hlater => (reads_readOperators_stop s ?_ _ _ _).mpr ⟨rfl, rfl⟩⟩
    rwa [List.nil_append, Joins, hlater]

theorem settles_readExpr (n : Nat) : Settles (readExpr s n) tokens := by
  intro e rest h
  rw [reads_readExpr] at h
  obtain ⟨left, mid, hleft, hread⟩ := h
  have hmid := hleft.shorter
  obtain ⟨used, rfl, hused⟩ := settles_readUnary ih left mid hleft
  obtain ⟨used', rfl, hused'⟩ := (ih mid hmid).operators n left e rest hread
  refine ⟨used ++ used', by simp, fun later hlater => ?_⟩
  rw [List.append_assoc, reads_readExpr]
  exact ⟨left, used' ++ later, hused _ (next?_append_congr used' hlater), hused' later hlater⟩

theorem settles_readItems (close : Mark) (hclose : close ≠ .comma) :
    Settles (readItems s close) tokens := by
  intro items rest h
  rw [reads_readItems s hclose] at h
  obtain ⟨item, token, mid, hitem, hmore⟩ := h
  have hmid := hitem.shorter
  obtain ⟨used, rfl, hused⟩ := settles_readExpr ih 0 item _ hitem
  rcases hmore with ⟨hkind, rfl, rfl⟩ | ⟨more, hkind, rfl, hmore⟩
  · refine ⟨used ++ [token], by simp, fun later hlater => ?_⟩
    rw [List.append_assoc, reads_readItems s hclose]
    exact ⟨item, token, later, hused (token :: later) rfl, .inl ⟨hkind, rfl, rfl⟩⟩
  · obtain ⟨used', rfl, hused'⟩ := (ih mid (by simp; omega)).items close hclose more rest hmore
    refine ⟨used ++ token :: used', by simp, fun later hlater => ?_⟩
    rw [List.append_assoc, List.cons_append, reads_readItems s hclose]
    exact ⟨item, token, used' ++ later, hused _ rfl,
      .inr ⟨more, hkind, rfl, hused' later hlater⟩⟩

theorem settles_readList (close : Mark) (hclose : close ≠ .comma) :
    Settles (readList s close) tokens := by
  intro items rest h
  by_cases hend : next? tokens = some (.mark close)
  · obtain ⟨token, after, rfl, hkind⟩ := exists_of_next? hend
    obtain ⟨rfl, rfl⟩ := (reads_readList_empty s hkind after items rest).mp h
    refine ⟨[token], rfl, fun later _ => ?_⟩
    exact (reads_readList_empty s hkind later [] later).mpr ⟨rfl, rfl⟩
  · rw [readList_eq s hend] at h
    obtain ⟨used, rfl, hused⟩ := settles_readItems ih close hclose items rest h
    refine ⟨used, rfl, fun later hlater => ?_⟩
    rw [readList_eq s (next?_append_congr used hlater ▸ hend)]
    exact hused later hlater

theorem settles_readMoreFields : Settles (readMoreFields s) tokens := by
  intro fields rest h
  rw [reads_readMoreFields] at h
  obtain ⟨name, key, colon, after, value, token, mid, rfl, hkey, hcolon, hvalue, hmore⟩ := h
  obtain ⟨used, rfl, hused⟩ := (ih after (by simp)).expr 0 value _ hvalue
  rcases hmore with ⟨hkind, rfl, rfl⟩ | ⟨more, hkind, rfl, hmore⟩
  · refine ⟨key :: colon :: used ++ [token], by simp, fun later hlater => ?_⟩
    rw [reads_readMoreFields]
    exact ⟨name, key, colon, used ++ token :: later, value, token, later, by simp, hkey, hcolon,
      hused _ rfl, .inl ⟨hkind, rfl, rfl⟩⟩
  · obtain ⟨used', rfl, hused'⟩ := (ih mid (by simp; omega)).moreFields more rest hmore
    refine ⟨key :: colon :: used ++ token :: used', by simp, fun later hlater => ?_⟩
    rw [reads_readMoreFields]
    exact ⟨name, key, colon, used ++ token :: (used' ++ later), value, token, used' ++ later,
      by simp, hkey, hcolon, hused _ rfl, .inr ⟨more, hkind, rfl, hused' later hlater⟩⟩

theorem settles_readFields : Settles (readFields s) tokens := by
  intro fields rest h
  by_cases hend : next? tokens = some (.mark .rbrace)
  · obtain ⟨token, after, rfl, hkind⟩ := exists_of_next? hend
    obtain ⟨rfl, rfl⟩ := (reads_readFields_empty s hkind after fields rest).mp h
    refine ⟨[token], rfl, fun later _ => ?_⟩
    exact (reads_readFields_empty s hkind later [] later).mpr ⟨rfl, rfl⟩
  · rw [readFields_eq s hend] at h
    obtain ⟨used, rfl, hused⟩ := settles_readMoreFields ih fields rest h
    refine ⟨used, rfl, fun later hlater => ?_⟩
    rw [readFields_eq s (next?_append_congr used hlater ▸ hend)]
    exact hused later hlater

end Step

theorem settled (tokens : List Token) : Settled s tokens := by
  induction hn : tokens.length using Nat.strong_induction_on generalizing tokens with
  | _ n ihn =>
    subst hn
    have ih : ∀ ts, ts.length < tokens.length → Settled s ts := fun ts hts => ihn _ hts ts rfl
    exact {
      expr := settles_readExpr ih
      operators := settles_readOperators ih
      unary := settles_readUnary ih
      suffixes := settles_readPostfix ih
      primary := settles_readPrimary ih
      list := settles_readList ih
      items := settles_readItems ih
      fields := settles_readFields ih
      moreFields := settles_readMoreFields ih }

end Memberwise.Template
