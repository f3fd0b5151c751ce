import Mathlib
import Memberwise.Template.Parse

/-!
# What each reader does with the next token

Every function that reads tokens looks at the next token only, or at the next two
of a field.  The lemmas here say, for each of them and each kind of next token,
exactly which values can be read and which tokens are then left.  Nothing after
this module opens the readers.
-/

namespace Memberwise.Template

/-! ## Tokens -/

/-- The expression that a token is, whatever the slots are. -/
def TokenKind.plain? : TokenKind → Option Expr
  | .ident name => some (.global name)
  | .int value => some (.int value)
  | .float value => some (.literal (.float value))
  | .string value => some (.string value)
  | .keyword .yes => some (.literal (.bool true))
  | .keyword .no => some (.literal (.bool false))
  | .keyword .null => some .null
  | .keyword .undefined => some .undefined
  | _ => none

/-- The expressions that a token is by itself. -/
inductive IsAtom (slots : Slots) : TokenKind → Expr → Prop
  | hole {name : String} {index : Nat} (h : slots.resolve name = .ok index) :
      IsAtom slots (.hole name) (.hole index)
  | plain {kind : TokenKind} {e : Expr} (h : kind.plain? = some e) : IsAtom slots kind e

/-- The name that a token gives to a field. -/
def TokenKind.key? : TokenKind → Option String
  | .ident name => some name
  | .string name => some name
  | _ => none

/-! ## Readings -/

/-- A value was read, and some tokens are left. -/
def Reads {α : Type} {bound : Nat} (r : Except Error (Reading α bound)) (value : α)
    (rest : List Token) : Prop :=
  ∃ shorter, r = .ok ⟨value, rest, shorter⟩

section Reads

variable {α : Type} {bound : Nat} {value : α} {rest : List Token}

@[simp]
theorem reads_ok (reading : Reading α bound) :
    Reads (.ok reading : Except Error (Reading α bound)) value rest ↔
      value = reading.value ∧ rest = reading.rest := by
  constructor
  · rintro ⟨_, h⟩
    cases h
    exact ⟨rfl, rfl⟩
  · rintro ⟨rfl, rfl⟩
    exact ⟨reading.shorter, rfl⟩

@[simp]
theorem not_reads_error (e : Error) :
    ¬ Reads (.error e : Except Error (Reading α bound)) value rest := by
  rintro ⟨_, h⟩
  cases h

end Reads

theorem Reads.shorter {α : Type} {bound : Nat} {r : Except Error (Reading α bound)} {value : α}
    {rest : List Token} (h : Reads r value rest) : rest.length < bound := h.1

/-- What the next token is. -/
def next? (tokens : List Token) : Option TokenKind := tokens.head?.map Token.kind

@[simp]
theorem next?_cons (token : Token) (rest : List Token) : next? (token :: rest) = some token.kind :=
  rfl

@[simp]
theorem next?_nil : next? [] = none := rfl

theorem exists_of_next? {tokens : List Token} {kind : TokenKind} (h : next? tokens = some kind) :
    ∃ token rest, tokens = token :: rest ∧ token.kind = kind := by
  cases tokens with
  | nil => cases h
  | cons token rest => exact ⟨token, rest, rfl, Option.some.inj h⟩

/-- An operator of at least some level comes next. -/
def Joins (n : Nat) (tokens : List Token) : Prop :=
  ∃ op, next? tokens = some (.operator op) ∧ n ≤ op.level

/-- A name, an item or, if allowed, a call comes next. -/
def Continues (calls : Bool) (tokens : List Token) : Prop :=
  next? tokens = some (.mark .dot) ∨ next? tokens = some (.mark .lbracket) ∨
    (calls = true ∧ next? tokens = some (.mark .lparen))

theorem takeMark?_cons {mark : Mark} {token : Token} (h : token.kind = .mark mark)
    (rest : List Token) : ∃ hlt, takeMark? mark (token :: rest) = some ⟨(), rest, hlt⟩ :=
  ⟨_, if_pos h⟩

theorem takeMark?_eq_none {mark : Mark} {tokens : List Token}
    (h : next? tokens ≠ some (.mark mark)) : takeMark? mark tokens = none := by
  cases tokens with
  | nil => rfl
  | cons token rest =>
    have hkind : token.kind ≠ .mark mark := fun hkind => h (congrArg some hkind)
    exact if_neg hkind

variable (s : Setting)

theorem reads_readExpr (n : Nat) (tokens : List Token) (e : Expr) (rest : List Token) :
    Reads (readExpr s n tokens) e rest ↔
      ∃ left mid, Reads (readUnary s tokens) left mid ∧
        Reads (readOperators s n left mid) e rest := by
  rw [readExpr.eq_def]
  cases readUnary s tokens with
  | error => simp
  | ok first =>
    obtain ⟨left, mid, hmid⟩ := first
    cases hlater : readOperators s n left mid with
    | error => simp [hlater, and_assoc]
    | ok second => simp [hlater, and_assoc]

theorem reads_readOperators_stop {n : Nat} {tokens : List Token} (hstop : ¬ Joins n tokens)
    (left e : Expr) (rest : List Token) :
    Reads (readOperators s n left tokens) e rest ↔ e = left ∧ rest = tokens := by
  rw [readOperators.eq_def]
  split
  · next op text column after =>
    have hlevel : op.level < n := by
      by_contra hle
      exact hstop ⟨op, rfl, Nat.le_of_not_lt hle⟩
    rw [if_pos hlevel]
    simp
  · simp

theorem reads_readOperators_join {n : Nat} {token : Token} {op : BinaryOp}
    (hkind : token.kind = .operator op) (hlevel : n ≤ op.level) (after : List Token)
    (left e : Expr) (rest : List Token) :
    Reads (readOperators s n left (token :: after)) e rest ↔
      ∃ right mid, Reads (readExpr s (op.level + 1) after) right mid ∧
        Reads (readOperators s n (.binary op left right) mid) e rest := by
  obtain ⟨kind, text, column⟩ := token
  obtain rfl : kind = .operator op := hkind
  rw [readOperators.eq_def]
  dsimp only
  rw [if_neg (Nat.not_lt_of_le hlevel)]
  cases readExpr s (op.level + 1) after with
  | error => simp
  | ok first =>
    obtain ⟨right, mid, hmid⟩ := first
    cases hlater : readOperators s n (.binary op left right) mid with
    | error => simp [hlater, and_assoc]
    | ok second => simp [hlater, and_assoc]

theorem reads_readUnary_not {token : Token} (hkind : token.kind = .mark .bang)
    (after : List Token) (e : Expr) (rest : List Token) :
    Reads (readUnary s (token :: after)) e rest ↔
      ∃ operand, e = .unary .not operand ∧ Reads (readUnary s after) operand rest := by
  obtain ⟨kind, text, column⟩ := token
  obtain rfl : kind = .mark .bang := hkind
  rw [readUnary.eq_def]
  dsimp only
  cases readUnary s after <;> simp

theorem reads_readUnary_neg {token : Token} (hkind : token.kind = .operator .sub)
    (after : List Token) (e : Expr) (rest : List Token) :
    Reads (readUnary s (token :: after)) e rest ↔
      ∃ operand, e = .unary .neg operand ∧ Reads (readUnary s after) operand rest := by
  obtain ⟨kind, text, column⟩ := token
  obtain rfl : kind = .operator .sub := hkind
  rw [readUnary.eq_def]
  dsimp only
  cases readUnary s after <;> simp

theorem reads_readUnary_plain {tokens : List Token} (hbang : next? tokens ≠ some (.mark .bang))
    (hsub : next? tokens ≠ some (.operator .sub)) (e : Expr) (rest : List Token) :
    Reads (readUnary s tokens) e rest ↔
      ∃ base mid, Reads (readPrimary s tokens) base mid ∧
        Reads (readPostfix s true base mid) e rest := by
  rw [readUnary.eq_def]
  split
  · exact absurd rfl hbang
  · exact absurd rfl hsub
  · cases readPrimary s tokens with
    | error => simp
    | ok first =>
      obtain ⟨base, mid, hmid⟩ := first
      cases hlater : readPostfix s true base mid with
      | error => simp [hlater, and_assoc]
      | ok second => simp [hlater, and_assoc]

section

variable {calls : Bool} {tokens : List Token}

theorem reads_readPostfix_stop (hstop : ¬ Continues calls tokens) (target e : Expr)
    (rest : List Token) :
    Reads (readPostfix s calls target tokens) e rest ↔ e = target ∧ rest = tokens := by
  rw [readPostfix.eq_def]
  split
  · exact absurd (.inl rfl) hstop
  · exact absurd (.inr (.inl rfl)) hstop
  · have hcalls : calls = false := by
      by_contra hcalls
      exact hstop (.inr (.inr ⟨Bool.eq_true_of_not_eq_false hcalls, rfl⟩))
    simp [hcalls]
  · simp

theorem reads_readPostfix_name {token : Token} (hkind : token.kind = .mark .dot)
    (after : List Token) (target e : Expr) (rest : List Token) :
    Reads (readPostfix s calls target (token :: after)) e rest ↔
      ∃ token' after' name, after = token' :: after' ∧ token'.kind = .ident name ∧
        Reads (readPostfix s calls (select target name) after') e rest := by
  obtain ⟨kind, text, column⟩ := token
  obtain rfl : kind = .mark .dot := hkind
  rw [readPostfix.eq_def]
  dsimp only
  split
  · next name text' column' after' =>
    cases hlater : readPostfix s calls (select target name) after' with
    | error => simp [hlater]
    | ok second => simp [hlater]
  · next hother =>
    simp only [not_reads_error, false_iff, not_exists, not_and]
    rintro ⟨kind, text', column'⟩ after' name rfl hname -
    exact hother name text' column' after' (by rw [← hname])

theorem reads_readPostfix_item {token : Token} (hkind : token.kind = .mark .lbracket)
    (after : List Token) (target e : Expr) (rest : List Token) :
    Reads (readPostfix s calls target (token :: after)) e rest ↔
      ∃ key close after', Reads (readExpr s 0 after) key (close :: after') ∧
        close.kind = .mark .rbracket ∧
        Reads (readPostfix s calls (.item target key) after') e rest := by
  obtain ⟨kind, text, column⟩ := token
  obtain rfl : kind = .mark .lbracket := hkind
  rw [readPostfix.eq_def]
  dsimp only
  cases readExpr s 0 after with
  | error => simp
  | ok first =>
    obtain ⟨key, mid, hmid⟩ := first
    by_cases hclose : next? mid = some (.mark .rbracket)
    · obtain ⟨close, after', rfl, hkind⟩ := exists_of_next? hclose
      obtain ⟨_, htake⟩ := takeMark?_cons hkind after'
      dsimp only
      rw [htake]
      dsimp only
      cases hlater : readPostfix s calls (.item target key) after' with
      | error => simp [hlater, hkind, and_assoc]
      | ok second => simp [hlater, hkind, and_assoc]
    · dsimp only
      rw [takeMark?_eq_none hclose]
      simp only [not_reads_error, reads_ok, false_iff, not_exists, not_and]
      rintro _ close after' ⟨-, rfl⟩ hkind
      exact absurd (congrArg some hkind) hclose

theorem reads_readPostfix_call {token : Token} (hkind : token.kind = .mark .lparen)
    (after : List Token) (target e : Expr) (rest : List Token) :
    Reads (readPostfix s true target (token :: after)) e rest ↔
      ∃ args mid, Reads (readList s .rparen after) args mid ∧
        Reads (readPostfix s true (.apply target args) mid) e rest := by
  obtain ⟨kind, text, column⟩ := token
  obtain rfl : kind = .mark .lparen := hkind
  rw [readPostfix.eq_def]
  dsimp only
  rw [if_pos rfl]
  cases readList s .rparen after with
  | error => simp
  | ok first =>
    obtain ⟨args, mid, hmid⟩ := first
    cases hlater : readPostfix s true (.apply target args) mid with
    | error => simp [hlater, and_assoc]
    | ok second => simp [hlater, and_assoc]

end

theorem reads_readPrimary_new {token : Token} (hkind : token.kind = .keyword .new)
    (after : List Token) (e : Expr) (rest : List Token) :
    Reads (readPrimary s (token :: after)) e rest ↔
      ∃ base mid maker mid', Reads (readPrimary s after) base mid ∧
        Reads (readPostfix s false base mid) maker mid' ∧
        ((next? mid' ≠ some (.mark .lparen) ∧ e = .new maker [] ∧ rest = mid') ∨
          ∃ paren mid'' args, mid' = paren :: mid'' ∧ paren.kind = .mark .lparen ∧
            e = .new maker args ∧ Reads (readList s .rparen mid'') args rest) := by
  obtain ⟨kind, text, column⟩ := token
  obtain rfl : kind = .keyword .new := hkind
  rw [readPrimary.eq_def]
  dsimp only
  cases readPrimary s after with
  | error => simp
  | ok first =>
    obtain ⟨base, mid, hmid⟩ := first
    dsimp only
    cases hlater : readPostfix s false base mid with
    | error => simp [hlater, and_assoc]
    | ok second =>
      obtain ⟨maker, mid', hmid'⟩ := second
      dsimp only
      by_cases hparen : next? mid' = some (.mark .lparen)
      · obtain ⟨paren, mid'', rfl, hkind⟩ := exists_of_next? hparen
        obtain ⟨_, htake⟩ := takeMark?_cons hkind mid''
        rw [htake]
        dsimp only
        cases hargs : readList s .rparen mid'' with
        | error => simp [hlater, hkind, hargs, and_assoc]
        | ok third => simp [hlater, hkind, hargs, and_assoc]
      · rw [takeMark?_eq_none hparen]
        simp only [reads_ok]
        constructor
        · rintro ⟨rfl, rfl⟩
          exact ⟨base, mid, maker, _, ⟨rfl, rfl⟩, by simp [hlater], .inl ⟨hparen, rfl, rfl⟩⟩
        · rintro ⟨_, _, _, mid'', ⟨rfl, rfl⟩, hmaker, hargs⟩
          obtain ⟨rfl, rfl⟩ := (reads_ok _).mp (hlater ▸ hmaker)
          rcases hargs with ⟨-, rfl, rfl⟩ | ⟨paren, mid'', args, rfl, hkind, -⟩
          · exact ⟨rfl, rfl⟩
          · exact absurd (congrArg some hkind) hparen

theorem reads_readPrimary_parens {token : Token} (hkind : token.kind = .mark .lparen)
    (after : List Token) (e : Expr) (rest : List Token) :
    Reads (readPrimary s (token :: after)) e rest ↔
      ∃ close, close.kind = .mark .rparen ∧ Reads (readExpr s 0 after) e (close :: rest) := by
  obtain ⟨kind, text, column⟩ := token
  obtain rfl : kind = .mark .lparen := hkind
  rw [readPrimary.eq_def]
  dsimp only
  cases readExpr s 0 after with
  | error => simp
  | ok first =>
    obtain ⟨value, mid, hmid⟩ := first
    dsimp only
    by_cases hclose : next? mid = some (.mark .rparen)
    · obtain ⟨close, after', rfl, hkind⟩ := exists_of_next? hclose
      obtain ⟨_, htake⟩ := takeMark?_cons hkind after'
      rw [htake]
      simp only [reads_ok, List.cons.injEq]
      constructor
      · rintro ⟨rfl, rfl⟩
        exact ⟨close, hkind, rfl, rfl, rfl⟩
      · rintro ⟨_, -, rfl, -, rfl⟩
        exact ⟨rfl, rfl⟩
    · rw [takeMark?_eq_none hclose]
      simp only [not_reads_error, reads_ok, false_iff, not_exists, not_and]
      rintro close hkind - rfl
      exact absurd (congrArg some hkind) hclose

theorem reads_readPrimary_array {token : Token} (hkind : token.kind = .mark .lbracket)
    (after : List Token) (e : Expr) (rest : List Token) :
    Reads (readPrimary s (token :: after)) e rest ↔
      ∃ items, e = .array items ∧ Reads (readList s .rbracket after) items rest := by
  obtain ⟨kind, text, column⟩ := token
  obtain rfl : kind = .mark .lbracket := hkind
  rw [readPrimary.eq_def]
  dsimp only
  cases readList s .rbracket after <;> simp

theorem reads_readPrimary_object {token : Token} (hkind : token.kind = .mark .lbrace)
    (after : List Token) (e : Expr) (rest : List Token) :
    Reads (readPrimary s (token :: after)) e rest ↔
      ∃ fields, e = .object fields ∧ Reads (readFields s after) fields rest := by
  obtain ⟨kind, text, column⟩ := token
  obtain rfl : kind = .mark .lbrace := hkind
  rw [readPrimary.eq_def]
  dsimp only
  cases readFields s after <;> simp

/-- The tokens that begin an operand of more than one token. -/
def TokenKind.opens : TokenKind → Bool
  | .keyword .new | .mark .lparen | .mark .lbracket | .mark .lbrace => true
  | _ => false

theorem opens_iff {kind : TokenKind} :
    kind.opens = true ↔ kind = .keyword .new ∨ kind = .mark .lparen ∨ kind = .mark .lbracket ∨
      kind = .mark .lbrace := by
  cases kind with
  | keyword word => cases word <;> simp [TokenKind.opens]
  | mark mark => cases mark <;> simp [TokenKind.opens]
  | _ => simp [TokenKind.opens]

theorem atom?_hole (column : Nat) (name : String) :
    atom? s column (.hole name) =
      match s.slots.resolve name with
      | .error cause => some (.error ⟨cause, column⟩)
      | .ok index => some (.ok (.hole index)) := rfl

theorem atom?_of_ne_hole (column : Nat) {kind : TokenKind} (h : ∀ name, kind ≠ .hole name) :
    atom? s column kind = kind.plain?.map .ok := by
  cases kind with
  | hole name => exact absurd rfl (h name)
  | keyword word => cases word <;> rfl
  | _ => rfl

theorem atom?_eq_ok (column : Nat) (kind : TokenKind) (e : Expr) :
    atom? s column kind = some (.ok e) ↔ IsAtom s.slots kind e := by
  by_cases hhole : ∃ name, kind = .hole name
  · obtain ⟨name, rfl⟩ := hhole
    rw [atom?_hole]
    cases hresolve : s.slots.resolve name with
    | error cause =>
      simp only [Option.some.injEq, reduceCtorEq, false_iff]
      rintro (⟨h⟩ | ⟨h⟩)
      · cases hresolve.symm.trans h
      · cases h
    | ok index =>
      simp only [Option.some.injEq, Except.ok.injEq]
      constructor
      · rintro rfl
        exact .hole hresolve
      · rintro (⟨h⟩ | ⟨h⟩)
        · cases hresolve.symm.trans h
          rfl
        · cases h
  · rw [atom?_of_ne_hole s column (not_exists.mp hhole)]
    simp only [Option.map_eq_some_iff, Except.ok.injEq, exists_eq_right]
    constructor
    · exact .plain
    · rintro (⟨h⟩ | ⟨h⟩)
      · exact absurd ⟨_, rfl⟩ hhole
      · exact h

theorem reads_readPrimary_atom {token : Token} (hkind : token.kind.opens = false)
    (after : List Token) (e : Expr) (rest : List Token) :
    Reads (readPrimary s (token :: after)) e rest ↔ IsAtom s.slots token.kind e ∧ rest = after := by
  have hatom : readPrimary s (token :: after) = readAtom s (token :: after) := by
    obtain ⟨kind, text, column⟩ := token
    rw [readPrimary.eq_def]
    cases kind with
    | keyword word => cases word <;> first | rfl | cases hkind
    | mark mark => cases mark <;> first | rfl | cases hkind
    | _ => rfl
  rw [hatom, readAtom, ← atom?_eq_ok s token.column]
  split
  · next h => simp [h]
  · next h => simp [h]
  · next h => simp [h, eq_comm]

theorem reads_readList_empty {close : Mark} {token : Token} (hkind : token.kind = .mark close)
    (after : List Token) (items : List Expr) (rest : List Token) :
    Reads (readList s close (token :: after)) items rest ↔ items = [] ∧ rest = after := by
  obtain ⟨_, htake⟩ := takeMark?_cons hkind after
  rw [readList.eq_def, htake]
  simp

theorem readList_eq {close : Mark} {tokens : List Token}
    (hopen : next? tokens ≠ some (.mark close)) :
    readList s close tokens = readItems s close tokens := by
  rw [readList.eq_def, takeMark?_eq_none hopen]

theorem reads_readItems {close : Mark} (hclose : close ≠ .comma) (tokens : List Token)
    (items : List Expr) (rest : List Token) :
    Reads (readItems s close tokens) items rest ↔
      ∃ item token mid, Reads (readExpr s 0 tokens) item (token :: mid) ∧
        ((token.kind = .mark close ∧ items = [item] ∧ rest = mid) ∨
          ∃ more, token.kind = .mark .comma ∧ items = item :: more ∧
            Reads (readItems s close mid) more rest) := by
  rw [readItems.eq_def]
  cases readExpr s 0 tokens with
  | error => simp
  | ok first =>
    obtain ⟨item, mid, hmid⟩ := first
    dsimp only
    by_cases hend : next? mid = some (.mark close)
    · obtain ⟨token, after, rfl, hkind⟩ := exists_of_next? hend
      obtain ⟨_, htake⟩ := takeMark?_cons hkind after
      rw [htake]
      simp [hkind, hclose, and_assoc]
    · rw [takeMark?_eq_none hend]
      dsimp only
      by_cases hcomma : next? mid = some (.mark .comma)
      · obtain ⟨token, after, rfl, hkind⟩ := exists_of_next? hcomma
        obtain ⟨_, htake⟩ := takeMark?_cons hkind after
        rw [htake]
        dsimp only
        cases hlater : readItems s close after with
        | error => simp [hlater, hkind, hclose.symm, and_assoc]
        | ok second => simp [hlater, hkind, hclose.symm, and_assoc]
      · rw [takeMark?_eq_none hcomma]
        simp only [not_reads_error, reads_ok, false_iff, not_exists, not_and, not_or]
        rintro _ token mid' ⟨-, rfl⟩
        exact ⟨fun hkind => absurd (congrArg some hkind) hend,
          fun _ hkind => absurd (congrArg some hkind) hcomma⟩

theorem takeKey?_cons {token : Token} {name : String} (hkey : token.kind.key? = some name)
    (rest : List Token) : ∃ hlt, takeKey? (token :: rest) = some ⟨name, rest, hlt⟩ := by
  obtain ⟨kind, text, column⟩ := token
  dsimp only at hkey
  unfold TokenKind.key? at hkey
  split at hkey <;> cases hkey <;> exact ⟨_, rfl⟩

theorem takeKey?_eq_none {tokens : List Token}
    (h : ∀ token rest, tokens = token :: rest → token.kind.key? = none) :
    takeKey? tokens = none := by
  unfold takeKey?
  split
  · cases h _ _ rfl
  · cases h _ _ rfl
  · rfl

theorem reads_readFields_empty {token : Token} (hkind : token.kind = .mark .rbrace)
    (after : List Token) (fields : List (String × Expr)) (rest : List Token) :
    Reads (readFields s (token :: after)) fields rest ↔ fields = [] ∧ rest = after := by
  obtain ⟨_, htake⟩ := takeMark?_cons hkind after
  rw [readFields.eq_def, htake]
  simp

theorem readFields_eq {tokens : List Token} (hopen : next? tokens ≠ some (.mark .rbrace)) :
    readFields s tokens = readMoreFields s tokens := by
  rw [readFields.eq_def, takeMark?_eq_none hopen]

theorem reads_readMoreFields (tokens : List Token) (fields : List (String × Expr))
    (rest : List Token) :
    Reads (readMoreFields s tokens) fields rest ↔
      ∃ name key colon after value token mid, tokens = key :: colon :: after ∧
        key.kind.key? = some name ∧ colon.kind = .mark .colon ∧
        Reads (readExpr s 0 after) value (token :: mid) ∧
        ((token.kind = .mark .rbrace ∧ fields = [(name, value)] ∧ rest = mid) ∨
          ∃ more, token.kind = .mark .comma ∧ fields = (name, value) :: more ∧
            Reads (readMoreFields s mid) more rest) := by
  rw [readMoreFields.eq_def]
  by_cases hkey : ∃ key after name, tokens = key :: after ∧ key.kind.key? = some name
  · obtain ⟨key, after, name, rfl, hname⟩ := hkey
    obtain ⟨_, htake⟩ := takeKey?_cons hname after
    rw [htake]
    dsimp only
    by_cases hcolon : next? after = some (.mark .colon)
    · obtain ⟨colon, after', rfl, hkind⟩ := exists_of_next? hcolon
      obtain ⟨_, htake⟩ := takeMark?_cons hkind after'
      rw [htake]
      dsimp only
      cases hvalue : readExpr s 0 after' with
      | error => simp [hvalue]
      | ok first =>
        obtain ⟨value, mid, hmid⟩ := first
        dsimp only
        by_cases hend : next? mid = some (.mark .rbrace)
        · obtain ⟨token, mid', rfl, hbrace⟩ := exists_of_next? hend
          obtain ⟨_, htake⟩ := takeMark?_cons hbrace mid'
          rw [htake]
          simp [hkind, hbrace, hname, hvalue, and_assoc]
        · rw [takeMark?_eq_none hend]
          dsimp only
          by_cases hcomma : next? mid = some (.mark .comma)
          · obtain ⟨token, mid', rfl, hnext⟩ := exists_of_next? hcomma
            obtain ⟨_, htake⟩ := takeMark?_cons hnext mid'
            rw [htake]
            dsimp only
            cases hlater : readMoreFields s mid' with
            | error => simp [hlater, hvalue, hnext]
            | ok second => simp [hlater, hkind, hname, hvalue, hnext, and_assoc]
          · rw [takeMark?_eq_none hcomma]
            simp only [not_reads_error, false_iff, not_exists, not_and, not_or]
            rintro _ _ _ _ _ token mid' ⟨-, rfl⟩ - - hread
            obtain ⟨-, rfl⟩ := (reads_ok _).mp (hvalue ▸ hread)
            exact ⟨fun hkind => absurd (congrArg some hkind) hend,
              fun _ hkind => absurd (congrArg some hkind) hcomma⟩
    · rw [takeMark?_eq_none hcolon]
      simp only [not_reads_error, false_iff, not_exists, not_and]
      rintro _ _ colon _ _ _ _ ⟨-, rfl⟩ - hkind
      exact absurd (congrArg some hkind) hcolon
  · rw [takeKey?_eq_none fun token rest htokens =>
      Option.eq_none_iff_forall_ne_some.mpr fun name hname =>
        hkey ⟨token, rest, name, htokens, hname⟩]
    simp only [not_reads_error, false_iff, not_exists, not_and]
    rintro name key colon after _ _ _ rfl hname
    exact absurd ⟨_, _, _, rfl, hname⟩ hkey

end Memberwise.Template
