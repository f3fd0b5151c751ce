import Mathlib
import Memberwise.Proofs.TemplateFailures
import Memberwise.Proofs.TemplateGrammar

/-!
# Errors at the earliest token

Tokens are viable if some further tokens would complete them to a template.  A
parser that blames a token is right about the place if the tokens before it are
viable and stop to be so with it: no token before could be blamed, and no change
after it helps.  The main result says that the parser of templates does this, and
that it blames the end only for tokens that are viable as a whole.

Every reader is shown to do this for its own phrase, by induction on the number of
tokens.  A failure further on is one of the whole phrase because what was read
before depends on the used tokens and the next one only.
-/

namespace Memberwise.Template

/-! ## Viable tokens -/

/-- Tokens that some further ones complete to a phrase. -/
def Viable (slots : Slots) (phrase : Phrase) (ts : List TokenKind) : Prop :=
  ∃ more e, Derives slots phrase (ts ++ more) e

/-- Tokens that some further ones complete to a list with an item, up to its closing mark. -/
def ViableItems (slots : Slots) (close : Mark) (ts : List TokenKind) : Prop :=
  ∃ (more : List TokenKind) (written : List Written), written ≠ [] ∧
    ts ++ more = separated (written.map Written.tokens) ++ [.mark close] ∧
    ∀ item ∈ written, Derives slots (.level 0) item.tokens item.value

/-- Tokens that some further ones complete to the fields of an object and its closing brace. -/
def ViableFields (slots : Slots) (ts : List TokenKind) : Prop :=
  ∃ (more : List TokenKind) (written : List WrittenField), written ≠ [] ∧
    ts ++ more = separated (written.map WrittenField.tokens) ++ [.mark .rbrace] ∧
    (∀ f ∈ written, f.key.key? = some f.name) ∧
    ∀ f ∈ written, Derives slots (.level 0) f.item.tokens f.item.value

section Viable

variable {slots : Slots} {ts us : List TokenKind}

theorem Derives.viable {phrase : Phrase} {e : Expr} (h : Derives slots phrase ts e) :
    Viable slots phrase ts :=
  ⟨[], e, by rwa [List.append_nil]⟩

theorem viable_nil : Viable slots .primary [] :=
  ⟨[.keyword .null], .null, .atom (.plain rfl)⟩

theorem Viable.loosen {n k : Nat} (hnk : n ≤ k) (h : Viable slots (.level k) ts) :
    Viable slots (.level n) ts := by
  obtain ⟨more, e, h⟩ := h
  exact ⟨more, e, h.loosen hnk⟩

theorem Viable.operand (h : Viable slots .operand ts) : Viable slots (.level 7) ts := by
  obtain ⟨more, e, h⟩ := h
  exact ⟨more, e, h.operand⟩

theorem Viable.binary {op : BinaryOp} {left : Expr}
    (hleft : Derives slots (.level op.level) us left)
    (h : Viable slots (.level (op.level + 1)) ts) :
    Viable slots (.level op.level) (us ++ .operator op :: ts) := by
  obtain ⟨more, right, h⟩ := h
  have hbinary := hleft.binary ((mem_operatorsAt op _).mpr rfl) h
  exact ⟨more, _, by simpa using hbinary⟩

theorem Viable.not (h : Viable slots .operand ts) : Viable slots .operand (.mark .bang :: ts) := by
  obtain ⟨more, e, h⟩ := h
  exact ⟨more, _, h.not⟩

theorem Viable.neg (h : Viable slots .operand ts) :
    Viable slots .operand (.operator .sub :: ts) := by
  obtain ⟨more, e, h⟩ := h
  exact ⟨more, _, h.neg⟩

theorem Viable.chain (h : Viable slots (.chain true) ts) : Viable slots .operand ts := by
  obtain ⟨more, e, h⟩ := h
  exact ⟨more, e, h.chain⟩

theorem Viable.primary {calls : Bool} (h : Viable slots .primary ts) :
    Viable slots (.chain calls) ts := by
  obtain ⟨more, e, h⟩ := h
  exact ⟨more, e, h.primary⟩

theorem Viable.item {calls : Bool} {target : Expr}
    (htarget : Derives slots (.chain calls) us target)
    (h : Viable slots (.level 0) ts) :
    Viable slots (.chain calls) (us ++ .mark .lbracket :: ts) := by
  obtain ⟨more, e, h⟩ := h
  exact ⟨more ++ [.mark .rbracket], _, by simpa using htarget.item h⟩

theorem ViableItems.call {target : Expr} (htarget : Derives slots (.chain true) us target)
    (h : ViableItems slots .rparen ts) :
    Viable slots (.chain true) (us ++ .mark .lparen :: ts) := by
  obtain ⟨more, written, -, hts, hwritten⟩ := h
  exact ⟨more, _, by simpa [hts] using htarget.call hwritten⟩

theorem Viable.new (h : Viable slots (.chain false) ts) :
    Viable slots .primary (.keyword .new :: ts) := by
  obtain ⟨more, e, h⟩ := h
  have hnew := @Derives.new slots _ e [] h (by simp)
  exact ⟨more ++ [.mark .lparen, .mark .rparen], _, by simpa [separated] using hnew⟩

theorem ViableItems.new {target : Expr} (htarget : Derives slots (.chain false) us target)
    (h : ViableItems slots .rparen ts) :
    Viable slots .primary (.keyword .new :: (us ++ .mark .lparen :: ts)) := by
  obtain ⟨more, written, -, hts, hwritten⟩ := h
  exact ⟨more, _, by simpa [hts] using htarget.new hwritten⟩

theorem Viable.parens (h : Viable slots (.level 0) ts) :
    Viable slots .primary (.mark .lparen :: ts) := by
  obtain ⟨more, e, h⟩ := h
  exact ⟨more ++ [.mark .rparen], e, by simpa using h.parens⟩

theorem ViableItems.array (h : ViableItems slots .rbracket ts) :
    Viable slots .primary (.mark .lbracket :: ts) := by
  obtain ⟨more, written, -, hts, hwritten⟩ := h
  exact ⟨more, _, by simpa [hts] using Derives.array hwritten⟩

theorem ViableFields.object (h : ViableFields slots ts) :
    Viable slots .primary (.mark .lbrace :: ts) := by
  obtain ⟨more, written, -, hts, hkeys, hwritten⟩ := h
  exact ⟨more, _, by simpa [hts] using Derives.object hkeys hwritten⟩

theorem Viable.items (close : Mark) (h : Viable slots (.level 0) ts) :
    ViableItems slots close ts := by
  obtain ⟨more, e, h⟩ := h
  exact ⟨more ++ [.mark close], [⟨ts ++ more, e⟩], by simp, by simp [separated], by simpa using h⟩

theorem ViableItems.cons {close : Mark} {item : Expr} (hitem : Derives slots (.level 0) us item)
    (h : ViableItems slots close ts) : ViableItems slots close (us ++ .mark .comma :: ts) := by
  obtain ⟨more, written, hne, hts, hwritten⟩ := h
  have hparts : written.map Written.tokens ≠ [] := by simpa using hne
  refine ⟨more, ⟨us, item⟩ :: written, by simp, ?_, by simpa using ⟨hitem, hwritten⟩⟩
  simp [separated_cons hparts, hts]

theorem Viable.fields {key : TokenKind} {name : String} (hkey : key.key? = some name)
    (h : Viable slots (.level 0) ts) :
    ViableFields slots (key :: .mark .colon :: ts) := by
  obtain ⟨more, e, h⟩ := h
  refine ⟨more ++ [.mark .rbrace], [⟨key, name, ⟨ts ++ more, e⟩⟩], by simp, ?_, ?_, ?_⟩
  · simp [separated, WrittenField.tokens]
  · simpa using hkey
  · simpa using h

theorem ViableFields.cons {key : TokenKind} {name : String} {value : Expr}
    (hkey : key.key? = some name) (hvalue : Derives slots (.level 0) us value)
    (h : ViableFields slots ts) :
    ViableFields slots (key :: .mark .colon :: (us ++ .mark .comma :: ts)) := by
  obtain ⟨more, written, hne, hts, hkeys, hwritten⟩ := h
  have hparts : written.map WrittenField.tokens ≠ [] := by simpa using hne
  refine ⟨more, ⟨key, name, ⟨us, value⟩⟩ :: written, by simp, ?_, ?_, ?_⟩
  · simp [separated_cons hparts, WrittenField.tokens, hts]
  · simpa using ⟨hkey, hkeys⟩
  · simpa using ⟨hvalue, hwritten⟩

theorem ViableFields.of_append (h : ViableFields slots (ts ++ us)) : ViableFields slots ts := by
  obtain ⟨more, written, hne, hts, hrest⟩ := h
  exact ⟨us ++ more, written, hne, by rwa [← List.append_assoc], hrest⟩

theorem viableFields_key {key : TokenKind} {name : String} (hkey : key.key? = some name) :
    ViableFields slots [key] := by
  have hvalue : Viable slots (.level 0) [] := viable_nil.primary.chain.operand.loosen (by simp)
  have hfield : ViableFields slots ([key] ++ [.mark .colon]) := hvalue.fields hkey
  exact hfield.of_append

theorem viableFields_nil : ViableFields slots [] := by
  have hkey : ViableFields slots ([] ++ [.ident "name"]) := viableFields_key rfl
  exact hkey.of_append

end Viable

/-! ## Failures at a place -/

section FailsAt

variable {α β : Type} {bound bound' : List Token → Nat}

/--
A reader fails at some tokens in the right place: at their end, which leaves them
viable, or at one of them, up to which they are viable and with which the reader
fails whatever comes later.
-/
inductive FailsAt (s : Setting)
    (read : (tokens : List Token) → Except Error (Reading α (bound tokens)))
    (viable : List TokenKind → Prop) (error : Error) : List Token → Prop
  | stop {tokens : List Token} {what : String} (herror : error = ⟨.expected what none, s.stop⟩)
      (hviable : viable (tokens.map Token.kind)) : FailsAt s read viable error tokens
  | token {front : List Token} {token : Token} {back : List Token}
      (haccuses : Accuses s.slots token error) (hviable : viable (front.map Token.kind))
      (hfails : ∀ later, read (front ++ token :: later) = .error error) :
      FailsAt s read viable error (front ++ token :: back)

variable {s : Setting} {error : Error} {viable viable' : List TokenKind → Prop}
variable {read : (tokens : List Token) → Except Error (Reading α (bound tokens))}
variable {read' : (tokens : List Token) → Except Error (Reading β (bound' tokens))}

/-- A failure is one of a longer phrase that starts with the tokens used before. -/
theorem FailsAt.after {tokens : List Token} (h : FailsAt s read viable error tokens)
    (used : List Token) (hviable : ∀ ts, viable ts → viable' (used.map Token.kind ++ ts))
    (hfails : ∀ later, next? later = next? tokens → read later = .error error →
      read' (used ++ later) = .error error) :
    FailsAt s read' viable' error (used ++ tokens) := by
  cases h with
  | stop herror hopen => exact .stop herror (by simpa using hviable _ hopen)
  | @token front token back haccuses hopen hstuck =>
    rw [← List.append_assoc]
    refine .token haccuses (by simpa using hviable _ hopen) fun later => ?_
    rw [List.append_assoc]
    refine hfails _ ?_ (hstuck later)
    exact next?_append_congr front rfl

theorem expected_congr (what : String) {later tokens : List Token}
    (h : later.head? = tokens.head?) : s.expected what later = s.expected what tokens := by
  cases later with
  | nil =>
    obtain rfl : tokens = [] := by simpa [eq_comm] using h
    rfl
  | cons token later =>
    obtain ⟨rest, rfl⟩ := List.head?_eq_some_iff.mp h.symm
    rfl

/-- After the used tokens something else was needed than what comes next. -/
theorem failsAt_expected (used : List Token) {tokens : List Token} {what : String}
    (herror : error = s.expected what tokens) (hviable : viable (used.map Token.kind))
    (hfails : ∀ later, next? later = next? tokens → error = s.expected what later →
      read (used ++ later) = .error error) :
    FailsAt s read viable error (used ++ tokens) := by
  cases tokens with
  | nil => exact .stop herror (by simpa using hviable)
  | cons token back =>
    refine .token (herror ▸ ⟨rfl, .unexpected _ what⟩) hviable fun later => ?_
    exact hfails (token :: later) rfl (herror.trans (expected_congr what rfl))

end FailsAt

/-- What was read before, with the tokens it is derived from. -/
theorem Settles.derives {bound : List Token → Nat}
    {read : (tokens : List Token) → Except Error (Reading Expr (bound tokens))}
    {tokens rest : List Token} (hsettles : Settles read tokens) {e : Expr}
    (hread : Reads (read tokens) e rest) {slots : Slots} {phrase : Phrase}
    {front : List TokenKind} (hspans : Spans slots phrase front tokens e rest) :
    ∃ used, tokens = used ++ rest ∧ Derives slots phrase (front ++ used.map Token.kind) e ∧
      ∀ later, next? later = next? rest → Reads (read (used ++ later)) e later := by
  obtain ⟨used, rfl, hused⟩ := hsettles e rest hread
  obtain ⟨used', htokens, hderives⟩ := hspans
  obtain rfl : used = used' := List.append_cancel_right htokens
  exact ⟨used, rfl, hderives, hused⟩

/-- An expression that was read before, with the tokens it is derived from. -/
theorem derives_of_reads_readExpr {s : Setting} {n : Nat} (hn : n ≤ 7) {tokens rest : List Token}
    {e : Expr} (hread : Reads (readExpr s n tokens) e rest) :
    ∃ used, tokens = used ++ rest ∧ Derives s.slots (.level n) (used.map Token.kind) e ∧
      (∀ later, next? later = next? rest → Reads (readExpr s n (used ++ later)) e later) ∧
      ¬ Joins n rest := by
  obtain ⟨hspans, hstop⟩ := (sound s tokens).expr n hn e rest hread
  obtain ⟨used, rfl, hderives, hused⟩ := ((settled s tokens).expr n).derives hread hspans
  exact ⟨used, rfl, hderives, hused, hstop⟩

/-! ## The readers -/

/-- Every reader that fails at some tokens does so in the right place. -/
structure Early (s : Setting) (tokens : List Token) : Prop where
  expr : ∀ n ≤ 7, ∀ error, readExpr s n tokens = .error error →
    FailsAt s (readExpr s n) (Viable s.slots (.level n)) error tokens
  operators : ∀ n k front left error, Derives s.slots (.level k) front left →
    ¬ Joins (k + 1) tokens → readOperators s n left tokens = .error error →
    FailsAt s (readOperators s n left) (fun ts => Viable s.slots (.level n) (front ++ ts)) error
      tokens
  unary : ∀ error, readUnary s tokens = .error error →
    FailsAt s (readUnary s) (Viable s.slots .operand) error tokens
  suffixes : ∀ calls front target error, Derives s.slots (.chain calls) front target →
    readPostfix s calls target tokens = .error error →
    FailsAt s (readPostfix s calls target)
      (fun ts => Viable s.slots (.chain calls) (front ++ ts)) error tokens
  primary : ∀ error, readPrimary s tokens = .error error →
    FailsAt s (readPrimary s) (Viable s.slots .primary) error tokens
  list : ∀ close ≠ .comma, ∀ error, readList s close tokens = .error error →
    FailsAt s (readList s close) (ViableItems s.slots close) error tokens
  items : ∀ close ≠ .comma, ∀ error, readItems s close tokens = .error error →
    FailsAt s (readItems s close) (ViableItems s.slots close) error tokens
  fields : ∀ error, readFields s tokens = .error error →
    FailsAt s (readFields s) (ViableFields s.slots) error tokens
  moreFields : ∀ error, readMoreFields s tokens = .error error →
    FailsAt s (readMoreFields s) (ViableFields s.slots) error tokens

section Step

variable {s : Setting} {tokens : List Token}
variable (ih : ∀ ts, ts.length < tokens.length → Early s ts)

include ih

theorem early_readPrimary_new {token : Token} (hkind : token.kind = .keyword .new)
    {after : List Token} (htokens : tokens = token :: after) (error : Error)
    (h : readPrimary s tokens = .error error) :
    FailsAt s (readPrimary s) (Viable s.slots .primary) error tokens := by
  subst htokens
  rw [fails_readPrimary_new s hkind] at h
  rcases h with h | ⟨base, mid, hbase, h⟩
  · refine ((ih after (by simp)).primary error h).after [token] ?_ ?_
    · intro ts hts
      simpa [hkind] using hts.primary.new
    · intro later _ hfails
      exact (fails_readPrimary_new s hkind later).mpr (.inl hfails)
  rcases (sound s after).primary base mid hbase with hspans | ⟨-, hstop⟩
  · obtain ⟨used, rfl, hderives, hused⟩ := (settled s after).primary.derives hbase hspans
    rcases h with h | ⟨maker, paren, mid', hmaker, hparen, h⟩
    · refine ((ih mid (by simp)).suffixes false _ base error hderives.primary h).after
        (token :: used) ?_ ?_
      · intro ts hts
        simpa [hkind] using hts.new
      · intro later hnext hfails
        exact (fails_readPrimary_new s hkind _).mpr
          (.inr ⟨base, later, hused later hnext, .inl hfails⟩)
    · obtain ⟨hspans', -⟩ := (sound s mid).suffixes false _ base maker _ hderives.primary hmaker
      obtain ⟨used', rfl, hderives', hused'⟩ :=
        ((settled s mid).suffixes false base).derives hmaker hspans'
      have hlist := (ih mid' (by simp; omega)).list .rparen (by simp) error h
      have hafter : FailsAt s (readPrimary s) (Viable s.slots .primary) error
          (token :: used ++ (used' ++ [paren]) ++ mid') := by
        refine hlist.after _ ?_ ?_
        · intro ts hts
          simpa [hkind, hparen] using hts.new hderives'
        · intro later hnext hfails
          have htokens : token :: used ++ (used' ++ [paren]) ++ later =
              token :: (used ++ (used' ++ paren :: later)) := by simp
          rw [htokens, fails_readPrimary_new s hkind]
          exact .inr ⟨base, _, hused _ (next?_append_congr used' rfl),
            .inr ⟨maker, paren, later, hused' _ rfl, hparen, hfails⟩⟩
      simpa using hafter
  · -- nothing that follows a bare `new` is read as a part of it
    obtain ⟨hpoint, hlparen⟩ := not_or.mp (continues_true_iff.not.mp hstop)
    rcases h with h | ⟨maker, paren, mid', hmaker, hparen, -⟩
    · exact absurd h (not_fails_readPostfix_stop s hpoint base)
    · obtain ⟨-, rfl⟩ := (reads_readPostfix_stop s hpoint base maker _).mp hmaker
      exact absurd (congrArg some hparen) hlparen

theorem early_readPrimary (error : Error) (h : readPrimary s tokens = .error error) :
    FailsAt s (readPrimary s) (Viable s.slots .primary) error tokens := by
  cases htokens : tokens with
  | nil =>
    rw [htokens] at h
    exact .stop ((fails_readPrimary_nil s).mp h) viable_nil
  | cons token after =>
    by_cases hopens : token.kind.opens = true
    · rcases opens_iff.mp hopens with hkind | hkind | hkind | hkind
      · rw [← htokens]
        exact early_readPrimary_new ih hkind htokens error h
      · subst htokens
        rw [fails_readPrimary_parens s hkind] at h
        rcases h with h | ⟨value, mid, hread, hne, h⟩
        · refine ((ih after (by simp)).expr 0 (by simp) error h).after [token] ?_ ?_
          · intro ts hts
            simpa [hkind] using hts.parens
          · intro later _ hfails
            exact (fails_readPrimary_parens s hkind later).mpr (.inl hfails)
        · obtain ⟨used, rfl, hderives, hused, -⟩ := derives_of_reads_readExpr (by simp) hread
          refine failsAt_expected (token :: used) h ?_ ?_
          · simpa [hkind] using hderives.viable.parens
          · intro later hnext herror
            exact (fails_readPrimary_parens s hkind _).mpr
              (.inr ⟨value, later, hused later hnext, hnext ▸ hne, herror⟩)
      · subst htokens
        refine ((ih after (by simp)).list .rbracket (by simp) error
          ((fails_readPrimary_array s hkind after).mp h)).after [token] ?_ ?_
        · intro ts hts
          simpa [hkind] using hts.array
        · intro later _ hfails
          exact (fails_readPrimary_array s hkind later).mpr hfails
      · subst htokens
        refine ((ih after (by simp)).fields error
          ((fails_readPrimary_object s hkind after).mp h)).after [token] ?_ ?_
        · intro ts hts
          simpa [hkind] using hts.object
        · intro later _ hfails
          exact (fails_readPrimary_object s hkind later).mpr hfails
    · subst htokens
      obtain ⟨haccuses, hfails⟩ :=
        accuses_of_fails_readPrimary s (Bool.eq_false_of_not_eq_true hopens) h
      rw [← List.nil_append (token :: after)]
      exact .token haccuses viable_nil hfails

theorem early_readPostfix (calls : Bool) (front : List TokenKind) (target : Expr) (error : Error)
    (htarget : Derives s.slots (.chain calls) front target)
    (h : readPostfix s calls target tokens = .error error) :
    FailsAt s (readPostfix s calls target)
      (fun ts => Viable s.slots (.chain calls) (front ++ ts)) error tokens := by
  by_cases hnext : Continues calls tokens
  · rcases hnext with hnext | hnext | ⟨rfl, hnext⟩ <;>
      obtain ⟨token, after, rfl, hkind⟩ := exists_of_next? hnext
    · rw [fails_readPostfix_name s hkind] at h
      rcases h with ⟨hname, h⟩ | ⟨token', after', name, rfl, hname, h⟩
      · refine failsAt_expected [token] h ?_ ?_
        · exact ⟨[.ident "name"], _, by simpa [hkind] using htarget.select "name"⟩
        · intro later hnext herror
          exact (fails_readPostfix_name s hkind later target).mpr (.inl ⟨hnext ▸ hname, herror⟩)
      · refine ((ih after' (by simp)).suffixes calls _ _ error (htarget.select name) h).after
          [token, token'] ?_ ?_
        · intro ts hts
          simpa [hkind, hname] using hts
        · intro later _ hfails
          exact (fails_readPostfix_name s hkind _ target).mpr
            (.inr ⟨token', later, name, rfl, hname, hfails⟩)
    · rw [fails_readPostfix_item s hkind] at h
      rcases h with h | ⟨key, mid, hread, h⟩
      · refine ((ih after (by simp)).expr 0 (by simp) error h).after [token] ?_ ?_
        · intro ts hts
          simpa [hkind] using hts.item htarget
        · intro later _ hfails
          exact (fails_readPostfix_item s hkind later target).mpr (.inl hfails)
      · obtain ⟨used, rfl, hderives, hused, -⟩ := derives_of_reads_readExpr (by simp) hread
        rcases h with ⟨hne, h⟩ | ⟨close, after', rfl, hclose, h⟩
        · refine failsAt_expected (token :: used) h ?_ ?_
          · simpa [hkind] using hderives.viable.item htarget
          · intro later hnext herror
            exact (fails_readPostfix_item s hkind _ target).mpr
              (.inr ⟨key, later, hused later hnext, .inl ⟨hnext ▸ hne, herror⟩⟩)
        · have hlater := (ih after' (by simp; omega)).suffixes calls _ _ error
            (htarget.item hderives) h
          have hafter : FailsAt s (readPostfix s calls target)
              (fun ts => Viable s.slots (.chain calls) (front ++ ts)) error
              (token :: used ++ [close] ++ after') := by
            refine hlater.after _ ?_ ?_
            · intro ts hts
              simpa [hkind, hclose] using hts
            · intro later _ hfails
              rw [List.append_assoc, List.cons_append, fails_readPostfix_item s hkind]
              exact .inr ⟨key, _, hused (close :: later) rfl,
                .inr ⟨close, later, rfl, hclose, hfails⟩⟩
          simpa using hafter
    · rw [fails_readPostfix_call s hkind] at h
      rcases h with h | ⟨args, mid, hread, h⟩
      · refine ((ih after (by simp)).list .rparen (by simp) error h).after [token] ?_ ?_
        · intro ts hts
          simpa [hkind] using hts.call htarget
        · intro later _ hfails
          exact (fails_readPostfix_call s hkind later target).mpr (.inl hfails)
      · obtain ⟨used, rfl, hused⟩ := (settled s after).list .rparen (by simp) args mid hread
        obtain ⟨used', written, heq, hkinds, rfl, hwritten⟩ :=
          (sound s (used ++ mid)).list .rparen (by simp) args mid hread
        obtain rfl : used = used' := List.append_cancel_right heq
        refine ((ih mid (by simp)).suffixes true _ _ error (htarget.call hwritten) h).after
          (token :: used) ?_ ?_
        · intro ts hts
          simpa [hkind, hkinds] using hts
        · intro later hnext hfails
          exact (fails_readPostfix_call s hkind _ target).mpr
            (.inr ⟨_, later, hused later hnext, hfails⟩)
  · exact absurd h (not_fails_readPostfix_stop s hnext target)

theorem early_readUnary (error : Error) (h : readUnary s tokens = .error error) :
    FailsAt s (readUnary s) (Viable s.slots .operand) error tokens := by
  by_cases hbang : next? tokens = some (.mark .bang)
  · obtain ⟨token, after, rfl, hkind⟩ := exists_of_next? hbang
    rw [fails_readUnary_sign s (.inl hkind)] at h
    refine ((ih after (by simp)).unary error h).after [token] ?_ ?_
    · intro ts hts
      simpa [hkind] using hts.not
    · intro later _ hfails
      exact (fails_readUnary_sign s (.inl hkind) later).mpr hfails
  by_cases hsub : next? tokens = some (.operator .sub)
  · obtain ⟨token, after, rfl, hkind⟩ := exists_of_next? hsub
    rw [fails_readUnary_sign s (.inr hkind)] at h
    refine ((ih after (by simp)).unary error h).after [token] ?_ ?_
    · intro ts hts
      simpa [hkind] using hts.neg
    · intro later _ hfails
      exact (fails_readUnary_sign s (.inr hkind) later).mpr hfails
  rw [fails_readUnary_plain s hbang hsub] at h
  rcases h with h | ⟨base, mid, hbase, h⟩
  · refine (early_readPrimary ih error h).after [] (fun _ hts => hts.primary.chain) ?_
    intro later hnext hfails
    rw [List.nil_append, fails_readUnary_plain s (hnext ▸ hbang) (hnext ▸ hsub)]
    exact .inl hfails
  · have hmid := hbase.shorter
    rcases (sound s tokens).primary base mid hbase with hspans | ⟨-, hstop⟩
    · obtain ⟨used, rfl, hderives, hused⟩ := (settled s tokens).primary.derives hbase hspans
      refine ((ih mid hmid).suffixes true _ base error hderives.primary h).after used ?_ ?_
      · intro ts hts
        exact hts.chain
      · intro later hnext hfails
        have hnext' := next?_append_congr used hnext
        rw [fails_readUnary_plain s (hnext' ▸ hbang) (hnext' ▸ hsub)]
        exact .inr ⟨base, later, hused later hnext, hfails⟩
    · exact absurd h (not_fails_readPostfix_stop s hstop base)

theorem early_readOperators (n k : Nat) (front : List TokenKind) (left : Expr) (error : Error)
    (hleft : Derives s.slots (.level k) front left) (hstop : ¬ Joins (k + 1) tokens)
    (h : readOperators s n left tokens = .error error) :
    FailsAt s (readOperators s n left) (fun ts => Viable s.slots (.level n) (front ++ ts)) error
      tokens := by
  by_cases hjoins : Joins n tokens
  · obtain ⟨op, hnext, hlevel⟩ := hjoins
    have hopk : op.level ≤ k := by
      by_contra hlt
      exact hstop ⟨op, hnext, by omega⟩
    have hsix := level_le_six op
    obtain ⟨token, after, rfl, hkind⟩ := exists_of_next? hnext
    rw [fails_readOperators_join s hkind hlevel] at h
    rcases h with h | ⟨right, mid, hread, h⟩
    · refine ((ih after (by simp)).expr (op.level + 1) (by omega) error h).after [token] ?_ ?_
      · intro ts hts
        simpa [hkind] using (hts.binary (hleft.loosen hopk)).loosen hlevel
      · intro later _ hfails
        exact (fails_readOperators_join s hkind hlevel later left).mpr (.inl hfails)
    · obtain ⟨used, rfl, hderives, hused, hmidstop⟩ := derives_of_reads_readExpr (by omega) hread
      have hbinary := (hleft.loosen hopk).binary ((mem_operatorsAt op _).mpr rfl) hderives
      refine ((ih mid (by simp)).operators n op.level _ _ error hbinary hmidstop h).after
        (token :: used) ?_ ?_
      · intro ts hts
        simpa [hkind] using hts
      · intro later hnext hfails
        exact (fails_readOperators_join s hkind hlevel _ left).mpr
          (.inr ⟨right, later, hused later hnext, hfails⟩)
  · exact absurd h (not_fails_readOperators_stop s hjoins left)

theorem early_readExpr (n : Nat) (hn : n ≤ 7) (error : Error)
    (h : readExpr s n tokens = .error error) :
    FailsAt s (readExpr s n) (Viable s.slots (.level n)) error tokens := by
  rw [fails_readExpr] at h
  rcases h with h | ⟨left, mid, hleft, h⟩
  · refine (early_readUnary ih error h).after [] ?_ ?_
    · intro ts hts
      exact hts.operand.loosen hn
    · intro later _ hfails
      exact (fails_readExpr s n later).mpr (.inl hfails)
  · have hmid := hleft.shorter
    obtain ⟨used, rfl, hderives, hused⟩ :=
      (settled s tokens).unary.derives hleft ((sound s tokens).unary left mid hleft)
    refine ((ih mid hmid).operators n 7 _ left error hderives.operand (not_joins_eight mid)
      h).after used ?_ ?_
    · intro ts hts
      exact hts
    · intro later hnext hfails
      exact (fails_readExpr s n _).mpr (.inr ⟨left, later, hused later hnext, hfails⟩)

theorem early_readItems (close : Mark) (hclose : close ≠ .comma) (error : Error)
    (h : readItems s close tokens = .error error) :
    FailsAt s (readItems s close) (ViableItems s.slots close) error tokens := by
  rw [fails_readItems] at h
  rcases h with h | ⟨item, mid, hread, hne, h⟩
  · refine (early_readExpr ih 0 (by simp) error h).after [] ?_ ?_
    · intro ts hts
      exact hts.items close
    · intro later _ hfails
      exact (fails_readItems s later).mpr (.inl hfails)
  · have hmid := hread.shorter
    obtain ⟨used, rfl, hderives, hused, -⟩ := derives_of_reads_readExpr (by simp) hread
    rcases h with ⟨hcomma, h⟩ | ⟨comma, after, rfl, hcomma, h⟩
    · refine failsAt_expected used h (hderives.viable.items close) ?_
      intro later hnext herror
      exact (fails_readItems s _).mpr
        (.inr ⟨item, later, hused later hnext, hnext ▸ hne, .inl ⟨hnext ▸ hcomma, herror⟩⟩)
    · have hlater := (ih after (by simp; omega)).items close hclose error h
      have hafter : FailsAt s (readItems s close) (ViableItems s.slots close) error
          (used ++ [comma] ++ after) := by
        refine hlater.after _ ?_ ?_
        · intro ts hts
          simpa [hcomma] using hts.cons hderives
        · intro later _ hfails
          rw [List.append_assoc, fails_readItems]
          exact .inr ⟨item, _, hused (comma :: later) rfl, by simpa using hne,
            .inr ⟨comma, later, rfl, hcomma, hfails⟩⟩
      simpa using hafter

theorem early_readList (close : Mark) (hclose : close ≠ .comma) (error : Error)
    (h : readList s close tokens = .error error) :
    FailsAt s (readList s close) (ViableItems s.slots close) error tokens := by
  have hend : next? tokens ≠ some (.mark close) := fun hend => not_fails_readList_empty s hend h
  rw [readList_eq s hend] at h
  refine (early_readItems ih close hclose error h).after [] (fun _ hts => hts) ?_
  intro later hnext hfails
  rw [List.nil_append, readList_eq s (hnext ▸ hend)]
  exact hfails

theorem early_readMoreFields (error : Error) (h : readMoreFields s tokens = .error error) :
    FailsAt s (readMoreFields s) (ViableFields s.slots) error tokens := by
  by_cases hkey : ∃ key after name, tokens = key :: after ∧ key.kind.key? = some name
  · obtain ⟨key, after, name, rfl, hkey⟩ := hkey
    by_cases hnext : next? after = some (.mark .colon)
    · obtain ⟨colon, after, rfl, hcolon⟩ := exists_of_next? hnext
      rw [fails_readMoreFields_value s hkey hcolon] at h
      rcases h with h | ⟨value, mid, hread, hne, h⟩
      · refine ((ih after (by simp)).expr 0 (by simp) error h).after [key, colon] ?_ ?_
        · intro ts hts
          simpa [hcolon] using hts.fields hkey
        · intro later _ hfails
          exact (fails_readMoreFields_value s hkey hcolon later).mpr (.inl hfails)
      · obtain ⟨used, rfl, hderives, hused, -⟩ := derives_of_reads_readExpr (by simp) hread
        rcases h with ⟨hcomma, h⟩ | ⟨comma, after, rfl, hcomma, h⟩
        · refine failsAt_expected (key :: colon :: used) h ?_ ?_
          · simpa [hcolon] using hderives.viable.fields hkey
          · intro later hnext herror
            exact (fails_readMoreFields_value s hkey hcolon _).mpr (.inr ⟨value, later,
              hused later hnext, hnext ▸ hne, .inl ⟨hnext ▸ hcomma, herror⟩⟩)
        · have hlater := (ih after (by simp; omega)).moreFields error h
          have hafter : FailsAt s (readMoreFields s) (ViableFields s.slots) error
              (key :: colon :: used ++ [comma] ++ after) := by
            refine hlater.after _ ?_ ?_
            · intro ts hts
              simpa [hcolon, hcomma] using hts.cons hkey hderives
            · intro later _ hfails
              rw [List.append_assoc, List.cons_append, List.cons_append,
                fails_readMoreFields_value s hkey hcolon]
              exact .inr ⟨value, _, hused (comma :: later) rfl, by simpa using hne,
                .inr ⟨comma, later, rfl, hcomma, hfails⟩⟩
          simpa using hafter
    · rw [fails_readMoreFields_colon s hkey hnext] at h
      refine failsAt_expected [key] h (viableFields_key hkey) ?_
      intro later hlater herror
      exact (fails_readMoreFields_colon s hkey (hlater ▸ hnext)).mpr herror
  · have hnone : ∀ kind ∈ next? tokens, kind.key? = none := by
      intro kind hnext
      obtain ⟨token, after, rfl, rfl⟩ := exists_of_next? hnext
      exact Option.eq_none_iff_forall_ne_some.mpr fun name hname =>
        hkey ⟨token, after, name, rfl, hname⟩
    rw [fails_readMoreFields_key s hnone] at h
    refine failsAt_expected [] h viableFields_nil ?_
    intro later hnext herror
    exact (fails_readMoreFields_key s (hnext ▸ hnone)).mpr herror

theorem early_readFields (error : Error) (h : readFields s tokens = .error error) :
    FailsAt s (readFields s) (ViableFields s.slots) error tokens := by
  have hend : next? tokens ≠ some (.mark .rbrace) := fun hend => not_fails_readFields_empty s hend h
  rw [readFields_eq s hend] at h
  refine (early_readMoreFields ih error h).after [] (fun _ hts => hts) ?_
  intro later hnext hfails
  rw [List.nil_append, readFields_eq s (hnext ▸ hend)]
  exact hfails

end Step

/-- Whatever the tokens are, the readers that fail at them do so in the right place. -/
theorem early (s : Setting) (tokens : List Token) : Early s tokens := by
  induction hn : tokens.length using Nat.strong_induction_on generalizing tokens with
  | _ n ihn =>
    subst hn
    have ih : ∀ ts, ts.length < tokens.length → Early s ts := fun ts hts => ihn _ hts ts rfl
    exact {
      expr := early_readExpr ih
      operators := early_readOperators ih
      unary := early_readUnary ih
      suffixes := early_readPostfix ih
      primary := early_readPrimary ih
      list := early_readList ih
      items := early_readItems ih
      fields := early_readFields ih
      moreFields := early_readMoreFields ih }

/-! ## The parser -/

theorem fails_parseTokens {slots : Slots} {tokens : Tokens} {error : Error} :
    parseTokens slots tokens = .error error ↔
      readExpr ⟨slots, tokens.stop⟩ 0 tokens.list = .error error ∨
        ∃ value token rest,
          Reads (readExpr ⟨slots, tokens.stop⟩ 0 tokens.list) value (token :: rest) ∧
            error = ⟨.expected "end of template" (some token.kind), token.column⟩ := by
  unfold parseTokens
  dsimp only
  cases readExpr ⟨slots, tokens.stop⟩ 0 tokens.list with
  | error => simp
  | ok reading =>
    obtain ⟨value, rest, hrest⟩ := reading
    cases rest with
    | nil => simp
    | cons token rest => simp [Setting.expected, eq_comm, and_assoc]

/-- Tokens at which reading fails whatever comes later are not viable. -/
theorem not_viable_of_fails {slots : Slots} {tokens : List Token} (stop : Nat) (error : Error)
    (h : ∀ later, parseTokens slots ⟨tokens ++ later, stop⟩ = .error error) :
    ¬ Viable slots (.level 0) (tokens.map Token.kind) := by
  rintro ⟨more, e, hderives⟩
  let later : List Token := more.map fun kind => ⟨kind, [], 0⟩
  have hkinds : (tokens ++ later).map Token.kind = tokens.map Token.kind ++ more := by
    simp [later, Function.comp_def]
  have hparse : parseTokens slots ⟨tokens ++ later, stop⟩ = .ok e :=
    parseTokens_of_derives (hkinds ▸ hderives)
  cases (h later).symm.trans hparse

/--
The parser fails at the end of tokens that are viable, or at the first token that
makes them unviable, and its error says which.
-/
theorem earliest_of_fails {slots : Slots} {tokens : Tokens} {error : Error}
    (h : parseTokens slots tokens = .error error) :
    (∃ what, error = ⟨.expected what none, tokens.stop⟩ ∧
      Viable slots (.level 0) (tokens.list.map Token.kind)) ∨
    ∃ front token back, tokens.list = front ++ token :: back ∧ Accuses slots token error ∧
      Viable slots (.level 0) (front.map Token.kind) ∧
      ¬ Viable slots (.level 0) ((front ++ [token]).map Token.kind) := by
  obtain ⟨list, stop⟩ := tokens
  rcases fails_parseTokens.mp h with h | ⟨value, token, rest, hread, herror⟩
  · cases (early _ list).expr 0 (by simp) error h with
    | stop herror hviable => exact .inl ⟨_, herror, hviable⟩
    | @token front token back haccuses hviable hfails =>
      refine .inr ⟨front, token, back, rfl, haccuses, hviable, ?_⟩
      refine not_viable_of_fails stop error fun later => ?_
      rw [List.append_assoc]
      exact fails_parseTokens.mpr (.inl (hfails later))
  · obtain ⟨used, rfl, hderives, hused, -⟩ := derives_of_reads_readExpr (by simp) hread
    refine .inr ⟨used, token, rest, rfl, herror ▸ ⟨rfl, .unexpected _ _⟩, hderives.viable, ?_⟩
    refine not_viable_of_fails stop error fun later => ?_
    rw [List.append_assoc]
    exact fails_parseTokens.mpr (.inr ⟨value, token, later, hused (token :: later) rfl, herror⟩)

end Memberwise.Template
