import Mathlib
import Memberwise.Proofs.EarliestErrors
import Memberwise.Proofs.ScanPositions

/-!
# The columns of errors in templates

An error points at what is wrong with the template.  That is a token that cannot be
read, an escape inside of one, the first token that no template goes on with, or
the end.  In each case the text before it is a text of tokens, and the column counts
the bytes of that text from one.

There is one exception.  The column of an unknown escape is computed back from the
text after it as if the escaped character were one byte long.  A character of more
bytes moves the column away from the backslash, and for three or four bytes into the
middle of that character.
-/

namespace Memberwise.Template

/-! ## Texts that are no tokens -/

/-- A number of digits, at least one. -/
def Digits (ds : List Char) : Prop := ds ≠ [] ∧ ∀ d ∈ ds, d.isDigit = true

/-- The inside of a string that goes on: plain characters and known escapes. -/
inductive StringBody (quote : Char) : List Char → Prop
  | nil : StringBody quote []
  | plain {c : Char} {cs : List Char} (hquote : c ≠ quote) (hslash : c ≠ '\\')
      (h : StringBody quote cs) : StringBody quote (c :: cs)
  | escape {c value : Char} {cs : List Char} (hc : unescape? c = some value)
      (h : StringBody quote cs) : StringBody quote ('\\' :: c :: cs)

/-- The digits of an exponent, with or without a sign in front of them. -/
def StartsExponentDigits (cs : List Char) : Prop :=
  ∃ sign d rest, cs = sign ++ d :: rest ∧ (sign = [] ∨ sign = ['+'] ∨ sign = ['-']) ∧
    d.isDigit = true

/--
Texts that start like a token and are none, with what is wrong.  The text is given in
two parts, and the second starts with what an error has to point at.
-/
inductive Malformed : Cause → List Char → List Char → Prop
  | hole {rest : List Char} (hname : ∀ c ∈ rest.head?, isIdentRest c = false) :
      Malformed .namelessHole [] ('$' :: rest)
  | string {quote : Char} {body last : List Char} (hquote : quote = '"' ∨ quote = '\x27')
      (hbody : StringBody quote body) (hlast : last = [] ∨ last = ['\\']) :
      Malformed .unterminatedString [] (quote :: (body ++ last))
  | escape {quote : Char} {body : List Char} {c : Char} {rest : List Char}
      (hquote : quote = '"' ∨ quote = '\x27') (hbody : StringBody quote body)
      (hc : unescape? c = none) : Malformed (.unknownEscape c) (quote :: body) ('\\' :: c :: rest)
  | exponent {whole fraction : List Char} {letter : Char} {rest : List Char}
      (hwhole : Digits whole) (hfraction : fraction = [] ∨ ∃ ds, fraction = '.' :: ds ∧ Digits ds)
      (hletter : letter = 'e' ∨ letter = 'E') (hrest : ¬ StartsExponentDigits rest) :
      Malformed .malformedExponent [] (whole ++ fraction ++ letter :: rest)
  | integer {whole rest : List Char} (hwhole : Digits whole)
      (hrest : ∀ c ∈ rest.head?, c.isDigit = false) (hfraction : ¬ StartsFraction rest)
      (hexponent : ¬ StartsExponent rest) (hlimit : integerLimit ≤ Slots.decimal whole) :
      Malformed (.integerTooLarge (String.ofList whole)) [] (whole ++ rest)
  | char {c : Char} {rest : List Char} (hblank : Text.isBlank c = false)
      (hstart : startsSymbol c = true)
      (hsymbol : ∀ kind ∈ symbols, ¬ symbolSpelling kind <+: c :: rest) :
      Malformed (.unexpectedChar c) [] (c :: rest)

/-- How far behind what it should point at a column is. -/
def Cause.lag : Cause → Nat
  | .unknownEscape c => c.utf8Size - 1
  | _ => 0

theorem readString_error {quote : Char} {start col : Nat} {cs : List Char} {e : Error}
    (h : readString quote start col cs = .error e) :
    (e = ⟨.unterminatedString, start⟩ ∧ ∃ body last, cs = body ++ last ∧ StringBody quote body ∧
      (last = [] ∨ last = ['\\'])) ∨
    ∃ body c rest, cs = body ++ '\\' :: c :: rest ∧ StringBody quote body ∧ unescape? c = none ∧
      e = ⟨.unknownEscape c, col + byteLength body + (c.utf8Size - 1)⟩ := by
  fun_induction readString quote start col cs with
  | case1 =>
    cases h
    exact .inl ⟨rfl, [], [], rfl, .nil, .inl rfl⟩
  | case2 => cases h
  | case3 =>
    cases h
    exact .inl ⟨rfl, [], ['\\'], rfl, .nil, .inr rfl⟩
  | case4 col c cs hc hquote =>
    cases h
    refine .inr ⟨[], c, cs, rfl, .nil, hc, ?_⟩
    have hpos := c.utf8Size_pos
    simp only [byteLength, Error.mk.injEq, true_and]
    omega
  | case5 col c cs value hc e' hrec hquote ih =>
    cases h
    rcases ih hrec with ⟨he, body, last, rfl, hbody, hlast⟩ | ⟨body, d, rest, rfl, hbody, hd, he⟩
    · exact .inl ⟨he, '\\' :: c :: body, last, rfl, .escape hc hbody, hlast⟩
    · refine .inr ⟨'\\' :: c :: body, d, rest, rfl, .escape hc hbody, hd, ?_⟩
      have hslash : '\\'.utf8Size = 1 := rfl
      rw [he, byteLength, byteLength, hslash, Error.mk.injEq]
      exact ⟨rfl, by omega⟩
  | case6 => cases h
  | case7 col c cs hquote hslash e' hrec ih =>
    cases h
    rcases ih hrec with ⟨he, body, last, rfl, hbody, hlast⟩ | ⟨body, d, rest, rfl, hbody, hd, he⟩
    · exact .inl ⟨he, c :: body, last, rfl, .plain hquote hslash hbody, hlast⟩
    · refine .inr ⟨c :: body, d, rest, rfl, .plain hquote hslash hbody, hd, ?_⟩
      rw [he, byteLength, Error.mk.injEq]
      exact ⟨rfl, by omega⟩
  | case8 => cases h

theorem readFraction_text {cs fraction rest : List Char}
    (h : readFraction cs = (fraction, rest)) :
    (fraction = [] ∧ cs = rest ∧ ¬ StartsFraction cs) ∨
      (cs = '.' :: (fraction ++ rest) ∧ Digits fraction) := by
  by_cases hstarts : StartsFraction cs
  · obtain ⟨d, ds, rfl, hd⟩ := hstarts
    rw [readFraction_digit hd] at h
    cases h
    refine .inr ⟨by simp, by simp, ?_⟩
    exact List.forall_mem_cons.mpr ⟨hd, fun c hc => List.mem_takeWhile_imp hc⟩
  · rw [readFraction_none hstarts] at h
    cases h
    exact .inl ⟨rfl, rfl, hstarts⟩

theorem takeWhile_readSign {cs digits : List Char} {negative : Bool}
    (hread : readSign cs = (negative, digits)) (h : StartsExponentDigits cs) :
    digits.takeWhile Char.isDigit ≠ [] := by
  obtain ⟨sign, d, rest, rfl, hsign, hd⟩ := h
  rcases hsign with rfl | rfl | rfl
  · have hplain : readSign (d :: rest) = (false, d :: rest) := by
      unfold readSign
      split
      · next heq =>
        cases heq
        exact absurd hd (by decide)
      · next heq =>
        cases heq
        exact absurd hd (by decide)
      · rfl
    cases hplain.symm.trans hread
    simp [hd]
  · cases hread
    simp [hd]
  · cases hread
    simp [hd]

theorem readExponent_error {cs : List Char} {cause : Cause} (h : readExponent cs = .error cause) :
    cause = .malformedExponent ∧ ∃ letter rest, cs = letter :: rest ∧
      (letter = 'e' ∨ letter = 'E') ∧ ¬ StartsExponentDigits rest := by
  by_cases hstarts : StartsExponent cs
  · obtain ⟨letter, rest, rfl, hletter⟩ := hstarts
    rcases hsign : readSign rest with ⟨negative, digits⟩
    rw [readExponent_letter hletter hsign] at h
    split at h
    · next hempty =>
      cases h
      refine ⟨rfl, letter, rest, rfl, hletter, fun hdigits => ?_⟩
      exact takeWhile_readSign hsign hdigits (by simpa using hempty)
    · cases h
  · rw [readExponent_none hstarts] at h
    cases h

theorem readExponent_eq_none {cs rest : List Char} (h : readExponent cs = .ok (none, rest)) :
    ¬ StartsExponent cs := by
  rintro ⟨letter, rest', rfl, hletter⟩
  rcases hsign : readSign rest' with ⟨negative, digits⟩
  rw [readExponent_letter hletter hsign] at h
  split at h <;> cases h

theorem numeral_error {whole fraction : List Char} {exponent : Option Int} {cause : Cause}
    (h : numeral whole fraction exponent = .error cause) :
    fraction = [] ∧ exponent = none ∧ integerLimit ≤ Slots.decimal whole ∧
      cause = .integerTooLarge (String.ofList whole) := by
  unfold numeral at h
  split_ifs at h with hint hlimit
  · cases h
    simp only [Bool.and_eq_true, List.isEmpty_iff, Option.isNone_iff_eq_none] at hint
    exact ⟨hint.1, hint.2, Nat.le_of_not_lt hlimit, rfl⟩

/-- A number that cannot be read is malformed from its first digit on. -/
theorem readNumber_error {col : Nat} {digit : Char} (hdigit : digit.isDigit = true)
    {cs : List Char} {e : Error} (h : readNumber col digit cs = .error e) :
    Malformed e.cause [] (digit :: cs) ∧ e.column = col ∧ e.cause.lag = 0 := by
  rcases hfraction : readFraction (cs.dropWhile Char.isDigit) with ⟨fraction, after⟩
  obtain ⟨hcolumn, hcause⟩ := (readNumber_eq_error col digit hfraction).mp h
  have hwhole : Digits (digit :: cs.takeWhile Char.isDigit) :=
    ⟨by simp, List.forall_mem_cons.mpr ⟨hdigit, fun c hc => List.mem_takeWhile_imp hc⟩⟩
  have htext : digit :: cs = digit :: cs.takeWhile Char.isDigit ++ cs.dropWhile Char.isDigit := by
    rw [List.cons_append, List.takeWhile_append_dropWhile]
  rw [htext]
  rcases hcause with hexponent | ⟨exponent, rest, hexponent, hnumeral⟩
  · obtain ⟨hcause, letter, rest, rfl, hletter, hrest⟩ := readExponent_error hexponent
    rw [hcause]
    refine ⟨?_, hcolumn, rfl⟩
    rcases readFraction_text hfraction with ⟨-, hcs, -⟩ | ⟨hcs, hdigits⟩
    · rw [hcs]
      simpa using Malformed.exponent hwhole (.inl rfl) hletter hrest
    · rw [hcs]
      simpa using Malformed.exponent hwhole (.inr ⟨fraction, rfl, hdigits⟩) hletter hrest
  · obtain ⟨rfl, rfl, hlimit, hcause⟩ := numeral_error hnumeral
    rw [hcause]
    refine ⟨?_, hcolumn, rfl⟩
    rcases readFraction_text hfraction with ⟨-, hcs, hstarts⟩ | ⟨-, hdigits⟩
    · refine .integer hwhole ?_ hstarts (hcs ▸ readExponent_eq_none hexponent) hlimit
      intro c hc
      have hhead := List.head?_dropWhile_not Char.isDigit cs
      rw [Option.mem_def.mp hc] at hhead
      exact hhead
    · exact absurd rfl hdigits.1

/-- A text that cannot be read as a token is malformed, and the error says how and where. -/
theorem lexeme_error {col : Nat} {c : Char} {cs : List Char} {e : Error}
    (hblank : Text.isBlank c = false) (h : lexeme col c cs = .error e) :
    ∃ inside after, c :: cs = inside ++ after ∧ Malformed e.cause inside after ∧
      e.column = col + byteLength inside + e.cause.lag := by
  unfold lexeme at h
  split_ifs at h with hdollar hquote hdigit hident
  · subst hdollar
    unfold readHole at h
    dsimp only at h
    split at h
    · next hname =>
      cases h
      refine ⟨[], '$' :: cs, rfl, .hole fun d hd => ?_, rfl⟩
      obtain ⟨rest, rfl⟩ := List.head?_eq_some_iff.mp hd
      by_contra hrest
      simp [Bool.eq_true_of_not_eq_false hrest] at hname
    · cases h
  · have hquote' : c = '"' ∨ c = '\x27' := by simpa using hquote
    split at h
    · next e' hstring =>
      cases h
      rcases readString_error hstring with
        ⟨rfl, body, last, rfl, hbody, hlast⟩ | ⟨body, d, rest, rfl, hbody, hd, rfl⟩
      · exact ⟨[], _, rfl, .string hquote' hbody hlast, rfl⟩
      · refine ⟨c :: body, _, rfl, .escape hquote' hbody hd, ?_⟩
        have hsize : c.utf8Size = 1 := by rcases hquote' with rfl | rfl <;> rfl
        simp only [byteLength, Cause.lag, hsize]
        omega
    · cases h
  · obtain ⟨hmalformed, hcolumn, hlag⟩ := readNumber_error hdigit h
    exact ⟨[], _, rfl, hmalformed, by simp [hcolumn, hlag, byteLength]⟩
  · unfold readSymbol at h
    split at h
    · cases h
    · next hfind =>
      cases h
      refine ⟨[], _, rfl, .char hblank ?_ ?_, rfl⟩
      · simp_all [startsSymbol]
      · intro kind hkind hpre
        have hnot := List.find?_eq_none.mp hfind kind hkind
        exact hnot (List.isPrefixOf_iff_prefix.mpr hpre)

/-! ## What an error points at -/

theorem byteLength_eq_utf8ByteSize (cs : List Char) :
    byteLength cs = (String.ofList cs).utf8ByteSize := by
  induction cs with
  | nil => simp [byteLength]
  | cons c cs ih =>
    rw [String.ofList_cons, String.utf8ByteSize_append, String.utf8ByteSize_singleton, byteLength,
      ih]

/-- A text whose first token is of some kind, without blanks before it. -/
def StartsWith (kind : TokenKind) (text : List Char) : Prop :=
  ∃ col word later stop, scan col text = .ok ⟨⟨kind, word, col⟩ :: later, stop⟩

/--
What is wrong with a template after the tokens `front`.  The text from there on is given
in two parts, and the second starts with what an error has to point at.
-/
inductive Culprit (slots : Slots) (front : List TokenKind) : Cause → List Char → List Char → Prop
  /-- No token can be read. -/
  | malformed {cause : Cause} {inside after : List Char} (h : Malformed cause inside after) :
      Culprit slots front cause inside after
  /-- The next token is the first that no template goes on with. -/
  | token {cause : Cause} {kind : TokenKind} {after : List Char} (hstarts : StartsWith kind after)
      (hblames : Blames slots kind cause) (hviable : Viable slots (.level 0) front)
      (hstuck : ¬ Viable slots (.level 0) (front ++ [kind])) : Culprit slots front cause [] after
  /-- The template ends before it is complete. -/
  | stop (what : String) (hviable : Viable slots (.level 0) front) :
      Culprit slots front (.expected what none) [] []

theorem lag_of_blames {slots : Slots} {kind : TokenKind} {cause : Cause}
    (h : Blames slots kind cause) : cause.lag = 0 := by
  cases h with
  | unexpected => rfl
  | @unresolved name cause hcause =>
    unfold Slots.resolve at hcause
    split_ifs at hcause with hthis hreceiver hdigits
    · cases hcause
      rfl
    · dsimp only at hcause
      split_ifs at hcause <;> cases hcause <;> rfl
    · split at hcause
      · cases hcause
      · cases hcause
        rfl

/--
The scan of a whole text reads some tokens first and then goes on at a column with the rest: its
outcome is that of scanning the rest from there, with these tokens in front.
-/
def ScanReaches (text : List Char) (front : List Token) (col : Nat) (rest : List Char) : Prop :=
  scan 1 text = (scan col rest).map fun later => ⟨front ++ later.list, later.stop⟩

theorem tokenize_ofList (cs : List Char) : tokenize (String.ofList cs) = scan 1 cs := by
  rw [tokenize, String.toList_ofList]

/-- The parts of a template whose scanning fails. -/
theorem culprit_of_tokenize {slots : Slots} {code : String} {e : Error}
    (h : tokenize code = .error e) :
    ∃ before inside after front, code.toList = before ++ (inside ++ after) ∧
      scan 1 before = .ok front ∧
      ScanReaches code.toList front.list (1 + byteLength before) (inside ++ after) ∧
      Culprit slots (front.list.map Token.kind) e.cause inside after ∧
      e.column = 1 + byteLength (before ++ inside) + e.cause.lag := by
  obtain ⟨before, c, cs, front, htext, hbefore, hblank, hlexeme⟩ := scan_error 1 _ e h
  obtain ⟨inside, after, hcs, hmalformed, hcolumn⟩ := lexeme_error hblank hlexeme
  have hrest : scan (1 + byteLength before) (c :: cs) = .error e :=
    scan_of_lexeme_error (List.forall_mem_nil _) hblank hlexeme
  refine ⟨before, inside, after, _, hcs ▸ htext, hbefore, ?_, .malformed hmalformed, ?_⟩
  · rw [ScanReaches, ← hcs, hrest]
    exact h
  · rw [hcolumn, byteLength_append]
    omega

/-- The parts of a template whose tokens are no expression. -/
theorem culprit_of_parseTokens {slots : Slots} {code : String} {tokens : Tokens} {e : Error}
    (hscan : tokenize code = .ok tokens) (h : parseTokens slots tokens = .error e) :
    ∃ before inside after front, code.toList = before ++ (inside ++ after) ∧
      scan 1 before = .ok front ∧
      ScanReaches code.toList front.list (1 + byteLength before) (inside ++ after) ∧
      Culprit slots (front.list.map Token.kind) e.cause inside after ∧
      e.column = 1 + byteLength (before ++ inside) + e.cause.lag := by
  obtain ⟨list, stop⟩ := tokens
  rcases earliest_of_fails h with ⟨what, rfl, hviable⟩ |
    ⟨front, token, back, hlist, haccuses, hviable, hstuck⟩
  · have hstop : stop = 1 + byteLength code.toList := scan_stop 1 _ list stop hscan
    refine ⟨code.toList, [], [], ⟨list, stop⟩, by simp, hscan, ?_, .stop what hviable, ?_⟩
    · have hrest : scan stop [] = .ok ⟨[], stop⟩ := scan_of_blanks stop (List.forall_mem_nil _)
      rw [ScanReaches, ← hstop, List.append_nil, hrest]
      show scan 1 code.toList = .ok ⟨list ++ [], stop⟩
      rw [List.append_nil]
      exact hscan
    · rw [List.append_nil]
      exact hstop
  · dsimp only at hlist
    subst hlist
    obtain ⟨before, rest, htext, hcolumn, hbefore, hafter⟩ :=
      scan_token 1 _ front token back stop hscan
    refine ⟨before, [], token.text ++ rest, _, htext, hbefore, ?_,
      .token ?_ haccuses.blames hviable ?_, ?_⟩
    · rw [ScanReaches, ← hcolumn, List.nil_append, hafter]
      exact hscan
    · exact ⟨token.column, token.text, back, stop, hafter⟩
    · simpa using hstuck
    · rw [haccuses.column, hcolumn, List.append_nil, lag_of_blames haccuses.blames, Nat.add_zero]

end Template

open Template

/--
The column of an error counts the bytes before what is wrong with the template: a token
that cannot be read, its opening quote if it is a string without an end, the first token
that no template goes on with, or the end.  The scan of the whole template comes to just this
place, after the tokens of the text before it.  Only for an unknown escape the column lies behind
the backslash, by one byte less than the escaped character has.
-/
theorem template_error_column (slots : Slots) (code : String) (e : Template.Error)
    (h : parse slots code = .error e) :
    ∃ (before inside after : String) (front : Tokens), code = before ++ inside ++ after ∧
      tokenize before = .ok front ∧
      ScanReaches code.toList front.list (1 + before.utf8ByteSize) (inside ++ after).toList ∧
      Culprit slots (front.list.map Token.kind) e.cause inside.toList after.toList ∧
      e.column = 1 + (before ++ inside).utf8ByteSize + e.cause.lag := by
  have hparts : ∃ before inside after front, code.toList = before ++ (inside ++ after) ∧
      scan 1 before = .ok front ∧
      ScanReaches code.toList front.list (1 + byteLength before) (inside ++ after) ∧
      Culprit slots (front.list.map Token.kind) e.cause inside after ∧
      e.column = 1 + byteLength (before ++ inside) + e.cause.lag := by
    unfold parse at h
    split at h
    · next hscan =>
      cases h
      exact culprit_of_tokenize hscan
    · next hscan => exact culprit_of_parseTokens hscan h
  obtain ⟨before, inside, after, front, htext, hbefore, hreaches, hculprit, hcolumn⟩ := hparts
  refine ⟨String.ofList before, String.ofList inside, String.ofList after, front, ?_, ?_, ?_, ?_,
    ?_⟩
  · rw [← String.ofList_append, ← String.ofList_append, List.append_assoc, ← htext,
      String.ofList_toList]
  · rwa [tokenize_ofList]
  · rwa [← String.ofList_append, String.toList_ofList, ← byteLength_eq_utf8ByteSize]
  · rwa [String.toList_ofList, String.toList_ofList]
  · rwa [← String.ofList_append, ← byteLength_eq_utf8ByteSize]

/-- A bracket that closes nothing, after characters of two and three bytes. -/
theorem bracket_error_column :
    parse ⟨false, []⟩ "'é€' ]" =
      .error ⟨.expected "end of template" (some (.mark .rbracket)), 9⟩ ∧
    ∃ (before inside after : String) (front : Tokens), "'é€' ]" = before ++ inside ++ after ∧
      tokenize before = .ok front ∧
      ScanReaches "'é€' ]".toList front.list (1 + before.utf8ByteSize) (inside ++ after).toList ∧
      Culprit ⟨false, []⟩ (front.list.map Token.kind)
        (.expected "end of template" (some (.mark .rbracket))) inside.toList after.toList ∧
      9 = 1 + (before ++ inside).utf8ByteSize + 0 := by
  let string : Token := ⟨.string "é€", "'é€'".toList, 1⟩
  let bracket : Token := ⟨.mark .rbracket, "]".toList, 9⟩
  have hscan : tokenize "'é€' ]" = .ok ⟨[string, bracket], 10⟩ := by cbv
  have hderives : Derives ⟨false, []⟩ (.level 0) [string.kind] (.string "é€") :=
    (Derives.atom (.plain rfl)).primary.chain.operand.loosen (by simp)
  have hkinds : [string].map Token.kind = [string.kind] := rfl
  have hread : Reads (readExpr ⟨⟨false, []⟩, 10⟩ 0 [string, bracket]) (.string "é€") [bracket] :=
    (complete hderives).reads_mark hkinds rfl rfl []
  have h : parse ⟨false, []⟩ "'é€' ]" =
      .error ⟨.expected "end of template" (some (.mark .rbracket)), 9⟩ := by
    rw [parse, hscan]
    exact fails_parseTokens.mpr (.inr ⟨_, _, _, hread, rfl⟩)
  exact ⟨h, template_error_column _ _ _ h⟩

/-- An escaped character of three bytes, in whose middle the error points. -/
theorem unknown_escape_column :
    parse ⟨false, []⟩ "'\\€'" = .error ⟨.unknownEscape '€', 4⟩ ∧
      ∀ before, before <+: "'\\€'".toList → 4 ≠ 1 + byteLength before := by
  refine ⟨by cbv, fun before hbefore => ?_⟩
  have hall : ∀ front ∈ "'\\€'".toList.inits, 4 ≠ 1 + byteLength front := by decide +kernel
  exact hall before ((List.mem_inits _ _).mpr hbefore)

end Memberwise
