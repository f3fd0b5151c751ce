import Mathlib
import Memberwise.Proofs.TemplateSpelling

/-!
# Where tokens stand in a text

A token is read from the text at its column, and the text before it is read as
the tokens before it.  The second part is not plain from the scanner, which sees
the whole text: a token could be read in another way when the text after it is
cut off.  It is not, since no class of tokens looks further than it has to.
-/

namespace Memberwise.Template

/-! ## Texts that are cut off after a token -/

theorem takeWhile_cut {p : Char → Bool} {cs rest tail : List Char}
    (h : cs.dropWhile p = rest ++ tail) :
    (cs.takeWhile p ++ rest).takeWhile p = cs.takeWhile p ∧
      (cs.takeWhile p ++ rest).dropWhile p = rest := by
  have hall : ∀ c ∈ cs.takeWhile p, p c = true := fun c hc => List.mem_takeWhile_imp hc
  rw [List.takeWhile_append_of_pos hall, List.dropWhile_append_of_pos hall]
  cases rest with
  | nil => simp
  | cons c rest =>
    have hc : p c = false := by
      have hhead := List.head?_dropWhile_not p cs
      rw [h] at hhead
      simpa using hhead
    simp [hc]

/-- A string is read up to its closing quote, whatever comes after that. -/
theorem readString_cut {quote : Char} {start col : Nat} {cs values rest : List Char}
    (h : readString quote start col cs = .ok (values, rest)) :
    ∃ used, cs = used ++ rest ∧
      ∀ later, readString quote start col (used ++ later) = .ok (values, later) := by
  fun_induction readString quote start col cs generalizing values rest with
  | case1 => cases h
  | case2 col cs =>
    cases h
    exact ⟨[quote], rfl, fun later => readString_close start col later⟩
  | case3 => cases h
  | case4 => cases h
  | case5 => cases h
  | case6 col e cs c he values' rest' hrec hquote ih =>
    cases h
    obtain ⟨used, rfl, hused⟩ := ih hrec
    exact ⟨'\\' :: e :: used, rfl, fun later =>
      readString_escape start col (used ++ later) hquote he (hused later)⟩
  | case7 => cases h
  | case8 col c cs hquote hslash values' rest' hrec ih =>
    cases h
    obtain ⟨used, rfl, hused⟩ := ih hrec
    exact ⟨c :: used, rfl, fun later =>
      readString_plain start col (used ++ later) hquote hslash (hused later)⟩

/-- A text that starts with a point and a digit. -/
def StartsFraction (cs : List Char) : Prop := ∃ d ds, cs = '.' :: d :: ds ∧ d.isDigit = true

theorem readFraction_digit {d : Char} (hd : d.isDigit = true) (ds : List Char) :
    readFraction ('.' :: d :: ds) = (d :: ds.takeWhile Char.isDigit, ds.dropWhile Char.isDigit) :=
  if_pos hd

theorem readFraction_none {cs : List Char} (h : ¬ StartsFraction cs) :
    readFraction cs = ([], cs) := by
  unfold readFraction
  split
  · next d ds =>
    rw [if_neg fun hd => h ⟨d, ds, rfl, hd⟩]
  · rfl

theorem StartsFraction.append {cs : List Char} (h : StartsFraction cs) (tail : List Char) :
    StartsFraction (cs ++ tail) := by
  obtain ⟨d, ds, rfl, hd⟩ := h
  exact ⟨d, ds ++ tail, rfl, hd⟩

theorem readFraction_cut {cs fraction rest tail : List Char}
    (h : readFraction cs = (fraction, rest ++ tail)) :
    ∃ used, cs = used ++ (rest ++ tail) ∧ readFraction (used ++ rest) = (fraction, rest) := by
  by_cases hstarts : StartsFraction cs
  · obtain ⟨d, ds, rfl, hd⟩ := hstarts
    rw [readFraction_digit hd, Prod.mk.injEq] at h
    obtain ⟨rfl, hdrop⟩ := h
    obtain ⟨htake, hdrop'⟩ := takeWhile_cut hdrop
    refine ⟨'.' :: d :: ds.takeWhile Char.isDigit, ?_, ?_⟩
    · rw [← hdrop, List.cons_append, List.cons_append, List.takeWhile_append_dropWhile]
    · rw [List.cons_append, List.cons_append, readFraction_digit hd, htake, hdrop']
  · rw [readFraction_none hstarts, Prod.mk.injEq] at h
    obtain ⟨rfl, rfl⟩ := h
    exact ⟨[], rfl, readFraction_none fun hrest => hstarts (hrest.append tail)⟩

theorem readSign_cut {cs : List Char} {c : Char} {rest : List Char} {negative : Bool}
    (h : readSign cs = (negative, c :: rest)) (hc : c.isDigit = true) :
    ∃ used, cs = used ++ c :: rest ∧
      ∀ later, readSign (used ++ c :: later) = (negative, c :: later) := by
  unfold readSign at h
  split at h
  · cases h
    exact ⟨['+'], rfl, fun later => rfl⟩
  · cases h
    exact ⟨['-'], rfl, fun later => rfl⟩
  · cases h
    refine ⟨[], rfl, fun later => ?_⟩
    unfold readSign
    split
    · next heq =>
      cases heq
      exact absurd hc (by decide)
    · next heq =>
      cases heq
      exact absurd hc (by decide)
    · rfl

/-- A text that starts with the letter of an exponent. -/
def StartsExponent (cs : List Char) : Prop := ∃ c rest, cs = c :: rest ∧ (c = 'e' ∨ c = 'E')

theorem readExponent_none {cs : List Char} (h : ¬ StartsExponent cs) :
    readExponent cs = .ok (none, cs) := by
  cases cs with
  | nil => rfl
  | cons c cs =>
    have hc : ¬ (c = 'e' || c = 'E') = true := fun hc => h ⟨c, cs, rfl, by simpa using hc⟩
    rw [readExponent, if_neg hc]

theorem readExponent_letter {c : Char} (hc : c = 'e' ∨ c = 'E') {cs digits : List Char}
    {negative : Bool} (hsign : readSign cs = (negative, digits)) :
    readExponent (c :: cs) =
      if (digits.takeWhile Char.isDigit).isEmpty then .error .malformedExponent
      else
        let value : Int := Slots.decimal (digits.takeWhile Char.isDigit)
        .ok (some (if negative then -value else value), digits.dropWhile Char.isDigit) := by
  have hc' : (c = 'e' || c = 'E') = true := by simpa using hc
  rw [readExponent, if_pos hc', hsign]

theorem StartsExponent.append {cs : List Char} (h : StartsExponent cs) (tail : List Char) :
    StartsExponent (cs ++ tail) := by
  obtain ⟨c, rest, rfl, hc⟩ := h
  exact ⟨c, rest ++ tail, rfl, hc⟩

theorem readExponent_cut {cs rest tail : List Char} {exponent : Option Int}
    (h : readExponent cs = .ok (exponent, rest ++ tail)) :
    ∃ used, cs = used ++ (rest ++ tail) ∧ readExponent (used ++ rest) = .ok (exponent, rest) := by
  by_cases hstarts : StartsExponent cs
  · obtain ⟨c, cs, rfl, hc⟩ := hstarts
    rcases hsign : readSign cs with ⟨negative, digits⟩
    rw [readExponent_letter hc hsign] at h
    split at h
    · cases h
    · next hne =>
      dsimp only at h
      rw [Except.ok.injEq, Prod.mk.injEq] at h
      obtain ⟨hvalue, hdrop⟩ := h
      obtain ⟨htake, hdrop'⟩ := takeWhile_cut hdrop
      have hdigits : digits = digits.takeWhile Char.isDigit ++ (rest ++ tail) := by
        rw [← hdrop, List.takeWhile_append_dropWhile]
      obtain ⟨d, ds, hd⟩ : ∃ d ds, digits.takeWhile Char.isDigit = d :: ds := by
        cases hcases : digits.takeWhile Char.isDigit with
        | nil => simp [hcases] at hne
        | cons d ds => exact ⟨d, ds, rfl⟩
      have hdigit : d.isDigit = true := List.mem_takeWhile_imp (hd ▸ List.mem_cons_self)
      rw [hd, List.cons_append] at hdigits
      rw [hdigits] at hsign
      obtain ⟨used, rfl, hused⟩ := readSign_cut hsign hdigit
      refine ⟨c :: used ++ digits.takeWhile Char.isDigit, by simp [hd], ?_⟩
      have hsign' : readSign (used ++ (digits.takeWhile Char.isDigit ++ rest)) =
          (negative, digits.takeWhile Char.isDigit ++ rest) := by
        rw [hd]
        exact hused (ds ++ rest)
      rw [List.cons_append, List.cons_append, List.append_assoc, readExponent_letter hc hsign',
        htake, hdrop', if_neg hne]
      dsimp only
      rw [hvalue]
  · rw [readExponent_none hstarts, Except.ok.injEq, Prod.mk.injEq] at h
    obtain ⟨rfl, rfl⟩ := h
    exact ⟨[], rfl, readExponent_none fun hrest => hstarts (hrest.append tail)⟩

/-- The token of a number, from its whole digits, the digits of its fraction and its exponent. -/
def numeral (whole fraction : List Char) (exponent : Option Int) : Except Cause TokenKind :=
  if fraction.isEmpty && exponent.isNone then
    if Slots.decimal whole < integerLimit then .ok (.int (Int64.ofNat (Slots.decimal whole)))
    else .error (.integerTooLarge (String.ofList whole))
  else
    let decimal : Number.Decimal :=
      ⟨Slots.decimal (whole ++ fraction), exponent.getD 0 - fraction.length⟩
    .ok (.float decimal.toFloat)

section Number

variable (col : Nat) (digit : Char) {cs fraction cs' : List Char}
variable (hfraction : readFraction (cs.dropWhile Char.isDigit) = (fraction, cs'))

include hfraction

theorem readNumber_eq :
    readNumber col digit cs =
      match readExponent cs' with
      | .error cause => .error ⟨cause, col⟩
      | .ok (exponent, rest) =>
        match numeral (digit :: cs.takeWhile Char.isDigit) fraction exponent with
        | .error cause => .error ⟨cause, col⟩
        | .ok kind => .ok (kind, rest) := by
  rw [readNumber, hfraction]
  dsimp only
  rcases readExponent cs' with cause | ⟨exponent, rest⟩
  · rfl
  · unfold numeral
    dsimp only
    split_ifs <;> rfl

theorem readNumber_eq_ok {kind : TokenKind} {rest : List Char} :
    readNumber col digit cs = .ok (kind, rest) ↔
      ∃ exponent, readExponent cs' = .ok (exponent, rest) ∧
        numeral (digit :: cs.takeWhile Char.isDigit) fraction exponent = .ok kind := by
  rw [readNumber_eq col digit hfraction]
  rcases readExponent cs' with cause | ⟨exponent, rest'⟩
  · simp
  · cases hnumeral : numeral (digit :: cs.takeWhile Char.isDigit) fraction exponent <;>
      simp [hnumeral, and_comm]

theorem readNumber_eq_error {e : Error} :
    readNumber col digit cs = .error e ↔
      e.column = col ∧
        (readExponent cs' = .error e.cause ∨
          ∃ exponent rest, readExponent cs' = .ok (exponent, rest) ∧
            numeral (digit :: cs.takeWhile Char.isDigit) fraction exponent = .error e.cause) := by
  obtain ⟨cause, column⟩ := e
  rw [readNumber_eq col digit hfraction]
  rcases readExponent cs' with cause | ⟨exponent, rest'⟩
  · simp [eq_comm, and_comm]
  · cases hnumeral : numeral (digit :: cs.takeWhile Char.isDigit) fraction exponent <;>
      simp [hnumeral, and_comm, eq_comm]

end Number

theorem readNumber_cut {col : Nat} {digit : Char} {cs rest tail : List Char} {kind : TokenKind}
    (h : readNumber col digit cs = .ok (kind, rest ++ tail)) :
    ∃ used, cs = used ++ (rest ++ tail) ∧
      readNumber col digit (used ++ rest) = .ok (kind, rest) := by
  rcases hfraction : readFraction (cs.dropWhile Char.isDigit) with ⟨fraction, cs'⟩
  obtain ⟨exponent, hexponent, hkind⟩ := (readNumber_eq_ok col digit hfraction).mp h
  -- the exponent ends the number, the fraction stands before it and the digits before both
  obtain ⟨used, rfl, hused⟩ := readExponent_cut hexponent
  rw [← List.append_assoc] at hfraction
  obtain ⟨used', hcs, hused'⟩ := readFraction_cut hfraction
  rw [← List.append_assoc] at hcs
  obtain ⟨htake, hdrop⟩ := takeWhile_cut hcs
  refine ⟨cs.takeWhile Char.isDigit ++ (used' ++ used), ?_, ?_⟩
  · have hall := List.takeWhile_append_dropWhile (p := Char.isDigit) (l := cs)
    rw [hcs] at hall
    simpa using hall.symm
  · rw [List.append_assoc, List.append_assoc]
    rw [← hdrop] at hused'
    refine (readNumber_eq_ok col digit hused').mpr ⟨exponent, hused, ?_⟩
    rw [htake]
    exact hkind

theorem readHole_cut {col : Nat} {cs rest tail : List Char} {kind : TokenKind}
    (h : readHole col cs = .ok (kind, rest ++ tail)) :
    ∃ used, cs = used ++ (rest ++ tail) ∧ readHole col (used ++ rest) = .ok (kind, rest) := by
  unfold readHole at h
  dsimp only at h
  split at h
  · cases h
  · next hne =>
    rw [Except.ok.injEq, Prod.mk.injEq] at h
    obtain ⟨hkind, hdrop⟩ := h
    obtain ⟨htake, hdrop'⟩ := takeWhile_cut hdrop
    refine ⟨cs.takeWhile isIdentRest, ?_, ?_⟩
    · rw [← hdrop, List.takeWhile_append_dropWhile]
    · unfold readHole
      dsimp only
      rw [htake, hdrop', if_neg hne, hkind]

/-- The first symbol that a text starts with is the first that a part of the text starts with, if
the part still starts with it. -/
theorem find?_symbols_cut {text : List Char} (tail : List Char) {kind : TokenKind}
    (h : symbols.find? (fun other => (symbolSpelling other).isPrefixOf (text ++ tail)) = some kind)
    (hkind : (symbolSpelling kind).isPrefixOf text = true) :
    symbols.find? (fun other => (symbolSpelling other).isPrefixOf text) = some kind := by
  rw [List.find?_eq_some_iff_append] at h ⊢
  obtain ⟨-, before, after, hsymbols, hbefore⟩ := h
  refine ⟨hkind, before, after, hsymbols, fun other hother => ?_⟩
  have hnot := hbefore other hother
  rw [Bool.not_eq_true', ← Bool.not_eq_true, List.isPrefixOf_iff_prefix] at hnot ⊢
  exact fun hpre => hnot (hpre.trans (List.prefix_append text tail))

theorem readSymbol_cut {col : Nat} {c : Char} {cs rest tail : List Char} {kind : TokenKind}
    (h : readSymbol col c cs = .ok (kind, rest ++ tail)) :
    ∃ used, cs = used ++ (rest ++ tail) ∧ readSymbol col c (used ++ rest) = .ok (kind, rest) := by
  unfold readSymbol at h
  split at h
  · next found hfind =>
    rw [Except.ok.injEq, Prod.mk.injEq] at h
    obtain ⟨rfl, hdrop⟩ := h
    obtain ⟨d, used, hspelling, -⟩ := exists_symbolSpelling (List.mem_of_find?_eq_some hfind)
    have hstarts := List.find?_some hfind
    rw [hspelling, List.isPrefixOf_iff_prefix, List.cons_prefix_cons] at hstarts
    obtain ⟨rfl, after, rfl⟩ := hstarts
    obtain rfl : after = rest ++ tail := by simpa [hspelling] using hdrop
    refine ⟨used, rfl, ?_⟩
    have hcut : symbols.find?
        (fun other => (symbolSpelling other).isPrefixOf (d :: (used ++ rest))) = some found := by
      refine find?_symbols_cut tail (by simpa using hfind) ?_
      rw [hspelling, List.isPrefixOf_iff_prefix]
      exact ⟨rest, rfl⟩
    rw [readSymbol, hcut]
    simp [hspelling]
  · cases h

/-- A token is read in the same way when the text is cut off after it or further on. -/
theorem lexeme_cut {col : Nat} {c : Char} {cs rest tail : List Char} {kind : TokenKind}
    (h : lexeme col c cs = .ok (kind, rest ++ tail)) :
    ∃ used, cs = used ++ (rest ++ tail) ∧ lexeme col c (used ++ rest) = .ok (kind, rest) := by
  unfold lexeme at h ⊢
  split_ifs at h ⊢ with hdollar hquote hdigit hident
  · exact readHole_cut h
  · split at h
    · cases h
    · next values rest' hstring =>
      cases h
      obtain ⟨used, hcs, hused⟩ := readString_cut hstring
      exact ⟨used, hcs, by rw [hused]⟩
  · exact readNumber_cut h
  · rw [Except.ok.injEq, Prod.mk.injEq] at h
    obtain ⟨hkind, hdrop⟩ := h
    obtain ⟨htake, hdrop'⟩ := takeWhile_cut hdrop
    refine ⟨cs.takeWhile isIdentRest, ?_, ?_⟩
    · rw [← hdrop, List.takeWhile_append_dropWhile]
    · rw [htake, hdrop', hkind]
  · exact readSymbol_cut h

/-! ## Scanning -/

theorem scan_of_blanks (col : Nat) {gap : List Char} (hgap : Blanks gap) :
    scan col gap = .ok ⟨[], col + byteLength gap⟩ := by
  rw [scan_eq, List.takeWhile_eq_self_iff.mpr hgap, List.dropWhile_eq_nil_iff.mpr hgap]

section Step

variable {col : Nat} {gap : List Char} {c : Char} {cs used rest : List Char} {kind : TokenKind}
variable (hgap : Blanks gap) (hc : Text.isBlank c = false)

include hgap hc

theorem scan_of_lexeme_error {e : Error} (h : lexeme (col + byteLength gap) c cs = .error e) :
    scan col (gap ++ c :: cs) = .error e := by
  rw [scan_blanks col hgap, scan_eq]
  simp [hc, byteLength, h]

theorem scan_of_lexeme (h : lexeme (col + byteLength gap) c (used ++ rest) = .ok (kind, rest)) :
    scan col (gap ++ c :: (used ++ rest)) =
      (scan (col + byteLength gap + byteLength (c :: used)) rest).map fun tokens =>
        ⟨⟨kind, c :: used, col + byteLength gap⟩ :: tokens.list, tokens.stop⟩ := by
  have htake :
      (c :: (used ++ rest)).take ((used ++ rest).length + 1 - rest.length) = c :: used := by
    have hlength : (used ++ rest).length + 1 - rest.length = used.length + 1 := by
      simp only [List.length_append]
      omega
    rw [hlength, List.take_succ_cons, List.take_left]
  have hblank : (c :: (used ++ rest)).takeWhile Text.isBlank = [] := by simp [hc]
  have hword : (c :: (used ++ rest)).dropWhile Text.isBlank = c :: (used ++ rest) := by simp [hc]
  rw [scan_blanks col hgap, scan_eq, hblank, hword]
  simp only [byteLength, Nat.add_zero, h, htake]
  cases scan (col + byteLength gap + (c.utf8Size + byteLength used)) rest <;> rfl

theorem scan_lexeme_eq_ok (h : lexeme (col + byteLength gap) c (used ++ rest) = .ok (kind, rest))
    {tokens : List Token} {stop : Nat} :
    scan col (gap ++ c :: (used ++ rest)) = .ok ⟨tokens, stop⟩ ↔
      ∃ later, tokens = ⟨kind, c :: used, col + byteLength gap⟩ :: later ∧
        scan (col + byteLength gap + byteLength (c :: used)) rest = .ok ⟨later, stop⟩ := by
  rw [scan_of_lexeme hgap hc h]
  cases scan (col + byteLength gap + byteLength (c :: used)) rest with
  | error => simp [Except.map]
  | ok later =>
    obtain ⟨later, stop'⟩ := later
    simp [Except.map, eq_comm]

theorem scan_lexeme_eq_error
    (h : lexeme (col + byteLength gap) c (used ++ rest) = .ok (kind, rest)) {e : Error} :
    scan col (gap ++ c :: (used ++ rest)) = .error e ↔
      scan (col + byteLength gap + byteLength (c :: used)) rest = .error e := by
  rw [scan_of_lexeme hgap hc h]
  cases scan (col + byteLength gap + byteLength (c :: used)) rest <;> simp [Except.map]

/-- The first token is read in the same way when the text is cut off further on. -/
theorem scan_cut_of_lexeme {tail : List Char}
    (h : lexeme (col + byteLength gap) c (used ++ (rest ++ tail)) = .ok (kind, rest ++ tail))
    {tokens : List Token} {stop : Nat}
    (hrest : scan (col + byteLength gap + byteLength (c :: used)) rest = .ok ⟨tokens, stop⟩) :
    scan col (gap ++ c :: (used ++ rest)) =
      .ok ⟨⟨kind, c :: used, col + byteLength gap⟩ :: tokens, stop⟩ := by
  obtain ⟨used', hused, hcut⟩ := lexeme_cut h
  obtain rfl : used = used' := List.append_cancel_right hused
  exact (scan_lexeme_eq_ok hgap hc hcut).mpr ⟨tokens, rfl, hrest⟩

end Step

/-- A text is scanned in steps: blanks and a token, until only blanks are left or no token can be
read. -/
theorem scan_induction {motive : Nat → List Char → Prop}
    (blanks : ∀ col gap, Blanks gap → motive col gap)
    (stuck : ∀ col gap c cs e, Blanks gap → Text.isBlank c = false →
      lexeme (col + byteLength gap) c cs = .error e → motive col (gap ++ c :: cs))
    (token : ∀ col gap c used rest kind, Blanks gap → Text.isBlank c = false →
      lexeme (col + byteLength gap) c (used ++ rest) = .ok (kind, rest) →
      motive (col + byteLength gap + byteLength (c :: used)) rest →
      motive col (gap ++ c :: (used ++ rest)))
    (col : Nat) (text : List Char) : motive col text := by
  induction hn : text.length using Nat.strong_induction_on generalizing col text with
  | _ n ih =>
    subst hn
    have htext := List.takeWhile_append_dropWhile (p := Text.isBlank) (l := text)
    have hgap : Blanks (text.takeWhile Text.isBlank) := fun _ hd => List.mem_takeWhile_imp hd
    cases hdrop : text.dropWhile Text.isBlank with
    | nil =>
      rw [hdrop, List.append_nil] at htext
      exact htext ▸ blanks col _ hgap
    | cons c cs =>
      have hc : Text.isBlank c = false := by
        have hhead := List.head?_dropWhile_not Text.isBlank text
        rw [hdrop] at hhead
        simpa using hhead
      rw [hdrop] at htext
      cases hlexeme : lexeme (col + byteLength (text.takeWhile Text.isBlank)) c cs with
      | error e =>
        rw [← htext]
        exact stuck col _ c cs e hgap hc hlexeme
      | ok result =>
        obtain ⟨kind, rest⟩ := result
        have hcut : lexeme (col + byteLength (text.takeWhile Text.isBlank)) c cs =
            .ok (kind, rest ++ []) := by rw [hlexeme, List.append_nil]
        obtain ⟨used, hused, -⟩ := lexeme_cut hcut
        rw [List.append_nil] at hused
        subst hused
        rw [← htext]
        refine token col _ c used rest kind hgap hc hlexeme (ih rest.length ?_ _ rest rfl)
        rw [← htext]
        simp only [List.length_append, List.length_cons]
        omega

/-- The end is reported behind the last character. -/
theorem scan_stop (col : Nat) (text : List Char) (tokens : List Token) (stop : Nat)
    (h : scan col text = .ok ⟨tokens, stop⟩) : stop = col + byteLength text := by
  induction col, text using scan_induction generalizing tokens stop with
  | blanks col gap hgap =>
    rw [scan_of_blanks col hgap] at h
    cases h
    rfl
  | stuck col gap c cs e hgap hc hlexeme =>
    rw [scan_of_lexeme_error hgap hc hlexeme] at h
    cases h
  | token col gap c used rest kind hgap hc hlexeme ih =>
    obtain ⟨later, -, hrest⟩ := (scan_lexeme_eq_ok hgap hc hlexeme).mp h
    rw [ih later stop hrest, byteLength_append, ← List.cons_append, byteLength_append]
    omega

/-- A token stands at its column, and the text before it is scanned as the tokens before it. -/
theorem scan_token (col : Nat) (text : List Char) (front : List Token) (token : Token)
    (back : List Token) (stop : Nat) (h : scan col text = .ok ⟨front ++ token :: back, stop⟩) :
    ∃ before rest, text = before ++ (token.text ++ rest) ∧
      token.column = col + byteLength before ∧ scan col before = .ok ⟨front, token.column⟩ ∧
      scan token.column (token.text ++ rest) = .ok ⟨token :: back, stop⟩ := by
  induction col, text using scan_induction generalizing front with
  | blanks col gap hgap =>
    rw [scan_of_blanks col hgap, Except.ok.injEq, Tokens.mk.injEq] at h
    simp at h
  | stuck col gap c cs e hgap hc hlexeme =>
    rw [scan_of_lexeme_error hgap hc hlexeme] at h
    cases h
  | token col gap c used rest kind hgap hc hlexeme ih =>
    obtain ⟨later, hlist, hrest⟩ := (scan_lexeme_eq_ok hgap hc hlexeme).mp h
    cases front with
    | nil =>
      rw [List.nil_append, List.cons.injEq] at hlist
      obtain ⟨rfl, rfl⟩ := hlist
      refine ⟨gap, rest, rfl, rfl, scan_of_blanks col hgap, ?_⟩
      rwa [scan_blanks col hgap] at h
    | cons first front =>
      rw [List.cons_append, List.cons.injEq] at hlist
      obtain ⟨rfl, rfl⟩ := hlist
      obtain ⟨before, after, rfl, hcolumn, hbefore, hafter⟩ := ih front hrest
      refine ⟨gap ++ c :: (used ++ before), after, by simp, ?_, ?_, hafter⟩
      · rw [hcolumn, byteLength_append, ← List.cons_append, byteLength_append]
        omega
      · exact scan_cut_of_lexeme hgap hc hlexeme hbefore

/-- Scanning fails at a token, and the text before it is scanned. -/
theorem scan_error (col : Nat) (text : List Char) (e : Error) (h : scan col text = .error e) :
    ∃ before c cs front, text = before ++ c :: cs ∧
      scan col before = .ok ⟨front, col + byteLength before⟩ ∧ Text.isBlank c = false ∧
      lexeme (col + byteLength before) c cs = .error e := by
  induction col, text using scan_induction with
  | blanks col gap hgap =>
    rw [scan_of_blanks col hgap] at h
    cases h
  | stuck col gap c cs e' hgap hc hlexeme =>
    rw [scan_of_lexeme_error hgap hc hlexeme] at h
    cases h
    exact ⟨gap, c, cs, [], rfl, scan_of_blanks col hgap, hc, hlexeme⟩
  | token col gap c used rest kind hgap hc hlexeme ih =>
    obtain ⟨before, d, ds, front, rfl, hbefore, hd, herror⟩ :=
      ih ((scan_lexeme_eq_error hgap hc hlexeme).mp h)
    have hcolumn : col + byteLength gap + byteLength (c :: used) + byteLength before =
        col + byteLength (gap ++ c :: (used ++ before)) := by
      rw [byteLength_append, ← List.cons_append, byteLength_append]
      omega
    rw [hcolumn] at hbefore herror
    exact ⟨gap ++ c :: (used ++ before), d, ds, _, by simp,
      scan_cut_of_lexeme hgap hc hlexeme hbefore, hd, herror⟩

end Memberwise.Template
