import Mathlib
import Memberwise.Template.Scan

/-!
# Tokens in text

How each token is written, and that a text of tokens with blanks between them is
scanned as these tokens.
-/

namespace Memberwise.Template

/-- A text of blanks. -/
def Blanks (gap : List Char) : Prop := ∀ c ∈ gap, Text.isBlank c = true

/-- Letters, digits and underscores that do not start with a digit. -/
def IsWord (word : String) : Prop :=
  ∃ c cs, word.toList = c :: cs ∧ isIdentStart c = true ∧ ∀ d ∈ cs, isIdentRest d = true

/-- A word that is no keyword. -/
def IsName (name : String) : Prop := IsWord name ∧ ∀ word : Keyword, word.spelling ≠ name

/-- How a character of a string is written between quotes of some kind. -/
def escaped (quote c : Char) : List Char :=
  if c = '\\' then ['\\', '\\']
  else if c = quote then ['\\', quote]
  else if c = '\n' then ['\\', 'n']
  else if c = '\t' then ['\\', 't']
  else if c = '\r' then ['\\', 'r']
  else if c = '\x00' then ['\\', '0']
  else [c]

/-- The texts that a token can be written as. -/
inductive Spells : TokenKind → List Char → Prop
  | name {name : String} (h : IsName name) : Spells (.ident name) name.toList
  | hole (index : Nat) : Spells (.hole (toString index)) ('$' :: (toString index).toList)
  | int {value : Int64} (h : 0 ≤ value) : Spells (.int value) (toString value.toInt.toNat).toList
  | string {quote : Char} (h : quote = '"' ∨ quote = '\x27') (value : String) :
      Spells (.string value) (quote :: (value.toList.flatMap (escaped quote) ++ [quote]))
  | keyword (word : Keyword) : Spells (.keyword word) word.spelling.toList
  | mark (mark : Mark) : Spells (.mark mark) mark.spelling.toList
  | operator (op : BinaryOp) : Spells (.operator op) op.spelling.toList

/-- Tokens written one after the other, with blanks between them and, maybe, around them. -/
inductive Spaced : List TokenKind → List Char → Prop
  | blanks {gap : List Char} (hgap : Blanks gap) : Spaced [] gap
  | one {kind : TokenKind} {word : List Char} (hword : Spells kind word) : Spaced [kind] word
  | next {kind : TokenKind} {word gap : List Char} {kinds : List TokenKind} {text : List Char}
      (hword : Spells kind word) (hgap : Blanks gap) (hne : gap ≠ []) (h : Spaced kinds text) :
      Spaced (kind :: kinds) (word ++ gap ++ text)
  | after {gap : List Char} {kinds : List TokenKind} {text : List Char} (hgap : Blanks gap)
      (h : Spaced kinds text) : Spaced kinds (gap ++ text)

/-! ## Where a token ends -/

/-- A text that does not go on with a token before it. -/
def Ends (rest : List Char) : Prop := ∀ c ∈ rest.head?, Text.isBlank c = true

theorem ends_nil : Ends [] := nofun

theorem ends_append {gap : List Char} (hgap : Blanks gap) (hne : gap ≠ []) (text : List Char) :
    Ends (gap ++ text) := by
  cases gap with
  | nil => exact absurd rfl hne
  | cons c gap =>
    rintro d hd
    obtain rfl : c = d := by simpa using hd
    exact hgap c (by simp)

theorem toNat_of_isBlank {c : Char} (h : Text.isBlank c = true) : c.toNat ≤ 32 ∨ 133 ≤ c.toNat := by
  simp only [Text.isBlank, Text.blankRanges, List.any_cons, List.any_nil, Bool.or_false,
    Bool.or_eq_true, Bool.and_eq_true, decide_eq_true_eq] at h
  omega

theorem toNat_of_isIdentRest {c : Char} (h : isIdentRest c = true) :
    48 ≤ c.toNat ∧ c.toNat ≤ 122 := by
  simp only [isIdentRest, Char.isAlphanum, Char.isAlpha, Char.isUpper, Char.isLower, Char.isDigit,
    Bool.or_eq_true, Bool.and_eq_true, decide_eq_true_eq, ge_iff_le, UInt32.le_iff_toNat_le] at h
  rcases h with (((h | h) | h) | rfl)
  · exact ⟨le_trans (by decide) h.1, le_trans h.2 (by decide)⟩
  · exact ⟨le_trans (by decide) h.1, le_trans h.2 (by decide)⟩
  · exact ⟨le_trans (by decide) h.1, le_trans h.2 (by decide)⟩
  · decide

theorem isIdentRest_of_isBlank {c : Char} (h : Text.isBlank c = true) : isIdentRest c = false := by
  by_contra hrest
  have hblank := toNat_of_isBlank h
  have hword := toNat_of_isIdentRest (Bool.eq_true_of_not_eq_false hrest)
  omega

theorem isIdentRest_of_isDigit {c : Char} (h : c.isDigit = true) : isIdentRest c = true := by
  simp [isIdentRest, Char.isAlphanum, h]

theorem isBlank_of_isIdentRest {c : Char} (h : isIdentRest c = true) : Text.isBlank c = false := by
  by_contra hblank
  simp [isIdentRest_of_isBlank (Bool.eq_true_of_not_eq_false hblank)] at h

theorem isIdentRest_of_isIdentStart {c : Char} (h : isIdentStart c = true) :
    isIdentRest c = true := by
  simp only [isIdentStart, Bool.or_eq_true] at h
  rcases h with h | h <;> simp [isIdentRest, Char.isAlphanum, h]

/-- Two texts are taken apart where the first ends, if its characters are all of a class that no
blank belongs to. -/
theorem takeWhile_append_of_ends {p : Char → Bool} (hp : ∀ c, p c = true → isIdentRest c = true)
    {word rest : List Char} (hword : ∀ c ∈ word, p c = true) (hrest : Ends rest) :
    (word ++ rest).takeWhile p = word ∧ (word ++ rest).dropWhile p = rest := by
  cases rest with
  | nil =>
    rw [List.append_nil]
    exact ⟨List.takeWhile_eq_self_iff.mpr hword, List.dropWhile_eq_nil_iff.mpr hword⟩
  | cons c rest =>
    have hc : p c = false := by
      by_contra hpc
      have hrest' := hp c (Bool.eq_true_of_not_eq_false hpc)
      rw [isIdentRest_of_isBlank (hrest c rfl)] at hrest'
      cases hrest'
    rw [List.takeWhile_append_of_pos hword, List.dropWhile_append_of_pos hword]
    simp [hc]

/-! ## Lexemes -/

theorem decimal_toString (n : Nat) : Slots.decimal (toString n).toList = n := by
  rw [Nat.toString_eq_ofList_toDigits, String.toList_ofList]
  have h := @Nat.ofDigitChars_ten_toDigits n
  rwa [Nat.ofDigitChars_eq_foldl] at h

theorem isDigit_of_mem_toString {n : Nat} {c : Char} (h : c ∈ (toString n).toList) :
    c.isDigit = true := by
  rw [Nat.toString_eq_ofList_toDigits, String.toList_ofList] at h
  exact Nat.isDigit_of_mem_toDigits (by decide) (by decide) h

theorem exists_toString (n : Nat) : ∃ c cs, (toString n).toList = c :: cs := by
  rw [Nat.toString_eq_ofList_toDigits, String.toList_ofList]
  exact List.exists_cons_of_ne_nil Nat.toDigits_ne_nil

theorem readFraction_of_ends {rest : List Char} (h : Ends rest) :
    readFraction rest = ([], rest) := by
  unfold readFraction
  split
  · exact absurd (h '.' rfl) (by decide)
  · rfl

theorem readExponent_of_ends {rest : List Char} (h : Ends rest) :
    readExponent rest = .ok (none, rest) := by
  cases rest with
  | nil => rfl
  | cons c rest =>
    have hc : isIdentRest c = false := isIdentRest_of_isBlank (h c rfl)
    have he : ¬ (c = 'e' || c = 'E') = true := by
      intro he
      rcases (by simpa using he : c = 'e' ∨ c = 'E') with rfl | rfl <;> revert hc <;> decide
    rw [readExponent, if_neg he]

theorem readNumber_digits (col : Nat) {digit : Char} {digits rest : List Char}
    (hdigits : ∀ c ∈ digits, c.isDigit = true) (hrest : Ends rest)
    (hlimit : Slots.decimal (digit :: digits) < integerLimit) :
    readNumber col digit (digits ++ rest) =
      .ok (.int (Int64.ofNat (Slots.decimal (digit :: digits))), rest) := by
  obtain ⟨htake, hdrop⟩ := takeWhile_append_of_ends (fun _ => isIdentRest_of_isDigit) hdigits hrest
  simp [readNumber, htake, hdrop, readFraction_of_ends hrest, readExponent_of_ends hrest, hlimit]

theorem readHole_digits (col : Nat) {name rest : List Char} (hne : name ≠ [])
    (hname : ∀ c ∈ name, c.isDigit = true) (hrest : Ends rest) :
    readHole col (name ++ rest) = .ok (.hole (String.ofList name), rest) := by
  obtain ⟨htake, hdrop⟩ := takeWhile_append_of_ends (fun _ h => h)
    (fun c hc => isIdentRest_of_isDigit (hname c hc)) hrest
  simp [readHole, htake, hdrop, hne]

section String

variable {quote : Char} (start col : Nat) (rest : List Char)

theorem readString_close : readString quote start col (quote :: rest) = .ok ([], rest) := by
  rw [readString.eq_def]
  exact if_pos rfl

theorem readString_plain {c : Char} (hquote : c ≠ quote) (hslash : c ≠ '\\')
    {values after : List Char}
    (h : readString quote start (col + c.utf8Size) rest = .ok (values, after)) :
    readString quote start col (c :: rest) = .ok (c :: values, after) := by
  rw [readString.eq_def]
  dsimp only
  rw [if_neg hquote, if_neg hslash, h]

theorem readString_escape {e c : Char} (hquote : '\\' ≠ quote) (he : unescape? e = some c)
    {values after : List Char}
    (h : readString quote start (col + 1 + e.utf8Size) rest = .ok (values, after)) :
    readString quote start col ('\\' :: e :: rest) = .ok (c :: values, after) := by
  rw [readString.eq_def]
  dsimp only
  rw [if_neg hquote, if_pos rfl, he]
  dsimp only
  rw [h]

end String

/-- A character is written as it is, or as a backslash and a character that stands for it. -/
theorem escaped_cases {quote : Char} (hquote : quote = '"' ∨ quote = '\x27') (c : Char) :
    (escaped quote c = [c] ∧ c ≠ quote ∧ c ≠ '\\') ∨
      ∃ e, escaped quote c = ['\\', e] ∧ unescape? e = some c := by
  unfold escaped
  split_ifs with hslash hself hline htab hreturn hnul
  · exact .inr ⟨'\\', rfl, by subst hslash; rfl⟩
  · exact .inr ⟨quote, rfl, by rcases hquote with rfl | rfl <;> subst hself <;> rfl⟩
  · exact .inr ⟨'n', rfl, by subst hline; rfl⟩
  · exact .inr ⟨'t', rfl, by subst htab; rfl⟩
  · exact .inr ⟨'r', rfl, by subst hreturn; rfl⟩
  · exact .inr ⟨'0', rfl, by subst hnul; rfl⟩
  · exact .inl ⟨rfl, hself, hslash⟩

theorem readString_escaped {quote : Char} (hquote : quote = '"' ∨ quote = '\x27') (start : Nat)
    (value rest : List Char) (col : Nat) :
    readString quote start col (value.flatMap (escaped quote) ++ quote :: rest) =
      .ok (value, rest) := by
  have hslash : '\\' ≠ quote := by rcases hquote with rfl | rfl <;> decide
  induction value generalizing col with
  | nil => exact readString_close start col rest
  | cons c value ih =>
    rw [List.flatMap_cons, List.append_assoc]
    rcases escaped_cases hquote c with ⟨hc, hself, hplain⟩ | ⟨e, hc, he⟩
    · rw [hc]
      exact readString_plain start col _ hself hplain (ih _)
    · rw [hc]
      exact readString_escape start col _ hslash he (ih _)

theorem wordKind_of_isName {name : String} (h : IsName name) : wordKind name = .ident name := by
  have hfind : Keyword.all.find? (fun k => decide (k.spelling = name)) = none := by
    rw [List.find?_eq_none]
    intro word _
    simpa using h.2 word
  rw [wordKind, hfind]

theorem isWord_spelling (word : Keyword) : IsWord word.spelling := by
  cases word <;> exact ⟨_, _, rfl, by decide, List.all_eq_true.mp (by decide)⟩

theorem wordKind_spelling (word : Keyword) : wordKind word.spelling = .keyword word := by
  cases word <;> decide

/-- Whether a text starts with another without blanks does not depend on what is after it. -/
theorem isPrefixOf_append_of_ends {front word rest : List Char}
    (hfront : ∀ c ∈ front, Text.isBlank c = false) (hrest : Ends rest) :
    front.isPrefixOf (word ++ rest) = front.isPrefixOf word := by
  induction front generalizing word with
  | nil => simp
  | cons c front ih =>
    obtain ⟨hc, hfront⟩ := List.forall_mem_cons.mp hfront
    cases word with
    | cons d word => simp [List.isPrefixOf_cons_cons, ih hfront]
    | nil =>
      cases rest with
      | nil => rfl
      | cons b rest =>
        have hb := hrest b rfl
        have hne : c ≠ b := by
          rintro rfl
          simp [hc] at hb
        simp [List.isPrefixOf_cons_cons, hne]

theorem mem_symbols_of_mark (mark : Mark) : TokenKind.mark mark ∈ symbols := by
  cases mark <;> decide

theorem mem_symbols_of_operator (op : BinaryOp) : TokenKind.operator op ∈ symbols := by
  cases op <;> decide

theorem find?_symbols : ∀ kind ∈ symbols,
    symbols.find? (fun other => (symbolSpelling other).isPrefixOf (symbolSpelling kind)) =
      some kind := by
  decide +kernel

theorem not_isBlank_of_mem_symbolSpelling {kind : TokenKind} (hkind : kind ∈ symbols) {c : Char}
    (hc : c ∈ symbolSpelling kind) : Text.isBlank c = false := by
  have hall : (symbols.all fun kind =>
      (symbolSpelling kind).all fun c => !Text.isBlank c) = true := by decide
  have hnot := List.all_eq_true.mp (List.all_eq_true.mp hall kind hkind) c hc
  simpa using hnot

/-- The characters that start neither a hole nor a string, a number or a word. -/
def startsSymbol (c : Char) : Bool :=
  !(c = '$') && !(c = '"' || c = '\x27') && !c.isDigit && !isIdentStart c

theorem exists_symbolSpelling {kind : TokenKind} (hkind : kind ∈ symbols) :
    ∃ c cs, symbolSpelling kind = c :: cs ∧ startsSymbol c = true := by
  have hall : (symbols.all fun kind => (symbolSpelling kind).head?.any startsSymbol) = true := by
    decide
  have hfirst := List.all_eq_true.mp hall kind hkind
  cases hspelling : symbolSpelling kind with
  | nil => simp [hspelling] at hfirst
  | cons c cs => exact ⟨c, cs, rfl, by simpa [hspelling] using hfirst⟩

theorem readSymbol_spelling (col : Nat) {kind : TokenKind} (hkind : kind ∈ symbols) {c : Char}
    {cs rest : List Char} (hspelling : symbolSpelling kind = c :: cs) (hrest : Ends rest) :
    readSymbol col c (cs ++ rest) = .ok (kind, rest) := by
  have hfind : symbols.find? (fun other => (symbolSpelling other).isPrefixOf (c :: (cs ++ rest))) =
      some kind := by
    rw [← find?_symbols kind hkind]
    refine List.find?_congr fun other hother => ?_
    rw [← List.cons_append, hspelling]
    exact isPrefixOf_append_of_ends (fun _ => not_isBlank_of_mem_symbolSpelling hother) hrest
  rw [readSymbol, hfind]
  simp [hspelling]

theorem lexeme_symbol (col : Nat) {kind : TokenKind} (hkind : kind ∈ symbols) {c : Char}
    {cs rest : List Char} (hspelling : symbolSpelling kind = c :: cs)
    (hstart : startsSymbol c = true) (hrest : Ends rest) :
    lexeme col c (cs ++ rest) = .ok (kind, rest) := by
  simp only [startsSymbol, Bool.and_eq_true, Bool.not_eq_true', decide_eq_false_iff_not] at hstart
  obtain ⟨⟨⟨hdollar, hquote⟩, hdigit⟩, hident⟩ := hstart
  simp [lexeme, hdollar, hquote, hdigit, hident, readSymbol_spelling col hkind hspelling hrest]

theorem toNat_of_isIdentStart {c : Char} (h : isIdentStart c = true) : 65 ≤ c.toNat := by
  simp only [isIdentStart, Char.isAlpha, Char.isUpper, Char.isLower, Bool.or_eq_true,
    Bool.and_eq_true, decide_eq_true_eq, ge_iff_le, UInt32.le_iff_toNat_le] at h
  rcases h with ((h | h) | rfl)
  · exact le_trans (by decide) h.1
  · exact le_trans (by decide) h.1
  · decide

theorem lexeme_word (col : Nat) {c : Char} {cs rest : List Char} (hstart : isIdentStart c = true)
    (hcs : ∀ d ∈ cs, isIdentRest d = true) (hrest : Ends rest) :
    lexeme col c (cs ++ rest) = .ok (wordKind (String.ofList (c :: cs)), rest) := by
  have hnat := toNat_of_isIdentStart hstart
  have hne : ∀ d : Char, d.toNat < 65 → c ≠ d := by
    rintro d hd rfl
    omega
  have hdigit : c.isDigit = false := by
    by_contra hdigit
    have hnine := (Char.isDigit_iff_toNat.mp (Bool.eq_true_of_not_eq_false hdigit)).2
    exact absurd (le_trans hnat hnine) (by decide)
  obtain ⟨htake, hdrop⟩ := takeWhile_append_of_ends (fun _ h => h) hcs hrest
  simp [lexeme, hne '$' (by decide), hne '"' (by decide), hne '\x27' (by decide), hdigit, hstart,
    htake, hdrop]

theorem lexeme_digits (col : Nat) {c : Char} {cs rest : List Char} (hc : c.isDigit = true)
    (hcs : ∀ d ∈ cs, d.isDigit = true) (hrest : Ends rest)
    (hlimit : Slots.decimal (c :: cs) < integerLimit) :
    lexeme col c (cs ++ rest) = .ok (.int (Int64.ofNat (Slots.decimal (c :: cs))), rest) := by
  have hne : ∀ d : Char, d.isDigit = false → c ≠ d := by
    rintro d hd rfl
    simp [hd] at hc
  simp [lexeme, hne '$' (by decide), hne '"' (by decide), hne '\x27' (by decide), hc,
    readNumber_digits col hcs hrest hlimit]

theorem lexeme_string (col : Nat) {quote : Char} (hquote : quote = '"' ∨ quote = '\x27')
    (value rest : List Char) :
    lexeme col quote (value.flatMap (escaped quote) ++ quote :: rest) =
      .ok (.string (String.ofList value), rest) := by
  have hdollar : quote ≠ '$' := by rcases hquote with rfl | rfl <;> decide
  simp [lexeme, hdollar, hquote, readString_escaped hquote col value rest]

theorem toInt_lt_integerLimit (value : Int64) : value.toInt.toNat < integerLimit := by
  have hlt := Int64.toInt_lt value
  simp only [integerLimit]
  omega

theorem ofNat_toInt {value : Int64} (h : 0 ≤ value) : Int64.ofNat value.toInt.toNat = value := by
  have hnonneg : 0 ≤ value.toInt := by simpa [Int64.le_iff_toInt_le] using h
  rw [← Int64.ofInt_eq_ofNat, Int.toNat_of_nonneg hnonneg, Int64.ofInt_toInt]

/-- A token does not start with a blank, and in front of a blank or of the end it is read. -/
theorem lexeme_of_spells {kind : TokenKind} {word rest : List Char} (h : Spells kind word)
    (hrest : Ends rest) :
    ∃ c cs, word = c :: cs ∧ Text.isBlank c = false ∧
      ∀ col, lexeme col c (cs ++ rest) = .ok (kind, rest) := by
  have hword : ∀ text, IsWord text → ∃ c cs, text.toList = c :: cs ∧ Text.isBlank c = false ∧
      ∀ col, lexeme col c (cs ++ rest) = .ok (wordKind text, rest) := by
    rintro text ⟨c, cs, hchars, hstart, hcs⟩
    refine ⟨c, cs, hchars, isBlank_of_isIdentRest (isIdentRest_of_isIdentStart hstart), ?_⟩
    intro col
    rw [lexeme_word col hstart hcs hrest, ← hchars, String.ofList_toList]
  have hsymbol : ∀ kind ∈ symbols, ∃ c cs, symbolSpelling kind = c :: cs ∧
      Text.isBlank c = false ∧ ∀ col, lexeme col c (cs ++ rest) = .ok (kind, rest) := by
    intro kind hkind
    obtain ⟨c, cs, hspelling, hstart⟩ := exists_symbolSpelling hkind
    exact ⟨c, cs, hspelling,
      not_isBlank_of_mem_symbolSpelling hkind (hspelling ▸ List.mem_cons_self),
      fun col => lexeme_symbol col hkind hspelling hstart hrest⟩
  cases h with
  | name hname => simpa only [wordKind_of_isName hname] using hword _ hname.1
  | hole index =>
    have hdigits : ∀ d ∈ (toString index).toList, d.isDigit = true := fun _ =>
      isDigit_of_mem_toString
    refine ⟨'$', _, rfl, by decide, fun col => ?_⟩
    rw [lexeme, if_pos rfl, readHole_digits col (by simp) hdigits hrest,
      String.ofList_toList]
  | @int value hvalue =>
    obtain ⟨c, cs, hchars⟩ := exists_toString value.toInt.toNat
    have hdigits : ∀ d ∈ c :: cs, d.isDigit = true := fun _ hd =>
      isDigit_of_mem_toString (hchars ▸ hd)
    have hdecimal := decimal_toString value.toInt.toNat
    rw [hchars] at hdecimal
    obtain ⟨hc, hcs⟩ := List.forall_mem_cons.mp hdigits
    refine ⟨c, cs, hchars, isBlank_of_isIdentRest (isIdentRest_of_isDigit hc), fun col => ?_⟩
    rw [lexeme_digits col hc hcs hrest (hdecimal ▸ toInt_lt_integerLimit value), hdecimal,
      ofNat_toInt hvalue]
  | @string quote hquote value =>
    refine ⟨quote, _, rfl, by rcases hquote with rfl | rfl <;> decide, fun col => ?_⟩
    rw [List.append_assoc, List.singleton_append, lexeme_string col hquote, String.ofList_toList]
  | keyword word => simpa only [wordKind_spelling] using hword _ (isWord_spelling word)
  | mark mark => exact hsymbol _ (mem_symbols_of_mark mark)
  | operator op => exact hsymbol _ (mem_symbols_of_operator op)

/-! ## Scanning -/

theorem byteLength_append (front back : List Char) :
    byteLength (front ++ back) = byteLength front + byteLength back := by
  induction front with
  | nil => simp [byteLength]
  | cons c front ih => simp [byteLength, ih, Nat.add_assoc]

/-- What the scanner does with the text after the next blanks. -/
theorem scan_eq (col : Nat) (text : List Char) :
    scan col text =
      match text.dropWhile Text.isBlank with
      | [] => .ok ⟨[], col + byteLength (text.takeWhile Text.isBlank)⟩
      | c :: cs =>
        match lexeme (col + byteLength (text.takeWhile Text.isBlank)) c cs with
        | .error e => .error e
        | .ok (kind, rest) =>
          match scan (col + byteLength (text.takeWhile Text.isBlank) +
            byteLength ((c :: cs).take (cs.length + 1 - rest.length))) rest with
          | .error e => .error e
          | .ok ⟨tokens, stop⟩ =>
            .ok ⟨⟨kind, (c :: cs).take (cs.length + 1 - rest.length),
              col + byteLength (text.takeWhile Text.isBlank)⟩ :: tokens, stop⟩ := by
  rw [scan]
  dsimp only
  split
  · next h => rw [h]
  · next h =>
    rw [h]
    dsimp only
    split
    · next h => rw [h]
    · next h =>
      rewrite [h]
      rfl

theorem scan_blanks (col : Nat) {gap : List Char} (hgap : Blanks gap) (text : List Char) :
    scan col (gap ++ text) = scan (col + byteLength gap) text := by
  rw [scan_eq, scan_eq (col + byteLength gap), List.takeWhile_append_of_pos hgap,
    List.dropWhile_append_of_pos hgap, byteLength_append, ← Nat.add_assoc]

theorem exists_scan_word {kind : TokenKind} {word rest : List Char} (hword : Spells kind word)
    (hrest : Ends rest) (col : Nat) {kinds : List TokenKind}
    (h : ∀ col, ∃ tokens, scan col rest = .ok tokens ∧ tokens.list.map Token.kind = kinds) :
    ∃ tokens, scan col (word ++ rest) = .ok tokens ∧
      tokens.list.map Token.kind = kind :: kinds := by
  obtain ⟨c, cs, rfl, hblank, hlexeme⟩ := lexeme_of_spells hword hrest
  obtain ⟨⟨tokens, stop⟩, hscan, hkinds⟩ :=
    h (col + byteLength ((c :: (cs ++ rest)).take ((cs ++ rest).length + 1 - rest.length)))
  let token : Token :=
    ⟨kind, (c :: (cs ++ rest)).take ((cs ++ rest).length + 1 - rest.length), col⟩
  refine ⟨⟨token :: tokens, stop⟩, ?_, by simpa [token] using hkinds⟩
  have htake : (c :: (cs ++ rest)).takeWhile Text.isBlank = [] := by simp [hblank]
  have hdrop : (c :: (cs ++ rest)).dropWhile Text.isBlank = c :: (cs ++ rest) := by simp [hblank]
  rw [List.cons_append, scan_eq, htake, hdrop]
  simp only [byteLength, Nat.add_zero, hlexeme, hscan, token]

/-- A text of tokens between blanks is scanned as these tokens. -/
theorem exists_scan_of_spaced {kinds : List TokenKind} {text : List Char} (h : Spaced kinds text)
    (col : Nat) :
    ∃ tokens, scan col text = .ok tokens ∧ tokens.list.map Token.kind = kinds := by
  induction h generalizing col with
  | @blanks gap hgap =>
    refine ⟨⟨[], col + byteLength gap⟩, ?_, rfl⟩
    rw [scan_eq, List.takeWhile_eq_self_iff.mpr hgap, List.dropWhile_eq_nil_iff.mpr hgap]
  | @one kind word hword =>
    rw [← List.append_nil word]
    refine exists_scan_word hword ends_nil col fun col => ⟨⟨[], col⟩, ?_, rfl⟩
    rw [scan_eq]
    rfl
  | @next kind word gap kinds text hword hgap hne _ ih =>
    rw [List.append_assoc]
    refine exists_scan_word hword (ends_append hgap hne text) col fun col => ?_
    rw [scan_blanks col hgap]
    exact ih _
  | @after gap kinds text hgap _ ih =>
    rw [scan_blanks col hgap]
    exact ih _

end Memberwise.Template
