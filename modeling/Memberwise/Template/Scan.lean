import Memberwise.Template.Slots
import Memberwise.Text.Blank

/-!
# From text to tokens

Blanks separate tokens. The first character of a token decides its class, and
the token is the longest text of that class. Columns count bytes. A lexeme
always leaves a shorter rest, so the loop ends by the length of the text.
-/

namespace Memberwise.Template

/-- The number of bytes of a text in UTF-8. -/
def byteLength : List Char → Nat
  | [] => 0
  | c :: cs => c.utf8Size + byteLength cs

def isIdentStart (c : Char) : Bool := c.isAlpha || c = '_'

def isIdentRest (c : Char) : Bool := c.isAlphanum || c = '_'

/-- The token of a word: a keyword or an identifier. -/
def wordKind (word : String) : TokenKind :=
  match Keyword.all.find? fun k => k.spelling = word with
  | some keyword => .keyword keyword
  | none => .ident word

/-- The character that a backslash and another character stand for. -/
def unescape? : Char → Option Char
  | 'n' => some '\n'
  | 't' => some '\t'
  | 'r' => some '\r'
  | '0' => some '\x00'
  | '\\' => some '\\'
  | '"' => some '"'
  | '\x27' => some '\x27'
  | _ => none

/--
Reads a string after its opening quote, which stands at column `start`; `col` is
the column of the text at hand. Gives the value and the text after the closing
quote.
-/
def readString (quote : Char) (start : Nat) :
    Nat → List Char → Except Error (List Char × List Char)
  | _, [] => .error ⟨.unterminatedString, start⟩
  | col, c :: cs =>
    if c = quote then .ok ([], cs)
    else if c = '\\' then
      match cs with
      | [] => .error ⟨.unterminatedString, start⟩
      | escaped :: cs =>
        match unescape? escaped with
        -- The column two bytes before the text that follows.
        | none => .error ⟨.unknownEscape escaped, col + 1 + escaped.utf8Size - 2⟩
        | some value =>
          match readString quote start (col + 1 + escaped.utf8Size) cs with
          | .error e => .error e
          | .ok (values, rest) => .ok (value :: values, rest)
    else
      match readString quote start (col + c.utf8Size) cs with
      | .error e => .error e
      | .ok (values, rest) => .ok (c :: values, rest)

/-- The digits after a decimal point, if a point with a digit after it comes next. -/
def readFraction : List Char → List Char × List Char
  | '.' :: d :: cs =>
    if d.isDigit then (d :: cs.takeWhile Char.isDigit, cs.dropWhile Char.isDigit)
    else ([], '.' :: d :: cs)
  | cs => ([], cs)

/-- The sign in front of an exponent; true if it is negative. -/
def readSign : List Char → Bool × List Char
  | '+' :: cs => (false, cs)
  | '-' :: cs => (true, cs)
  | cs => (false, cs)

/-- The exponent of a number, if one comes next. It is malformed without digits. -/
def readExponent : List Char → Except Cause (Option Int × List Char)
  | [] => .ok (none, [])
  | c :: cs =>
    if c = 'e' || c = 'E' then
      let (negative, cs) := readSign cs
      let digits := cs.takeWhile Char.isDigit
      if digits.isEmpty then .error .malformedExponent
      else
        let value : Int := Slots.decimal digits
        .ok (some (if negative then -value else value), cs.dropWhile Char.isDigit)
    else .ok (none, c :: cs)

/-- What every integer lies below: one of the 64 bits is for the sign. -/
def integerLimit : Nat := 0x8000000000000000

/-- Reads the number that starts with a digit at column `col`. -/
def readNumber (col : Nat) (digit : Char) (cs : List Char) :
    Except Error (TokenKind × List Char) :=
  let whole := digit :: cs.takeWhile Char.isDigit
  let (fraction, cs) := readFraction (cs.dropWhile Char.isDigit)
  match readExponent cs with
  | .error cause => .error ⟨cause, col⟩
  | .ok (exponent, rest) =>
    if fraction.isEmpty && exponent.isNone then
      let value := Slots.decimal whole
      if value < integerLimit then .ok (.int (Int64.ofNat value), rest)
      else .error ⟨.integerTooLarge (String.ofList whole), col⟩
    else
      let decimal : Number.Decimal :=
        ⟨Slots.decimal (whole ++ fraction), exponent.getD 0 - fraction.length⟩
      .ok (.float decimal.toFloat, rest)

/-- Reads the hole whose dollar sign stands at column `col`. -/
def readHole (col : Nat) (cs : List Char) : Except Error (TokenKind × List Char) :=
  let name := cs.takeWhile isIdentRest
  if name.isEmpty then .error ⟨.namelessHole, col⟩
  else .ok (.hole (String.ofList name), cs.dropWhile isIdentRest)

/-- The tokens with a fixed spelling of punctuation, longer spellings first. -/
def symbols : List TokenKind := [
  .operator .strictEq, .operator .strictNe,
  .operator .eq, .operator .ne, .operator .le, .operator .ge, .operator .and, .operator .or,
  .mark .dot, .mark .comma, .mark .colon, .mark .lparen, .mark .rparen, .mark .lbracket,
  .mark .rbracket, .mark .lbrace, .mark .rbrace, .operator .add, .operator .sub, .operator .mul,
  .operator .div, .operator .mod, .mark .bang, .operator .lt, .operator .gt]

/-- The spelling of a token of `symbols`. -/
def symbolSpelling : TokenKind → List Char
  | .operator op => op.spelling.toList
  | .mark mark => mark.spelling.toList
  | _ => []

/-- Reads the operator or mark that starts at column `col`. -/
def readSymbol (col : Nat) (c : Char) (cs : List Char) : Except Error (TokenKind × List Char) :=
  match symbols.find? fun kind => (symbolSpelling kind).isPrefixOf (c :: cs) with
  | some kind => .ok (kind, cs.drop ((symbolSpelling kind).length - 1))
  | none => .error ⟨.unexpectedChar c, col⟩

/-- Reads the token that starts with `c` at column `col`, and gives the text after it. -/
def lexeme (col : Nat) (c : Char) (cs : List Char) : Except Error (TokenKind × List Char) :=
  if c = '$' then readHole col cs
  else if c = '"' || c = '\x27' then
    match readString c col (col + 1) cs with
    | .error e => .error e
    | .ok (value, rest) => .ok (.string (String.ofList value), rest)
  else if c.isDigit then readNumber col c cs
  else if isIdentStart c then
    .ok (wordKind (String.ofList (c :: cs.takeWhile isIdentRest)), cs.dropWhile isIdentRest)
  else readSymbol col c cs

theorem length_dropWhile_le (p : Char → Bool) (cs : List Char) :
    (cs.dropWhile p).length ≤ cs.length :=
  (List.dropWhile_suffix p).length_le

theorem length_le_of_readString {quote : Char} {start col : Nat} {cs values rest : List Char}
    (h : readString quote start col cs = .ok (values, rest)) : rest.length ≤ cs.length := by
  fun_induction readString quote start col cs generalizing values rest with
  | case1 => simp at h
  | case2 => simp_all
  | case3 => simp at h
  | case4 => simp at h
  | case5 => simp_all
  | case6 =>
    rename_i hrec _ ih
    have := ih hrec
    simp_all
    omega
  | case7 => simp_all
  | case8 =>
    rename_i hrec ih
    have := ih hrec
    simp_all
    omega

theorem length_readFraction_le (cs : List Char) : (readFraction cs).2.length ≤ cs.length := by
  fun_cases readFraction cs with
  | case1 d cs _ =>
    have := length_dropWhile_le Char.isDigit cs
    simp
    omega
  | case2 => simp
  | case3 => simp

theorem length_readSign_le (cs : List Char) : (readSign cs).2.length ≤ cs.length := by
  fun_cases readSign cs <;> simp

theorem length_le_of_readExponent {cs rest : List Char} {exponent : Option Int}
    (h : readExponent cs = .ok (exponent, rest)) : rest.length ≤ cs.length := by
  cases cs with
  | nil => simp_all [readExponent]
  | cons c cs =>
    have hsign := length_readSign_le cs
    have hdrop := length_dropWhile_le Char.isDigit (readSign cs).2
    simp only [readExponent] at h
    split at h
    · split at h
      · simp at h
      · simp only [Except.ok.injEq, Prod.mk.injEq] at h
        rw [← h.2]
        simp only [List.length_cons]
        omega
    · simp only [Except.ok.injEq, Prod.mk.injEq] at h
      exact h.2 ▸ Nat.le_refl _

theorem length_le_of_readNumber {col : Nat} {digit : Char} {cs rest : List Char}
    {kind : TokenKind} (h : readNumber col digit cs = .ok (kind, rest)) :
    rest.length ≤ cs.length := by
  have hdrop := length_dropWhile_le Char.isDigit cs
  have hfrac := length_readFraction_le (cs.dropWhile Char.isDigit)
  simp only [readNumber] at h
  split at h
  · simp at h
  · rename_i exponent rest' hexp
    have hle := length_le_of_readExponent hexp
    have hrest : rest' = rest := by
      split at h
      · split at h <;> simp_all
      · simp_all
    subst hrest
    omega

/-- A lexeme takes at least its first character. -/
theorem length_le_of_lexeme {col : Nat} {c : Char} {cs rest : List Char} {kind : TokenKind}
    (h : lexeme col c cs = .ok (kind, rest)) : rest.length ≤ cs.length := by
  have hident := length_dropWhile_le isIdentRest cs
  simp only [lexeme] at h
  split at h
  · simp only [readHole] at h
    split at h
    · simp at h
    · simp_all
  · split at h
    · split at h
      · simp at h
      · rename_i hstring
        have := length_le_of_readString hstring
        simp_all
    · split at h
      · exact length_le_of_readNumber h
      · split at h
        · simp_all
        · simp only [readSymbol] at h
          split at h
          · simp only [Except.ok.injEq, Prod.mk.injEq] at h
            rw [← h.2, List.length_drop]
            omega
          · simp at h

/-- The tokens of a text whose first character stands at column `col`. -/
def scan (col : Nat) (text : List Char) : Except Error Tokens :=
  let start := col + byteLength (text.takeWhile Text.isBlank)
  match htext : text.dropWhile Text.isBlank with
  | [] => .ok ⟨[], start⟩
  | c :: cs =>
    match hlex : lexeme start c cs with
    | .error e => .error e
    | .ok (kind, rest) =>
      have : rest.length < text.length := by
        have hrest := length_le_of_lexeme hlex
        have hdrop := length_dropWhile_le Text.isBlank text
        rw [htext, List.length_cons] at hdrop
        omega
      let lexeme := (c :: cs).take (cs.length + 1 - rest.length)
      match scan (start + byteLength lexeme) rest with
      | .error e => .error e
      | .ok ⟨tokens, stop⟩ => .ok ⟨⟨kind, lexeme, start⟩ :: tokens, stop⟩
termination_by text.length

/-- The tokens of a template. -/
def tokenize (code : String) : Except Error Tokens := scan 1 code.toList

end Memberwise.Template
