import Mathlib
import Memberwise.Proofs.ErrorColumns

/-!
# Lexemes

A template is made of its tokens and of the blanks between them, and nothing of it is
lost.  Each token has the longest text of its class that starts where it starts, and
its value is what that text means.

The classes are given as sets of texts, without a word on how they are read.  A number
has three parts, and a part ends where the next one can start.  That the whole is the
longest number then follows from the parts, by one lemma on texts put together.
-/

namespace Memberwise.Template

/-! ## Classes of tokens -/

/-- The classes of tokens.  The first character of a token tells its class. -/
inductive TokenClass where
  | hole | string | number | word | symbol
deriving DecidableEq

def TokenKind.tokenClass : TokenKind → TokenClass
  | ident _ => .word
  | keyword _ => .word
  | hole _ => .hole
  | int _ => .number
  | float _ => .number
  | string _ => .string
  | mark _ => .symbol
  | operator _ => .symbol

/-- The inside of a string and the characters it stands for. -/
inductive StringValue (quote : Char) : List Char → List Char → Prop
  | nil : StringValue quote [] []
  | plain {c : Char} {body value : List Char} (hquote : c ≠ quote) (hslash : c ≠ '\\')
      (h : StringValue quote body value) : StringValue quote (c :: body) (c :: value)
  | escape {e c : Char} {body value : List Char} (he : unescape? e = some c)
      (h : StringValue quote body value) : StringValue quote ('\\' :: e :: body) (c :: value)

/-- A fraction and its digits: nothing, or a point and digits. -/
inductive Fraction : List Char → List Char → Prop
  | none : Fraction [] []
  | digits {ds : List Char} (h : Digits ds) : Fraction ('.' :: ds) ds

/-- The number that decimal digits spell, the last of which counts ones. -/
def positional (ds : List Char) : Nat :=
  Nat.ofDigits 10 (ds.map fun d => d.toNat - '0'.toNat).reverse

/-- The signs of exponents, with whether they are negative. -/
def signs : List (List Char × Bool) := [([], false), (['+'], false), (['-'], true)]

/-- An exponent and its value: nothing, or a letter, a sign and digits. -/
inductive Exponent : List Char → Option Int → Prop
  | none : Exponent [] .none
  | digits {letter : Char} {sign ds : List Char} {negative : Bool}
      (hletter : letter = 'e' ∨ letter = 'E') (hsign : (sign, negative) ∈ signs)
      (h : Digits ds) :
      Exponent (letter :: (sign ++ ds))
        (some (if negative then -(positional ds : Int) else positional ds))

/-- The texts of each class. -/
inductive TokenClass.Has : TokenClass → List Char → Prop
  | hole {name : List Char} (hne : name ≠ []) (h : ∀ c ∈ name, isIdentRest c = true) :
      Has .hole ('$' :: name)
  | string {quote : Char} {body value : List Char} (hquote : quote = '"' ∨ quote = '\x27')
      (h : StringValue quote body value) : Has .string (quote :: (body ++ [quote]))
  | number {whole point fraction power : List Char} {exponent : Option Int}
      (hwhole : Digits whole) (hpoint : Fraction point fraction)
      (hpower : Exponent power exponent) : Has .number (whole ++ (point ++ power))
  | word {c : Char} {cs : List Char} (hc : isIdentStart c = true)
      (h : ∀ d ∈ cs, isIdentRest d = true) : Has .word (c :: cs)
  | mark (mark : Mark) : Has .symbol mark.spelling.toList
  | operator (op : BinaryOp) : Has .symbol op.spelling.toList

/-- A text of some class that another text starts with, and none of that class is longer. -/
structure TokenClass.Longest (k : TokenClass) (word text : List Char) : Prop where
  has : k.Has word
  starts : word <+: text
  longest : ∀ other, k.Has other → other <+: text → other <+: word

/-- What a text means as a token. -/
inductive Means : List Char → TokenKind → Prop
  | name {name : String} (h : IsName name) : Means name.toList (.ident name)
  | keyword (word : Keyword) : Means word.spelling.toList (.keyword word)
  | hole (name : String) : Means ('$' :: name.toList) (.hole name)
  | int {ds : List Char} {value : Int64} (h : Digits ds) (hvalue : value.toInt = positional ds) :
      Means ds (.int value)
  | float {whole point fraction power : List Char} {exponent : Option Int} (hwhole : Digits whole)
      (hpoint : Fraction point fraction) (hpower : Exponent power exponent)
      (hne : point ++ power ≠ []) :
      Means (whole ++ (point ++ power))
        (.float (Number.Decimal.toFloat
          ⟨positional (whole ++ fraction), exponent.getD 0 - fraction.length⟩))
  | string {quote : Char} {body : List Char} {value : String}
      (h : StringValue quote body value.toList) :
      Means (quote :: (body ++ [quote])) (.string value)
  | mark (mark : Mark) : Means mark.spelling.toList (.mark mark)
  | operator (op : BinaryOp) : Means op.spelling.toList (.operator op)

/-- A token read from the text `word`, before the text `rest`. -/
structure Lexeme (kind : TokenKind) (word rest : List Char) : Prop where
  means : Means word kind
  longest : kind.tokenClass.Longest word (word ++ rest)

/-! ## Parts of texts that end where the next part can start -/

/-- A text that does not start with a character of `p`. -/
def Outside (p : Char → Bool) (text : List Char) : Prop := ∀ c ∈ text.head?, p c = false

theorem outside_cons {p : Char → Bool} {c : Char} {cs : List Char} :
    Outside p (c :: cs) ↔ p c = false := by
  simp [Outside]

theorem outside_dropWhile (p : Char → Bool) (cs : List Char) : Outside p (cs.dropWhile p) := by
  intro c hc
  have hhead := List.head?_dropWhile_not p cs
  rw [Option.mem_def.mp hc] at hhead
  simpa using hhead

/--
`text` is the longest text of `R` before `rest`.  A text of `R` with something after it that
could not belong to it either ends inside `text` or is `text`.
-/
def Greedy (R : List Char → Prop) (p : Char → Bool) (text rest : List Char) : Prop :=
  ∀ other tail, R other → Outside p tail → other ++ tail <+: text ++ rest →
    (tail = [] ∧ other <+: text) ∨ (other = text ∧ tail <+: rest)

theorem Greedy.prefix_of {R : List Char → Prop} {p : Char → Bool} {text rest other : List Char}
    (h : Greedy R p text rest) (hother : R other) (hpre : other <+: text ++ rest) :
    other <+: text := by
  have hnil : Outside p [] := by simp [Outside]
  rcases h other [] hother hnil (by simpa using hpre) with ⟨-, hle⟩ | ⟨rfl, -⟩
  · exact hle
  · exact List.prefix_rfl

theorem greedy_run {p : Char → Bool} {run rest : List Char} (hrun : ∀ c ∈ run, p c = true)
    (hrest : Outside p rest) : Greedy (fun other => ∀ c ∈ other, p c = true) p run rest := by
  intro other tail hother htail hpre
  induction other generalizing run with
  | nil =>
    cases tail with
    | nil => exact .inl ⟨rfl, List.nil_prefix⟩
    | cons c tail =>
      cases run with
      | nil => exact .inr ⟨rfl, hpre⟩
      | cons d run =>
        obtain ⟨rfl, -⟩ := List.cons_prefix_cons.mp hpre
        rw [outside_cons, hrun c List.mem_cons_self] at htail
        cases htail
  | cons c other ih =>
    obtain ⟨hc, hother⟩ := List.forall_mem_cons.mp hother
    cases run with
    | nil =>
      obtain ⟨after, rfl⟩ : c :: (other ++ tail) <+: rest := hpre
      rw [List.cons_append, outside_cons, hc] at hrest
      cases hrest
    | cons d run =>
      obtain ⟨rfl, hlater⟩ := List.cons_prefix_cons.mp hpre
      rcases ih (List.forall_mem_cons.mp hrun).2 hother hlater with ⟨htail, hle⟩ | ⟨rfl, hle⟩
      · exact .inl ⟨htail, List.cons_prefix_cons.mpr ⟨rfl, hle⟩⟩
      · exact .inr ⟨rfl, hle⟩

theorem greedy_takeWhile (p : Char → Bool) (cs : List Char) :
    Greedy (fun other => ∀ c ∈ other, p c = true) p (cs.takeWhile p) (cs.dropWhile p) :=
  greedy_run (fun _ hc => List.mem_takeWhile_imp hc) (outside_dropWhile p cs)

theorem cons_prefix_takeWhile {p : Char → Bool} {c d : Char} {run cs : List Char}
    (hrun : ∀ x ∈ run, p x = true) (h : d :: run <+: c :: cs.takeWhile p ++ cs.dropWhile p) :
    d :: run <+: c :: cs.takeWhile p := by
  obtain ⟨rfl, hlater⟩ := List.cons_prefix_cons.mp h
  exact List.cons_prefix_cons.mpr ⟨rfl, (greedy_takeWhile p cs).prefix_of hrun hlater⟩

/-- Two longest parts together are the longest text of two parts, if the first part ends where
the second one starts. -/
theorem Greedy.append {R S : List Char → Prop} {p q : Char → Bool} {first second rest : List Char}
    (hfirst : Greedy R p first (second ++ rest)) (hsecond : Greedy S q second rest)
    (hends : ∀ part tail, S part → Outside q tail → Outside p (part ++ tail)) :
    Greedy (fun other => ∃ a b, R a ∧ S b ∧ other = a ++ b) q (first ++ second) rest := by
  rintro _ tail ⟨a, b, ha, hb, rfl⟩ htail hpre
  rw [List.append_assoc, List.append_assoc] at hpre
  rcases hfirst a (b ++ tail) ha (hends b tail hb htail) hpre with ⟨hnil, hle⟩ | ⟨rfl, hlater⟩
  · obtain ⟨rfl, rfl⟩ := List.append_eq_nil_iff.mp hnil
    exact .inl ⟨rfl, by simpa using hle.trans (List.prefix_append first second)⟩
  · rcases hsecond b tail hb htail hlater with ⟨rfl, hle⟩ | ⟨rfl, hle⟩
    · exact .inl ⟨rfl, (List.prefix_append_right_inj a).mpr hle⟩
    · exact .inr ⟨rfl, hle⟩

/-! ## Numbers -/

theorem decimal_eq_positional (ds : List Char) : Slots.decimal ds = positional ds := by
  induction ds using List.reverseRecOn with
  | nil => rfl
  | append_singleton ds d ih =>
    rw [Slots.decimal, List.foldl_append, ← Slots.decimal, ih, positional, positional,
      List.map_append, List.reverse_append]
    simp only [List.foldl_cons, List.foldl_nil, List.map_cons, List.map_nil, List.reverse_cons,
      List.reverse_nil, List.nil_append, List.cons_append, Nat.ofDigits_cons]
    omega

/-- The characters that can go on a fraction or the digits before it. -/
def inFraction (c : Char) : Bool := c.isDigit || c = '.'

theorem Outside.isDigit {text : List Char} (h : Outside inFraction text) :
    Outside Char.isDigit text :=
  fun c hc => (Bool.or_eq_false_iff.mp (h c hc)).1

theorem readFraction_greedy {cs fraction rest : List Char}
    (h : readFraction cs = (fraction, rest)) :
    ∃ point, cs = point ++ rest ∧ Fraction point fraction ∧
      Greedy (fun other => ∃ ds, Fraction other ds) inFraction point rest := by
  by_cases hstarts : StartsFraction cs
  · obtain ⟨d, ds, rfl, hd⟩ := hstarts
    rw [readFraction_digit hd, Prod.mk.injEq] at h
    obtain ⟨rfl, rfl⟩ := h
    have hdigits : ∀ c ∈ d :: ds.takeWhile Char.isDigit, c.isDigit = true :=
      List.forall_mem_cons.mpr ⟨hd, fun _ hc => List.mem_takeWhile_imp hc⟩
    refine ⟨'.' :: d :: ds.takeWhile Char.isDigit, by simp,
      .digits ⟨List.cons_ne_nil _ _, hdigits⟩, ?_⟩
    rintro other tail ⟨_, hother⟩ htail hpre
    cases hother with
    | none =>
      cases tail with
      | nil => exact .inl ⟨rfl, List.nil_prefix⟩
      | cons c tail =>
        obtain ⟨rfl, -⟩ := List.cons_prefix_cons.mp hpre
        rw [outside_cons] at htail
        cases htail
    | digits hds =>
      rw [List.cons_append, List.cons_append, List.cons_prefix_cons] at hpre
      rcases greedy_run hdigits (outside_dropWhile _ ds) _ tail hds.2 htail.isDigit hpre.2
        with ⟨hnil, hle⟩ | ⟨rfl, hle⟩
      · exact .inl ⟨hnil, List.cons_prefix_cons.mpr ⟨rfl, hle⟩⟩
      · exact .inr ⟨rfl, hle⟩
  · rw [readFraction_none hstarts, Prod.mk.injEq] at h
    obtain ⟨rfl, rfl⟩ := h
    refine ⟨[], rfl, .none, ?_⟩
    rintro other tail ⟨_, hother⟩ htail hpre
    cases hother with
    | none => exact .inr ⟨rfl, hpre⟩
    | @digits ds hds =>
      obtain ⟨hne, hall⟩ := hds
      obtain ⟨d, ds, rfl⟩ := List.exists_cons_of_ne_nil hne
      obtain ⟨after, rfl⟩ := hpre
      exact absurd ⟨d, _, rfl, hall d List.mem_cons_self⟩ hstarts

theorem readSign_eq {cs rest : List Char} {negative : Bool} (h : readSign cs = (negative, rest)) :
    ∃ sign, (sign, negative) ∈ signs ∧ cs = sign ++ rest := by
  unfold readSign at h
  split at h
  · cases h
    exact ⟨['+'], by decide, rfl⟩
  · cases h
    exact ⟨['-'], by decide, rfl⟩
  · cases h
    exact ⟨[], by decide, rfl⟩

/-- Before digits there is only one sign, since no sign has a digit. -/
theorem sign_unique {sign sign' ds ds' rest : List Char} {negative negative' : Bool}
    (hsign : (sign, negative) ∈ signs) (hsign' : (sign', negative') ∈ signs) (hds : Digits ds)
    (hds' : Digits ds') (h : sign' ++ ds' <+: sign ++ (ds ++ rest)) : sign' = sign := by
  have hnone : ∀ s ∈ signs, ∀ c ∈ s.1, (!c.isDigit) = true := by simp [signs]
  have hstop : ∀ run tail, Digits run → Outside (fun c => !c.isDigit) (run ++ tail) := by
    intro run tail hrun
    obtain ⟨d, run, rfl⟩ := List.exists_cons_of_ne_nil hrun.1
    rw [List.cons_append, outside_cons, hrun.2 d List.mem_cons_self, Bool.not_true]
  have hstop' := hstop ds' [] hds'
  rw [List.append_nil] at hstop'
  rcases greedy_run (hnone _ hsign) (hstop ds rest hds) sign' ds' (hnone _ hsign') hstop' h
    with ⟨hnil, -⟩ | ⟨heq, -⟩
  · exact absurd hnil hds'.1
  · exact heq

theorem readExponent_greedy {cs rest : List Char} {exponent : Option Int}
    (h : readExponent cs = .ok (exponent, rest)) :
    ∃ power, cs = power ++ rest ∧ Exponent power exponent ∧
      Greedy (fun other => ∃ value, Exponent other value) (fun _ => true) power rest := by
  by_cases hstarts : StartsExponent cs
  · obtain ⟨letter, cs, rfl, hletter⟩ := hstarts
    rcases hread : readSign cs with ⟨negative, after⟩
    rw [readExponent_letter hletter hread] at h
    split at h
    · cases h
    · next hne =>
      rw [decimal_eq_positional] at h
      cases h
      obtain ⟨sign, hsign, rfl⟩ := readSign_eq hread
      have hds : Digits (after.takeWhile Char.isDigit) :=
        ⟨by simpa using hne, fun _ hc => List.mem_takeWhile_imp hc⟩
      refine ⟨letter :: (sign ++ after.takeWhile Char.isDigit), by simp,
        .digits hletter hsign hds, ?_⟩
      rintro other tail ⟨_, hother⟩ htail hpre
      obtain rfl : tail = [] := by
        cases tail with
        | nil => rfl
        | cons c tail => cases outside_cons.mp htail
      cases hother with
      | none => exact .inl ⟨rfl, List.nil_prefix⟩
      | digits hletter' hsign' hds' =>
        rw [List.append_nil, List.cons_append, List.append_assoc] at hpre
        obtain ⟨rfl, hlater⟩ := List.cons_prefix_cons.mp hpre
        obtain rfl := sign_unique hsign hsign' hds hds' hlater
        have hle := (greedy_takeWhile Char.isDigit after).prefix_of hds'.2
          ((List.prefix_append_right_inj _).mp hlater)
        exact .inl ⟨rfl, List.cons_prefix_cons.mpr
          ⟨rfl, (List.prefix_append_right_inj _).mpr hle⟩⟩
  · rw [readExponent_none hstarts, Except.ok.injEq, Prod.mk.injEq] at h
    obtain ⟨rfl, rfl⟩ := h
    refine ⟨[], rfl, .none, ?_⟩
    rintro other tail ⟨_, hother⟩ htail hpre
    cases hother with
    | none => exact .inr ⟨rfl, hpre⟩
    | digits hletter =>
      obtain ⟨after, rfl⟩ := hpre
      exact absurd ⟨_, _, rfl, hletter⟩ hstarts

theorem Exponent.outside {power : List Char} {exponent : Option Int} (h : Exponent power exponent)
    {tail : List Char} (htail : Outside (fun _ => true) tail) :
    Outside inFraction (power ++ tail) := by
  cases h with
  | none =>
    intro c hc
    cases htail c hc
  | digits hletter =>
    rw [List.cons_append, outside_cons]
    rcases hletter with rfl | rfl <;> decide

theorem Fraction.outside {point ds : List Char} (h : Fraction point ds) {tail : List Char}
    (htail : Outside inFraction tail) : Outside Char.isDigit (point ++ tail) := by
  cases h with
  | none => exact htail.isDigit
  | digits => exact outside_cons.mpr rfl

theorem numeral_means {whole point fraction power : List Char} {exponent : Option Int}
    {kind : TokenKind} (hwhole : Digits whole) (hpoint : Fraction point fraction)
    (hpower : Exponent power exponent) (h : numeral whole fraction exponent = .ok kind) :
    Means (whole ++ (point ++ power)) kind ∧ kind.tokenClass = .number := by
  unfold numeral at h
  split at h
  · next hplain =>
    split at h
    · next hlimit =>
      cases h
      cases hpoint with
      | digits hds => simp [hds.1] at hplain
      | none =>
        cases hpower with
        | digits => simp at hplain
        | none =>
          rw [List.append_nil, List.append_nil]
          refine ⟨.int hwhole ?_, rfl⟩
          rw [Int64.toInt_ofNat_of_lt hlimit, decimal_eq_positional]
    · cases h
  · next hplain =>
    cases h
    rw [decimal_eq_positional]
    refine ⟨.float hwhole hpoint hpower fun hnil => hplain ?_, rfl⟩
    obtain ⟨rfl, rfl⟩ := List.append_eq_nil_iff.mp hnil
    cases hpoint
    cases hpower
    rfl

theorem lexeme_number {col : Nat} {digit : Char} {cs rest : List Char} {kind : TokenKind}
    (hdigit : digit.isDigit = true) (h : readNumber col digit cs = .ok (kind, rest)) :
    ∃ word, digit :: cs = word ++ rest ∧ Lexeme kind word rest := by
  rcases hread : readFraction (cs.dropWhile Char.isDigit) with ⟨fraction, after⟩
  obtain ⟨exponent, hexponent, hkind⟩ := (readNumber_eq_ok col digit hread).mp h
  obtain ⟨power, rfl, hpower, hlast⟩ := readExponent_greedy hexponent
  obtain ⟨point, hdrop, hpoint, hmiddle⟩ := readFraction_greedy hread
  have hwhole : Digits (digit :: cs.takeWhile Char.isDigit) :=
    ⟨List.cons_ne_nil _ _,
      List.forall_mem_cons.mpr ⟨hdigit, fun _ hc => List.mem_takeWhile_imp hc⟩⟩
  have hfirst : Greedy (fun other => ∀ c ∈ other, c.isDigit = true) Char.isDigit
      (digit :: cs.takeWhile Char.isDigit) ((point ++ power) ++ rest) := by
    refine greedy_run hwhole.2 ?_
    rw [List.append_assoc, ← hdrop]
    exact outside_dropWhile _ cs
  -- each part ends where the next one can start
  have htail := hmiddle.append hlast fun _ _ hpart => hpart.choose_spec.outside
  have hall := hfirst.append htail (by
    rintro _ tail ⟨a, b, ⟨_, ha⟩, ⟨_, hb⟩, rfl⟩ hend
    rw [List.append_assoc]
    exact ha.outside (hb.outside hend))
  obtain ⟨hmeans, hclass⟩ := numeral_means hwhole hpoint hpower hkind
  refine ⟨_, ?_, hmeans, ?_⟩
  · have hcs := List.takeWhile_append_dropWhile (p := Char.isDigit) (l := cs)
    rw [hdrop] at hcs
    simpa using hcs.symm
  · rw [hclass]
    refine ⟨.number hwhole hpoint hpower, List.prefix_append _ _, fun other hother hpre => ?_⟩
    cases hother with
    | number hwhole' hpoint' hpower' =>
      exact hall.prefix_of ⟨_, _, hwhole'.2, ⟨_, _, ⟨_, hpoint'⟩, ⟨_, hpower'⟩, rfl⟩, rfl⟩ hpre

/-! ## Holes, words, strings and symbols -/

theorem lexeme_hole {col : Nat} {cs rest : List Char} {kind : TokenKind}
    (h : readHole col cs = .ok (kind, rest)) :
    ∃ word, '$' :: cs = word ++ rest ∧ Lexeme kind word rest := by
  unfold readHole at h
  dsimp only at h
  split at h
  · cases h
  · next hne =>
    cases h
    refine ⟨'$' :: cs.takeWhile isIdentRest, by simp, ?_, ?_⟩
    · have hmeans := Means.hole (String.ofList (cs.takeWhile isIdentRest))
      rwa [String.toList_ofList] at hmeans
    · refine ⟨.hole (by simpa using hne) fun _ hc => List.mem_takeWhile_imp hc,
        List.prefix_append _ _, fun other hother hpre => ?_⟩
      cases hother with
      | hole _ hname => exact cons_prefix_takeWhile hname hpre

theorem wordKind_means {c : Char} {cs : List Char} (hc : isIdentStart c = true)
    (hcs : ∀ d ∈ cs, isIdentRest d = true) :
    Means (c :: cs) (wordKind (String.ofList (c :: cs))) ∧
      (wordKind (String.ofList (c :: cs))).tokenClass = .word := by
  by_cases hkeyword : ∃ word : Keyword, word.spelling = String.ofList (c :: cs)
  · obtain ⟨word, hword⟩ := hkeyword
    have hmeans := Means.keyword word
    rw [hword, String.toList_ofList] at hmeans
    rw [← hword, wordKind_spelling]
    exact ⟨hmeans, rfl⟩
  · have hname : IsName (String.ofList (c :: cs)) :=
      ⟨⟨c, cs, String.toList_ofList, hc, hcs⟩, fun word hword => hkeyword ⟨word, hword⟩⟩
    have hmeans := Means.name hname
    rw [String.toList_ofList] at hmeans
    rw [wordKind_of_isName hname]
    exact ⟨hmeans, rfl⟩

theorem lexeme_identifier {c : Char} (cs : List Char) (hc : isIdentStart c = true) :
    Lexeme (wordKind (String.ofList (c :: cs.takeWhile isIdentRest)))
      (c :: cs.takeWhile isIdentRest) (cs.dropWhile isIdentRest) := by
  have hrest : ∀ d ∈ cs.takeWhile isIdentRest, isIdentRest d = true :=
    fun _ hd => List.mem_takeWhile_imp hd
  obtain ⟨hmeans, hclass⟩ := wordKind_means hc hrest
  refine ⟨hmeans, ?_⟩
  rw [hclass]
  refine ⟨.word hc hrest, List.prefix_append _ _, fun other hother hpre => ?_⟩
  cases hother with
  | word _ hother => exact cons_prefix_takeWhile hother hpre

theorem readString_value {quote : Char} {start col : Nat} {cs value rest : List Char}
    (h : readString quote start col cs = .ok (value, rest)) :
    ∃ body, cs = body ++ quote :: rest ∧ StringValue quote body value := by
  fun_induction readString quote start col cs generalizing value rest with
  | case1 => cases h
  | case2 col cs =>
    cases h
    exact ⟨[], rfl, .nil⟩
  | case3 => cases h
  | case4 => cases h
  | case5 => cases h
  | case6 col e cs c he value' rest' hrec hquote ih =>
    cases h
    obtain ⟨body, rfl, hbody⟩ := ih hrec
    exact ⟨'\\' :: e :: body, rfl, .escape he hbody⟩
  | case7 => cases h
  | case8 col c cs hquote hslash value' rest' hrec ih =>
    cases h
    obtain ⟨body, rfl, hbody⟩ := ih hrec
    exact ⟨c :: body, rfl, .plain hquote hslash hbody⟩

/-- A string has one end. -/
theorem StringValue.unique {quote : Char} (hquote : quote ≠ '\\') {body value : List Char}
    (h : StringValue quote body value) {body' value' rest : List Char}
    (h' : StringValue quote body' value') (hpre : body' ++ [quote] <+: body ++ quote :: rest) :
    body' = body := by
  induction h generalizing body' value' with
  | nil =>
    cases h' with
    | nil => rfl
    | plain hne => exact absurd (List.cons_prefix_cons.mp hpre).1 hne
    | escape => exact absurd (List.cons_prefix_cons.mp hpre).1.symm hquote
  | plain hne hslash _ ih =>
    cases h' with
    | nil => exact absurd (List.cons_prefix_cons.mp hpre).1.symm hne
    | plain _ _ h' =>
      obtain ⟨rfl, hlater⟩ := List.cons_prefix_cons.mp hpre
      rw [ih h' hlater]
    | escape => exact absurd (List.cons_prefix_cons.mp hpre).1.symm hslash
  | escape _ _ ih =>
    cases h' with
    | nil => exact absurd (List.cons_prefix_cons.mp hpre).1 hquote
    | plain _ hslash => exact absurd (List.cons_prefix_cons.mp hpre).1 hslash
    | escape _ h' =>
      obtain ⟨-, hnext⟩ := List.cons_prefix_cons.mp hpre
      obtain ⟨rfl, hlater⟩ := List.cons_prefix_cons.mp hnext
      rw [ih h' hlater]

theorem lexeme_quoted {quote : Char} (hquote : quote = '"' ∨ quote = '\x27') {start col : Nat}
    {cs value rest : List Char} (h : readString quote start col cs = .ok (value, rest)) :
    ∃ word, quote :: cs = word ++ rest ∧ Lexeme (.string (String.ofList value)) word rest := by
  obtain ⟨body, rfl, hbody⟩ := readString_value h
  have hslash : quote ≠ '\\' := by rcases hquote with rfl | rfl <;> decide
  refine ⟨quote :: (body ++ [quote]), by simp, .string (by rwa [String.toList_ofList]), ?_⟩
  refine ⟨.string hquote hbody, List.prefix_append _ _, fun other hother hpre => ?_⟩
  cases hother with
  | string _ hother =>
    obtain ⟨rfl, hlater⟩ := List.cons_prefix_cons.mp hpre
    rw [hbody.unique hslash hother (by simpa using hlater)]

theorem symbols_shorten :
    symbols.Pairwise fun kind other =>
      (symbolSpelling other).length ≤ (symbolSpelling kind).length := by
  decide

theorem means_symbolSpelling {kind : TokenKind} (h : kind ∈ symbols) :
    Means (symbolSpelling kind) kind ∧ kind.tokenClass = .symbol ∧
      TokenClass.symbol.Has (symbolSpelling kind) := by
  cases kind with
  | mark mark => exact ⟨.mark mark, rfl, .mark mark⟩
  | operator op => exact ⟨.operator op, rfl, .operator op⟩
  | _ => simp [symbols] at h

theorem TokenClass.Has.exists_symbol {word : List Char} (h : TokenClass.symbol.Has word) :
    ∃ kind ∈ symbols, symbolSpelling kind = word := by
  cases h with
  | mark mark => exact ⟨_, mem_symbols_of_mark mark, rfl⟩
  | operator op => exact ⟨_, mem_symbols_of_operator op, rfl⟩

theorem lexeme_punctuation {col : Nat} {c : Char} {cs rest : List Char} {kind : TokenKind}
    (h : readSymbol col c cs = .ok (kind, rest)) :
    ∃ word, c :: cs = word ++ rest ∧ Lexeme kind word rest := by
  unfold readSymbol at h
  split at h
  · next found hfind =>
    rw [Except.ok.injEq, Prod.mk.injEq] at h
    obtain ⟨rfl, hdrop⟩ := h
    obtain ⟨hstarts, before, after, hsymbols, hbefore⟩ :=
      List.find?_eq_some_iff_append.mp hfind
    have hfound : found ∈ symbols := List.mem_of_find?_eq_some hfind
    obtain ⟨hmeans, hclass, hhas⟩ := means_symbolSpelling hfound
    obtain ⟨d, ds, hspelling, -⟩ := exists_symbolSpelling hfound
    have htext : c :: cs = symbolSpelling found ++ rest := by
      rw [List.isPrefixOf_iff_prefix] at hstarts
      obtain ⟨later, hlater⟩ := hstarts
      rw [hspelling, List.cons_append, List.cons.injEq] at hlater
      obtain ⟨rfl, rfl⟩ := hlater
      rw [hspelling] at hdrop ⊢
      simpa using hdrop
    refine ⟨symbolSpelling found, htext, hmeans, ?_⟩
    rw [hclass, ← htext]
    refine ⟨hhas, List.isPrefixOf_iff_prefix.mp hstarts, fun other hother hpre => ?_⟩
    obtain ⟨kind, hkind, rfl⟩ := hother.exists_symbol
    -- a symbol before the one found is no start of the text, and one after it is not longer
    have hlength : (symbolSpelling kind).length ≤ (symbolSpelling found).length := by
      have hshorten := symbols_shorten
      rw [hsymbols] at hkind hshorten
      rcases List.mem_append.mp hkind with hkind | hkind
      · have hnot := hbefore kind hkind
        rw [List.isPrefixOf_iff_prefix.mpr hpre] at hnot
        cases hnot
      · rcases List.mem_cons.mp hkind with rfl | hkind
        · exact le_rfl
        · exact List.rel_of_pairwise_cons (List.pairwise_append.mp hshorten).2.1 hkind
    exact List.prefix_of_prefix_length_le hpre (List.isPrefixOf_iff_prefix.mp hstarts) hlength
  · cases h

/-- What is read as a token is the longest text of the token's class and means the token. -/
theorem lexeme_of_ok {col : Nat} {c : Char} {used rest : List Char} {kind : TokenKind}
    (h : lexeme col c (used ++ rest) = .ok (kind, rest)) : Lexeme kind (c :: used) rest := by
  have hread : ∃ word, c :: (used ++ rest) = word ++ rest ∧ Lexeme kind word rest := by
    unfold lexeme at h
    split_ifs at h with hdollar hquote hdigit hident
    · subst hdollar
      exact lexeme_hole h
    · split at h
      · cases h
      · next hstring =>
        cases h
        exact lexeme_quoted (by simpa using hquote) hstring
    · exact lexeme_number hdigit h
    · rw [Except.ok.injEq, Prod.mk.injEq] at h
      obtain ⟨rfl, hdrop⟩ := h
      have hword := lexeme_identifier (used ++ rest) hident
      rw [hdrop] at hword
      refine ⟨_, ?_, hword⟩
      conv_lhs => rw [← List.takeWhile_append_dropWhile (p := isIdentRest) (l := used ++ rest)]
      rw [hdrop, List.cons_append]
    · exact lexeme_punctuation h
  obtain ⟨word, hword, hlexeme⟩ := hread
  obtain rfl : c :: used = word := List.append_cancel_right hword
  exact hlexeme

/-! ## Whole texts -/

/-- The text of tokens with a gap before each of them. -/
def spelled (pieces : List (List Char × Token)) : List Char :=
  pieces.flatMap fun piece => piece.1 ++ piece.2.text

/-- A text from a column on, as its tokens with the blanks before each of them and at the end. -/
structure Layout (col : Nat) (text : List Char) (tokens : Tokens)
    (pieces : List (List Char × Token)) (last : List Char) : Prop where
  tokens_eq : pieces.map Prod.snd = tokens.list
  text_eq : text = spelled pieces ++ last
  blanks : ∀ piece ∈ pieces, Blanks piece.1
  blanks_last : Blanks last
  column_eq : ∀ front gap token back, pieces = front ++ (gap, token) :: back →
    token.column = col + (String.ofList (spelled front ++ gap)).utf8ByteSize
  lexeme : ∀ front gap token back, pieces = front ++ (gap, token) :: back →
    Lexeme token.kind token.text (spelled back ++ last)
  increasing : (tokens.list.map Token.column ++ [tokens.stop]).Pairwise (· < ·)
  stop_eq : tokens.stop = col + (String.ofList text).utf8ByteSize

theorem layout_blanks (col : Nat) {gap : List Char} (hgap : Blanks gap) :
    Layout col gap ⟨[], col + byteLength gap⟩ [] gap where
  tokens_eq := rfl
  text_eq := rfl
  blanks := by simp
  blanks_last := hgap
  column_eq := by simp
  lexeme := by simp
  increasing := by simp
  stop_eq := by rw [byteLength_eq_utf8ByteSize]

section Layout

variable {col : Nat} {text : List Char} {tokens : Tokens} {pieces : List (List Char × Token)}
  {last : List Char}

theorem Layout.le_column (h : Layout col text tokens pieces last) {n : Nat}
    (hn : n ∈ tokens.list.map Token.column ++ [tokens.stop]) : col ≤ n := by
  rcases List.mem_append.mp hn with hn | hn
  · rw [← h.tokens_eq, List.map_map] at hn
    obtain ⟨⟨gap, token⟩, hpiece, rfl⟩ := List.mem_map.mp hn
    obtain ⟨front, back, hsplit⟩ := List.append_of_mem hpiece
    rw [Function.comp_apply, h.column_eq front gap token back hsplit]
    exact Nat.le_add_right _ _
  · rw [List.mem_singleton.mp hn, h.stop_eq]
    exact Nat.le_add_right _ _

/-- A token in front of a text, with blanks before it. -/
theorem Layout.cons {gap used : List Char} {c : Char} {kind : TokenKind} (hgap : Blanks gap)
    (hlexeme : Lexeme kind (c :: used) text)
    (h : Layout (col + byteLength gap + byteLength (c :: used)) text tokens pieces last) :
    Layout col (gap ++ c :: (used ++ text))
      ⟨⟨kind, c :: used, col + byteLength gap⟩ :: tokens.list, tokens.stop⟩
      ((gap, ⟨kind, c :: used, col + byteLength gap⟩) :: pieces) last where
  tokens_eq := by rw [List.map_cons, h.tokens_eq]
  text_eq := by
    rw [h.text_eq]
    simp [spelled]
  blanks := List.forall_mem_cons.mpr ⟨hgap, h.blanks⟩
  blanks_last := h.blanks_last
  column_eq := by
    intro front gap' token back hsplit
    cases front with
    | nil =>
      cases hsplit
      simp [spelled, byteLength_eq_utf8ByteSize]
    | cons first front =>
      obtain ⟨rfl, hlater⟩ := List.cons.inj hsplit
      rw [h.column_eq front gap' token back hlater]
      simp only [← byteLength_eq_utf8ByteSize, spelled, List.flatMap_cons, byteLength_append]
      omega
  lexeme := by
    intro front gap' token back hsplit
    cases front with
    | nil =>
      cases hsplit
      rwa [← h.text_eq]
    | cons first front => exact h.lexeme front gap' token back (List.cons.inj hsplit).2
  increasing := by
    refine List.pairwise_cons.mpr ⟨fun n hn => ?_, h.increasing⟩
    have hle := h.le_column hn
    have hpos := c.utf8Size_pos
    simp only [byteLength] at hle ⊢
    omega
  stop_eq := by
    rw [h.stop_eq]
    simp only [← byteLength_eq_utf8ByteSize, byteLength_append, byteLength]
    omega

end Layout

theorem scan_layout (col : Nat) (text : List Char) (tokens : Tokens)
    (h : scan col text = .ok tokens) : ∃ pieces last, Layout col text tokens pieces last := by
  induction col, text using scan_induction generalizing tokens with
  | blanks col gap hgap =>
    rw [scan_of_blanks col hgap] at h
    cases h
    exact ⟨[], gap, layout_blanks col hgap⟩
  | stuck col gap c cs e hgap hc hlexeme =>
    rw [scan_of_lexeme_error hgap hc hlexeme] at h
    cases h
  | token col gap c used rest kind hgap hc hlexeme ih =>
    obtain ⟨list, stop⟩ := tokens
    obtain ⟨later, rfl, hrest⟩ := (scan_lexeme_eq_ok hgap hc hlexeme).mp h
    obtain ⟨pieces, last, hlayout⟩ := ih ⟨later, stop⟩ hrest
    exact ⟨_, last, hlayout.cons hgap (lexeme_of_ok hlexeme)⟩

/--
The tokens of a template and the blanks between them are the template.  Columns count
bytes from one and increase up to the end, and each token has the longest text of its class
at its place and the value of that text.
-/
theorem tokens_are_whole_template {code : String} {tokens : Tokens}
    (h : tokenize code = .ok tokens) : ∃ pieces last, Layout 1 code.toList tokens pieces last :=
  scan_layout 1 code.toList tokens h

/-- A template with a wide blank, a wide character, an escape and leading zeros. -/
def comparison : String := "$a1\u00a0!== 'é\\n'(007)"

def comparisonTokens : Tokens where
  list := [⟨.hole "a1", "$a1".toList, 1⟩, ⟨.operator .strictNe, "!==".toList, 6⟩,
    ⟨.string "é\n", "'é\\n'".toList, 10⟩, ⟨.mark .lparen, "(".toList, 16⟩,
    ⟨.int 7, "007".toList, 17⟩, ⟨.mark .rparen, ")".toList, 20⟩]
  stop := 21

theorem comparison_is_its_tokens :
    tokenize comparison = .ok comparisonTokens ∧
      ∃ pieces last, Layout 1 comparison.toList comparisonTokens pieces last := by
  have htokens : tokenize comparison = .ok comparisonTokens := by cbv
  exact ⟨htokens, tokens_are_whole_template htokens⟩

end Memberwise.Template
