import Mathlib
import Memberwise.Proofs.Subterms
import Memberwise.Proofs.TemplateGrammar
import Memberwise.Proofs.TemplateSpelling

/-!
# Printing templates

An expression is printed with parentheses around each compound expression inside
it.  Whatever blanks stand between the tokens, and in whichever quotes the strings
are, reading the text gives the expression back.
-/

namespace Memberwise.Template

/-! ## Printing -/

/-- The names of a dotted path. -/
def pathNames (path : String) : List String := (path.toList.splitOn '.').map String.ofList

/-- The tokens of names with points between them. -/
def namesTokens : List String → List TokenKind
  | [] => []
  | name :: names => .ident name :: names.flatMap fun next => [.mark .dot, .ident next]

/-- The token of a constant. -/
def literalToken : Literal → TokenKind
  | .null => .keyword .null
  | .bool true => .keyword .yes
  | .bool false => .keyword .no
  | .int value => .int value
  | .float value => .float value
  | .string value => .string value

/-- Whether an expression has parentheses around it when it stands inside another. -/
def isCompound : Expr → Bool
  | .undefined | .literal _ | .hole _ | .global _ => false
  | _ => true

/-- The tokens of an expression inside another, from its own tokens. -/
def enclosed (e : Expr) (tokens : List TokenKind) : List TokenKind :=
  if isCompound e then .mark .lparen :: tokens ++ [.mark .rparen] else tokens

mutual

/-- The tokens of an expression. -/
def printed : Expr → List TokenKind
  | .undefined => [.keyword .undefined]
  | .literal value => [literalToken value]
  | .hole index => [.hole (toString index)]
  | .global path => namesTokens (pathNames path)
  | .apply function args =>
    enclosed function (printed function) ++ .mark .lparen :: separated (printedAll args) ++
      [.mark .rparen]
  | .new constructor args =>
    .keyword .new :: enclosed constructor (printed constructor) ++
      .mark .lparen :: separated (printedAll args) ++ [.mark .rparen]
  | .field target name => enclosed target (printed target) ++ [.mark .dot, .ident name]
  | .item target key =>
    enclosed target (printed target) ++ .mark .lbracket :: enclosed key (printed key) ++
      [.mark .rbracket]
  | .object fields => .mark .lbrace :: separated (printedFields fields) ++ [.mark .rbrace]
  | .array items => .mark .lbracket :: separated (printedAll items) ++ [.mark .rbracket]
  | .binary op left right =>
    enclosed left (printed left) ++ .operator op :: enclosed right (printed right)
  | .unary .not operand => .mark .bang :: enclosed operand (printed operand)
  | .unary .neg operand => .operator .sub :: enclosed operand (printed operand)
  | _ => []
termination_by structural e => e

/-- The tokens of each of several expressions inside another. -/
def printedAll : List Expr → List (List TokenKind)
  | [] => []
  | e :: es => enclosed e (printed e) :: printedAll es
termination_by structural es => es

/-- The tokens of each field of an object. -/
def printedFields : List (String × Expr) → List (List TokenKind)
  | [] => []
  | (name, e) :: fields =>
    (.string name :: .mark .colon :: enclosed e (printed e)) :: printedFields fields
termination_by structural fields => fields

end

/-- What can be printed so that it is read back: no negative or fractional numbers, no holes without
a slot, and names only where they are not taken for something else. -/
def Writable (slots : Slots) : Expr → Prop
  | .literal (.int value) => 0 ≤ value
  | .literal (.float _) => False
  | .hole index => index < slots.arity ∧ index < UInt64.size
  | .global path => ∀ name ∈ pathNames path, IsName name
  | .field target name => IsName name ∧ ∀ path, target ≠ .global path
  | .undefined | .literal _ | .apply .. | .new .. | .item .. | .object _ | .array _ | .binary ..
  | .unary .. => True
  | _ => False

/-- An expression with its tokens inside another. -/
def writtenInside (e : Expr) : Written := ⟨enclosed e (printed e), e⟩

theorem printedAll_eq (es : List Expr) :
    printedAll es = (es.map writtenInside).map Written.tokens := by
  induction es with
  | nil => rfl
  | cons e es ih => simp [printedAll, writtenInside, ih]

theorem map_value_writtenInside (es : List Expr) :
    (es.map writtenInside).map Written.value = es := by
  simp [writtenInside, Function.comp_def]

/-- A field with its tokens. -/
def writtenField (field : String × Expr) : WrittenField :=
  ⟨.string field.1, field.1, writtenInside field.2⟩

theorem printedFields_eq (fields : List (String × Expr)) :
    printedFields fields = (fields.map writtenField).map WrittenField.tokens := by
  induction fields with
  | nil => rfl
  | cons field fields ih =>
    simp [printedFields, writtenField, writtenInside, WrittenField.tokens, ih]

theorem map_value_writtenField (fields : List (String × Expr)) :
    (fields.map writtenField).map (fun f => (f.name, f.item.value)) = fields := by
  simp [writtenField, writtenInside, Function.comp_def]

/-! ## What is printed derives what was printed -/

section Derives

variable {slots : Slots}

theorem derives_names {calls : Bool} {ts : List TokenKind} {path : String}
    (h : Derives slots (.chain calls) ts (.global path)) (names : List String) :
    Derives slots (.chain calls) (ts ++ names.flatMap fun next => [.mark .dot, .ident next])
      (.global (names.foldl (fun path name => path ++ "." ++ name) path)) := by
  induction names generalizing ts path with
  | nil => simpa using h
  | cons name names ih => simpa using ih (h.extendPath name)

theorem toList_foldl_names (path : String) (names : List String) :
    (names.foldl (fun path name => path ++ "." ++ name) path).toList =
      path.toList ++ names.flatMap fun name => '.' :: name.toList := by
  induction names generalizing path with
  | nil => simp
  | cons name names ih => simp [ih]

theorem intercalate_point (part : List Char) (parts : List (List Char)) :
    ['.'].intercalate (part :: parts) = part ++ parts.flatMap fun part => '.' :: part := by
  induction parts generalizing part with
  | nil => simp
  | cons next parts ih =>
    have hstep : ['.'].intercalate (part :: next :: parts) =
        part ++ '.' :: ['.'].intercalate (next :: parts) := by
      simp [List.intercalate]
    rw [hstep, ih]
    simp

theorem exists_pathNames (path : String) :
    ∃ name names, pathNames path = name :: names ∧
      names.foldl (fun path name => path ++ "." ++ name) name = path := by
  obtain ⟨part, parts, hparts⟩ := List.exists_cons_of_ne_nil (List.splitOn_ne_nil '.' path.toList)
  refine ⟨String.ofList part, parts.map String.ofList, by simp [pathNames, hparts], ?_⟩
  have hjoin : ['.'].intercalate (part :: parts) = path.toList := by
    rw [← hparts, List.intercalate_splitOn]
  apply String.toList_injective
  rw [toList_foldl_names, ← hjoin, intercalate_point]
  simp [List.flatMap_map]

theorem derives_path (calls : Bool) (path : String) :
    Derives slots (.chain calls) (namesTokens (pathNames path)) (.global path) := by
  obtain ⟨name, names, hnames, hpath⟩ := exists_pathNames path
  rw [hnames]
  have hfirst : Derives slots (.chain calls) [.ident name] (.global name) :=
    .primary (.atom (.plain rfl))
  simpa [namesTokens, hpath] using derives_names hfirst names

theorem resolve_toString {index : Nat} (h : index < slots.arity) (hsize : index < UInt64.size) :
    slots.resolve (toString index) = .ok index := by
  have hdigits : (toString index).toList.all Char.isDigit = true :=
    List.all_eq_true.mpr fun _ => isDigit_of_mem_toString
  have hthis : toString index ≠ "this" := by
    intro hthis
    rw [hthis] at hdigits
    revert hdigits
    decide
  have hfits : ¬ ((toString index).isEmpty || decide (UInt64.size ≤ index)) = true := by
    simpa using hsize
  unfold Slots.resolve
  rw [if_neg hthis, if_pos hdigits, decimal_toString]
  dsimp only
  rw [if_neg hfits, if_neg (Nat.not_le_of_lt h)]

/-- A chain is an operand, so it is an expression of every level. -/
theorem Derives.level_of_chain {ts : List TokenKind} {e : Expr}
    (h : Derives slots (.chain true) ts e) {n : Nat} (hn : n ≤ 7) : Derives slots (.level n) ts e :=
  h.chain.operand.loosen hn

theorem isAtom_literal {value : Literal} (h : Writable slots (.literal value)) :
    IsAtom slots (literalToken value) (.literal value) := by
  cases value with
  | float => cases h
  | bool value => cases value <;> exact .plain rfl
  | _ => exact .plain rfl

/-- Inside another expression, the tokens of an expression can be followed by names, items and
calls. -/
def DerivesInside (slots : Slots) (e : Expr) : Prop :=
  ∀ calls, Derives slots (.chain calls) (enclosed e (printed e)) e

theorem DerivesInside.level {e : Expr} (h : DerivesInside slots e) {n : Nat} (hn : n ≤ 7) :
    Derives slots (.level n) (enclosed e (printed e)) e :=
  (h true).level_of_chain hn

theorem derives_written {es : List Expr} (h : ∀ c ∈ es, DerivesInside slots c) :
    ∀ w ∈ es.map writtenInside, Derives slots (.level 0) w.tokens w.value := by
  intro w hw
  obtain ⟨c, hc, rfl⟩ := List.mem_map.mp hw
  exact (h c hc).level (Nat.zero_le 7)

theorem derives_writtenFields {fields : List (String × Expr)}
    (h : ∀ field ∈ fields, DerivesInside slots field.2) :
    ∀ f ∈ fields.map writtenField, Derives slots (.level 0) f.item.tokens f.item.value := by
  intro f hf
  obtain ⟨field, hfield, rfl⟩ := List.mem_map.mp hf
  exact (h field hfield).level (Nat.zero_le 7)

theorem key?_writtenField {fields : List (String × Expr)} :
    ∀ f ∈ fields.map writtenField, f.key.key? = some f.name := by
  intro f hf
  obtain ⟨field, hfield, rfl⟩ := List.mem_map.mp hf
  rfl

theorem derives_printed_simple {e : Expr} (hsimple : isCompound e = false)
    (he : Writable slots e) (calls : Bool) : Derives slots (.chain calls) (printed e) e := by
  cases e with
  | undefined => exact .primary (.atom (.plain rfl))
  | literal value => exact .primary (.atom (isAtom_literal he))
  | hole index => exact .primary (.atom (.hole (resolve_toString he.1 he.2)))
  | global path => exact derives_path calls path
  | _ => cases hsimple

theorem derives_printed_compound {e : Expr} (hcompound : isCompound e = true)
    (he : Writable slots e) (h : ∀ c ∈ e.children, DerivesInside slots c) :
    Derives slots (.level 0) (printed e) e := by
  cases e with
  | undefined | literal | hole | global => cases hcompound
  | apply function args =>
    obtain ⟨hfunction, hargs⟩ := List.forall_mem_cons.mp h
    have hcall := (hfunction true).call (derives_written hargs)
    rw [map_value_writtenInside, ← printedAll_eq] at hcall
    exact hcall.level_of_chain (by omega)
  | new constructor args =>
    obtain ⟨hconstructor, hargs⟩ := List.forall_mem_cons.mp h
    have hnew := (hconstructor false).new (derives_written hargs)
    rw [map_value_writtenInside, ← printedAll_eq] at hnew
    exact hnew.primary.level_of_chain (by omega)
  | field target name =>
    have hfield := (h target List.mem_cons_self true).field name he.2
    exact hfield.level_of_chain (by omega)
  | item target key =>
    have htarget := h target (by simp [Expr.children])
    have hkey := h key (by simp [Expr.children])
    have hitem := (htarget true).item (hkey.level (Nat.zero_le 7))
    exact hitem.level_of_chain (by omega)
  | object fields =>
    have hobject := Derives.object key?_writtenField
      (derives_writtenFields (List.forall_mem_map.mp h))
    rw [map_value_writtenField, ← printedFields_eq] at hobject
    exact hobject.primary.level_of_chain (by omega)
  | array items =>
    have harray := Derives.array (derives_written h)
    rw [map_value_writtenInside, ← printedAll_eq] at harray
    exact harray.primary.level_of_chain (by omega)
  | binary op left right =>
    have hleft := h left (by simp [Expr.children])
    have hright := h right (by simp [Expr.children])
    have hsix := level_le_six op
    have hbinary := (hleft.level (by omega)).binary ((mem_operatorsAt op op.level).mpr rfl)
      (hright.level (by omega))
    exact hbinary.loosen (Nat.zero_le _)
  | unary op operand =>
    have hoperand := (h operand List.mem_cons_self true).chain
    cases op with
    | not => exact hoperand.not.operand.loosen (by omega)
    | neg => exact hoperand.neg.operand.loosen (by omega)
  | _ => exact he.elim

/-- The tokens that an expression is printed as derive it, with parentheses and without. -/
theorem derives_printed {e : Expr} (he : e.Every (Writable slots)) :
    Derives slots (.level 0) (printed e) e ∧ DerivesInside slots e := by
  induction e using Expr.childInduction with
  | step e ih =>
    by_cases hcompound : isCompound e = true
    · have hlevel := derives_printed_compound hcompound he.self fun c hc =>
        (ih c hc (he.child hc)).2
      refine ⟨hlevel, fun calls => ?_⟩
      rw [enclosed, if_pos hcompound]
      exact .primary hlevel.parens
    · have hchain := derives_printed_simple (Bool.eq_false_of_not_eq_true hcompound) he.self
      refine ⟨(hchain true).level_of_chain (by omega), fun calls => ?_⟩
      rw [enclosed, if_neg hcompound]
      exact hchain calls

end Derives

/-! ## What is printed can be written -/

/-- Tokens that can be written. -/
def Spellable (tokens : List TokenKind) : Prop := ∀ kind ∈ tokens, ∃ word, Spells kind word

section Spellable

variable {kind : TokenKind} {front back tokens : List TokenKind}

theorem spellable_nil : Spellable [] := nofun

theorem spellable_cons (h : ∃ word, Spells kind word) (htokens : Spellable tokens) :
    Spellable (kind :: tokens) :=
  List.forall_mem_cons.mpr ⟨h, htokens⟩

theorem spellable_append (hfront : Spellable front) (hback : Spellable back) :
    Spellable (front ++ back) :=
  List.forall_mem_append.mpr ⟨hfront, hback⟩

theorem spellable_mark (mark : Mark) : ∃ word, Spells (.mark mark) word := ⟨_, .mark mark⟩

theorem spellable_between (opening closing : Mark) (h : Spellable tokens) :
    Spellable (.mark opening :: tokens ++ [.mark closing]) :=
  spellable_append (spellable_cons (spellable_mark opening) h)
    (spellable_cons (spellable_mark closing) spellable_nil)

theorem spellable_separated {parts : List (List TokenKind)} (h : ∀ part ∈ parts, Spellable part) :
    Spellable (separated parts) := by
  induction parts with
  | nil => exact spellable_nil
  | cons part parts ih =>
    obtain ⟨hpart, hparts⟩ := List.forall_mem_cons.mp h
    by_cases hlast : parts = []
    · simpa [separated, hlast] using hpart
    · rw [separated_cons hlast]
      exact spellable_append hpart (spellable_cons (spellable_mark .comma) (ih hparts))

theorem spellable_enclosed {e : Expr} (h : Spellable (printed e)) :
    Spellable (enclosed e (printed e)) := by
  by_cases hcompound : isCompound e = true
  · rw [enclosed, if_pos hcompound]
    exact spellable_between .lparen .rparen h
  · rwa [enclosed, if_neg hcompound]

theorem spellable_all {es : List Expr} (h : ∀ e ∈ es, Spellable (printed e)) :
    Spellable (separated (printedAll es)) := by
  refine spellable_separated fun part hpart => ?_
  rw [printedAll_eq, List.map_map] at hpart
  obtain ⟨e, hmem, rfl⟩ := List.mem_map.mp hpart
  exact spellable_enclosed (h e hmem)

theorem spellable_fields {fields : List (String × Expr)}
    (h : ∀ field ∈ fields, Spellable (printed field.2)) :
    Spellable (separated (printedFields fields)) := by
  refine spellable_separated fun part hpart => ?_
  rw [printedFields_eq, List.map_map] at hpart
  obtain ⟨field, hmem, rfl⟩ := List.mem_map.mp hpart
  exact spellable_cons ⟨_, .string (.inl rfl) field.1⟩
    (spellable_cons (spellable_mark .colon) (spellable_enclosed (h field hmem)))

theorem spellable_names {names : List String} (h : ∀ name ∈ names, IsName name) :
    Spellable (namesTokens names) := by
  cases names with
  | nil => exact spellable_nil
  | cons name names =>
    obtain ⟨hname, hnames⟩ := List.forall_mem_cons.mp h
    refine spellable_cons ⟨_, .name hname⟩ ?_
    intro kind hkind
    obtain ⟨next, hnext, hkind⟩ := List.mem_flatMap.mp hkind
    have hpair : Spellable [.mark .dot, .ident next] :=
      spellable_cons (spellable_mark .dot)
        (spellable_cons ⟨_, .name (hnames next hnext)⟩ spellable_nil)
    exact hpair kind hkind

end Spellable

theorem spellable_literal {slots : Slots} {value : Literal} (h : Writable slots (.literal value)) :
    ∃ word, Spells (literalToken value) word := by
  cases value with
  | null => exact ⟨_, .keyword .null⟩
  | bool value => cases value <;> exact ⟨_, .keyword _⟩
  | int value => exact ⟨_, .int h⟩
  | float => exact h.elim
  | string value => exact ⟨_, .string (.inl rfl) value⟩

theorem spellable_printed {slots : Slots} {e : Expr} (he : e.Every (Writable slots)) :
    Spellable (printed e) := by
  induction e using Expr.childInduction with
  | step e ih =>
    have hself := he.self
    have hchild : ∀ c ∈ e.children, Spellable (printed c) := fun c hc => ih c hc (he.child hc)
    cases e with
    | undefined => exact spellable_cons ⟨_, .keyword .undefined⟩ spellable_nil
    | literal value => exact spellable_cons (spellable_literal hself) spellable_nil
    | hole index => exact spellable_cons ⟨_, .hole index⟩ spellable_nil
    | global path => exact spellable_names hself
    | apply function args =>
      obtain ⟨hfunction, hargs⟩ := List.forall_mem_cons.mp hchild
      rw [printed, List.append_assoc]
      exact spellable_append (spellable_enclosed hfunction)
        (spellable_between .lparen .rparen (spellable_all hargs))
    | new constructor args =>
      obtain ⟨hconstructor, hargs⟩ := List.forall_mem_cons.mp hchild
      rw [printed, List.append_assoc]
      exact spellable_append (spellable_cons ⟨_, .keyword .new⟩ (spellable_enclosed hconstructor))
        (spellable_between .lparen .rparen (spellable_all hargs))
    | field target name =>
      exact spellable_append (spellable_enclosed (hchild target List.mem_cons_self))
        (spellable_cons (spellable_mark .dot) (spellable_cons ⟨_, .name hself.1⟩ spellable_nil))
    | item target key =>
      have htarget := hchild target (by simp [Expr.children])
      have hkey := hchild key (by simp [Expr.children])
      rw [printed, List.append_assoc]
      exact spellable_append (spellable_enclosed htarget)
        (spellable_between .lbracket .rbracket (spellable_enclosed hkey))
    | object fields =>
      exact spellable_between .lbrace .rbrace (spellable_fields fun field hfield =>
        hchild field.2 (List.mem_map_of_mem hfield))
    | array items => exact spellable_between .lbracket .rbracket (spellable_all hchild)
    | binary op left right =>
      have hleft := hchild left (by simp [Expr.children])
      have hright := hchild right (by simp [Expr.children])
      exact spellable_append (spellable_enclosed hleft)
        (spellable_cons ⟨_, .operator op⟩ (spellable_enclosed hright))
    | unary op operand =>
      have hoperand := spellable_enclosed (hchild operand List.mem_cons_self)
      cases op with
      | not => exact spellable_cons (spellable_mark .bang) hoperand
      | neg => exact spellable_cons ⟨_, .operator .sub⟩ hoperand
    | _ => exact hself.elim

/-- Tokens can be written with a single blank after each of them. -/
theorem spaced_words {tokens : List TokenKind} {words : List (List Char)}
    (h : List.Forall₂ Spells tokens words) : Spaced tokens (words.flatMap (· ++ [' '])) := by
  induction h with
  | nil => exact .blanks nofun
  | cons hword _ ih => exact .next hword (List.forall_mem_singleton.mpr (by decide)) (by simp) ih

theorem exists_spaced {tokens : List TokenKind} (h : Spellable tokens) :
    ∃ text, Spaced tokens text := by
  choose! word hword using h
  exact ⟨_, spaced_words (List.forall₂_map_right_iff.mpr (List.forall₂_same.mpr hword))⟩

/-- The text of an expression, with parentheses around the whole or without, is read as the
expression; and there is such a text. -/
theorem parse_printed (slots : Slots) (e : Expr) (he : e.Every (Writable slots))
    (tokens : List TokenKind) (htokens : tokens = printed e ∨ tokens = enclosed e (printed e)) :
    (∃ code : String, Spaced tokens code.toList) ∧
      ∀ code : String, Spaced tokens code.toList → parse slots code = .ok e := by
  obtain ⟨hwhole, hinside⟩ := derives_printed he
  have hspellable := spellable_printed he
  have htokens : Spellable tokens ∧ Derives slots (.level 0) tokens e := by
    rcases htokens with rfl | rfl
    · exact ⟨hspellable, hwhole⟩
    · exact ⟨spellable_enclosed hspellable, hinside.level (Nat.zero_le 7)⟩
  constructor
  · obtain ⟨text, htext⟩ := exists_spaced htokens.1
    exact ⟨String.ofList text, by rwa [String.toList_ofList]⟩
  · intro code hcode
    obtain ⟨scanned, hscan, hkinds⟩ := exists_scan_of_spaced hcode 1
    rw [parse, tokenize, hscan]
    exact parseTokens_of_derives (hkinds ▸ htokens.2)

theorem parse_negation_and_construction :
    parse ⟨true, ["x"]⟩ "( - 3 ) === ( new ( $1 . f ) ( '\\'' , a . b ) ) " =
      .ok (.binary .strictEq (.unary .neg (.int 3))
        (.new (.field (.hole 1) "f") [.string "'", .global "a.b"])) := by
  have ha : IsName "a" := ⟨⟨'a', [], rfl, by decide, nofun⟩, fun word => by cases word <;> decide⟩
  have hb : IsName "b" := ⟨⟨'b', [], rfl, by decide, nofun⟩, fun word => by cases word <;> decide⟩
  have hf : IsName "f" := ⟨⟨'f', [], rfl, by decide, nofun⟩, fun word => by cases word <;> decide⟩
  have hpath : pathNames "a.b" = ["a", "b"] := by decide
  refine (parse_printed ⟨true, ["x"]⟩ _ ?_ _ (.inl rfl)).2 _ ?_
  · simp [Writable, Expr.int, Expr.string, hpath, ha, hb, hf, Slots.arity, Slots.offset]
  · exact spaced_words <| .cons (.mark .lparen) (.cons (.operator .sub) (.cons (.int (by decide))
      (.cons (.mark .rparen) (.cons (.operator .strictEq) (.cons (.mark .lparen)
      (.cons (.keyword .new) (.cons (.mark .lparen) (.cons (.hole 1) (.cons (.mark .dot)
      (.cons (.name hf) (.cons (.mark .rparen) (.cons (.mark .lparen)
      (.cons (.string (.inr rfl) "'") (.cons (.mark .comma) (.cons (.name ha) (.cons (.mark .dot)
      (.cons (.name hb) (.cons (.mark .rparen) (.cons (.mark .rparen) .nil)))))))))))))))))))

end Memberwise.Template
