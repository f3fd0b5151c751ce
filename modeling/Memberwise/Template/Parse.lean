import Memberwise.Diagnostic
import Memberwise.Template.Scan

/-!
# From tokens to expressions

A template is one expression over holes:

```text
expr    := unary (operator unary)*
unary   := ('!' | '-') unary | postfix
postfix := primary ('.' ident | '[' expr ']' | '(' args ')')*
primary := hole | ident | constant | 'new' member ('(' args ')')?
         | '(' expr ')' | '[' args ']' | '{' fields '}'
member  := primary ('.' ident | '[' expr ']')*
```

Operators associate to the left and bind by their level. Every function returns
the tokens it leaves together with the proof that they are fewer, which is why
the recursion ends.
-/

namespace Memberwise

/-- How tightly an operator binds, from 1 for the loosest. -/
def BinaryOp.level : BinaryOp → Nat
  | or => 1
  | and => 2
  | eq | ne | strictEq | strictNe => 3
  | lt | le | gt | ge => 4
  | add | sub => 5
  | mul | div | mod => 6

namespace Template

/-- A value read from tokens, with fewer than `bound` tokens left. -/
structure Reading (α : Type) (bound : Nat) where
  value : α
  rest : List Token
  shorter : rest.length < bound

/-- What a template is read against: its slots and the column after its end. -/
structure Setting where
  slots : Slots
  stop : Nat

/-- The error at the first of the tokens at hand when something else was needed. -/
def Setting.expected (s : Setting) (what : String) : List Token → Error
  | [] => ⟨.expected what none, s.stop⟩
  | token :: _ => ⟨.expected what (some token.kind), token.column⟩

/-- The tokens after a mark, if the first one is that mark. -/
def takeMark? (mark : Mark) : (tokens : List Token) → Option (Reading Unit tokens.length)
  | [] => none
  | token :: rest => if token.kind = .mark mark then some ⟨(), rest, by simp⟩ else none

/-- The key of a field, if the first token can be one. -/
def takeKey? : (tokens : List Token) → Option (Reading String tokens.length)
  | ⟨.ident name, _, _⟩ :: rest => some ⟨name, rest, by simp⟩
  | ⟨.string name, _, _⟩ :: rest => some ⟨name, rest, by simp⟩
  | _ => none

/-- A name after a point: it extends a path, and reads a field of anything else. -/
def select : Expr → String → Expr
  | .global path, name => .global (path ++ "." ++ name)
  | target, name => .field target name

/-- The expression that a token is by itself. -/
def atom? (s : Setting) (column : Nat) : TokenKind → Option (Except Error Expr)
  | .hole name =>
    match s.slots.resolve name with
    | .error cause => some (.error ⟨cause, column⟩)
    | .ok index => some (.ok (.hole index))
  | .ident name => some (.ok (.global name))
  | .int value => some (.ok (.int value))
  | .float value => some (.ok (.literal (.float value)))
  | .string value => some (.ok (.string value))
  | .keyword .yes => some (.ok (.literal (.bool true)))
  | .keyword .no => some (.ok (.literal (.bool false)))
  | .keyword .null => some (.ok .null)
  | .keyword .undefined => some (.ok .undefined)
  | _ => none

/-- Reads an operand that is one token. -/
def readAtom (s : Setting) : (tokens : List Token) → Except Error (Reading Expr tokens.length)
  | [] => .error (s.expected "expression" [])
  | token :: rest =>
    match atom? s token.column token.kind with
    | none => .error (s.expected "expression" (token :: rest))
    | some (.error e) => .error e
    | some (.ok value) => .ok ⟨value, rest, by simp⟩

mutual

/-- Reads operands joined by operators of at least the given level. -/
def readExpr (s : Setting) (level : Nat) (tokens : List Token) :
    Except Error (Reading Expr tokens.length) :=
  match readUnary s tokens with
  | .error e => .error e
  | .ok ⟨left, rest, _⟩ =>
    match readOperators s level left rest with
    | .error e => .error e
    | .ok ⟨value, rest, _⟩ => .ok ⟨value, rest, by omega⟩
termination_by (tokens.length, 2)

/-- Reads the operators of at least the given level that follow a left operand. -/
def readOperators (s : Setting) (level : Nat) (left : Expr) (tokens : List Token) :
    Except Error (Reading Expr (tokens.length + 1)) :=
  match tokens with
  | ⟨.operator op, text, column⟩ :: rest =>
    if op.level < level then .ok ⟨left, ⟨.operator op, text, column⟩ :: rest, by simp⟩
    else
      match readExpr s (op.level + 1) rest with
      | .error e => .error e
      | .ok ⟨right, rest, _⟩ =>
        match readOperators s level (.binary op left right) rest with
        | .error e => .error e
        | .ok ⟨value, rest, _⟩ => .ok ⟨value, rest, by simp only [List.length_cons]; omega⟩
  | tokens => .ok ⟨left, tokens, by omega⟩
termination_by (tokens.length, 0)

/-- Reads an operand with the signs in front of it. -/
def readUnary (s : Setting) (tokens : List Token) :
    Except Error (Reading Expr tokens.length) :=
  match tokens with
  | ⟨.mark .bang, _, _⟩ :: rest =>
    match readUnary s rest with
    | .error e => .error e
    | .ok ⟨operand, rest, _⟩ =>
      .ok ⟨.unary .not operand, rest, by simp only [List.length_cons]; omega⟩
  | ⟨.operator .sub, _, _⟩ :: rest =>
    match readUnary s rest with
    | .error e => .error e
    | .ok ⟨operand, rest, _⟩ =>
      .ok ⟨.unary .neg operand, rest, by simp only [List.length_cons]; omega⟩
  | tokens =>
    match readPrimary s tokens with
    | .error e => .error e
    | .ok ⟨value, rest, _⟩ =>
      match readPostfix s true value rest with
      | .error e => .error e
      | .ok ⟨value, rest, _⟩ => .ok ⟨value, rest, by omega⟩
termination_by (tokens.length, 1)

/-- Reads what may follow an operand: members, items and, where allowed, calls. -/
def readPostfix (s : Setting) (calls : Bool) (target : Expr) (tokens : List Token) :
    Except Error (Reading Expr (tokens.length + 1)) :=
  match tokens with
  | ⟨.mark .dot, _, _⟩ :: rest =>
    match rest with
    | ⟨.ident name, _, _⟩ :: rest =>
      match readPostfix s calls (select target name) rest with
      | .error e => .error e
      | .ok ⟨value, rest, _⟩ => .ok ⟨value, rest, by simp only [List.length_cons]; omega⟩
    | rest => .error (s.expected "member name" rest)
  | ⟨.mark .lbracket, _, _⟩ :: rest =>
    match readExpr s 0 rest with
    | .error e => .error e
    | .ok ⟨key, rest, _⟩ =>
      match takeMark? .rbracket rest with
      | none => .error (s.expected "']'" rest)
      | some ⟨_, rest, _⟩ =>
        match readPostfix s calls (.item target key) rest with
        | .error e => .error e
        | .ok ⟨value, rest, _⟩ => .ok ⟨value, rest, by simp only [List.length_cons]; omega⟩
  | ⟨.mark .lparen, text, column⟩ :: rest =>
    if calls then
      match readList s .rparen rest with
      | .error e => .error e
      | .ok ⟨args, rest, _⟩ =>
        match readPostfix s calls (.apply target args) rest with
        | .error e => .error e
        | .ok ⟨value, rest, _⟩ => .ok ⟨value, rest, by simp only [List.length_cons]; omega⟩
    else .ok ⟨target, ⟨.mark .lparen, text, column⟩ :: rest, by simp⟩
  | tokens => .ok ⟨target, tokens, by omega⟩
termination_by (tokens.length, 0)

/-- Reads an operand without signs and without what may follow it. -/
def readPrimary (s : Setting) (tokens : List Token) :
    Except Error (Reading Expr tokens.length) :=
  match tokens with
  | ⟨.keyword .new, _, _⟩ :: rest =>
    match readPrimary s rest with
    | .error e => .error e
    | .ok ⟨base, rest, _⟩ =>
      match readPostfix s false base rest with
      | .error e => .error e
      | .ok ⟨constructor, rest, _⟩ =>
        match takeMark? .lparen rest with
        | none => .ok ⟨.new constructor [], rest, by simp only [List.length_cons]; omega⟩
        | some ⟨_, rest, _⟩ =>
          match readList s .rparen rest with
          | .error e => .error e
          | .ok ⟨args, rest, _⟩ =>
            .ok ⟨.new constructor args, rest, by simp only [List.length_cons]; omega⟩
  | ⟨.mark .lparen, _, _⟩ :: rest =>
    match readExpr s 0 rest with
    | .error e => .error e
    | .ok ⟨value, rest, _⟩ =>
      match takeMark? .rparen rest with
      | none => .error (s.expected "')'" rest)
      | some ⟨_, rest, _⟩ => .ok ⟨value, rest, by simp only [List.length_cons]; omega⟩
  | ⟨.mark .lbracket, _, _⟩ :: rest =>
    match readList s .rbracket rest with
    | .error e => .error e
    | .ok ⟨items, rest, _⟩ =>
      .ok ⟨.array items, rest, by simp only [List.length_cons]; omega⟩
  | ⟨.mark .lbrace, _, _⟩ :: rest =>
    match readFields s rest with
    | .error e => .error e
    | .ok ⟨fields, rest, _⟩ =>
      .ok ⟨.object fields, rest, by simp only [List.length_cons]; omega⟩
  | tokens => readAtom s tokens
termination_by (tokens.length, 0)

/-- Reads expressions between commas up to a closing mark; there may be none. -/
def readList (s : Setting) (close : Mark) (tokens : List Token) :
    Except Error (Reading (List Expr) tokens.length) :=
  match takeMark? close tokens with
  | some ⟨_, rest, h⟩ => .ok ⟨[], rest, h⟩
  | none => readItems s close tokens
termination_by (tokens.length, 4)

/-- Reads at least one expression up to a closing mark. -/
def readItems (s : Setting) (close : Mark) (tokens : List Token) :
    Except Error (Reading (List Expr) tokens.length) :=
  match readExpr s 0 tokens with
  | .error e => .error e
  | .ok ⟨item, rest, _⟩ =>
    match takeMark? close rest with
    | some ⟨_, rest, _⟩ => .ok ⟨[item], rest, by omega⟩
    | none =>
      match takeMark? .comma rest with
      | none => .error (s.expected "',' or closing bracket" rest)
      | some ⟨_, rest, _⟩ =>
        match readItems s close rest with
        | .error e => .error e
        | .ok ⟨items, rest, _⟩ => .ok ⟨item :: items, rest, by omega⟩
termination_by (tokens.length, 3)

/-- Reads the fields of an object after its opening brace; there may be none. -/
def readFields (s : Setting) (tokens : List Token) :
    Except Error (Reading (List (String × Expr)) tokens.length) :=
  match takeMark? .rbrace tokens with
  | some ⟨_, rest, h⟩ => .ok ⟨[], rest, h⟩
  | none => readMoreFields s tokens
termination_by (tokens.length, 1)

/-- Reads at least one field of an object. -/
def readMoreFields (s : Setting) (tokens : List Token) :
    Except Error (Reading (List (String × Expr)) tokens.length) :=
  match takeKey? tokens with
  | none => .error (s.expected "field name" tokens)
  | some ⟨key, rest, _⟩ =>
    match takeMark? .colon rest with
    | none => .error (s.expected "':'" rest)
    | some ⟨_, rest, _⟩ =>
      match readExpr s 0 rest with
      | .error e => .error e
      | .ok ⟨value, rest, _⟩ =>
        match takeMark? .rbrace rest with
        | some ⟨_, rest, _⟩ => .ok ⟨[(key, value)], rest, by omega⟩
        | none =>
          match takeMark? .comma rest with
          | none => .error (s.expected "',' or '\x7d'" rest)
          | some ⟨_, rest, _⟩ =>
            match readMoreFields s rest with
            | .error e => .error e
            | .ok ⟨fields, rest, _⟩ => .ok ⟨(key, value) :: fields, rest, by omega⟩
termination_by (tokens.length, 0)

end

/-- Reads tokens as one expression, up to their end. -/
def parseTokens (slots : Slots) (tokens : Tokens) : Except Error Expr :=
  let s : Setting := ⟨slots, tokens.stop⟩
  match readExpr s 0 tokens.list with
  | .error e => .error e
  | .ok ⟨value, rest, _⟩ =>
    if rest.isEmpty then .ok value else .error (s.expected "end of template" rest)

/-- Reads a template as an expression over holes. -/
def parse (slots : Slots) (code : String) : Except Error Expr :=
  match tokenize code with
  | .error e => .error e
  | .ok tokens => parseTokens slots tokens

/-- Reads the template of a member that stands at a span of the source. -/
def parseAt (slots : Slots) (code : String) (span : Span) : Except CompileError Expr :=
  match parse slots code with
  | .error e =>
    .error (.malformedTemplate code s!"{e.message} (column {e.column})" (span.shifted e.column 1))
  | .ok value => .ok value

end Template

end Memberwise
