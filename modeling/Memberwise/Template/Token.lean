import Memberwise.Source.Expr

/-!
# Tokens of templates

The pieces that a template is made of, how they are spelled and how messages
speak of them.
-/

namespace Memberwise.Template

/-- The words with a meaning of their own. -/
inductive Keyword where
  | yes | no | null | undefined | new
deriving DecidableEq, Repr, Inhabited

def Keyword.spelling : Keyword → String
  | yes => "true"
  | no => "false"
  | null => "null"
  | undefined => "undefined"
  | new => "new"

/-- All keywords. -/
def Keyword.all : List Keyword := [yes, no, null, undefined, new]

/-- The marks that are no binary operators. -/
inductive Mark where
  | dot | comma | colon | lparen | rparen | lbracket | rbracket | lbrace | rbrace | bang
deriving DecidableEq, Repr, Inhabited

def Mark.spelling : Mark → String
  | dot => "."
  | comma => ","
  | colon => ":"
  | lparen => "("
  | rparen => ")"
  | lbracket => "["
  | rbracket => "]"
  | lbrace => "\x7b"
  | rbrace => "\x7d"
  | bang => "!"

/-- What a token is, with the value of names and constants. -/
inductive TokenKind where
  | ident (name : String)
  /-- A dollar sign and a name, which is given here without the sign. -/
  | hole (name : String)
  | int (value : Int64)
  | float (value : Float)
  | string (value : String)
  | keyword (word : Keyword)
  | mark (mark : Mark)
  | operator (op : BinaryOp)
deriving DecidableEq, Inhabited

/-- How messages speak of a token. -/
def TokenKind.describe : TokenKind → String
  | ident name => s!"identifier '{name}'"
  | hole name => s!"'${name}'"
  | int value => "number " ++ toString value.toInt
  | float value => "number " ++ Number.text value
  | string _ => "string"
  | keyword word => s!"'{word.spelling}'"
  | mark m => s!"'{m.spelling}'"
  | operator op => s!"'{op.spelling}'"

/-- A token with the text it was read from and the column where that text starts. -/
structure Token where
  kind : TokenKind
  text : List Char
  /-- Counts bytes from one.  Templates are shorter than 4 GiB, so that 32 bits are enough. -/
  column : Nat
deriving Inhabited

/-- The tokens of a template and the column after its last character. -/
structure Tokens where
  list : List Token
  stop : Nat
deriving Inhabited

end Memberwise.Template
