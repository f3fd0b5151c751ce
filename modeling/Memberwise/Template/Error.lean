import Memberwise.Template.Token

/-!
# Errors in templates

Why a template cannot be read, and the column that the error is reported at.
-/

namespace Memberwise.Template

/-- Why a template cannot be read. -/
inductive Cause where
  /-- A dollar sign without a name. -/
  | namelessHole
  | unterminatedString
  | unknownEscape (c : Char)
  | malformedExponent
  /-- An integer that does not fit into 64 bits. -/
  | integerTooLarge (digits : String)
  | unexpectedChar (c : Char)
  /-- Something else than the token at hand was needed; there is none at the end. -/
  | expected (what : String) (found : Option TokenKind)
  /-- The receiver of a member that has none. -/
  | noReceiver
  /-- A position that does not fit into 64 bits. -/
  | holeTooLarge (name : String)
  | holeOutOfRange (index arity : Nat)
  | unknownParameter (name : String)
deriving DecidableEq, Inhabited

def Cause.message : Cause → String
  | namelessHole => "expected hole name after '$'"
  | unterminatedString => "unterminated string"
  | unknownEscape c => "unknown escape '\\" ++ c.toString ++ "'"
  | malformedExponent => "malformed exponent"
  | integerTooLarge digits =>
    s!"invalid number '{digits}': number too large to fit in target type"
  | unexpectedChar c => s!"unexpected character '{c}'"
  | expected what found =>
    let token := match found with
      | some kind => kind.describe
      | none => "end of template"
    s!"expected {what}, found {token}"
  | noReceiver => "'$this' is not available in a static member"
  | holeTooLarge name => s!"invalid hole '${name}'"
  | holeOutOfRange index arity =>
    s!"'${index}' is out of range, the member has {arity} argument(s)"
  | unknownParameter name => s!"unknown parameter '${name}'"

/-- An error in a template. -/
structure Error where
  cause : Cause
  /-- Counts bytes from one.  Templates are shorter than 4 GiB, so that 32 bits are enough. -/
  column : Nat
deriving DecidableEq, Inhabited

def Error.message (e : Error) : String := e.cause.message

end Memberwise.Template
