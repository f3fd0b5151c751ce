import Memberwise.Source.Span

/-!
# Diagnostics

Errors and warnings that a compilation reports. Nothing stops at the first one:
a report is the list of all of them, in the order they arose, each with the
file that was being compiled.
-/

namespace Memberwise

/-- The kinds of diagnostics. -/
inductive DiagnosticKind where
  | attributeConflict
  | illegalTreatment
  | duplicateType
  | misplacedOptional
  | malformedTemplate
  | unusableBody
  | duplicateMember
  | nameCollision
  | publicProxy
  | reflectedDefinition
deriving DecidableEq, Repr, Inhabited

/-- The name of a kind in reports. -/
def DiagnosticKind.text : DiagnosticKind → String
  | attributeConflict => "attribute conflict"
  | illegalTreatment => "illegal kind for slot"
  | duplicateType => "duplicate type definition"
  | misplacedOptional => "invalid optional field usage"
  | malformedTemplate => "parse failure"
  | unusableBody => "translation failure"
  | duplicateMember => "duplicate member"
  | nameCollision => "name collision"
  | publicProxy => "public proxy"
  | reflectedDefinition => "reflected definition"

/-- A reason for which a declaration cannot be compiled. -/
inductive CompileError where
  /-- Two attributes ask for different treatments. -/
  | attributeConflict (member message : String) (span : Span)
  /-- The member stands in a place where its treatment is impossible. -/
  | illegalTreatment (treatment member reason : String) (span : Span)
  | duplicateType (name : String) (span : Span)
  /-- An optional field that is no property. -/
  | misplacedOptional (member : String) (span : Span)
  | malformedTemplate (template message : String) (span : Span)
  /-- The source body is missing or cannot be emitted. -/
  | unusableBody (member message : String) (span : Span)
  | duplicateMember (owner member : String) (span : Span)
  /-- An explicit output name is taken. -/
  | nameCollision (name scope : String) (span : Span)
deriving DecidableEq, Repr, Inhabited

namespace CompileError

def kind : CompileError → DiagnosticKind
  | attributeConflict .. => .attributeConflict
  | illegalTreatment .. => .illegalTreatment
  | duplicateType .. => .duplicateType
  | misplacedOptional .. => .misplacedOptional
  | malformedTemplate .. => .malformedTemplate
  | unusableBody .. => .unusableBody
  | duplicateMember .. => .duplicateMember
  | nameCollision .. => .nameCollision

def span : CompileError → Span
  | attributeConflict _ _ span => span
  | illegalTreatment _ _ _ span => span
  | duplicateType _ span => span
  | misplacedOptional _ span => span
  | malformedTemplate _ _ span => span
  | unusableBody _ _ span => span
  | duplicateMember _ _ span => span
  | nameCollision _ _ span => span

/-- What is wrong, without the place. -/
def complaint : CompileError → String
  | attributeConflict member message _ => s!"conflicting attributes on '{member}': {message}"
  | illegalTreatment treatment member reason _ =>
    s!"'{treatment}' is not allowed on '{member}': {reason}"
  | duplicateType name _ => s!"duplicate definition of type '{name}'"
  | misplacedOptional member _ =>
    s!"'OptionalField' can only be used on property getters and setters, not '{member}'"
  | malformedTemplate template message _ => s!"cannot parse code template '{template}': {message}"
  | unusableBody member message _ => s!"cannot translate '{member}': {message}"
  | duplicateMember owner member _ => s!"member '{member}' is already defined on '{owner}'"
  | nameCollision name scope _ => s!"explicit name '{name}' is already used in {scope}"

/-- The place and what is wrong there. -/
def message (e : CompileError) : String := s!"at {e.span.text}: {e.complaint}"

end CompileError

/-- Something that compiles and should be looked at. -/
inductive CompileWarning where
  | publicProxy (name : String) (span : Span)
  | reflectedDefinition (name : String) (span : Span)
deriving DecidableEq, Repr, Inhabited

namespace CompileWarning

def kind : CompileWarning → DiagnosticKind
  | publicProxy .. => .publicProxy
  | reflectedDefinition .. => .reflectedDefinition

def span : CompileWarning → Span
  | publicProxy _ span => span
  | reflectedDefinition _ span => span

/-- The place and what to look at there. -/
def message : CompileWarning → String
  | publicProxy name span => s!"at {span.text}: proxy type '{name}' should not be public"
  | reflectedDefinition name span =>
    s!"at {span.text}: compiling '{name}' from its reflected definition"

end CompileWarning

/-- How grave a diagnostic is. -/
inductive Severity where
  | error
  | warning
deriving DecidableEq, Repr, Inhabited

def Severity.text : Severity → String
  | error => "error"
  | warning => "warning"

/-- A reported error or warning. -/
structure Diagnostic where
  severity : Severity
  kind : DiagnosticKind
  message : String
  span : Span
  file : Option String
deriving DecidableEq, Repr, Inhabited

namespace Diagnostic

/-- The report of an error. -/
def ofError (e : CompileError) (file : Option String) : Diagnostic :=
  ⟨.error, e.kind, e.message, e.span, file⟩

/-- The report of a warning. -/
def ofWarning (w : CompileWarning) (file : Option String) : Diagnostic :=
  ⟨.warning, w.kind, w.message, w.span, file⟩

def isError (d : Diagnostic) : Bool := d.severity == .error

/-- A diagnostic as one line of a report. -/
def text (d : Diagnostic) : String :=
  let file := match d.file with
    | some file => file ++ ": "
    | none => ""
  file ++ d.severity.text ++ ": " ++ d.message

end Diagnostic

/-- The diagnostics of a compilation, in the order they arose. -/
structure Report where
  items : List Diagnostic := []
deriving DecidableEq, Repr, Inhabited

namespace Report

/-- Adds a diagnostic at the end. -/
def push (r : Report) (d : Diagnostic) : Report := ⟨r.items ++ [d]⟩

def errors (r : Report) : List Diagnostic := r.items.filter Diagnostic.isError

def warnings (r : Report) : List Diagnostic := r.items.filter fun d => !d.isError

def errorCount (r : Report) : Nat := r.errors.length

def warningCount (r : Report) : Nat := r.warnings.length

def hasErrors (r : Report) : Bool := 0 < r.errorCount

/-- The diagnostics of one kind. -/
def ofKind (r : Report) (kind : DiagnosticKind) : List Diagnostic :=
  r.items.filter fun d => d.kind = kind

/-- All diagnostics, one a line. -/
def text (r : Report) : String := "\n".intercalate (r.items.map Diagnostic.text)

end Report

end Memberwise
