import Memberwise.Source.Literal
import Memberwise.Source.Signature

/-!
# Expressions

The bodies of members, before and after they are emitted. Source bodies name
their parameters; templates refer to the receiver and the arguments by holes.
-/

namespace Memberwise

/-- The operators with two operands. -/
inductive BinaryOp where
  | add | sub | mul | div | mod
  | eq | ne | strictEq | strictNe
  | lt | le | gt | ge
  | and | or
deriving DecidableEq, Repr, Inhabited

/-- How an operator is written. -/
def BinaryOp.spelling : BinaryOp → String
  | add => "+"
  | sub => "-"
  | mul => "*"
  | div => "/"
  | mod => "%"
  | eq => "=="
  | ne => "!="
  | strictEq => "==="
  | strictNe => "!=="
  | lt => "<"
  | le => "<="
  | gt => ">"
  | ge => ">="
  | and => "&&"
  | or => "||"

/-- The operators with one operand. -/
inductive UnaryOp where
  | not | neg
deriving DecidableEq, Repr, Inhabited

/-- An expression. -/
inductive Expr where
  | undefined
  /-- The receiver of an instance member. -/
  | self
  | literal (value : Literal)
  | var (name : String)
  /-- An argument of a template, by position. -/
  | hole (index : Nat)
  /-- A dotted path of the outside world. -/
  | global (path : String)
  | letIn (name : String) (value body : Expr)
  | lambda (params : List String) (body : Expr)
  | apply (function : Expr) (args : List Expr)
  /-- A call of a member, with a receiver if it is an instance member. -/
  | call (receiver : Option Expr) (method : MethodRef) (args : List Expr)
  | new (constructor : Expr) (args : List Expr)
  | field (target : Expr) (name : String)
  | setField (target : Expr) (name : String) (value : Expr)
  | item (target key : Expr)
  | static (owner : Identity) (name : String)
  | setStatic (owner : Identity) (name : String) (value : Expr)
  /-- Runs the static initializer of a type unless it has been started before. -/
  | start (owner : Identity)
  | ite (condition yes no : Expr)
  /-- Evaluates all items and has the value of the last. -/
  | seq (items : List Expr)
  | object (fields : List (String × Expr))
  | array (items : List Expr)
  | binary (op : BinaryOp) (left right : Expr)
  | unary (op : UnaryOp) (operand : Expr)
  /-- Stands for a body that could not be produced. -/
  | error (message : String)
deriving Inhabited

namespace Expr

def null : Expr := literal .null
def int (i : Int64) : Expr := literal (.int i)
def string (s : String) : Expr := literal (.string s)

mutual

/-- All parts of an expression in reading order, the expression itself first. -/
def subterms : Expr → List Expr
  | e@(letIn _ value body) => e :: (value.subterms ++ body.subterms)
  | e@(lambda _ body) => e :: body.subterms
  | e@(apply function args) => e :: (function.subterms ++ subtermsOfAll args)
  | e@(call none _ args) => e :: subtermsOfAll args
  | e@(call (some receiver) _ args) => e :: (receiver.subterms ++ subtermsOfAll args)
  | e@(new constructor args) => e :: (constructor.subterms ++ subtermsOfAll args)
  | e@(field target _) => e :: target.subterms
  | e@(setField target _ value) => e :: (target.subterms ++ value.subterms)
  | e@(item target key) => e :: (target.subterms ++ key.subterms)
  | e@(setStatic _ _ value) => e :: value.subterms
  | e@(ite condition yes no) => e :: (condition.subterms ++ yes.subterms ++ no.subterms)
  | e@(seq items) => e :: subtermsOfAll items
  | e@(object fields) => e :: subtermsOfFields fields
  | e@(array items) => e :: subtermsOfAll items
  | e@(binary _ left right) => e :: (left.subterms ++ right.subterms)
  | e@(unary _ operand) => e :: operand.subterms
  | e => [e]
termination_by structural e => e

/-- The parts of several expressions. -/
def subtermsOfAll : List Expr → List Expr
  | [] => []
  | e :: es => e.subterms ++ subtermsOfAll es
termination_by structural es => es

/-- The parts of the values of an object. -/
def subtermsOfFields : List (String × Expr) → List Expr
  | [] => []
  | (_, e) :: fields => e.subterms ++ subtermsOfFields fields
termination_by structural fields => fields

end

def isHole : Expr → Bool
  | hole _ => true
  | _ => false

/-- The message of an error node. -/
def error? : Expr → Option String
  | error message => some message
  | _ => none

end Expr

/-- A statement of a static initializer or of the entry point. -/
inductive Statement where
  | expr (e : Expr)
  /-- Stores a value in a static field of the type being initialized. -/
  | init (field : String) (value : Expr)
deriving Inhabited

end Memberwise
