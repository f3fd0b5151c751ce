import Memberwise.Diagnostic
import Memberwise.Output.Method

/-!
# Emitted types

An emitted class is a list of members with pairwise different keys. Unions and
records also keep the shape of their values.
-/

namespace Memberwise

/-- What tells the members of a class apart. -/
inductive MemberKey where
  | method (signature : Signature)
  | constructor (signature : Signature)
  | field (name : String)
  | initializer
deriving DecidableEq, Repr, Inhabited

def MemberKey.text : MemberKey → String
  | method signature => signature.text
  | constructor signature => signature.text
  | field name => "field " ++ name
  | initializer => "static initializer"

/-- A field of a class. -/
structure Field where
  name : String
  type : Ty
  isStatic : Bool := false
  isOptional : Bool := false
deriving DecidableEq, Repr, Inhabited

/-- An emitted member. -/
inductive Member where
  | method (signature : Signature) (method : Method)
  | constructor (signature : Signature) (method : Method)
  | field (field : Field)
  | initializer (statements : List Statement)
deriving Inhabited

namespace Member

/-- What tells the member from the others of its class. -/
def key : Member → MemberKey
  | method signature _ => .method signature
  | constructor signature _ => .constructor signature
  | field f => .field f.name
  | initializer _ => .initializer

/-- The method or constructor that a member is. -/
def method? : Member → Option Method
  | method _ m => some m
  | constructor _ m => some m
  | _ => none

end Member

/-- What a class was declared as. -/
inductive ClassKind where
  | module
  | algebraic
  | ordinary
deriving DecidableEq, Repr, Inhabited

/-- A field of a union case. -/
structure CaseField where
  name : String
  type : Ty
  dateFormat : Option String
deriving DecidableEq, Repr, Inhabited

/-- How the values of a union case look. -/
inductive CaseForm where
  | constant (value : Literal)
  | null
  /-- An object with a tag and the fields. -/
  | tagged (fields : List CaseField)
deriving Inhabited

/-- A union case with its position and the form of its values. -/
structure CaseShape where
  name : String
  tag : Nat
  form : CaseForm
deriving Inhabited

/-- A field of a record and how it is stored. -/
structure RecordSlot where
  name : String
  type : Ty
  isOptional : Bool
  isMutable : Bool
  dateFormat : Option String
deriving DecidableEq, Repr, Inhabited

/-- The form of the values of an algebraic type. -/
inductive Shape where
  | union (cases : List CaseShape)
  | record (slots : List RecordSlot)
deriving Inhabited

/-- An emitted class. -/
structure ClassRecord where
  name : String
  id : Identity
  kind : ClassKind
  span : Span := {}
  base : Option Identity := none
  /-- The output name that was asked for. -/
  strongName : Option String := none
  isProxy : Bool := false
  requires : List Identity := []
  members : List Member := []
  shape : Option Shape := none
deriving Inhabited

namespace ClassRecord

/-- The keys of the members, in order. -/
def keys (c : ClassRecord) : List MemberKey := c.members.map Member.key

/-- Whether there is a member with a key. -/
def contains (c : ClassRecord) (key : MemberKey) : Bool := c.keys.contains key

/-- Adds a member at the end, unless its key is taken. -/
def add (c : ClassRecord) (member : Member) (span : Span) : Except CompileError ClassRecord :=
  if c.contains member.key then .error (.duplicateMember c.name member.key.text span)
  else .ok { c with members := c.members ++ [member] }

/-- A member that was added had a free key and stands at the end. -/
theorem add_ok {c c' : ClassRecord} {member : Member} {span : Span}
    (h : c.add member span = .ok c') :
    member.key ∉ c.keys ∧ c' = { c with members := c.members ++ [member] } := by
  unfold add at h
  split at h
  · cases h
  · next hfree =>
    cases h
    exact ⟨by simpa [contains] using hfree, rfl⟩

/-- Adds those members whose keys are free, one after the other. -/
def addFree (c : ClassRecord) (members : List Member) : ClassRecord :=
  members.foldl
    (fun c member =>
      if c.contains member.key then c else { c with members := c.members ++ [member] }) c

theorem addFree_append (c : ClassRecord) (l l' : List Member) :
    c.addFree (l ++ l') = (c.addFree l).addFree l' :=
  List.foldl_append

theorem mem_addFree {c : ClassRecord} {l : List Member} {member : Member}
    (h : member ∈ (c.addFree l).members) : member ∈ c.members ∨ member ∈ l := by
  induction l generalizing c with
  | nil => exact .inl h
  | cons first l ih =>
    rw [addFree, List.foldl_cons] at h
    rcases ih h with hc | hl
    · split at hc
      · exact .inl hc
      · rcases List.mem_append.mp hc with hc | hfirst
        · exact .inl hc
        · exact .inr (List.mem_singleton.mp hfirst ▸ List.mem_cons_self)
    · exact .inr (List.mem_cons_of_mem first hl)

theorem addFree_id (c : ClassRecord) (l : List Member) : (c.addFree l).id = c.id := by
  induction l generalizing c with
  | nil => rfl
  | cons member l ih =>
    rw [show (c.addFree (member :: l)) = (c.addFree [member]).addFree l from rfl, ih]
    simp only [addFree, List.foldl_cons, List.foldl_nil]
    split <;> rfl

/-- The method with a signature. -/
def method? (c : ClassRecord) (signature : Signature) : Option Method :=
  c.members.findSome? fun
    | .method s m => if s = signature then some m else none
    | _ => none

theorem mem_of_method? {c : ClassRecord} {signature : Signature} {r : Method}
    (h : c.method? signature = some r) : .method signature r ∈ c.members := by
  obtain ⟨member, hmember, heq⟩ := List.exists_of_findSome?_eq_some h
  split at heq
  · split at heq
    · next hsignature =>
      obtain rfl := Option.some.inj heq
      exact hsignature ▸ hmember
    · cases heq
  · cases heq

/-- A method is found where no two members before some others have the same key. -/
theorem method?_of_mem {c : ClassRecord} {l l' : List Member} (hmembers : c.members = l ++ l')
    (hnodup : (l.map Member.key).Nodup) {signature : Signature} {m : Method}
    (h : .method signature m ∈ l) : c.method? signature = some m := by
  unfold method?
  rw [hmembers]
  clear hmembers
  induction l with
  | nil => cases h
  | cons first l ih =>
    obtain ⟨hfirst, hrest⟩ := List.nodup_cons.mp hnodup
    rw [List.cons_append, List.findSome?_cons]
    rcases List.mem_cons.mp h with rfl | hlater
    · simp
    · have hkey : first.key ≠ .method signature := by
        intro heq
        exact hfirst (heq ▸ List.mem_map_of_mem hlater)
      cases first with
      | method s _ =>
        have hne : s ≠ signature := fun heq => hkey (congrArg MemberKey.method heq)
        simpa [hne] using ih hrest hlater
      | _ => exact ih hrest hlater

/-- The constructor with a signature. -/
def constructor? (c : ClassRecord) (signature : Signature) : Option Method :=
  c.members.findSome? fun
    | .constructor s m => if s = signature then some m else none
    | _ => none

theorem mem_of_constructor? {c : ClassRecord} {signature : Signature} {r : Method}
    (h : c.constructor? signature = some r) : .constructor signature r ∈ c.members := by
  obtain ⟨member, hmember, heq⟩ := List.exists_of_findSome?_eq_some h
  split at heq
  · split at heq
    · next hsignature =>
      obtain rfl := Option.some.inj heq
      exact hsignature ▸ hmember
    · cases heq
  · cases heq

/-- The method with a name, if there is only one. -/
def methodNamed? (c : ClassRecord) (name : String) : Option Method :=
  let found := c.members.filterMap fun
    | .method s m => if s.name = name then some m else none
    | _ => none
  match found with
  | [m] => some m
  | _ => none

/-- The statements of the static initializer. -/
def initializer? (c : ClassRecord) : Option (List Statement) :=
  c.members.findSome? fun
    | .initializer statements => some statements
    | _ => none

theorem mem_of_initializer? {c : ClassRecord} {statements : List Statement}
    (h : c.initializer? = some statements) : .initializer statements ∈ c.members := by
  obtain ⟨member, hmember, heq⟩ := List.exists_of_findSome?_eq_some h
  split at heq
  · obtain rfl := Option.some.inj heq
    exact hmember
  · cases heq

theorem initializer?_append {c : ClassRecord} {l l' : List Member} (hmembers : c.members = l ++ l')
    (hl : ∀ member ∈ l, member.key ≠ .initializer) :
    c.initializer? = initializer? { c with members := l' } := by
  unfold initializer?
  rw [hmembers]
  clear hmembers
  induction l with
  | nil => rfl
  | cons first l ih =>
    obtain ⟨hfirst, hrest⟩ := List.forall_mem_cons.mp hl
    rw [List.cons_append, List.findSome?_cons]
    cases first with
    | initializer statements => exact absurd rfl hfirst
    | _ => exact ih hrest

/-- The fields, in order. -/
def fields (c : ClassRecord) : List Field :=
  c.members.filterMap fun
    | .field f => some f
    | _ => none

end ClassRecord

/-- A method of an interface with the output name that was asked for. -/
structure InterfaceMethod where
  signature : Signature
  name : Option String
deriving DecidableEq, Repr, Inhabited

/-- An emitted interface. -/
structure InterfaceRecord where
  name : String
  id : Identity
  span : Span := {}
  strongName : Option String := none
  parents : List Identity := []
  methods : List InterfaceMethod := []
deriving DecidableEq, Repr, Inhabited

end Memberwise
