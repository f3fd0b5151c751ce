import Mathlib
import Memberwise.Proofs.Subterms
import Memberwise.Proofs.TemplateGrammar

/-!
# What a template can contain

A template that was read is made of constants, paths, holes, reads, applications,
object and array expressions and operators.  Each of its holes refers to one of
the slots that the template was read against.
-/

namespace Memberwise

/-- The forms of expression that a template over so many slots is made of. -/
def Expr.InTemplate (arity : Nat) : Expr → Prop
  | hole index => index < arity
  | undefined | literal _ | global _ | apply .. | new .. | field .. | item .. | object _ | array _
  | binary .. | unary .. => True
  | _ => False

/-- An expression that is a template over so many slots. -/
abbrev Expr.IsTemplate (arity : Nat) (e : Expr) : Prop := e.Every (InTemplate arity)

namespace Template

theorem Slots.resolve_lt {s : Slots} {name : String} {index : Nat}
    (h : s.resolve name = .ok index) : index < s.arity := by
  unfold Slots.resolve at h
  split at h
  · split at h
    · next hreceiver =>
      obtain rfl := Except.ok.inj h
      simp [Slots.arity, Slots.offset, hreceiver]
    · cases h
  · split at h
    · dsimp only at h
      split at h
      · cases h
      · split at h
        · cases h
        · next hlt =>
          obtain rfl := Except.ok.inj h
          exact Nat.lt_of_not_le hlt
    · split at h
      · next i hi =>
        obtain rfl := Except.ok.inj h
        have hlt : i < s.params.length := (List.findIdx?_eq_some_iff_getElem.mp hi).1
        exact Nat.add_lt_add_right hlt s.offset
      · cases h

theorem isTemplate_of_plain? {kind : TokenKind} {e : Expr} (h : kind.plain? = some e)
    (arity : Nat) : e.IsTemplate arity := by
  cases kind with
  | keyword word => cases word <;> cases h <;> simp [Expr.InTemplate, Expr.null]
  | _ => cases h <;> simp [Expr.InTemplate, Expr.int, Expr.string]

theorem isTemplate_of_isAtom {slots : Slots} {kind : TokenKind} {e : Expr}
    (h : IsAtom slots kind e) : e.IsTemplate slots.arity := by
  rcases h with hresolve | hplain
  · exact (Expr.every_hole _).mpr (Slots.resolve_lt hresolve)
  · exact isTemplate_of_plain? hplain slots.arity

theorem isTemplate_of_derives {slots : Slots} {phrase : Phrase} {ts : List TokenKind} {e : Expr}
    (h : Derives slots phrase ts e) : e.IsTemplate slots.arity := by
  induction h with
  | binary _ _ _ ihleft ihright => simpa [Expr.InTemplate] using ⟨ihleft, ihright⟩
  | not _ ih | neg _ ih => simpa [Expr.InTemplate] using ih
  | tighter _ ih | operand _ ih | chain _ ih | bareNew _ ih | primary _ ih | parens _ ih => exact ih
  | extendPath => simp [Expr.InTemplate]
  | field _ _ _ ih => simpa [Expr.InTemplate] using ih
  | item _ _ ih ihkey => simpa [Expr.InTemplate] using ⟨ih, ihkey⟩
  | call _ _ ih ihargs | new _ _ ih ihargs => simpa [Expr.InTemplate] using ⟨ih, ihargs⟩
  | bare _ ih | bareOfBare _ ih => simpa [Expr.InTemplate] using ih
  | atom hatom => exact isTemplate_of_isAtom hatom
  | array _ ih => simpa [Expr.InTemplate] using ih
  | object _ _ ih => simpa [Expr.InTemplate] using ih

/-- What a text is read as is a template over the slots at hand. -/
theorem isTemplate_of_parse {slots : Slots} {code : String} {e : Expr}
    (h : parse slots code = .ok e) : e.IsTemplate slots.arity := by
  unfold parse at h
  split at h
  · cases h
  · exact isTemplate_of_derives (derives_of_parseTokens h)

theorem isTemplate_of_parseAt {slots : Slots} {code : String} {span : Span} {e : Expr}
    (h : parseAt slots code span = .ok e) : e.IsTemplate slots.arity := by
  unfold parseAt at h
  split at h
  · cases h
  · next hparse =>
    obtain rfl := Except.ok.inj h
    exact isTemplate_of_parse hparse

end Template

end Memberwise
