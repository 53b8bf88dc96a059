import ComponentTemplate.Proofs.Derivation
import ComponentTemplate.Proofs.Lexing
import ComponentTemplate.Proofs.WholeNumber

/-!
# Expressions that are read

What reading guarantees of an expression beyond its shape: names are words, strings are how
they are written, numbers are values of literals, and only what can be assigned to is.
-/

namespace ComponentTemplate

def Expr.IsWord : Expr → Prop
  | .identifier _ name => isName name.toList = true
  | _ => False

def Expr.IsParam : Expr → Prop
  | .identifier _ name => isName name.toList = true ∧ name ∉ reserved
  | _ => False

def IsStringLiteral (value raw : String) : Prop :=
  IsQuoted raw.toList ∧ value = String.ofList (unquote raw.toList)

def Expr.IsKey : Expr → Prop
  | .identifier _ name => isName name.toList = true
  | .string _ value raw => IsStringLiteral value raw
  | .number _ value _ => value.Canonical
  | _ => False

mutual

/-- **What holds of every expression that is read.** -/
def Expr.WellFormed : Expr → Prop
  | .identifier _ name => isName name.toList = true ∧ name ∉ reserved
  | .string _ value raw => IsStringLiteral value raw
  | .number _ value _ => value.Canonical
  | .boolean .. | .null _ => True
  | .unary _ _ argument => argument.WellFormed
  | .binary _ _ left right => left.WellFormed ∧ right.WellFormed
  | .conditional _ test consequent alternate =>
    test.WellFormed ∧ consequent.WellFormed ∧ alternate.WellFormed
  | .member _ object property computed _ =>
    object.WellFormed ∧ if computed then property.WellFormed else property.IsWord
  | .call _ callee arguments _ => callee.WellFormed ∧ Expr.AllWellFormed arguments
  | .filter _ subject name arguments =>
    subject.WellFormed ∧ isName name.toList = true ∧ Expr.AllWellFormed arguments
  | .arrow _ params body => (∀ param ∈ params, param.IsParam) ∧ body.WellFormed
  | .assignment _ _ target value =>
    target.isAssignable = true ∧ target.WellFormed ∧ value.WellFormed
  | .update _ _ _ argument => argument.WellFormed
  | .array _ elements => Expr.AllWellFormed elements
  | .object _ properties => Property.AllWellFormed properties

def Expr.AllWellFormed : List Expr → Prop
  | [] => True
  | e :: es => e.WellFormed ∧ Expr.AllWellFormed es

def Property.AllWellFormed : List Property → Prop
  | [] => True
  | .mk key value :: ps => key.IsKey ∧ value.WellFormed ∧ Property.AllWellFormed ps

end

variable {t : Token} {e : Expr} {st st₁ : Stream}

lemma Token.isKey_of_literal? (ht : t.lexeme.IsSound) (h : t.literal? = some e) :
    e.IsKey ∧ e.WellFormed := by
  unfold literal? at h
  split at h
  · cases h
    exact ⟨Binary64.canonical_ofLiteral _, Binary64.canonical_ofLiteral _⟩
  · rename_i raw hlexeme
    cases h
    rw [hlexeme] at ht
    exact ⟨⟨ht, rfl⟩, ⟨ht, rfl⟩⟩
  · cases h

lemma Token.wellFormed_of_atom? (ht : t.lexeme.IsSound) (h : t.atom? = some e) : e.WellFormed := by
  unfold atom? at h
  split at h
  · cases h
    trivial
  · cases h
    trivial
  · cases h
    trivial
  · rename_i name _ _ _ hlexeme
    split at h
    · cases h
    · rename_i hfree
      cases h
      rw [hlexeme] at ht
      exact ⟨ht, hfree⟩
  · exact (isKey_of_literal? ht h).2

lemma Token.isKey_of_key? (ht : t.lexeme.IsSound) (h : t.key? = some e) : e.IsKey := by
  unfold key? at h
  split at h
  · rename_i name hlexeme
    cases h
    rw [hlexeme] at ht
    exact ht
  · exact (isKey_of_literal? ht h).1

lemma Stream.Next.isSound (h : st.Next st₁) : st₁.current.lexeme.IsSound :=
  (Token.readAt_spec h.read).1

lemma Stream.Operator.isSound (h : st.Operator op st₁) : st₁.current.lexeme.IsSound := by
  cases h with
  | single _ hnext _ => exact hnext.isSound
  | notIn _ hin => exact hin.next.isSound
  | isNot _ hnot => exact hnot.next.isSound

lemma Stream.Passes.isName {name : String} (h : st.Passes (.word name) st₁)
    (hsound : st.current.lexeme.IsSound) : isName name.toList = true := by
  rw [h.lexeme_eq] at hsound
  exact hsound

namespace Grammar

def Phrase.WellFormed : Phrase → Prop
  | .expression e | .choice e | .binary _ e | .unary e | .suffixed e | .primary e => e.WellFormed
  | .binaryRest _ left e => left.WellFormed → e.WellFormed
  | .suffixes _ head e | .optionalSuffix _ head e => head.WellFormed → e.WellFormed
  | .elements _ es => Expr.AllWellFormed es
  | .properties ps => Property.AllWellFormed ps
  | .params ps => ∀ param ∈ ps, param.IsParam

/-- **Phrases that have a derivation are well-formed**, and leave a sound token. -/
theorem wellFormed_of_derives (h : Derives phrase st st') (hsound : st.current.lexeme.IsSound) :
    phrase.WellFormed ∧ st'.current.lexeme.IsSound := by
  -- every part starts with a token that is read, so that it is enough to follow the streams
  induction h with
  | _ =>
    simp only [Phrase.WellFormed, Expr.WellFormed, Expr.AllWellFormed, Property.AllWellFormed,
      Expr.IsParam, Expr.IsWord] at *
    grind [Stream.Next.isSound, Stream.Operator.isSound, Stream.Passes.next, Stream.Passes.isName,
      Token.wellFormed_of_atom?, Token.isKey_of_key?, Expr.IsParam, Expr.IsWord]

end Grammar

end ComponentTemplate
