import ComponentTemplate.Proofs.Plain

/-!
# Normal forms of expressions

Printing and reading keeps an expression up to the places of its parts, the way its numbers are
written, and the quotes of keys that are words. The normal form of an expression forgets these.
-/

namespace ComponentTemplate

mutual

/-- **The normal form of an expression**, which forgets where it stands, how its numbers are
written, and the quotes of keys that are words. -/
@[simp]
def Expr.normal : Expr → Expr
  | .identifier _ name => .identifier default name
  | .string _ value raw => .string default value raw
  | .number _ value _ => .number default value ""
  | .boolean _ value => .boolean default value
  | .null _ => .null default
  | .unary _ op argument => .unary default op argument.normal
  | .binary _ op left right => .binary default op left.normal right.normal
  | .conditional _ test consequent alternate =>
    .conditional default test.normal consequent.normal alternate.normal
  | .member _ object property computed optional =>
    .member default object.normal property.normal computed optional
  | .call _ callee arguments optional =>
    .call default callee.normal (Expr.normals arguments) optional
  | .filter _ subject name arguments => .filter default subject.normal name (Expr.normals arguments)
  | .arrow _ params body => .arrow default (Expr.normals params) body.normal
  | .assignment _ op target value => .assignment default op target.normal value.normal
  | .update _ op leading argument => .update default op leading argument.normal
  | .array _ elements => .array default (Expr.normals elements)
  | .object _ properties => .object default (Property.normals properties)

@[simp]
def Expr.normals : List Expr → List Expr
  | [] => []
  | e :: es => e.normal :: Expr.normals es

/-- The normal forms of the entries of an object. A key is the word that it is, with quotes or
without. -/
@[simp]
def Property.normals : List Property → List Property
  | [] => []
  | .mk key value :: ps =>
    .mk ((key.bareKey?.map (Expr.identifier default)).getD key.normal) value.normal ::
      Property.normals ps

end

namespace Expr

/-- **The normal form keeps the parentheses** that an expression needs. -/
theorem needsParens_normal (slot : Slot) (e : Expr) :
    needsParens slot e.normal = needsParens slot e := by
  cases slot <;> cases e <;> rfl

lemma isAssignable_normal (e : Expr) : e.normal.isAssignable = e.isAssignable := by cases e <;> rfl

/-- **An expression is printed as another one**, and differs from it only in what the normal
form forgets. -/
structure Reprints (breaks breaks' : Breaks) (e e' : Expr) : Prop where
  normal : e'.normal = e.normal
  doc : e'.doc breaks' = e.doc breaks

variable {breaks breaks' : Breaks} {e e' : Expr}

lemma Reprints.needsParens_eq (h : Reprints breaks breaks' e e') (slot : Slot) :
    needsParens slot e' = needsParens slot e := by
  rw [← needsParens_normal, h.normal, needsParens_normal]

lemma Reprints.isAssignable_eq (h : Reprints breaks breaks' e e') :
    e'.isAssignable = e.isAssignable := by
  rw [← isAssignable_normal, h.normal, isAssignable_normal]

lemma Reprints.parens (h : Reprints breaks breaks' e e') (slot : Slot) :
    Doc.parens slot e' (e'.doc breaks') = Doc.parens slot e (e.doc breaks) := by
  rw [Doc.parens, Doc.parens, h.needsParens_eq, h.doc]

end Expr

end ComponentTemplate
