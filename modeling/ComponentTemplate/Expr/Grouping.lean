import ComponentTemplate.Expr.Basic

/-!
# Grouping

Expressions have no node for parentheses. They are put back where an expression is printed:
around a part that would otherwise be read as something else.
-/

namespace ComponentTemplate

/-- **The place of a part in an expression.** -/
inductive Slot where
  | left (op : BinaryOp)
  | right (op : BinaryOp)
  | test
  | head
  | argument (op : UnaryOp)
  | body
  | enclosed
  deriving DecidableEq, Repr

/-- Whether an expression is a choice, an assignment or an arrow function: these reach as far
to the right as they can. -/
def Expr.isOpenEnded : Expr → Bool
  | .conditional .. | .assignment .. | .arrow .. => true
  | _ => false

/-- **Whether a part is put in parentheses.** An operand of a binary operator is when it
binds less strongly than the operator, and on the right also when it binds as strongly. -/
def needsParens : Slot → Expr → Bool
  | .enclosed, _ => false
  | .body, .object .. => true
  | .body, _ => false
  | .test, e => e.isOpenEnded
  | .head, .unary .. | .head, .binary .. | .head, .update .. => true
  | .head, e => e.isOpenEnded
  | .argument _, .binary .. => true
  | .argument op, .unary _ inner _ => op ≠ .not && inner ≠ .not
  | .argument op, .update _ _ leading _ => op ≠ .not && leading
  | .argument _, e => e.isOpenEnded
  | .left op, .binary _ inner _ _ => inner.tier < op.tier
  | .left _, .update .. => true
  | .left _, e => e.isOpenEnded
  | .right op, .binary _ inner _ _ => inner.tier ≤ op.tier
  | .right _, e => e.isOpenEnded

/-- The tier of an expression, if it is an application of a binary operator. -/
def Expr.tier? : Expr → Option Nat
  | .binary _ op _ _ => some op.tier
  | _ => none

/-- An expression in its place: the expression itself, and whether it is put in
parentheses. -/
structure Grouping where
  expr : Expr
  parens : Bool

def Expr.inSlot (e : Expr) (slot : Slot) (parts : List Grouping) : List Grouping :=
  ⟨e, needsParens slot e⟩ :: parts

mutual

/-- **The parts of an expression**, at every depth, each before its own parts. -/
def Expr.parts : Expr → List Grouping
  | .identifier .. | .string .. | .number .. | .boolean .. | .null .. => []
  | .unary _ op argument => argument.inSlot (.argument op) argument.parts
  | .binary _ op left right =>
    left.inSlot (.left op) left.parts ++ right.inSlot (.right op) right.parts
  | .conditional _ test consequent alternate =>
    test.inSlot .test test.parts ++ consequent.inSlot .enclosed consequent.parts ++
      alternate.inSlot .enclosed alternate.parts
  | .member _ object property _ _ =>
    object.inSlot .head object.parts ++ property.inSlot .enclosed property.parts
  | .call _ callee arguments _ =>
    callee.inSlot .head callee.parts ++ Expr.partsList arguments
  | .filter _ subject _ arguments =>
    subject.inSlot .head subject.parts ++ Expr.partsList arguments
  | .arrow _ params body => Expr.partsList params ++ body.inSlot .body body.parts
  | .assignment _ _ target value =>
    target.inSlot .enclosed target.parts ++ value.inSlot .enclosed value.parts
  | .update _ _ _ argument => argument.inSlot .head argument.parts
  | .array _ elements => Expr.partsList elements
  | .object _ properties => Property.partsList properties

def Expr.partsList : List Expr → List Grouping
  | [] => []
  | e :: es => e.inSlot .enclosed e.parts ++ Expr.partsList es

def Property.partsList : List Property → List Grouping
  | [] => []
  | .mk key value :: ps =>
    key.inSlot .enclosed key.parts ++ value.inSlot .enclosed value.parts ++
      Property.partsList ps

end

/-- **The operands in an expression**, each in its slot. -/
def Expr.outline (e : Expr) : List Grouping :=
  e.inSlot .enclosed e.parts

end ComponentTemplate
