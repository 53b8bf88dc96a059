import ComponentTemplate.Expr.Operator
import ComponentTemplate.Number.Binary64

/-!
# Expressions

The expressions that stand in tags, attributes and scripts. Every expression knows the
region of the source it was read from. Parentheses are not part of the tree.
-/

namespace ComponentTemplate

mutual

/-- **Expressions.** -/
inductive Expr where
  | identifier (span : Span) (name : String)
  | string (span : Span) (value raw : String)
  | number (span : Span) (value : Binary64) (raw : String)
  | boolean (span : Span) (value : Bool)
  | null (span : Span)
  | unary (span : Span) (op : UnaryOp) (argument : Expr)
  | binary (span : Span) (op : BinaryOp) (left right : Expr)
  | conditional (span : Span) (test consequent alternate : Expr)
  /-- A member, by its name or, if `computed`, by the value of an expression. -/
  | member (span : Span) (object property : Expr) (computed optional : Bool)
  | call (span : Span) (callee : Expr) (arguments : List Expr) (optional : Bool)
  | filter (span : Span) (subject : Expr) (name : String) (arguments : List Expr)
  | arrow (span : Span) (params : List Expr) (body : Expr)
  | assignment (span : Span) (op : AssignmentOp) (target value : Expr)
  /-- Counting up or down; the operator may be `leading` or stand after its argument. -/
  | update (span : Span) (op : UpdateOp) (leading : Bool) (argument : Expr)
  | array (span : Span) (elements : List Expr)
  | object (span : Span) (properties : List Property)

inductive Property where
  | mk (key value : Expr)

end

instance : Inhabited Expr := ⟨.null default⟩

namespace Property

def key : Property → Expr
  | mk key _ => key

def value : Property → Expr
  | mk _ value => value

end Property

namespace Expr

def span : Expr → Span
  | identifier span .. | string span .. | number span .. | boolean span .. | null span
  | unary span .. | binary span .. | conditional span .. | member span .. | call span ..
  | filter span .. | arrow span .. | assignment span .. | update span .. | array span ..
  | object span .. => span

def identifier? : Expr → Option String
  | identifier _ name => some name
  | _ => none

def isAssignable : Expr → Bool
  | identifier .. | member .. => true
  | _ => false

def isCall : Expr → Bool
  | call .. => true
  | _ => false

def isAssignment : Expr → Bool
  | assignment .. => true
  | _ => false

end Expr

mutual

/-- **A change of every region** in an expression, at every depth. -/
def Expr.mapSpans (f : Span → Span) : Expr → Expr
  | .identifier span name => .identifier (f span) name
  | .string span value raw => .string (f span) value raw
  | .number span value raw => .number (f span) value raw
  | .boolean span value => .boolean (f span) value
  | .null span => .null (f span)
  | .unary span op argument => .unary (f span) op (argument.mapSpans f)
  | .binary span op left right => .binary (f span) op (left.mapSpans f) (right.mapSpans f)
  | .conditional span test consequent alternate =>
    .conditional (f span) (test.mapSpans f) (consequent.mapSpans f) (alternate.mapSpans f)
  | .member span object property computed optional =>
    .member (f span) (object.mapSpans f) (property.mapSpans f) computed optional
  | .call span callee arguments optional =>
    .call (f span) (callee.mapSpans f) (Expr.mapSpansList f arguments) optional
  | .filter span subject name arguments =>
    .filter (f span) (subject.mapSpans f) name (Expr.mapSpansList f arguments)
  | .arrow span params body => .arrow (f span) (Expr.mapSpansList f params) (body.mapSpans f)
  | .assignment span op target value =>
    .assignment (f span) op (target.mapSpans f) (value.mapSpans f)
  | .update span op leading argument => .update (f span) op leading (argument.mapSpans f)
  | .array span elements => .array (f span) (Expr.mapSpansList f elements)
  | .object span properties => .object (f span) (Property.mapSpansList f properties)

def Expr.mapSpansList (f : Span → Span) : List Expr → List Expr
  | [] => []
  | e :: es => e.mapSpans f :: Expr.mapSpansList f es

def Property.mapSpansList (f : Span → Span) : List Property → List Property
  | [] => []
  | .mk key value :: ps =>
    .mk (key.mapSpans f) (value.mapSpans f) :: Property.mapSpansList f ps

end

end ComponentTemplate
