import ComponentTemplate.Dump.Tree
import ComponentTemplate.Number.Text
import ComponentTemplate.Script.Basic

/-!
# Dumps of expressions and scripts
-/

namespace ComponentTemplate

def UnaryOp.dumpName : UnaryOp → String
  | .not => "Not"
  | .minus => "Minus"
  | .plus => "Plus"

def BinaryOp.dumpName : BinaryOp → String
  | .or => "Or"
  | .pipePipe => "PipePipe"
  | .nullish => "Nullish"
  | .and => "And"
  | .ampAmp => "AmpAmp"
  | .equal => "Eq"
  | .notEqual => "NotEq"
  | .less => "Lt"
  | .greater => "Gt"
  | .lessEqual => "LtEq"
  | .greaterEqual => "GtEq"
  | .is _ => "Is"
  | .isIn _ => "In"
  | .range => "Range"
  | .concat => "Concat"
  | .add => "Add"
  | .sub => "Sub"
  | .mul => "Mul"
  | .div => "Div"
  | .rem => "Rem"

def AssignmentOp.dumpName : AssignmentOp → String
  | .assign => "Assign"
  | .add => "AddAssign"
  | .sub => "SubAssign"
  | .mul => "MulAssign"
  | .div => "DivAssign"
  | .concat => "ConcatAssign"

def UpdateOp.dumpName : UpdateOp → String
  | .increment => "Increment"
  | .decrement => "Decrement"

def BinaryOp.familyName : BinaryOp → String
  | .or | .pipePipe | .nullish | .and | .ampAmp => "Logical"
  | .is _ => "Is"
  | .isIn _ => "In"
  | .range => "Range"
  | _ => "Binary"

/-- **The name of a kind of expression.** -/
def Expr.kindName : Expr → String
  | .identifier .. => "Identifier"
  | .string .. => "StringLiteral"
  | .number .. => "NumericLiteral"
  | .boolean .. => "BooleanLiteral"
  | .null .. => "NullLiteral"
  | .unary .. => "Unary"
  | .binary _ op _ _ => op.familyName
  | .conditional .. => "Conditional"
  | .member .. => "Member"
  | .call .. => "Call"
  | .filter .. => "Filter"
  | .arrow .. => "ArrowFunction"
  | .assignment .. => "Assignment"
  | .update .. => "Update"
  | .array .. => "Array"
  | .object .. => "Object"

def BinaryOp.dumpFields (op : BinaryOp) (left right : Dump) : List (String × Dump) :=
  match op with
  | .is negated | .isIn negated => [("left", left), ("not", .bool negated), ("right", right)]
  | .range => [("from", left), ("to", right)]
  | op => [("operator", .word op.dumpName), ("left", left), ("right", right)]

mutual

/-- **An expression as a dump.** -/
def Expr.dump : Expr → Dump
  | .identifier span name => .spanned span (.wrap "Identifier" (.quoted name))
  | .string span value raw =>
    .spanned span (.record "StringLiteral" [("value", .quoted value), ("raw", .quoted raw)])
  | .number span value raw =>
    .spanned span (.record "NumericLiteral"
      [("value", .word (String.ofList value.dumpText)), ("raw", .quoted raw)])
  | .boolean span value => .spanned span (.wrap "BooleanLiteral" (.bool value))
  | .null span => .spanned span (.word "NullLiteral")
  | .unary span op argument =>
    .spanned span (.record "Unary"
      [("operator", .word op.dumpName), ("argument", argument.dump)])
  | .binary span op left right =>
    .spanned span (.record op.familyName (op.dumpFields left.dump right.dump))
  | .conditional span test consequent alternate =>
    .spanned span (.record "Conditional"
      [("test", test.dump), ("consequent", consequent.dump), ("alternate", alternate.dump)])
  | .member span object property computed optional =>
    .spanned span (.record "Member"
      [("object", object.dump), ("property", property.dump), ("computed", .bool computed),
        ("optional", .bool optional)])
  | .call span callee arguments optional =>
    .spanned span (.record "Call"
      [("callee", callee.dump), ("arguments", .list (Expr.dumps arguments)),
        ("optional", .bool optional)])
  | .filter span subject name arguments =>
    .spanned span (.record "Filter"
      [("subject", subject.dump), ("name", .quoted name),
        ("arguments", .list (Expr.dumps arguments))])
  | .arrow span params body =>
    .spanned span (.record "ArrowFunction"
      [("params", .list (Expr.dumps params)), ("body", body.dump)])
  | .assignment span op target value =>
    .spanned span (.record "Assignment"
      [("operator", .word op.dumpName), ("left", target.dump), ("right", value.dump)])
  | .update span op leading argument =>
    .spanned span (.record "Update"
      [("operator", .word op.dumpName), ("prefix", .bool leading),
        ("argument", argument.dump)])
  | .array span elements => .spanned span (.wrap "Array" (.list (Expr.dumps elements)))
  | .object span properties =>
    .spanned span (.wrap "Object" (.list (Property.dumps properties)))

def Expr.dumps : List Expr → List Dump
  | [] => []
  | e :: es => e.dump :: Expr.dumps es

def Property.dumps : List Property → List Dump
  | [] => []
  | .mk key value :: ps =>
    .record "Property" [("key", key.dump), ("value", value.dump)] :: Property.dumps ps

end

mutual

/-- **A statement as a dump.** -/
def Statement.dump : Statement → Dump
  | .expression span expr => .spanned span (.wrap "Expression" expr.dump)
  | .block span body => .spanned span (.wrap "Block" (.list (Statement.dumps body)))

def Statement.dumps : List Statement → List Dump
  | [] => []
  | statement :: rest => statement.dump :: Statement.dumps rest

end

end ComponentTemplate
