import ComponentTemplate.Expr.Grouping
import ComponentTemplate.Layout.Doc
import ComponentTemplate.Number.Text

/-!
# Printing expressions

Expressions are printed in one form. Only two things follow the source: choices, lists and
objects are spread over several lines if the author did so, and strings keep their quotes.
-/

namespace ComponentTemplate

/-- An operand, in parentheses if they are needed. -/
def Doc.parens (slot : Slot) (e : Expr) (doc : Doc) : Doc :=
  if needsParens slot e then "(" ++ doc ++ ")" else doc

/-- **A list or an object**: its entries on lines of their own with a comma after each, or
all on one line with commas between them. `pad` is written inside the brackets of the second
form. -/
def Doc.collection (opening closing pad : Doc) (broken : Bool) (entries : List Doc) : Doc :=
  if entries.isEmpty then opening ++ closing
  else if broken then
    opening ++ .nest (.concat (entries.map fun entry => Doc.line ++ entry ++ ",")) ++
      Doc.line ++ closing
  else opening ++ pad ++ .commas entries ++ pad ++ closing

/-- **A choice**, on three lines or on one. -/
def Doc.choice (broken : Bool) (test consequent alternate : Doc) : Doc :=
  if broken then
    test ++ .nest (Doc.line ++ "? " ++ consequent ++ Doc.line ++ ": " ++ alternate)
  else test ++ " ? " ++ consequent ++ " : " ++ alternate

/-- Whether the source breaks the line between the opening bracket of a list and its first
entry. -/
def brokenAfterBracket (breaks : Breaks) (span : Span) : List Expr → Bool
  | [] => false
  | first :: _ => breaks 1 (span.start + 1) first.span.start

/-- The key of an entry without its quotes, if it is a string that is one word. -/
def Expr.bareKey? : Expr → Option String
  | .string _ value _ => if isName value.toList then some value else none
  | _ => none

mutual

/-- **An expression as a document.** -/
def Expr.doc (breaks : Breaks) : Expr → Doc
  | .identifier _ name => name
  | .string _ _ raw => raw
  | .number _ value _ => String.ofList value.text
  | .boolean _ value => if value then "true" else "false"
  | .null _ => "null"
  | .unary _ op argument =>
    op.symbol ++ .onlyIf (op = .not) " " ++
      .parens (.argument op) argument (argument.doc breaks)
  | .binary _ op left right =>
    let pad := Doc.onlyIf (op ≠ .range) " "
    .parens (.left op) left (left.doc breaks) ++ pad ++ op.symbol ++ pad ++
      .parens (.right op) right (right.doc breaks)
  | .conditional _ test consequent alternate =>
    .choice (breaks 1 test.span.stop consequent.span.start)
      (.parens .test test (test.doc breaks)) (consequent.doc breaks) (alternate.doc breaks)
  | .member _ object property computed optional =>
    .parens .head object (object.doc breaks) ++
      match computed, optional with
      | true, true => "?.[" ++ property.doc breaks ++ "]"
      | true, false => "[" ++ property.doc breaks ++ "]"
      | false, true => "?." ++ property.doc breaks
      | false, false => "." ++ property.doc breaks
  | .call _ callee arguments optional =>
    .parens .head callee (callee.doc breaks) ++ .onlyIf optional "?." ++ "(" ++
      .commas (Expr.docs breaks arguments) ++ ")"
  | .filter _ subject name arguments =>
    .parens .head subject (subject.doc breaks) ++ "|" ++ name ++
      .onlyIf (!arguments.isEmpty) ("(" ++ .commas (Expr.docs breaks arguments) ++ ")")
  | .arrow _ params body =>
    "(" ++ .commas (Expr.docs breaks params) ++ ") => " ++
      .parens .body body (body.doc breaks)
  | .assignment _ op target value =>
    target.doc breaks ++ " " ++ op.symbol ++ " " ++ value.doc breaks
  | .update _ op leading argument =>
    let doc := Doc.parens .head argument (argument.doc breaks)
    if leading then op.symbol ++ doc else doc ++ op.symbol
  | .array span elements =>
    .collection "[" "]" .empty (brokenAfterBracket breaks span elements)
      (Expr.docs breaks elements)
  | .object span properties =>
    .collection "\x7b" "\x7d" " "
      (brokenAfterBracket breaks span (properties.map Property.key))
      (Property.docs breaks properties)

def Expr.docs (breaks : Breaks) : List Expr → List Doc
  | [] => []
  | e :: es => e.doc breaks :: Expr.docs breaks es

def Property.docs (breaks : Breaks) : List Property → List Doc
  | [] => []
  | .mk key value :: ps =>
    ((key.bareKey?.map Doc.text).getD (key.doc breaks) ++ ": " ++ value.doc breaks) ::
      Property.docs breaks ps

end

end ComponentTemplate
