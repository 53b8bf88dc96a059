import ComponentTemplate.Component.Basic
import ComponentTemplate.Dump.Expr

/-!
# Dumps of components
-/

namespace ComponentTemplate

def ElementKind.dumpName : ElementKind → String
  | .regular => "Regular"
  | .title => "Title"
  | .component => "Component"
  | .specialSelf => "SpecialSelf"
  | .specialHead => "SpecialHead"
  | .specialElement => "SpecialElement"
  | .specialComponent => "SpecialComponent"

def DirectiveKind.dump : DirectiveKind → Dump
  | .cssClass => .word "Class"
  | .on => .word "On"
  | .use => .word "Use"
  | .bind => .word "Bind"
  | .transition => .wrap "Transition" (.word "Both")
  | .enter => .wrap "Transition" (.word "In")
  | .leave => .wrap "Transition" (.word "Out")

def Dump.expressionTag (e : Expr) : Dump :=
  .record "ExpressionTag" [("expression", e.dump)]

def AttributePart.dump : AttributePart → Dump
  | text data => .wrap "Text" (.quoted data)
  | tag span e => .wrap "ExpressionTag" (.spanned span (.expressionTag e))

def Dump.attributeValue : Option (List AttributePart) → Dump
  | none => .word "True"
  | some parts => .wrap "Parts" (.list (parts.map AttributePart.dump))

def Dump.expr? (e : Option Expr) : Dump :=
  .option (e.map Expr.dump)

/-- **An attribute as a dump.** -/
def Attribute.dump : Attribute → Dump
  | .plain span name value doubleQuotes =>
    .spanned span (.wrap "Plain" (.record "PlainAttribute"
      [("name", .quoted name), ("value", .attributeValue value),
        ("double_quotes", .bool doubleQuotes)]))
  | .spread span e => .spanned span (.wrap "Spread" e.dump)
  | .directive span kind name modifiers e =>
    .spanned span (.wrap "Directive" (.record "Directive"
      [("kind", kind.dump), ("name", .quoted name),
        ("modifiers", .list (modifiers.map Dump.quoted)), ("expression", .expr? e)]))

def Dump.fragment (nodes : List Dump) : Dump :=
  .record "Fragment" [("nodes", .list nodes)]

mutual

/-- **A node as a dump.** -/
def Node.dump : Node → Dump
  | .text span data => .spanned span (.wrap "Text" (.quoted data))
  | .comment span data => .spanned span (.wrap "Comment" (.quoted data))
  | .element span kind name attributes children =>
    .spanned span (.wrap "Element" (.record "Element"
      [("kind", .word kind.dumpName), ("name", .quoted name),
        ("attributes", .list (attributes.map Attribute.dump)),
        ("fragment", .fragment (Node.dumps children))]))
  | .expressionTag span e => .spanned span (.wrap "ExpressionTag" (.expressionTag e))
  | .htmlTag span e => .spanned span (.wrap "HtmlTag" e.dump)
  | .renderTag span e => .spanned span (.wrap "RenderTag" e.dump)
  | .variableTag span e => .spanned span (.wrap "VariableTag" e.dump)
  | .ifBlock span isBranch test consequent alternate =>
    .spanned span (.wrap "IfBlock" (.record "IfBlock"
      [("elseif", .bool isBranch), ("test", test.dump),
        ("consequent", .fragment (Node.dumps consequent)),
        ("alternate", Node.dumpFragment? alternate)]))
  | .forBlock span index name subject key body fallback =>
    .spanned span (.wrap "ForBlock" (.record "ForBlock"
      [("index", .expr? index), ("context", name.dump), ("expression", subject.dump),
        ("key", .expr? key), ("body", .fragment (Node.dumps body)),
        ("fallback", Node.dumpFragment? fallback)]))
  | .keyBlock span e body =>
    .spanned span (.wrap "KeyBlock" (.record "KeyBlock"
      [("expression", e.dump), ("fragment", .fragment (Node.dumps body))]))
  | .snippetBlock span name params body =>
    .spanned span (.wrap "SnippetBlock" (.record "SnippetBlock"
      [("name", .quoted name), ("parameters", .list (params.map Expr.dump)),
        ("body", .fragment (Node.dumps body))]))
  | .awaitBlock span e value error pending resolved rejected =>
    .spanned span (.wrap "AwaitBlock" (.record "AwaitBlock"
      [("expression", e.dump), ("value", .expr? value), ("error", .expr? error),
        ("pending", Node.dumpFragment? pending), ("then", Node.dumpFragment? resolved),
        ("catch", Node.dumpFragment? rejected)]))

def Node.dumps : List Node → List Dump
  | [] => []
  | node :: rest => node.dump :: Node.dumps rest

def Node.dumpFragment? : Option (List Node) → Dump
  | none => .option none
  | some nodes => .option (some (.fragment (Node.dumps nodes)))

end

def Import.dump (tag : Import) : Dump :=
  .spanned tag.span (.record "ImportTag"
    [("specifier", .quoted tag.specifier), ("source", .quoted tag.source)])

def ScriptBlock.dump (block : ScriptBlock) : Dump :=
  .spanned block.span (.record "ZsScript" [("body", .list (Statement.dumps block.body))])

def StyleBlock.dump (block : StyleBlock) : Dump :=
  .spanned block.span (.record "Style"
    [("attributes", .list (block.attributes.map Attribute.dump)), ("code", .quoted block.code),
      ("code_span", .span block.codeSpan)])

/-- **A component as a dump.** -/
def Component.dump (component : Component) : Dump :=
  .record "Root"
    [("imports", .list (component.imports.map Import.dump)),
      ("zs", .option (component.script.map ScriptBlock.dump)),
      ("fragment", .fragment (Node.dumps component.nodes)),
      ("css", .option (component.style.map StyleBlock.dump))]

end ComponentTemplate
